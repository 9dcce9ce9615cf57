import Gem5.MyMinor.Types

/-!
# `Gem5.MyMinor.DynInst`: instruction identities and dynamic instructions

The model of `src/cpu/myminor/dyn_inst.hh`, restricted to what the value prediction, the
LSQ and the execute stage read. A `DynInst` holds the fields that are fixed once the
instruction has left Decode. Flags that Execute and the LSQ set later (`inLSQ`,
`inStoreBuffer`, `canEarlyIssue` and so on) live in the state of the component that sets
them. Trace records and register indices are left out.
-/

namespace Gem5.MyMinor

/-- `InstId`: the sequence numbers of a line or an instruction. -/
structure InstId where
  threadId : ThreadID
  streamSeqNum : InstSeqNum
  predictionSeqNum : InstSeqNum
  lineSeqNum : InstSeqNum
  fetchSeqNum : InstSeqNum
  execSeqNum : InstSeqNum
  deriving Repr, DecidableEq

/-- The default `InstId`: all numbers are 0. -/
def InstId.zero : InstId :=
  { threadId := 0, streamSeqNum := 0, predictionSeqNum := 0, lineSeqNum := 0,
    fetchSeqNum := 0, execSeqNum := 0 }

/-- `InstId::operator==`. The stream and prediction numbers are only asserted to agree. -/
def InstId.same (a b : InstId) : Bool :=
  a.threadId == b.threadId && a.lineSeqNum == b.lineSeqNum &&
    a.fetchSeqNum == b.fetchSeqNum && a.execSeqNum == b.execSeqNum

/-- `PCStateBase`: the address of the instruction and the micro-op number. -/
structure PCState where
  instAddr : Addr
  microPC : Nat
  deriving Repr, DecidableEq

/-- The flags of a `StaticInst` that the model reads. -/
structure StaticInst where
  isMacroop : Bool
  isLoad : Bool
  isStore : Bool
  isAtomic : Bool
  isPrefetch : Bool
  isDataPrefetch : Bool
  isFullMemBarrier : Bool
  deriving Repr, DecidableEq

/-- The `lvptOut*` fields of a line or an instruction: one answer of `LVPT::read`. -/
structure LvptOut where
  predict : Bool
  constant : Bool
  value : Word
  pc : Addr
  index : Nat
  addr : Addr
  counter : Nat
  deriving Repr, DecidableEq

/-- The default values of the `lvptOut*` fields. -/
def LvptOut.zero : LvptOut :=
  { predict := false, constant := false, value := 0, pc := 0, index := 0, addr := 0,
    counter := 0 }

/-- The flags of `nullStaticInstPtr`, the static instruction of a fetch fault. -/
def StaticInst.null : StaticInst :=
  { isMacroop := false, isLoad := false, isStore := false, isAtomic := false,
    isPrefetch := false, isDataPrefetch := false, isFullMemBarrier := false }

/-- `MyMinorDynInst`. A new one has no prediction. The target of a null pointer is `none`. -/
structure DynInst where
  staticInst : StaticInst
  id : InstId
  pc : PCState
  fault : Fault
  lvptOut : LvptOut
  predictedTaken : Bool := false
  predictedTarget : Option PCState := none
  deriving Repr, DecidableEq

namespace DynInst

/-- `MyMinorDynInst::bubble()`. -/
def bubble : DynInst :=
  { staticInst := .null, id := .zero, pc := ⟨0, 0⟩, fault := noFault, lvptOut := .zero }

variable (inst : DynInst)

/-- `isBubble`. -/
def isBubble : Bool :=
  inst.id.fetchSeqNum == 0

/-- `isFault`. -/
def isFault : Bool :=
  inst.fault.isSome

/-- `isInst`. -/
def isInst : Bool :=
  !inst.isBubble && !inst.isFault

end DynInst

end Gem5.MyMinor
