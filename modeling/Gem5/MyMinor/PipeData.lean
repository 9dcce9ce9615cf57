import Gem5.MyMinor.DynInst

/-!
# `Gem5.MyMinor.PipeData`: the data between the pipeline stages

The model of `src/cpu/myminor/pipe_data.hh`, and the latches of `buffers.hh` that carry lines
and instruction packets. A bubble line or a bubble instruction packet is `none` on its latch.
A `BranchData` always is there: Fetch1 reads its `lvptIn*` fields also when the reason is
`NoBranch`.

No constructor of `BranchData` initialises the `lvptIn*` fields. The model's constructors
take their values as an argument, so a statement for all values covers every garbage.
-/

namespace Gem5.MyMinor

/-- `BranchData::Reason`. -/
inductive BranchReason where
  | noBranch
  | correctlyPredictedBranch
  | unpredictedBranch
  | branchPrediction
  | badlyPredictedBranchTarget
  | badlyPredictedBranch
  | suspendThread
  | interrupt
  | haltFetch
  deriving Repr, DecidableEq

/-- `BranchData::isStreamChange`. -/
def BranchReason.isStreamChange : BranchReason → Bool
  | .noBranch | .correctlyPredictedBranch => false
  | _ => true

/-- The `lvptIn*` fields of a `BranchData`: one call of `LVPT::updateTable`. -/
structure LvptIn where
  pc : Addr
  addr : Addr
  value : Word
  predict : Bool
  constant : Bool
  deriving Repr, DecidableEq, Inhabited

/-- `BranchData`. A missing thread is `InvalidThreadID`. The instruction is left out: only
the branch predictor reads it. -/
structure BranchData where
  reason : BranchReason
  threadId : Option ThreadID
  newStreamSeqNum : InstSeqNum
  newPredictionSeqNum : InstSeqNum
  target : PCState
  lvptIn : LvptIn
  deriving Repr, DecidableEq

namespace BranchData

/-- `BranchData()`, with the uninitialised fields given by `garbage`. -/
def bubble (garbage : LvptIn) : BranchData :=
  { reason := .noBranch, threadId := none, newStreamSeqNum := 0, newPredictionSeqNum := 0,
    target := { instAddr := 0, microPC := 0 }, lvptIn := garbage }

/-- `isBubble`. -/
def isBubble (b : BranchData) : Bool :=
  b.reason == .noBranch

/-- `isStreamChange`. -/
def isStreamChange (b : BranchData) : Bool :=
  b.reason.isStreamChange

end BranchData

/-- `ForwardLineData`. The bytes of the line are left to the decoder. -/
structure ForwardLineData where
  lineBaseAddr : Addr
  pc : PCState
  fetchAddr : Addr
  lineWidth : Nat
  lvptOut : LvptOut
  fault : Fault
  id : InstId
  deriving Repr, DecidableEq

/-- `isFault`. -/
def ForwardLineData.isFault (line : ForwardLineData) : Bool :=
  line.fault.isSome

/-- `ForwardInstData::isBubble`: an empty packet, or one that starts with a bubble. -/
def packetIsBubble : List DynInst → Bool
  | [] => true
  | inst :: _ => inst.isBubble

/-- A `ForwardInstData` that is not a bubble. Later entries may be bubbles. -/
structure ForwardInstData where
  threadId : ThreadID
  insts : List DynInst
  not_bubble : packetIsBubble insts = false

/-- The packet on a wire: `none` when `insts` is a bubble. -/
def ForwardInstData.ofInsts (tid : ThreadID) (insts : List DynInst) : Option ForwardInstData :=
  if h : packetIsBubble insts = false then some ⟨tid, insts, h⟩ else none

/-- The packet that a stage writes for the output `out`. It is sized to `width` before the
first instruction is written, so the rest of it are bubbles. -/
def ForwardInstData.sized (tid : ThreadID) (width : Nat) (out : List DynInst) :
    Option ForwardInstData :=
  ofInsts tid (out ++ List.replicate (width - out.length) .bubble)

/-- The instructions of a thread in a packet, without the bubbles. -/
def packetInsts (tid : ThreadID) : Option ForwardInstData → List DynInst
  | none => []
  | some p => if p.threadId = tid then p.insts.filter (!·.isBubble) else []

/-- What is inside a forward `Latch`, oldest first. A bubble is `none`. -/
abbrev ForwardLatch (α : Type) := List (Option α)

namespace ForwardLatch
variable {α : Type}

/-- The latch before the first cycle. -/
def new (delay : Nat) : ForwardLatch α :=
  List.replicate delay none

/-- What comes out of the latch this cycle. -/
def read (latch : ForwardLatch α) : Option α :=
  latch.head?.join

/-- The latch after a cycle in which `x` was written to it. -/
def write (latch : ForwardLatch α) (x : Option α) : ForwardLatch α :=
  latch.tail ++ [x]

end ForwardLatch

end Gem5.MyMinor
