import Gem5.Lib.Run
import Mathlib.Algebra.Group.Nat.Defs

/-!
# `Gem5.MyMinor.Scoreboard`: the scoreboard of Execute

The model of `src/cpu/myminor/scoreboard.cc`, with the calls that `Execute::issue` and
`Execute::commit` make. The counters have 16 bits. The vectors are maps from their indices.
`inFlightInsts` is the queue of Execute, and the instructions leave it in order. `canInstIssue` only
reads the scoreboard: which instruction issues, and when, is left to the events of a run.
-/

namespace Gem5.MyMinor

open Function

/-- `RegClassType`. -/
inductive RegClass where
  | int | float | vec | vecElem | vecPred | cc | misc | invalid
  deriving Repr, DecidableEq

/-- `RegId`. -/
structure RegId where
  classValue : RegClass
  index : Nat
  deriving Repr, DecidableEq

/-- `RegId()`. -/
def RegId.none : RegId := { classValue := .invalid, index := 0 }

/-- The offsets that the constructor computes from the register classes of the ISA. -/
structure RegOffsets where
  floatRegOffset : Nat
  ccRegOffset : Nat
  vecRegOffset : Nat
  vecPredRegOffset : Nat
  deriving Repr, DecidableEq

/-- `findIndex`. -/
def RegOffsets.findIndex (o : RegOffsets) (reg : RegId) : Option (BitVec 16) :=
  match reg.classValue with
  | .int => some (BitVec.ofNat 16 reg.index)
  | .float => some (BitVec.ofNat 16 (o.floatRegOffset + reg.index))
  | .vec | .vecElem => some (BitVec.ofNat 16 (o.vecRegOffset + reg.index))
  | .vecPred => some (BitVec.ofNat 16 (o.vecPredRegOffset + reg.index))
  | .cc => some (BitVec.ofNat 16 (o.ccRegOffset + reg.index))
  | .misc | .invalid => none

/-- What the scoreboard reads of an instruction. `noOpClass` is set for `No_OpClass`. -/
structure IssuedInst where
  execSeqNum : Nat
  isFault : Bool
  memRef : Bool
  noOpClass : Bool
  destRegIdx : List RegId
  deriving Repr, DecidableEq

def IssuedInst.isMemRef (inst : IssuedInst) : Bool := !inst.isFault && inst.memRef

def IssuedInst.isNoCostInst (inst : IssuedInst) : Bool := !inst.isFault && inst.noOpClass

/-- `Scoreboard`. -/
structure Scoreboard where
  numResults : BitVec 16 → BitVec 16
  numUnpredictableResults : BitVec 16 → BitVec 16
  fuIndices : BitVec 16 → Int
  returnCycle : BitVec 16 → Nat
  writingInst : BitVec 16 → Nat

namespace Scoreboard

/-- `Scoreboard::Scoreboard`. -/
def new : Scoreboard :=
  { numResults := fun _ => 0, numUnpredictableResults := fun _ => 0, fuIndices := fun _ => -1
    returnCycle := fun _ => 0, writingInst := fun _ => 0 }

/-- The body of the loop of `markupInstDests` for a destination with an index. -/
def markIndex (execSeqNum fuIndex retireTime : Nat) (markUnpredictable : Bool) (sb : Scoreboard)
    (index : BitVec 16) : Scoreboard :=
  let newer := sb.writingInst index < execSeqNum
  { numResults := update sb.numResults index (sb.numResults index + 1)
    numUnpredictableResults :=
      if markUnpredictable then
        update sb.numUnpredictableResults index (sb.numUnpredictableResults index + 1)
      else sb.numUnpredictableResults
    fuIndices := if newer then update sb.fuIndices index fuIndex else sb.fuIndices
    returnCycle := update sb.returnCycle index retireTime
    writingInst := if newer then update sb.writingInst index execSeqNum
      else sb.writingInst }

/-- `markupInstDests` on the flat destinations of an instruction that is no fault. -/
def markup (o : RegOffsets) (sb : Scoreboard) (execSeqNum fuIndex retireTime : Nat)
    (markUnpredictable : Bool) (regs : List RegId) : Scoreboard :=
  (regs.filterMap o.findIndex).foldl (markIndex execSeqNum fuIndex retireTime markUnpredictable) sb

/-- The body of the loop of `clearInstDests` for a destination with an index. -/
def clearIndex (clearUnpredictable : Bool) (sb : Scoreboard) (index : BitVec 16) : Scoreboard :=
  let last := sb.numResults index - 1 = 0
  { numResults := update sb.numResults index (sb.numResults index - 1)
    numUnpredictableResults :=
      if clearUnpredictable && sb.numUnpredictableResults index != 0 then
        update sb.numUnpredictableResults index (sb.numUnpredictableResults index - 1)
      else sb.numUnpredictableResults
    fuIndices := if last then update sb.fuIndices index (-1) else sb.fuIndices
    returnCycle := if last then update sb.returnCycle index 0 else sb.returnCycle
    writingInst := if last then update sb.writingInst index 0 else sb.writingInst }

/-- `clearInstDests` on the flat destinations of an instruction that is no fault. -/
def clear (o : RegOffsets) (sb : Scoreboard) (clearUnpredictable : Bool) (regs : List RegId) :
    Scoreboard :=
  (regs.filterMap o.findIndex).foldl (clearIndex clearUnpredictable) sb

/-- The `cant_forward` of a source register that the unit `fu` writes. A negative index is out of
range, as the comparison with the size is unsigned. -/
def cantForward (cantForwardFromFUIndices : Option (List Bool)) (fu : Int) : Bool :=
  fu != -1 && 0 ≤ fu && (cantForwardFromFUIndices.getD []).getD fu.toNat false

/-- `canInstIssue` on the flat source registers. The last of the relative latencies stands for those
that are not given. -/
def canInstIssue (o : RegOffsets) (sb : Scoreboard) (isFault : Bool) (srcRegIdx : List RegId)
    (srcRegRelativeLats : Option (List Nat)) (cantForwardFromFUIndices : Option (List Bool))
    (now : Nat) : Bool :=
  let latencies := srcRegRelativeLats.getD []
  isFault || srcRegIdx.zipIdx.all fun (reg, srcIndex) => (o.findIndex reg).all fun index =>
    let relativeLatency :=
      if cantForward cantForwardFromFUIndices (sb.fuIndices index) then 0
      else latencies.getD srcIndex (latencies.getLastD 0)
    !(now + relativeLatency < sb.returnCycle index || sb.numUnpredictableResults index != 0)

end Scoreboard

/-- The body of the loop of `FUPipeline::FUPipeline` over `cantForwardFromFUIndices`. `resize` cuts
a longer vector, and its argument has 32 bits. A write past the end is left out. -/
def markFUIndex (v : List Bool) (i : Nat) : List Bool :=
  let size := (i + 1) % 2 ^ 32
  ((v ++ List.replicate size false).take size).set i true

/-- The vector `cantForwardFromFUIndices` of a `FUPipeline`. -/
def cantForwardFromFUIndices (indices : List Nat) : List Bool := indices.foldl markFUIndex []

/-- The latencies of a `MyMinorFUTiming`. -/
structure FUTiming where
  extraCommitLat : Nat
  extraAssumedLat : Nat
  deriving Repr, DecidableEq

/-- An entry of `inFlightInsts` with its `flatDestRegIdx`, and with the `mark_unpredictable` of its
`markupInstDests`, which the source does not keep. -/
structure InFlightInst where
  inst : IssuedInst
  flatDestRegIdx : List RegId
  unpredictable : Bool
  deriving Repr, DecidableEq

/-- A thread of Execute. `lastExecSeqNum` is the last number that was issued: Decode counts
upwards. -/
structure IssueState where
  scoreboard : Scoreboard
  inFlightInsts : List InFlightInst
  lastExecSeqNum : Nat

namespace IssueState

def new : IssueState :=
  { scoreboard := .new, inFlightInsts := [], lastExecSeqNum := 0 }

/-- An instruction issues to the unit `fuIndex` with the latency `opLat` and the timing that was
found for it, or the commit of the oldest instruction clears its destinations. -/
inductive Event where
  | issue (inst : IssuedInst) (flatten : RegId → RegId) (fuIndex opLat : Nat)
      (timing : Option FUTiming) (now : Nat)
  | commit

/-- The `mark_unpredictable` and the `retire_time` of the call of `markupInstDests`, for an
instruction without cost and for one that a unit takes. -/
def markArguments (inst : IssuedInst) (opLat : Nat) (timing : Option FUTiming) (now : Nat) :
    Bool × Nat :=
  let timing := if inst.isFault then none else timing
  let extraCommitLat := (timing.map (·.extraCommitLat)).getD 0
  let extraAssumedLat := (timing.map (·.extraAssumedLat)).getD 0
  if inst.isNoCostInst then (false, now)
  else (inst.isMemRef && extraAssumedLat == 0, now + opLat + extraCommitLat + extraAssumedLat)

variable (o : RegOffsets)

/-- The entry of an instruction whose destinations were marked. -/
def marked (inst : IssuedInst) (flatten : RegId → RegId) (unpredictable : Bool) : InFlightInst :=
  { inst := inst
    flatDestRegIdx := (inst.destRegIdx.map flatten).map fun reg =>
      if (o.findIndex reg).isSome then reg else .none
    unpredictable := unpredictable }

variable (s : IssueState)

/-- The call of `markupInstDests` in `Execute::issue`. An instruction without cost is marked before
its `fuIndex` is set. -/
def issue (inst : IssuedInst) (flatten : RegId → RegId) (fuIndex opLat : Nat)
    (timing : Option FUTiming) (now : Nat) : IssueState :=
  let call := markArguments inst opLat timing now
  { scoreboard :=
      if inst.isFault then s.scoreboard
      else s.scoreboard.markup o inst.execSeqNum (if inst.isNoCostInst then 0 else fuIndex)
        call.2 call.1 (inst.destRegIdx.map flatten)
    inFlightInsts := s.inFlightInsts ++ [marked o inst flatten call.1]
    lastExecSeqNum := inst.execSeqNum }

/-- The call of `clearInstDests` in `Execute::commit`. -/
def commit (head : InFlightInst) (rest : List InFlightInst) : IssueState :=
  { s with
    scoreboard :=
      if head.inst.isFault then s.scoreboard
      else s.scoreboard.clear o head.inst.isMemRef head.flatDestRegIdx
    inFlightInsts := rest }

def step : Event → Option IssueState
  | .issue inst flatten fuIndex opLat timing now =>
    if s.lastExecSeqNum < inst.execSeqNum then
      some (s.issue o inst flatten fuIndex opLat timing now)
    else none
  | .commit =>
    match s.inFlightInsts with
    | [] => none
    | head :: rest => some (s.commit o head rest)

end IssueState

end Gem5.MyMinor
