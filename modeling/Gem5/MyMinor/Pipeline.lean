import Gem5.Lib.DelayLine
import Gem5.Lib.Run
import Gem5.MyMinor.DecodePath
import Gem5.MyMinor.Fetch1
import Gem5.MyMinor.Fetch2

/-!
# `Gem5.MyMinor.Pipeline`: the stages in front of Execute

The model of `Pipeline::evaluate` in `src/cpu/myminor/pipeline.cc` for Fetch1, Fetch2 and the
path through Decode and ExecuteDummy (`DecodePath`), with the latches between them. Execute is
represented by the branch it writes into its latch in each cycle, which is any `BranchData`.

The stages are evaluated from the back to the front, and the latches move at the end of the
cycle. All forward latches delay by at least one cycle, so a stage reads what was inside its
latch before the cycle.

The field `received` of the path collects the instructions that arrive at Execute.
`processed` records each line that `Fetch1::processResponse` made, with the LVPT it was read
from. Both only serve statements.
-/

namespace Gem5.MyMinor

/-- A line of `Fetch1::processResponse` and the LVPT in the cycle in which it was made. -/
structure LineRecord where
  line : ForwardLineData
  lvpt : LVPT

/-- The front of the pipeline. -/
structure Pipeline where
  fetch1 : Fetch1
  fetch2 : Fetch2
  path : DecodePath
  f1ToF2 : ForwardLatch ForwardLineData
  f2ToF1 : List BranchData
  eToF1 : List BranchData
  processed : List LineRecord

/-- The parameters of the CPU that the stages read. -/
structure PipelineParams extends PathParams where
  fetch1LineSnapWidth : Nat
  fetch1LineWidth : Nat
  fetch1FetchLimit : Nat
  fetch2CycleInput : Bool
  instAlign : Nat
  decodeInputWidth : Nat
  fetch1ToFetch2ForwardDelay : Nat
  fetch1ToFetch2BackwardDelay : Nat
  executeBranchDelay : Nat
  tableSizeLVPT : Nat
  thresholdLCT : Nat
  maxValueLCT : Nat
  fetch1ToFetch2_pos : 1 ≤ fetch1ToFetch2ForwardDelay := by decide

namespace Pipeline

/-- The pipeline after construction. The first sequence numbers are 1. `garbage` fills the
uninitialised fields of the branches that are in the latches at the start. -/
def new (isa : Isa) (params : PipelineParams) (garbage : LvptIn) : Pipeline :=
  let noPC : PCState := { instAddr := 0, microPC := 0 }
  { fetch1 :=
      { lineSnap := params.fetch1LineSnapWidth
        maxLineWidth := params.fetch1LineWidth
        fetchLimit := params.fetch1FetchLimit
        fetchInfo := fun _ =>
          { state := .waitingForPC, pc := noPC, fetchAddr := 0, streamSeqNum := 1,
            predictionSeqNum := 1, blocked := false, wakeupGuard := false }
        requests := []
        transfers := []
        icacheNeedsRetry := false
        lineSeqNum := 1
        lvpt := LVPT.new params.tableSizeLVPT params.thresholdLCT params.maxValueLCT }
    fetch2 :=
      { outputWidth := params.decodeInputWidth
        processMoreThanOneInput := params.fetch2CycleInput
        instAlign := params.instAlign
        threads := fun _ =>
          { inputBuffer := [], inputIndex := 0, pc := noPC, havePC := false,
            lastStreamSeqNum := 1, fetchSeqNum := 1, expectedStreamSeqNum := 1,
            predictionSeqNum := 1 } }
    path := .init isa params.toPathParams
    f1ToF2 := .new params.fetch1ToFetch2ForwardDelay
    f2ToF1 := List.replicate params.fetch1ToFetch2BackwardDelay (BranchData.bubble garbage)
    eToF1 := List.replicate params.executeBranchDelay (BranchData.bubble garbage)
    processed := [] }

/-- What one cycle takes from outside: the branch that Execute writes, the answers of the
ITLB, the icache and the decoder, and the scheduling decisions. -/
structure CycleInput where
  executeOut : BranchData
  canReserve : ThreadID → Bool
  priorityList : List ThreadID
  active : ThreadID → Bool
  itlbAnswer : Option ItlbAnswer
  icacheAccepts : Bool
  fetch2Scheduled : Option ThreadID
  decoder : List DecoderStep
  predictionGarbage : LvptIn
  decodeScheduled : Option ThreadID
  dummyScheduled : Option ThreadID

/-- The events: a clock cycle, and the callbacks of the ITLB, the icache and the thread
contexts between cycles. -/
inductive Event where
  | evaluate (inp : CycleInput)
  | finishTranslation (lineSeqNum : InstSeqNum) (fault : Fault) (icacheAccepts : Bool)
  | recvTimingResp (lineSeqNum : InstSeqNum)
  | recvReqRetry (icacheAccepts : Bool)
  | wakeupFetch (tid : ThreadID) (pc : PCState)

/-- `evaluate`. -/
def evaluate (p : Pipeline) (inp : CycleInput) : Option Pipeline := do
  let (executeBranch, eToF1) := Lib.DelayLine.push p.eToF1 inp.executeOut
  let (fetch2, fetch2Out, prediction) ← p.fetch2.evaluate
    { line := p.f1ToF2.read, executeBranch := executeBranch
      scheduled := inp.fetch2Scheduled, decoder := inp.decoder
      predictionGarbage := inp.predictionGarbage }
  let (fetch2Branch, f2ToF1) := Lib.DelayLine.push p.f2ToF1 prediction
  let (fetch1, line) := p.fetch1.evaluate
    { executeBranch := executeBranch, fetch2Branch := fetch2Branch
      canReserve := inp.canReserve, priorityList := inp.priorityList, active := inp.active
      itlbAnswer := inp.itlbAnswer, icacheAccepts := inp.icacheAccepts }
  return { fetch1 := fetch1
           fetch2 := fetch2
           path := p.path.cycle ⟨fetch2Out, inp.decodeScheduled, inp.dummyScheduled⟩
           f1ToF2 := p.f1ToF2.write line
           f2ToF1 := f2ToF1
           eToF1 := eToF1
           processed := p.processed
             ++ line.toList.map fun l => { line := l, lvpt := p.fetch1.lvpt } }

/-- One event. -/
def step (p : Pipeline) : Event → Option Pipeline
  | .evaluate inp => p.evaluate inp
  | .finishTranslation n fault accepts =>
    some { p with fetch1 := p.fetch1.finishTranslation n fault accepts }
  | .recvTimingResp n => some { p with fetch1 := p.fetch1.recvTimingResp n }
  | .recvReqRetry accepts => some { p with fetch1 := p.fetch1.recvReqRetry accepts }
  | .wakeupFetch tid pc => some { p with fetch1 := p.fetch1.wakeupFetch tid pc }

end Pipeline

end Gem5.MyMinor
