import Gem5.MyMinor.MemResponse
import Gem5.MyMinor.Pipeline

/-!
# `Gem5.MyMinor.Training`: how a committed load trains the LVPT

The training message of a load rides in the one `BranchData` that Execute writes per cycle.
This module models that record through a cycle of `Execute::evaluate` in
`src/cpu/myminor/execute.cc`. Its `lvptIn*` fields start uninitialised. `handleMemResponse` writes
them for each access that completes without a fault, `updateBranchData` replaces the whole record
for each branch, interrupt, suspend or halt, and a drain of the current instruction replaces it by a
bubble. At the end of the cycle the record enters the latch to Fetch1, which trains the LVPT with
whatever comes out.

The instructions that commit in a cycle are an input, in commit order, with the branch that each of
them makes.

`calls` collects the arguments of all `updateTable` calls, and `loads` the message that each load
should send: its PC, its full virtual address, its value and whether the prediction was right. Both
only serve statements.
-/

namespace Gem5.MyMinor.Training

/-- One instruction that completes in a cycle, with the `BranchData` that `updateBranchData`
assigns for it, if any. -/
inductive CommitStep where
  | memResponse (response : LSQRequest) (env : ResponseEnv) (branch : Option BranchData)
  | otherInst (branch : Option BranchData)

/-- A cycle of Execute. `interrupt` is the branch of a taken interrupt: nothing commits then.
`drainBubble` is the garbage of the bubble that a drain of the current instruction assigns
after the commits. `haltFetch` is the branch that halts fetch. -/
structure ExecuteCycle where
  slotGarbage : LvptIn
  interrupt : Option BranchData
  commits : List CommitStep
  drainBubble : Option LvptIn
  haltFetch : Option BranchData

/-- The branch of an instruction. -/
def CommitStep.branch : CommitStep → Option BranchData
  | .memResponse _ _ branch => branch
  | .otherInst branch => branch

/-- `updateBranchData`: a branch replaces the record. -/
def updateBranchData (update : Option BranchData) (branch : BranchData) : BranchData :=
  update.getD branch

/-- The training fields of `handleMemResponse`. -/
def writeLvptIn (message : Option LvptIn) (branch : BranchData) : BranchData :=
  match message with
  | some m => { branch with lvptIn := m }
  | none => branch

variable (thresholdLCT : Nat)

/-- The CVU and the record after one instruction. -/
def commitStep (s : CVU × BranchData) : CommitStep → CVU × BranchData
  | .memResponse response env update =>
    let result := handleMemResponse thresholdLCT env s.1 response
    (result.cvu, updateBranchData update (writeLvptIn result.lvptIn s.2))
  | .otherInst update => (s.1, updateBranchData update s.2)

/-- `evaluate`, as far as the record is concerned. -/
def evaluateBranch (cvu : CVU) (c : ExecuteCycle) : CVU × BranchData :=
  let slot := BranchData.bubble c.slotGarbage
  match c.interrupt with
  | some update => (cvu, updateBranchData (some update) slot)
  | none =>
    let (cvu, branch) := c.commits.foldl (commitStep thresholdLCT) (cvu, slot)
    let branch :=
      match c.drainBubble with
      | some garbage => BranchData.bubble garbage
      | none => branch
    (cvu, updateBranchData c.haltFetch branch)

/-- One `updateTable` call of Fetch1. -/
def trainLVPT (t : LVPT) (m : LvptIn) : LVPT :=
  t.updateTable m.value m.addr m.pc m.predict m.constant

/-- The value of a load: its own bytes, zero-extended to a word. -/
def loadValue (packet : Packet) : Word :=
  Lib.wordOfBytes fun i => if i < packet.size then packet.data i else 0

/-- The message that a load should send. -/
def loadMessage (inst : DynInst) (packet : Packet) : LvptIn :=
  { pc := inst.pc.instAddr
    addr := packet.vaddr
    value := loadValue packet
    predict := MemResponse.predictedRight inst (loadValue packet)
    constant := true }

/-- The message due for one instruction: one for a load that completes its access without a
fault, none otherwise. -/
def dueMessage (cvu : CVU) : CommitStep → Option LvptIn
  | .memResponse response env _ =>
    match response.translationFault, response.packet with
    | none, some packet =>
      let packet := MemResponse.substitute cvu response.inst packet env.pastValue
      if response.inst.staticInst.isLoad && (env.completeAcc packet).isNone then
        some (loadMessage response.inst packet)
      else none
    | _, _ => none
  | .otherInst _ => none

/-- The messages due for the instructions of a cycle, in commit order. -/
def dueMessages (thresholdLCT : Nat) : CVU → List CommitStep → List LvptIn
  | _, [] => []
  | cvu, step :: rest =>
    (dueMessage cvu step).toList
      ++ dueMessages thresholdLCT
        (commitStep thresholdLCT (cvu, BranchData.bubble default) step).1 rest

/-- The messages due for a cycle. -/
def cycleLoads (cvu : CVU) (c : ExecuteCycle) : List LvptIn :=
  if c.interrupt.isSome then [] else dueMessages thresholdLCT cvu c.commits

/-- The pipeline with Execute's CVU and the two histories. -/
structure State where
  thresholdLCT : Nat
  cvu : CVU
  pipeline : Pipeline
  calls : List LvptIn
  loads : List LvptIn

/-- The events: a clock cycle, or a callback of the pipeline between cycles. -/
inductive Event where
  | cycle (execute : ExecuteCycle) (inp : Pipeline.CycleInput)
  | callback (e : Pipeline.Event)

/-- The state after construction. -/
def new (isa : Isa) (params : PipelineParams) (tableSizeCVU : Nat) (garbage : LvptIn) : State :=
  { thresholdLCT := params.thresholdLCT
    cvu := CVU.new tableSizeCVU
    pipeline := Pipeline.new isa params garbage
    calls := []
    loads := [] }

/-- One event. In a cycle Execute writes its branch first, and Fetch1 then makes one
`updateTable` call with the branch that leaves the latch. -/
def step (s : State) : Event → Option State
  | .cycle execute inp =>
    let (cvu, branch) := evaluateBranch s.thresholdLCT s.cvu execute
    (s.pipeline.evaluate { inp with executeOut := branch }).map fun pipeline =>
      { s with
        cvu := cvu
        pipeline := pipeline
        calls := s.calls ++ [(Lib.DelayLine.push s.pipeline.eToF1 branch).1.lvptIn]
        loads := s.loads ++ cycleLoads s.thresholdLCT s.cvu execute }
  | .callback (.evaluate _) => none
  | .callback e => (s.pipeline.step e).map fun pipeline => { s with pipeline := pipeline }

end Gem5.MyMinor.Training
