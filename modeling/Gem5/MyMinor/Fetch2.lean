import Gem5.MyMinor.PipeData

/-!
# `Gem5.MyMinor.Fetch2`: the instruction extraction stage

The model of `src/cpu/myminor/fetch2.cc`. Fetch2 walks over the lines of a thread, offers
their bytes to the instruction decoder, and packs the decoded instructions into packets
for Decode. Each instruction takes its sequence numbers and its LVPT fields from the line
in hand.

The decoder and the branch predictor belong to the instruction set and to the predictor
component. `DecoderStep` is what they answer in one iteration of the loop. The loop runs
over a list of such answers, and it is `none` when the list is too short. Statistics, trace
output and the training of the branch predictor are left out.
-/

namespace Gem5.MyMinor

/-- A decoded instruction. `pc` is the PC after `decode`, which may update it. `nextPc` is
the PC after `advancePC`. `predictedTarget` is the target when the instruction is a control
instruction that the predictor takes. -/
structure Decoded where
  staticInst : StaticInst
  pc : PCState
  nextPc : PCState
  predictedTarget : Option PCState
  deriving Repr, DecidableEq

/-- The decoder in one iteration: the instruction if one is ready, whether it needs more
bytes, and `moreBytesSize`. -/
structure DecoderStep where
  decoded : Option Decoded
  needMoreBytes : Bool
  moreBytesSize : Nat
  deriving Repr, DecidableEq

/-- `Fetch2::Fetch2ThreadInfo` and the input buffer of the thread. -/
structure Fetch2Thread where
  inputBuffer : List ForwardLineData
  inputIndex : Nat
  pc : PCState
  havePC : Bool
  lastStreamSeqNum : InstSeqNum
  fetchSeqNum : InstSeqNum
  expectedStreamSeqNum : InstSeqNum
  predictionSeqNum : InstSeqNum
  deriving Repr, DecidableEq

/-- The state of the stage. `pcMask` of the decoder rounds down to a multiple of
`instAlign`. -/
structure Fetch2 where
  outputWidth : Nat
  processMoreThanOneInput : Bool
  instAlign : Nat
  threads : ThreadID → Fetch2Thread

/-- What one evaluation takes from outside. `scheduled` is the thread the policy picks. -/
structure Fetch2Input where
  line : Option ForwardLineData
  executeBranch : BranchData
  scheduled : Option ThreadID
  decoder : List DecoderStep
  predictionGarbage : LvptIn

namespace Fetch2Thread

variable (t : Fetch2Thread)

/-- `popInput`. -/
def popInput : Fetch2Thread :=
  { t with inputBuffer := t.inputBuffer.tail, inputIndex := 0 }

/-- `dumpAllInput`. -/
def dumpAllInput : Fetch2Thread :=
  { t with inputBuffer := [], inputIndex := 0 }

variable (line : ForwardLineData)

/-- The line is of the right stream but of an old prediction. -/
def discardLine : Bool :=
  t.expectedStreamSeqNum == line.id.streamSeqNum &&
    t.predictionSeqNum != line.id.predictionSeqNum

/-- Drop the leading lines of an old prediction. Without `processMoreThanOneInput` only one
is dropped. The recursion is on the lines. -/
def dropOldLines (t : Fetch2Thread) (more : Bool) : List ForwardLineData → Fetch2Thread
  | [] => t
  | line :: rest =>
    if t.discardLine line then
      let t := { t.popInput with havePC := false }
      if more then t.dropOldLines more rest else t
    else t

/-- Set the PC of the thread from the line when the stream changed or there is no PC. -/
def setPC (instAlign : Nat) (line : ForwardLineData) : Fetch2Thread :=
  if !t.havePC || t.lastStreamSeqNum != line.id.streamSeqNum then
    { t with
      inputIndex :=
        (line.pc.instAddr - line.pc.instAddr % instAlign) - line.lineBaseAddr
      pc := line.pc
      havePC := true }
  else t

/-- The id of a new instruction: that of the line, with the fetch and prediction numbers
of the thread. -/
def instId : InstId :=
  { line.id with fetchSeqNum := t.fetchSeqNum, predictionSeqNum := t.predictionSeqNum }

/-- A fetch fault as an instruction. Its LVPT fields keep their defaults. -/
def faultInst : DynInst :=
  { staticInst := StaticInst.null, id := t.instId line, pc := t.pc, fault := line.fault,
    lvptOut := LvptOut.zero }

/-- A decoded instruction with its branch prediction. Its LVPT fields are those of the line
in hand. -/
def decodedInst (d : Decoded) : DynInst :=
  { staticInst := d.staticInst, id := t.instId line, pc := d.pc, fault := noFault,
    lvptOut := line.lvptOut, predictedTaken := d.predictedTarget.isSome,
    predictedTarget := d.predictedTarget }

/-- `predictBranch` for a taken prediction. -/
def predictTaken (inst : DynInst) (target : PCState) (garbage : LvptIn) :
    Fetch2Thread × BranchData :=
  ({ t with
      expectedStreamSeqNum := inst.id.streamSeqNum
      predictionSeqNum := t.predictionSeqNum + 1 },
    { reason := .branchPrediction, threadId := some inst.id.threadId,
      newStreamSeqNum := inst.id.streamSeqNum
      newPredictionSeqNum := t.predictionSeqNum + 1, target := target, lvptIn := garbage })

end Fetch2Thread

/-- The local variables of the packing loop. -/
structure Fetch2Loop where
  thread : Fetch2Thread
  insts : List DynInst
  prediction : BranchData
  stopped : Bool

namespace Fetch2

/-- The instruction part of one iteration for a line that is not discarded: the thread, the
new instruction and the prediction after it. -/
def extract (t : Fetch2Thread) (line : ForwardLineData) (prediction : BranchData)
    (d : DecoderStep) (garbage : LvptIn) : Fetch2Thread × Option DynInst × BranchData :=
  if line.isFault then (t, some (t.faultInst line), prediction)
  else
    let (t, inst, prediction) :=
      match d.decoded with
      | none => (t, none, prediction)
      | some decoded =>
        let inst := t.decodedInst line decoded
        let t := { t with pc := decoded.nextPc }
        match decoded.predictedTarget with
        | none => (t, some inst, prediction)
        | some target =>
          let (t, prediction) := t.predictTaken inst target garbage
          (t, some inst, prediction)
    let t :=
      if d.needMoreBytes then { t with inputIndex := t.inputIndex + d.moreBytesSize } else t
    (t, inst, prediction)

/-- What happens to the input after one iteration: all input goes on a prediction or a
fault, one line goes when it is discarded or used up. -/
def stepInput (t : Fetch2Thread) (line : ForwardLineData) (discard : Bool)
    (prediction : BranchData) : Fetch2Thread × Bool :=
  if !prediction.isBubble || line.isFault then
    ({ t.dumpAllInput with havePC := false }, true)
  else if discard then ({ t.popInput with havePC := false }, true)
  else if t.inputIndex = line.lineWidth then (t.popInput, true)
  else (t, false)

variable (f : Fetch2)

/-- One iteration of the packing loop on the line `line`. -/
def iterate (l : Fetch2Loop) (line : ForwardLineData) (d : DecoderStep) (garbage : LvptIn) :
    Fetch2Loop :=
  let discard := l.thread.discardLine line
  let t := if discard then l.thread else l.thread.setPC f.instAlign line
  let (t, inst, prediction) :=
    if discard then (t, none, l.prediction) else extract t line l.prediction d garbage
  let t :=
    { t with
      fetchSeqNum := if inst.isSome then t.fetchSeqNum + 1 else t.fetchSeqNum
      lastStreamSeqNum := line.id.streamSeqNum }
  let (t, used) := stepInput t line discard prediction
  { thread := t
    insts := l.insts ++ inst.toList
    prediction := prediction
    stopped := used && !f.processMoreThanOneInput }

/-- The packing loop. It ends without input, with a full output or with a prediction. -/
def pack (f : Fetch2) (garbage : LvptIn) : List DecoderStep → Fetch2Loop → Option Fetch2Loop
  | steps, l =>
    match l.thread.inputBuffer with
    | [] => some l
    | line :: _ =>
      if !l.stopped && (line.isFault || l.thread.inputIndex < line.lineWidth) &&
          l.insts.length < f.outputWidth && l.prediction.isBubble then
        match steps with
        | [] => none
        | d :: steps => f.pack garbage steps (f.iterate l line d garbage)
      else some l

/-- The record of a thread with the input line in its buffer. -/
def pushLine (line : Option ForwardLineData) (tid : ThreadID) : Fetch2Thread :=
  match line with
  | some line =>
    if line.id.threadId = tid then
      { f.threads tid with inputBuffer := (f.threads tid).inputBuffer ++ [line] }
    else f.threads tid
  | none => f.threads tid

/-- The record of a thread when the loop starts: the input line is pushed, a stream change
dumps the input, and lines of old predictions are dropped. -/
def beforeLoop (inp : Fetch2Input) (tid : ThreadID) : Fetch2Thread :=
  let t := f.pushLine inp.line tid
  let t :=
    if inp.executeBranch.isStreamChange && inp.executeBranch.threadId == some tid then
      { t.dumpAllInput with havePC := false }
    else t
  t.dropOldLines f.processMoreThanOneInput t.inputBuffer

/-- `evaluate`: the new state, the packet for Decode and the prediction for Fetch1. -/
def evaluate (inp : Fetch2Input) : Option (Fetch2 × Option ForwardInstData × BranchData) :=
  let noPrediction := BranchData.bubble inp.predictionGarbage
  match inp.scheduled with
  | none => some ({ f with threads := f.beforeLoop inp }, none, noPrediction)
  | some tid =>
    (f.pack inp.predictionGarbage inp.decoder
      { thread := f.beforeLoop inp tid, insts := [], prediction := noPrediction,
        stopped := false }).map fun l =>
      ({ f with threads := fun t => if t = tid then l.thread else f.beforeLoop inp t },
        ForwardInstData.sized tid f.outputWidth l.insts,
        l.prediction)

end Fetch2

end Gem5.MyMinor
