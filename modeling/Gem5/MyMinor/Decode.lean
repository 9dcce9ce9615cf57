import Gem5.MyMinor.PipeData

/-!
# `Gem5.MyMinor.Decode`: micro-op decomposition and the stage before Execute

The model of `src/cpu/myminor/decode.cc` and `src/cpu/myminor/executeDummy.cc`. Decode
expands macro-ops into micro-ops and numbers the instructions (`execSeqNum`). ExecuteDummy
passes the instructions on and numbers them again. Both copy the LVPT fields.

Both stages walk over packets in the same way: bubbles inside a packet are skipped,
`inputIndex` is the place in the head packet, and the packet is popped when the index reaches
its width. So the walk is one definition, `StageThread.pack`, with the treatment of one
instruction as a parameter. The instruction set is a parameter too: it gives the micro-op of a
macro-op at a PC. The reads of `staticInst` that only guard a debug print are left out.
-/

namespace Gem5.MyMinor

/-- `fetchMicroop` and `advancePC` in one iteration. -/
structure MicroOp where
  staticInst : StaticInst
  isLastMicroop : Bool
  nextPC : PCState
  deriving Repr, DecidableEq

/-- `fetchMicroop` followed by `advancePC`, for a macro-op and a micro-op PC. A `StaticInst` of
the model has the flags only, so the whole instruction is the argument. -/
abbrev Isa := DynInst → PCState → MicroOp

/-- The part of the per-thread record that the treatment of one instruction changes. -/
structure StageInfo where
  inMacroop : Bool
  microopPC : PCState
  execSeqNum : InstSeqNum
  deriving Repr, DecidableEq

/-- The per-thread record of Decode and of ExecuteDummy, with the input buffer. -/
structure StageThread where
  inputBuffer : List ForwardInstData
  inputIndex : Nat
  info : StageInfo

/-- `DecodeThreadInfo()` and `ExecuteDummyThreadInfo()`: both counters start at
`firstExecSeqNum`. -/
def StageInfo.init : StageInfo :=
  { inMacroop := false, microopPC := ⟨0, 0⟩, execSeqNum := 1 }

/-- The record of a thread before the first cycle. -/
def StageThread.init : StageThread :=
  { inputBuffer := [], inputIndex := 0, info := .init }

/-- The treatment of one instruction that is not a bubble: the record after it, the output
instruction, and whether the input instruction is finished. -/
abbrev EmitInst := StageInfo → DynInst → StageInfo × DynInst × Bool

/-- The PC of the next micro-op of `inst`. -/
def StageInfo.nextMicroPC (d : StageInfo) (inst : DynInst) : PCState :=
  if d.inMacroop then d.microopPC else inst.pc

namespace Decode

/-- Decode on one instruction. A micro-op is a new instruction with the id and the LVPT
fields of the macro-op and with the micro-op PC. Only the last one has the prediction. -/
def emit (isa : Isa) : EmitInst := fun d inst =>
  let numbered (out : DynInst) : DynInst :=
    { out with id := { out.id with execSeqNum := d.execSeqNum }, lvptOut := inst.lvptOut }
  if inst.isFault || !inst.staticInst.isMacroop then
    ({ d with inMacroop := false, execSeqNum := d.execSeqNum + 1 }, numbered inst, true)
  else
    let pc := d.nextMicroPC inst
    let m := isa inst pc
    let micro : DynInst :=
      { staticInst := m.staticInst, id := inst.id, pc := pc, fault := noFault, lvptOut := .zero
        predictedTaken := if m.isLastMicroop then inst.predictedTaken else false
        predictedTarget := if m.isLastMicroop then inst.predictedTarget else none }
    ({ inMacroop := !m.isLastMicroop, microopPC := m.nextPC, execSeqNum := d.execSeqNum + 1 },
      numbered micro, m.isLastMicroop)

end Decode

namespace ExecuteDummy

/-- ExecuteDummy on one instruction. It counts before it numbers. Its record has no macro-op
fields: the flag of the model's record is down. -/
def emit : EmitInst := fun d inst =>
  let seqNum := d.execSeqNum + 1
  ({ d with inMacroop := false, execSeqNum := seqNum },
    { inst with id := { inst.id with execSeqNum := seqNum } }, true)

end ExecuteDummy

namespace StageThread

variable (th : StageThread)

/-- The body of the packing loop up to the test for the end of the packet. -/
def turn (emit : EmitInst) (inst : DynInst) : StageThread × List DynInst :=
  if inst.isBubble then
    ({ th with inputIndex := th.inputIndex + 1,
               info := { th.info with inMacroop := false } }, [])
  else
    let (info, output, finished) := emit th.info inst
    ({ th with inputIndex := if finished then th.inputIndex + 1 else th.inputIndex,
               info := info }, [output])

/-- `popInput`. -/
def popInput : StageThread :=
  { inputBuffer := th.inputBuffer.tail, inputIndex := 0,
    info := { th.info with inMacroop := false } }

/-- The instructions in the buffer from `inputIndex` on, bubbles included. -/
def unread : List DynInst :=
  (th.inputBuffer.flatMap (·.insts)).drop th.inputIndex

/-- The packing loop of both stages. `reading` is false once `insts_in` is NULL. The recursion
is on a bound for the turns. -/
def packLoop (emit : EmitInst) (outputWidth : Nat) (processMoreThanOneInput : Bool) :
    Nat → StageThread → Bool → List DynInst → StageThread × List DynInst
  | 0, th, _, out => (th, out)
  | turns + 1, th, reading, out =>
    match th.inputBuffer with
    | [] => (th, out)
    | p :: _ =>
      if h : reading ∧ th.inputIndex < p.insts.length ∧ out.length < outputWidth then
        let next := th.turn emit (p.insts.get ⟨th.inputIndex, h.2.1⟩)
        if next.1.inputIndex = p.insts.length then
          packLoop emit outputWidth processMoreThanOneInput turns next.1.popInput
            processMoreThanOneInput (out ++ next.2)
        else
          packLoop emit outputWidth processMoreThanOneInput turns next.1 true (out ++ next.2)
      else (th, out)

/-- The packing loop. A turn writes an instruction or skips a bubble, so the loop ends by its
own tests within the bound (`packLoop_of_le`). -/
def pack (emit : EmitInst) (outputWidth : Nat) (processMoreThanOneInput : Bool) :
    StageThread × List DynInst :=
  packLoop emit outputWidth processMoreThanOneInput (outputWidth + th.unread.length) th true []

end StageThread

/-- Decode or ExecuteDummy: the treatment of one instruction, the parameters, and the
per-thread records. -/
structure PathStage where
  emit : EmitInst
  outputWidth : Nat
  processMoreThanOneInput : Bool
  threads : ThreadID → StageThread

namespace PathStage

variable (s : PathStage) (packet : Option ForwardInstData)

/-- The record of a thread with the packet on the input wire in its buffer. -/
def pushPacket (tid : ThreadID) : StageThread :=
  match packet with
  | some p =>
    if p.threadId = tid then
      { s.threads tid with inputBuffer := (s.threads tid).inputBuffer ++ [p] }
    else s.threads tid
  | none => s.threads tid

/-- `evaluate`: push the input packet and pack the output of the scheduled thread. No thread
is scheduled when every thread is blocked or without input. -/
def evaluate (scheduled : Option ThreadID) : PathStage × Option ForwardInstData :=
  match scheduled with
  | none => ({ s with threads := s.pushPacket packet }, none)
  | some tid =>
    let (th, out) := (s.pushPacket packet tid).pack s.emit s.outputWidth
      s.processMoreThanOneInput
    ({ s with threads := fun t => if t = tid then th else s.pushPacket packet t },
      ForwardInstData.sized tid s.outputWidth out)

end PathStage

end Gem5.MyMinor
