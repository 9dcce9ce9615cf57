import Gem5.MyMinor.Decode

/-!
# `Gem5.MyMinor.DecodePath`: from the output of Fetch2 to the input of Execute

Decode and ExecuteDummy with the three latches around them, as `Pipeline::evaluate` moves
them. Which thread is scheduled in a cycle depends on the thread policy and on the room in the
next stage. Both are inputs, so a list of inputs is any pattern of back-pressure. The ghost
fields `sent` and `received` record what left Fetch2 and what entered Execute.
-/

namespace Gem5.MyMinor

/-- The parameters of the two stages and their latches. The constructor of the pipeline
refuses a forward delay below 1. -/
structure PathParams where
  executeDummyInputWidth : Nat
  decodeCycleInput : Bool
  executeInputWidth : Nat
  executeDummyCycleInput : Bool
  fetch2ToDecodeForwardDelay : Nat
  decodeToExecuteForwardDelay : Nat
  executeDummyToExecuteForwardDelay : Nat
  fetch2ToDecode_pos : 1 ≤ fetch2ToDecodeForwardDelay := by decide
  decodeToExecute_pos : 1 ≤ decodeToExecuteForwardDelay := by decide
  executeDummyToExecute_pos : 1 ≤ executeDummyToExecuteForwardDelay := by decide

/-- Decode and ExecuteDummy between Fetch2 and Execute. -/
structure DecodePath where
  f2ToD : ForwardLatch ForwardInstData
  decode : PathStage
  dToE : ForwardLatch ForwardInstData
  executeDummy : PathStage
  eToE : ForwardLatch ForwardInstData
  sent : ThreadID → List DynInst
  received : ThreadID → List DynInst

/-- What one cycle takes from outside: the packet that Fetch2 writes, and the threads that
the two stages schedule. -/
structure PathInput where
  packet : Option ForwardInstData
  decodeThread : Option ThreadID
  dummyThread : Option ThreadID

namespace DecodePath

/-- The path before the first cycle. Each stage fills packets of the width that the next one
takes. -/
def init (isa : Isa) (params : PathParams) : DecodePath :=
  { f2ToD := .new params.fetch2ToDecodeForwardDelay
    decode :=
      { emit := Decode.emit isa, outputWidth := params.executeDummyInputWidth
        processMoreThanOneInput := params.decodeCycleInput, threads := fun _ => .init }
    dToE := .new params.decodeToExecuteForwardDelay
    executeDummy :=
      { emit := ExecuteDummy.emit, outputWidth := params.executeInputWidth
        processMoreThanOneInput := params.executeDummyCycleInput, threads := fun _ => .init }
    eToE := .new params.executeDummyToExecuteForwardDelay
    sent := fun _ => [], received := fun _ => [] }

variable (s : DecodePath)

/-- One cycle of the pipeline, as far as the path takes part in it. Execute takes what
comes out of the last latch. A stage reads what was inside its latch before the cycle. -/
def cycle (inp : PathInput) : DecodePath :=
  let dummy := s.executeDummy.evaluate s.dToE.read inp.dummyThread
  let decode := s.decode.evaluate s.f2ToD.read inp.decodeThread
  { f2ToD := s.f2ToD.write inp.packet,
    decode := decode.1,
    dToE := s.dToE.write decode.2,
    executeDummy := dummy.1,
    eToE := s.eToE.write dummy.2,
    sent := fun t => s.sent t ++ packetInsts t inp.packet,
    received := fun t => s.received t ++ packetInsts t s.eToE.read }

/-- The path after a list of cycles. -/
def after (inputs : List PathInput) : DecodePath :=
  inputs.foldl cycle s

/-- No instruction of the thread is inside the path. -/
def Empty (t : ThreadID) : Prop :=
  s.f2ToD.flatMap (packetInsts t) = [] ∧ (s.decode.threads t).inputBuffer = [] ∧
    s.dToE.flatMap (packetInsts t) = [] ∧ (s.executeDummy.threads t).inputBuffer = [] ∧
    s.eToE.flatMap (packetInsts t) = []

end DecodePath

/-- The cycle schedules the thread in both stages. -/
def PathInput.serves (inp : PathInput) (t : ThreadID) : Bool :=
  inp.decodeThread == some t && inp.dummyThread == some t

end Gem5.MyMinor
