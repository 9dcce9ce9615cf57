import Mathlib.Data.Int.ModEq
import Gem5.MyMinor.Pipeline

/-!
# `Gem5.MyMinor.Buffers`: stage input buffers and their reservations

The model of `Queue` and `InputBuffer` in `src/cpu/myminor/buffers.hh`, and of the pipeline
with these buffers. `Pipeline` keeps the input of a stage as a list without a bound.
`BufferedPipeline` adds the buffers: a stage sets the tail of its buffer, takes elements off
the front, reserves a slot in the buffer of the next stage for its output, and pushes the
tail. The room in a buffer decides which threads may be scheduled in the stage before it.

`warnings` counts how often `push` found the queue full or `reserve` found no free slot.
-/

namespace Gem5.MyMinor

/-- `Queue`. A bubble is never handed to it. -/
structure Queue (α : Type) where
  queue : List α
  numReservedSlots : Nat
  capacity : Nat
  warnings : Nat

namespace Queue
variable {α : Type} (q : Queue α)

/-- `freeReservation`. -/
def freeReservation : Queue α :=
  if q.numReservedSlots ≠ 0 then { q with numReservedSlots := q.numReservedSlots - 1 } else q

/-- `push`. -/
def push (data : α) : Queue α :=
  let q := q.freeReservation
  { q with
    queue := q.queue ++ [data]
    warnings := if q.queue.length + 1 > q.capacity then q.warnings + 1 else q.warnings }

/-- `unreservedRemainingSpace`: the difference as a 32-bit `int`, and 0 when it is
negative. -/
def unreservedRemainingSpace : Nat :=
  (((q.capacity : Int) - (q.queue.length + q.numReservedSlots : Nat)).bmod (2 ^ 32)).toNat

/-- `canReserve`. -/
def canReserve : Bool :=
  q.unreservedRemainingSpace != 0

/-- `reserve`. -/
def reserve : Queue α :=
  { q with
    numReservedSlots := q.numReservedSlots + 1
    warnings := if q.unreservedRemainingSpace = 0 then q.warnings + 1 else q.warnings }

/-- `pop`. -/
def pop : Queue α :=
  { q with queue := q.queue.tail }

end Queue

/-- `InputBuffer`. `element` is the element that `elementPtr` points to. -/
structure InputBuffer (α : Type) where
  queue : Queue α
  element : Option α

namespace InputBuffer
variable {α : Type}

/-- A new buffer. -/
def new (capacity : Nat) : InputBuffer α :=
  { queue := { queue := [], numReservedSlots := 0, capacity := capacity, warnings := 0 }
    element := none }

variable (b : InputBuffer α)

/-- `setTail`. -/
def setTail (x : α) : InputBuffer α :=
  if b.queue.queue.isEmpty then { b with element := some x }
  else { b with queue := b.queue.push x }

/-- `pop`. -/
def pop (b : InputBuffer α) : InputBuffer α :=
  match b.element with
  | some _ => { queue := b.queue.freeReservation, element := none }
  | none => { b with queue := b.queue.pop }

/-- `pushTail`. -/
def pushTail : InputBuffer α :=
  match b.element with
  | some x => { queue := b.queue.push x, element := none }
  | none => b

/-- `canReserve`. -/
def canReserve (b : InputBuffer α) : Bool :=
  b.queue.canReserve

/-- `reserve`. -/
def reserve (b : InputBuffer α) : InputBuffer α :=
  { b with queue := b.queue.reserve }

/-- `freeReservation`. -/
def freeReservation (b : InputBuffer α) : InputBuffer α :=
  { b with queue := b.queue.freeReservation }

/-- The elements, front first. -/
def contents : List α :=
  b.element.toList ++ b.queue.queue

/-- The calls of one evaluation of the stage on the buffer of a thread: the element on the
wire is set as the tail, `pops` elements are popped, and the tail is pushed. -/
def evaluate (wire : Option α) (pops : Nat) : InputBuffer α :=
  match wire with
  | some x => (pop^[pops] (b.setTail x)).pushTail
  | none => pop^[pops] b

end InputBuffer

/-- The element on a wire, if it is for the thread. -/
def forThread {α : Type} (threadOf : α → ThreadID) (tid : ThreadID) (wire : Option α) :
    Option α :=
  wire.filter fun x => threadOf x == tid

/-- The thread of a line. -/
def ForwardLineData.thread (line : ForwardLineData) : ThreadID :=
  line.id.threadId

namespace Fetch1

/-- The thread that `evaluate` fetches a line for. -/
def fetchThread (f : Fetch1) (inp : Fetch1Input) : Option ThreadID :=
  let f : Fetch1 :=
    { f with fetchInfo := fun t => { f.fetchInfo t with blocked := !inp.canReserve t } }
  let f := f.reactToBranches inp.executeBranch inp.fetch2Branch
  if f.requests.length + f.transfers.length < f.fetchLimit then
    f.getScheduledThread inp.priorityList inp.active
  else none

/-- The thread of the response that `takeLine` discards. -/
def discardedResponse (f : Fetch1) : Option ThreadID :=
  match f.transfers with
  | [] => none
  | response :: _ =>
    if response.state = .complete ∧ f.isDiscardable response then some response.id.threadId
    else none

/-- The thread of the response that `evaluate` discards. -/
def discardedThread (f : Fetch1) (inp : Fetch1Input) : Option ThreadID :=
  (f.beforeLine inp).discardedResponse

end Fetch1

/-- The sizes of the input buffers. -/
structure BufferSizes where
  fetch2InputBufferSize : Nat
  decodeInputBufferSize : Nat
  executeDummyInputBufferSize : Nat
  executeInputBufferSize : Nat

/-- The pipeline and the input buffers of its stages. -/
structure BufferedPipeline where
  pipeline : Pipeline
  fetch2Buffer : ThreadID → InputBuffer ForwardLineData
  decodeBuffer : ThreadID → InputBuffer ForwardInstData
  dummyBuffer : ThreadID → InputBuffer ForwardInstData
  executeBuffer : ThreadID → InputBuffer ForwardInstData

namespace BufferedPipeline

/-- The pipeline after construction. -/
def new (isa : Isa) (params : PipelineParams) (sizes : BufferSizes) (garbage : LvptIn) :
    BufferedPipeline :=
  { pipeline := Pipeline.new isa params garbage
    fetch2Buffer := fun _ => .new sizes.fetch2InputBufferSize
    decodeBuffer := fun _ => .new sizes.decodeInputBufferSize
    dummyBuffer := fun _ => .new sizes.executeDummyInputBufferSize
    executeBuffer := fun _ => .new sizes.executeInputBufferSize }

/-- The buffers of a stage after its evaluation. Each thread has popped `pops` elements. -/
def evaluateBuffers {α : Type} (buffers : ThreadID → InputBuffer α) (threadOf : α → ThreadID)
    (wire : Option α) (pops : ThreadID → Nat) (tid : ThreadID) : InputBuffer α :=
  (buffers tid).evaluate (forThread threadOf tid wire) (pops tid)

/-- The buffers of the next stage after the output of a stage has reserved its slot. -/
def reserveFor {α : Type} (buffers : ThreadID → InputBuffer α) (out : Option ThreadID)
    (tid : ThreadID) : InputBuffer α :=
  if out = some tid then (buffers tid).reserve else buffers tid

/-- The buffers of Fetch2 after Fetch1 has discarded a response and freed its slot. -/
def freeFor {α : Type} (buffers : ThreadID → InputBuffer α) (discarded : Option ThreadID)
    (tid : ThreadID) : InputBuffer α :=
  if discarded = some tid then (buffers tid).freeReservation else buffers tid

/-- A thread is scheduled only when the next stage has room for its output. -/
def Unblocked {α : Type} (buffers : ThreadID → InputBuffer α) (scheduled : Option ThreadID) :
    Prop :=
  ∀ tid ∈ scheduled, (buffers tid).canReserve = true

instance {α : Type} (buffers : ThreadID → InputBuffer α) (scheduled : Option ThreadID) :
    Decidable (Unblocked buffers scheduled) :=
  inferInstanceAs (Decidable (∀ tid ∈ scheduled, (buffers tid).canReserve = true))

/-- The packets of an instruction stage that its evaluation pops. -/
def instPops (before : PathStage) (wire : Option ForwardInstData) (after : PathStage)
    (tid : ThreadID) : Nat :=
  (before.pushPacket wire tid).inputBuffer.length - (after.threads tid).inputBuffer.length

/-- The lines that an evaluation of Fetch2 pops. -/
def linePops (before : Fetch2) (wire : Option ForwardLineData) (after : Fetch2)
    (tid : ThreadID) : Nat :=
  (before.pushLine wire tid).inputBuffer.length - (after.threads tid).inputBuffer.length

/-- `Pipeline::evaluate` with the buffers, from Execute to Fetch1. `executePops` is the number
of packets that Execute takes off each of its buffers. -/
def evaluate (b : BufferedPipeline) (inp : Pipeline.CycleInput) (executePops : ThreadID → Nat) :
    Option BufferedPipeline := do
  let p := b.pipeline
  let path := p.path
  let executeBranch := (Lib.DelayLine.push p.eToF1 inp.executeOut).1
  let executeBuffer := evaluateBuffers b.executeBuffer (·.threadId) path.eToE.read executePops
  let (dummy, dummyOut) := path.executeDummy.evaluate path.dToE.read inp.dummyScheduled
  guard (Unblocked executeBuffer inp.dummyScheduled)
  let dummyBuffer := evaluateBuffers b.dummyBuffer (·.threadId) path.dToE.read
    (instPops path.executeDummy path.dToE.read dummy)
  let (decode, decodeOut) := path.decode.evaluate path.f2ToD.read inp.decodeScheduled
  guard (Unblocked dummyBuffer inp.decodeScheduled)
  let decodeBuffer := evaluateBuffers b.decodeBuffer (·.threadId) path.f2ToD.read
    (instPops path.decode path.f2ToD.read decode)
  let (fetch2, fetch2Out, prediction) ← p.fetch2.evaluate
    { line := p.f1ToF2.read, executeBranch := executeBranch
      scheduled := inp.fetch2Scheduled, decoder := inp.decoder
      predictionGarbage := inp.predictionGarbage }
  guard (Unblocked decodeBuffer inp.fetch2Scheduled)
  let fetch2Buffer := evaluateBuffers b.fetch2Buffer (·.thread) p.f1ToF2.read
    (linePops p.fetch2 p.f1ToF2.read fetch2)
  -- Fetch1 reads the room in the buffers of Fetch2
  let inp := { inp with canReserve := fun tid => (fetch2Buffer tid).canReserve }
  let fetch1Input : Fetch1Input :=
    { executeBranch := executeBranch
      fetch2Branch := (Lib.DelayLine.push p.f2ToF1 prediction).1
      canReserve := inp.canReserve, priorityList := inp.priorityList, active := inp.active
      itlbAnswer := inp.itlbAnswer, icacheAccepts := inp.icacheAccepts }
  let pipeline ← p.evaluate inp
  return { pipeline := pipeline
           fetch2Buffer := freeFor (reserveFor fetch2Buffer (p.fetch1.fetchThread fetch1Input))
             (p.fetch1.discardedThread fetch1Input)
           decodeBuffer := reserveFor decodeBuffer (fetch2Out.map (·.threadId))
           dummyBuffer := reserveFor dummyBuffer (decodeOut.map (·.threadId))
           executeBuffer := reserveFor executeBuffer (dummyOut.map (·.threadId)) }

/-- The events of the pipeline. A cycle comes with what Execute pops. -/
inductive Event where
  | evaluate (inp : Pipeline.CycleInput) (executePops : ThreadID → Nat)
  | callback (e : Pipeline.Event)

/-- One event. The callbacks between cycles do not touch the buffers. -/
def step (b : BufferedPipeline) : Event → Option BufferedPipeline
  | .evaluate inp executePops => b.evaluate inp executePops
  | .callback (.evaluate _) => none
  | .callback e => (b.pipeline.step e).map fun p => { b with pipeline := p }

end BufferedPipeline

end Gem5.MyMinor
