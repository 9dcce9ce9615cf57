import Gem5.Proofs.MyMinor.Attribution

/-!
# `Gem5.Proofs.MyMinor.Buffers`: the input buffers never overflow

A slot of a buffer is reserved when something sets out for the buffer, and it is free again
when the thing is pushed, popped before it was pushed, or thrown away on the way. `Reserved`
says that a buffer between two evaluations has one reserved slot for each thing on its way,
and room for all of them. The lemmas on `Reserved` are the three ways in which the number
changes. `onWay_write` and `evaluate_inFlight` count what is on its way over one cycle of a
latch and of Fetch1.
-/

namespace Gem5.MyMinor

open Function List Lib ForwardLineData Fetch2

/-! ### One buffer -/

variable {α : Type}

theorem Queue.freeReservation_queue (q : Queue α) : q.freeReservation.queue = q.queue := by
  unfold Queue.freeReservation
  split <;> rfl

/-- A buffer between two evaluations: `n` slots are reserved, there is room for them, and no
push or reservation ever found the queue full. -/
structure Reserved {α : Type} (b : InputBuffer α) (cap n : Nat) : Prop where
  pushed : b.element = none
  reserved : b.queue.numReservedSlots = n
  capacity : b.queue.capacity = cap
  fits : b.queue.queue.length + n ≤ cap
  quiet : b.queue.warnings = 0

namespace Reserved
variable {α : Type} {b : InputBuffer α} {cap n : Nat}

theorem new (cap : Nat) : Reserved (InputBuffer.new cap : InputBuffer α) cap 0 :=
  ⟨rfl, rfl, rfl, Nat.zero_le _, rfl⟩

/-- A slot can be reserved when `canReserve` says so. -/
theorem reserve (h : Reserved b cap n) (hroom : b.canReserve = true) :
    Reserved b.reserve cap (n + 1) := by
  have hspace : b.queue.unreservedRemainingSpace ≠ 0 := by
    simpa [InputBuffer.canReserve, Queue.canReserve] using hroom
  -- a full buffer has no space, so the buffer is not full
  have hlt : b.queue.queue.length + n < cap := by
    refine lt_of_le_of_ne h.fits fun hfull => hspace ?_
    rw [Queue.unreservedRemainingSpace, h.reserved, h.capacity, hfull, Int.sub_self]
    rfl
  exact ⟨h.pushed, congrArg (· + 1) h.reserved, h.capacity, hlt, (if_neg hspace).trans h.quiet⟩

/-- A reservation is given back. -/
theorem freeReservation (h : Reserved b cap (n + 1)) : Reserved b.freeReservation cap n := by
  have hne : b.queue.numReservedSlots ≠ 0 := by
    rw [h.reserved]
    exact Nat.succ_ne_zero n
  have hfree : b.queue.freeReservation =
      { b.queue with numReservedSlots := b.queue.numReservedSlots - 1 } := if_pos hne
  refine ⟨h.pushed, ?_, ?_, ?_, ?_⟩ <;> rw [InputBuffer.freeReservation, hfree]
  · exact congrArg (· - 1) h.reserved
  · exact h.capacity
  · exact le_trans (Nat.le_succ _) h.fits
  · exact h.quiet

/-- A push takes a reserved slot. -/
theorem push (h : Reserved b cap (n + 1)) (x : α) :
    Reserved { b with queue := b.queue.push x } cap n := by
  have hfree := h.freeReservation
  have hlen : b.queue.freeReservation.queue.length + 1 + n ≤ cap := by
    have := h.fits
    rw [Queue.freeReservation_queue]
    omega
  refine ⟨h.pushed, hfree.reserved, hfree.capacity, ?_, ?_⟩
  · rw [Queue.push, length_append]
    exact hlen
  · refine (if_neg (Nat.not_lt.mpr ?_)).trans hfree.quiet
    exact le_trans (le_of_add_le_left hlen) (le_of_eq hfree.capacity.symm)

/-- Pops of elements that were pushed. -/
theorem pops (h : Reserved b cap n) (k : Nat) : Reserved (InputBuffer.pop^[k] b) cap n := by
  induction k generalizing b with
  | zero => exact h
  | succ k ih =>
    refine ih ?_
    have hpop : b.pop = { b with queue := b.queue.pop } := by rw [InputBuffer.pop, h.pushed]
    rw [hpop]
    refine { h with fits := le_trans ?_ h.fits }
    refine Nat.add_le_add_right ?_ n
    rw [Queue.pop, length_tail]
    exact Nat.sub_le _ 1

/-- The calls of one evaluation: the element on the wire takes its slot, pushed or not. -/
theorem evaluate_some (h : Reserved b cap (n + 1)) (x : α) (k : Nat) :
    Reserved (b.evaluate (some x) k) cap n := by
  have hpushTail : ∀ {c : InputBuffer α} {m}, Reserved c cap m → c.pushTail = c := by
    intro c m hc
    rw [InputBuffer.pushTail, hc.pushed]
  by_cases hempty : b.queue.queue.isEmpty = true
  · have htail : b.setTail x = { b with element := some x } := if_pos hempty
    cases k with
    | zero =>
      rw [InputBuffer.evaluate, htail]
      exact { h.push x with pushed := rfl }
    | succ k =>
      -- the first pop takes the element that was not pushed
      have hpop : Reserved ((b.setTail x).pop) cap n := by
        rw [htail]
        exact { h.freeReservation with pushed := rfl }
      rw [InputBuffer.evaluate, iterate_succ_apply, hpushTail (hpop.pops k)]
      exact hpop.pops k
  · have htail : b.setTail x = { b with queue := b.queue.push x } := if_neg hempty
    have hpush := (h.push x).pops k
    rw [InputBuffer.evaluate, htail, hpushTail hpush]
    exact hpush

end Reserved

/-! ### What is on its way -/

/-- The fetches of a thread that are in flight. -/
def Fetch1.inFlight (f : Fetch1) (t : ThreadID) : Nat :=
  f.ids.countP fun id => id.threadId == t

namespace Fetch1
variable (f : Fetch1) (inp : Fetch1Input) (t : ThreadID)

/-- The requests in flight before a line is taken: one more for the thread that is fetched. -/
theorem beforeLine_inFlight :
    (f.beforeLine inp).inFlight t = f.inFlight t + isThread (f.fetchThread inp) t := by
  obtain ⟨-, ⟨hnone, hids, -⟩ | ⟨id, hsome, -, hids, -⟩⟩ := f.beforeLine_frame inp
  · rw [inFlight, hids, hnone]
    rfl
  · simp only [inFlight, hids, hsome, countP_append, countP_singleton, isThread,
      Option.some.injEq, beq_iff_eq]

/-- A complete request leaves as a line or is discarded. -/
theorem takeLine_inFlight :
    f.takeLine.1.inFlight t + isThread (f.takeLine.2.map (·.thread)) t +
      isThread f.discardedResponse t = f.inFlight t := by
  have htake := f.takeLine_spec.2
  cases hline : f.takeLine.2 with
  | none =>
    rw [hline] at htake
    rcases htake with ⟨hids, hdisc⟩ | ⟨id, hids, hdisc⟩
    · simp [inFlight, hids, hdisc, isThread]
    · simp [inFlight, ← hids, hdisc, isThread, countP_cons]
  | some line =>
    rw [hline] at htake
    simp [inFlight, ← htake.1, htake.2.1, isThread, countP_cons, thread]

/-- The fetches in flight over one evaluation. -/
theorem evaluate_inFlight :
    (f.evaluate inp).1.inFlight t + isThread ((f.evaluate inp).2.map (·.thread)) t +
        isThread (f.discardedThread inp) t =
      f.inFlight t + isThread (f.fetchThread inp) t := by
  rw [← f.beforeLine_inFlight inp t]
  exact (f.beforeLine inp).takeLine_inFlight t

/-- The thread that is fetched has room in the next stage. -/
theorem canReserve_of_fetchThread {inp : Fetch1Input} {t : ThreadID}
    (h : f.fetchThread inp = some t) : inp.canReserve t = true := by
  unfold fetchThread at h
  dsimp only at h
  split at h
  · have hsched := find?_some h
    rw [(reactToBranches_frame _ _ _).2.2.2.2 t] at hsched
    simp only [Bool.not_not, Bool.and_eq_true] at hsched
    exact hsched.1.2
  · cases h

end Fetch1

/-! ### The elements of a buffer -/

namespace InputBuffer
variable {α : Type} {b : InputBuffer α}

theorem pops_contents (b : InputBuffer α) (k : Nat) : (pop^[k] b).contents = b.contents.drop k := by
  induction k generalizing b with
  | zero => rfl
  | succ k ih =>
    have hpop : b.pop.contents = b.contents.drop 1 := by
      cases hb : b.element with
      | none => simp [pop, contents, hb, Queue.pop]
      | some => simp [pop, contents, hb, Queue.freeReservation_queue]
    rw [iterate_succ_apply, ih, hpop, drop_drop, Nat.add_comm]

theorem pop_element (b : InputBuffer α) : b.pop.element = none := by
  cases hb : b.element with
  | none | some => simp [pop, hb]

/-- The tail is pushed behind an empty queue, or there is none. -/
theorem pushTail_contents (h : b.element = none ∨ b.queue.queue = []) :
    b.pushTail.contents = b.contents := by
  cases hb : b.element with
  | none => simp [pushTail, hb]
  | some x =>
    have hqueue : b.queue.queue = [] := h.resolve_left (by rw [hb]; exact Option.some_ne_none x)
    simp [pushTail, contents, hb, Queue.push, Queue.freeReservation_queue, hqueue]

theorem setTail_contents (h : b.element = none) (x : α) :
    (b.setTail x).contents = b.contents ++ [x] ∧
      ((b.setTail x).element = none ∨ (b.setTail x).queue.queue = []) := by
  by_cases hempty : b.queue.queue = []
  · simp [setTail, contents, h, hempty]
  · simp [setTail, contents, h, hempty, Queue.push, Queue.freeReservation_queue]

/-- One evaluation: the element on the wire comes in at the end, and the popped ones leave. -/
theorem evaluate_contents (h : b.element = none) (wire : Option α) (k : Nat) :
    (b.evaluate wire k).contents = (b.contents ++ wire.toList).drop k := by
  cases wire with
  | none => simp [evaluate, pops_contents]
  | some x =>
    obtain ⟨hset, htail⟩ := setTail_contents h x
    have hpops : (pop^[k] (b.setTail x)).element = none ∨
        (pop^[k] (b.setTail x)).queue.queue = [] := by
      cases k with
      | zero => exact htail
      | succ =>
        rw [iterate_succ_apply']
        exact Or.inl (pop_element _)
    rw [evaluate, pushTail_contents hpops, pops_contents, hset]
    rfl

end InputBuffer

/-! ### The stages -/

/-- The output packet is of its thread. -/
theorem sized_threadId {tid : ThreadID} {width : Nat} {out : List DynInst} {d : ForwardInstData}
    (h : d ∈ ForwardInstData.sized tid width out) : d.threadId = tid := by
  unfold ForwardInstData.sized ForwardInstData.ofInsts at h
  split at h
  · cases h
    rfl
  · cases h

/-- The output of a stage is of the scheduled thread. -/
theorem PathStage.evaluate_thread (s : PathStage) (wire : Option ForwardInstData)
    (scheduled : Option ThreadID) :
    ∀ d ∈ (s.evaluate wire scheduled).2, scheduled = some d.threadId := by
  intro d hd
  cases scheduled with
  | none => cases hd
  | some tid => rw [sized_threadId hd]

/-- The output of Fetch2 is of the scheduled thread. -/
theorem Fetch2.evaluate_thread (f : Fetch2) (inp : Fetch2Input) {f' : Fetch2}
    {out : Option ForwardInstData} {prediction : BranchData}
    (h : f.evaluate inp = some (f', out, prediction)) :
    ∀ d ∈ out, inp.scheduled = some d.threadId := by
  intro d hd
  unfold evaluate at h
  split at h
  · cases h
    cases hd
  · rename_i tid hsched
    obtain ⟨l, -, heq⟩ := Option.map_eq_some_iff.mp h
    cases heq
    rw [hsched, sized_threadId hd]

/-! ### The whole pipeline -/

namespace BufferedPipeline

/-- The lines of a thread on their way to Fetch2. -/
def linesOnWay (b : BufferedPipeline) (t : ThreadID) : Nat :=
  b.pipeline.fetch1.inFlight t + onWay (·.thread) b.pipeline.f1ToF2 t

/-- Each buffer has a slot for each element on its way, and its elements are the input of
the stage. -/
structure Inv (sizes : BufferSizes) (b : BufferedPipeline) : Prop where
  fetch2 : ∀ t, Reserved (b.fetch2Buffer t) sizes.fetch2InputBufferSize (b.linesOnWay t)
  decode : ∀ t, Reserved (b.decodeBuffer t) sizes.decodeInputBufferSize
    (onWay (·.threadId) b.pipeline.path.f2ToD t)
  dummy : ∀ t, Reserved (b.dummyBuffer t) sizes.executeDummyInputBufferSize
    (onWay (·.threadId) b.pipeline.path.dToE t)
  execute : ∀ t, Reserved (b.executeBuffer t) sizes.executeInputBufferSize
    (onWay (·.threadId) b.pipeline.path.eToE t)
  fetch2_lines : ∀ t, (b.fetch2Buffer t).contents = (b.pipeline.fetch2.threads t).inputBuffer
  decode_packets : ∀ t, (b.decodeBuffer t).contents.length =
    (b.pipeline.path.decode.threads t).inputBuffer.length
  dummy_packets : ∀ t, (b.dummyBuffer t).contents.length =
    (b.pipeline.path.executeDummy.threads t).inputBuffer.length

section
variable {α : Type} {buffers : ThreadID → InputBuffer α} {threadOf : α → ThreadID} {cap : Nat}
variable {t : ThreadID}

theorem forThread_of_eq {x : α} (h : threadOf x = t) : forThread threadOf t (some x) = some x := by
  simp [forThread, Option.filter, h]

theorem forThread_of_ne {x : α} (h : threadOf x ≠ t) : forThread threadOf t (some x) = none := by
  simp [forThread, Option.filter, h]

theorem forThread_length (threadOf : α → ThreadID) (t : ThreadID) (wire : Option α) :
    (forThread threadOf t wire).toList.length = isThread (wire.map threadOf) t := by
  cases wire with
  | none => rfl
  | some x => by_cases hx : threadOf x = t <;> simp [forThread, Option.filter, isThread, hx]

/-- The element on the wire has arrived. -/
theorem evaluateBuffers_reserved {n : Nat} (wire : Option α) (pops : ThreadID → Nat)
    (h : Reserved (buffers t) cap (n + isThread (wire.map threadOf) t)) :
    Reserved (evaluateBuffers buffers threadOf wire pops t) cap n := by
  unfold evaluateBuffers
  by_cases ht : wire.map threadOf = some t
  · obtain ⟨x, rfl, hx⟩ := Option.map_eq_some_iff.mp ht
    rw [forThread_of_eq hx]
    rw [isThread, if_pos ht] at h
    exact h.evaluate_some x _
  · have hwire : forThread threadOf t wire = none := by
      cases wire with
      | none => rfl
      | some =>
        exact forThread_of_ne fun hx => ht (congrArg some hx)
    rw [hwire]
    rw [isThread, if_neg ht] at h
    exact h.pops _

/-- One slot more for the thread of the output. -/
theorem reserveFor_reserved {n : Nat} {out : Option ThreadID} (h : Reserved (buffers t) cap n)
    (hroom : out = some t → (buffers t).canReserve = true) :
    Reserved (reserveFor buffers out t) cap (n + isThread out t) := by
  unfold reserveFor isThread
  split
  · rename_i ht
    exact h.reserve (hroom ht)
  · exact h

/-- A latch and the buffers behind it over one cycle. -/
theorem latch_reserved {latch : ForwardLatch α}
    (h : ∀ t, Reserved (buffers t) cap (onWay threadOf latch t)) (pops : ThreadID → Nat)
    {out : Option α} {scheduled : Option ThreadID} (hout : ∀ x ∈ out, scheduled = some (threadOf x))
    (hroom : Unblocked (evaluateBuffers buffers threadOf latch.read pops) scheduled)
    (t : ThreadID) :
    Reserved
      (reserveFor (evaluateBuffers buffers threadOf latch.read pops) (out.map threadOf) t)
      cap (onWay threadOf (latch.write out) t) := by
  have harrived : Reserved (evaluateBuffers buffers threadOf latch.read pops t) cap
      (onWay threadOf latch.tail t) := by
    refine evaluateBuffers_reserved _ _ ?_
    rw [← onWay_read]
    exact h t
  rw [onWay_write]
  refine reserveFor_reserved harrived fun ht => ?_
  obtain ⟨x, hx, rfl⟩ := Option.map_eq_some_iff.mp ht
  exact hroom _ (hout x hx)

end

variable {t : ThreadID} {α : Type} {sizes : BufferSizes} {b b' : BufferedPipeline}

/-- A discarded response frees its slot. -/
theorem freeFor_reserved {buffers : ThreadID → InputBuffer α} {cap n : Nat}
    {discarded : Option ThreadID} (h : Reserved (buffers t) cap (n + isThread discarded t)) :
    Reserved (freeFor buffers discarded t) cap n := by
  unfold freeFor
  unfold isThread at h
  split
  · rename_i ht
    rw [if_pos ht] at h
    exact h.freeReservation
  · rename_i ht
    rw [if_neg ht] at h
    exact h

theorem of_guard {P : Prop} [Decidable P] {u : Unit} (h : (guard P : Option Unit) = some u) :
    P := by
  by_contra hP
  simp [hP] at h

/-- The elements of a stage's buffer over one evaluation. -/
theorem evaluateBuffers_contents {buffers : ThreadID → InputBuffer α} {threadOf : α → ThreadID}
    (wire : Option α) (pops : ThreadID → Nat) (h : (buffers t).element = none) :
    (evaluateBuffers buffers threadOf wire pops t).contents =
      ((buffers t).contents ++ (forThread threadOf t wire).toList).drop (pops t) :=
  InputBuffer.evaluate_contents h _ _

variable (buffers : ThreadID → InputBuffer α)

@[simp] theorem reserveFor_contents (out : Option ThreadID) (t : ThreadID) :
    (reserveFor buffers out t).contents = (buffers t).contents := by
  unfold reserveFor
  split <;> rfl

@[simp] theorem freeFor_contents (discarded : Option ThreadID) (t : ThreadID) :
    (freeFor buffers discarded t).contents = (buffers t).contents := by
  unfold freeFor
  split
  · simp [InputBuffer.contents, InputBuffer.freeReservation, Queue.freeReservation_queue]
  · rfl

theorem pushLine_inputBuffer (f : Fetch2) (wire : Option ForwardLineData) (t : ThreadID) :
    (f.pushLine wire t).inputBuffer =
      (f.threads t).inputBuffer ++ (forThread (·.thread) t wire).toList := by
  cases wire with
  | none => exact (append_nil _).symm
  | some line =>
    by_cases ht : line.thread = t
    · rw [forThread_of_eq ht, pushLine]
      exact congrArg Fetch2Thread.inputBuffer (if_pos ht)
    · rw [forThread_of_ne ht, pushLine]
      exact (congrArg Fetch2Thread.inputBuffer (if_neg ht)).trans (append_nil _).symm

/-- The packets of an instruction stage over one evaluation: as many as the stage has. -/
theorem instBuffers_length {buffers : ThreadID → InputBuffer ForwardInstData} {s s' : PathStage}
    {wire : Option ForwardInstData} (hpushed : (buffers t).element = none)
    (h : (buffers t).contents.length = (s.threads t).inputBuffer.length)
    (hle : (s'.threads t).inputBuffer.length ≤ (s.pushPacket wire t).inputBuffer.length) :
    (evaluateBuffers buffers (·.threadId) wire (instPops s wire s') t).contents.length =
      (s'.threads t).inputBuffer.length := by
  have hwire := forThread_length (·.threadId) t wire
  have hpacket := s.pushPacket_length wire t
  rw [evaluateBuffers_contents wire _ hpushed, length_drop, length_append, h, hwire, instPops]
  omega

/-- The slots of Fetch2 over one cycle: a line arrives, a fetch is started, and a response
is passed on or discarded. -/
theorem fetch2_reserved {cap : Nat}
    (h : Reserved (b.fetch2Buffer t) cap (b.linesOnWay t)) (pops : ThreadID → Nat)
    (inp : Fetch1Input) {arrived : ThreadID → InputBuffer ForwardLineData}
    (harr : arrived = evaluateBuffers b.fetch2Buffer (·.thread) b.pipeline.f1ToF2.read pops)
    (hroom : inp.canReserve = fun t => (arrived t).canReserve) :
    Reserved (freeFor (reserveFor arrived (b.pipeline.fetch1.fetchThread inp))
        (b.pipeline.fetch1.discardedThread inp) t) cap
      ((b.pipeline.fetch1.evaluate inp).1.inFlight t + onWay (·.thread)
        (b.pipeline.f1ToF2.write (b.pipeline.fetch1.evaluate inp).2) t) := by
  have harrived : Reserved (arrived t) cap
      (b.pipeline.fetch1.inFlight t + onWay (·.thread) b.pipeline.f1ToF2.tail t) := by
    rw [harr]
    refine evaluateBuffers_reserved _ _ ?_
    rw [Nat.add_assoc, ← onWay_read]
    exact h
  have hfree : b.pipeline.fetch1.fetchThread inp = some t → (arrived t).canReserve = true := by
    intro ht
    have hcan := b.pipeline.fetch1.canReserve_of_fetchThread ht
    rw [hroom] at hcan
    exact hcan
  have hfetched := reserveFor_reserved harrived hfree
  refine freeFor_reserved ?_
  have hcount := b.pipeline.fetch1.evaluate_inFlight inp t
  rw [onWay_write]
  convert hfetched using 1
  omega

/-- A cycle keeps the invariant. -/
theorem evaluate_inv (hinv : Inv sizes b) {inp : Pipeline.CycleInput} {executePops : ThreadID → Nat}
    (h : b.evaluate inp executePops = some b') : Inv sizes b' := by
  unfold evaluate Pipeline.evaluate at h
  simp only [Option.bind_eq_bind, Option.bind_eq_some_iff, Option.pure_def, Option.some.injEq] at h
  obtain ⟨_, hroom₁, _, hroom₂, ⟨fetch2, fetch2Out, prediction⟩, hfetch2, _, hroom₃, p',
    ⟨_, hfetch2', rfl⟩, rfl⟩ := h
  -- the pipeline evaluates Fetch2 once more
  obtain rfl := Option.some.inj (hfetch2.symm.trans hfetch2')
  have hsuffix := evaluate_suffix b.pipeline.fetch2 _ hfetch2
  exact
    { fetch2 := fun t => fetch2_reserved (hinv.fetch2 t) _ _ rfl rfl
      decode := latch_reserved hinv.decode _ (b.pipeline.fetch2.evaluate_thread _ hfetch2)
        (of_guard hroom₃)
      dummy := latch_reserved hinv.dummy _ (PathStage.evaluate_thread _ _ _) (of_guard hroom₂)
      execute := latch_reserved hinv.execute _ (PathStage.evaluate_thread _ _ _) (of_guard hroom₁)
      fetch2_lines := fun t => by
        -- the stage has dropped the lines that the model pops
        rw [freeFor_contents, reserveFor_contents, evaluateBuffers_contents _ _
          (hinv.fetch2 t).pushed, hinv.fetch2_lines t, ← pushLine_inputBuffer]
        exact (suffix_iff_eq_drop.mp (hsuffix t)).symm
      decode_packets := fun t => by
        rw [reserveFor_contents]
        exact instBuffers_length (hinv.decode t).pushed (hinv.decode_packets t)
          (PathStage.evaluate_suffix ..).length_le
      dummy_packets := fun t => by
        rw [reserveFor_contents]
        exact instBuffers_length (hinv.dummy t).pushed (hinv.dummy_packets t)
          (PathStage.evaluate_suffix ..).length_le }

/-- Every event keeps the invariant. A callback changes neither the requests in flight nor the
latches. -/
theorem step_inv {e : Event} (hinv : Inv sizes b) (h : step b e = some b') : Inv sizes b' := by
  unfold step at h
  split at h
  · exact evaluate_inv hinv h
  · cases h
  · next e hcycle =>
    obtain ⟨p, hp, rfl⟩ := Option.map_eq_some_iff.mp h
    obtain ⟨inp, rfl⟩ | ⟨f, hf, rfl⟩ := Pipeline.step_cases hp
    · exact absurd rfl (hcycle inp)
    · refine { hinv with fetch2 := fun t => ?_ }
      have hfetch2 := hinv.fetch2 t
      rw [linesOnWay, Fetch1.inFlight, ← hf.ids] at hfetch2
      exact hfetch2

/-- The pipeline starts with nothing on its way. -/
theorem new_inv (isa : Isa) (params : PipelineParams) (sizes : BufferSizes) (garbage : LvptIn) :
    Inv sizes (new isa params sizes garbage) := by
  have hempty : ∀ {α : Type} (threadOf : α → ThreadID) (size n : Nat) (t : ThreadID),
      Reserved (InputBuffer.new size : InputBuffer α) size
        (onWay threadOf (ForwardLatch.new n) t) := by
    intro α threadOf size n t
    have hway : onWay threadOf (ForwardLatch.new n) t = 0 :=
      countP_eq_zero.mpr fun x hx => by simp [eq_of_mem_replicate hx]
    rw [hway]
    exact Reserved.new size
  exact
    { fetch2 := fun t => by
        have hline := hempty thread sizes.fetch2InputBufferSize
          params.fetch1ToFetch2ForwardDelay t
        rw [← Nat.zero_add (onWay _ _ _)] at hline
        exact hline
      decode := hempty _ _ _
      dummy := hempty _ _ _
      execute := hempty _ _ _
      fetch2_lines := fun _ => rfl
      decode_packets := fun _ => rfl
      dummy_packets := fun _ => rfl }

/-- In every state the pipeline reaches, each input buffer has exactly one reserved slot for
each line or packet that is on its way to it, its elements and its reserved slots fit into
it, and no push ever found it full. -/
theorem buffers_never_overflow (isa : Isa) (params : PipelineParams) (sizes : BufferSizes)
    (garbage : LvptIn) (events : List Event) (b : BufferedPipeline)
    (hrun : Lib.run step (new isa params sizes garbage) events = some b) (t : ThreadID) :
    Reserved (b.fetch2Buffer t) sizes.fetch2InputBufferSize
        (b.pipeline.fetch1.inFlight t + onWay (·.thread) b.pipeline.f1ToF2 t) ∧
      Reserved (b.decodeBuffer t) sizes.decodeInputBufferSize
        (onWay (·.threadId) b.pipeline.path.f2ToD t) ∧
      Reserved (b.dummyBuffer t) sizes.executeDummyInputBufferSize
        (onWay (·.threadId) b.pipeline.path.dToE t) ∧
      Reserved (b.executeBuffer t) sizes.executeInputBufferSize
        (onWay (·.threadId) b.pipeline.path.eToE t) := by
  have hinv : Inv sizes b :=
    run_invariant (fun _ _ _ hs hstep => step_inv hs hstep) (new_inv isa params sizes garbage) hrun
  exact ⟨hinv.fetch2 t, hinv.decode t, hinv.dummy t, hinv.execute t⟩

/-! ### Full buffers -/

/-- Buffers of one element. -/
def oneSlot : BufferSizes :=
  { fetch2InputBufferSize := 1, decodeInputBufferSize := 1, executeDummyInputBufferSize := 1
    executeInputBufferSize := 1 }

/-- Fetch2 writes two instructions in a cycle, Decode one. -/
def narrowDecode : PipelineParams :=
  { Pipeline.lineParams with executeDummyInputWidth := 1 }

/-- A cycle in which the given stages schedule thread 0. -/
def cycleOf (fetch2 : List DecoderStep) (decode dummy : Bool) (executePops : Nat) : Event :=
  .evaluate
    { Pipeline.quietCycle with
      fetch2Scheduled := if fetch2.isEmpty then none else some 0, decoder := fetch2
      decodeScheduled := if decode then some 0 else none
      dummyScheduled := if dummy then some 0 else none } fun _ => executePops

/-- A line with four loads is fetched: the ITLB answers inside the call. Fetch2 sends two packets
of two loads. Then Execute, ExecuteDummy and Decode have one packet each. -/
def fill : List Event :=
  [.callback (.wakeupFetch 0 { instAddr := 0x1000, microPC := 0 }),
    .evaluate { Pipeline.quietCycle with
      active := fun _ => true, itlbAnswer := some ⟨noFault, true⟩ } fun _ => 0,
    .callback (.recvTimingResp 1), cycleOf [] false false 0,
    cycleOf [Pipeline.decodeLoad 0x1000, Pipeline.decodeLoad 0x1004] false false 0,
    cycleOf [] false false 0, cycleOf [] true false 0, cycleOf [] false false 0,
    cycleOf [Pipeline.decodeLoad 0x1008, Pipeline.decodeLoad 0x100c] true true 0,
    cycleOf [] false false 0]

/-- Execute takes a packet in each cycle, and the other stages move up. -/
def drain : List Event :=
  [cycleOf [] true true 1, cycleOf [] true true 1, cycleOf [] false true 1,
    cycleOf [] false false 1]

/-- The packets in the buffers of Decode, ExecuteDummy and Execute. -/
def queued (b : BufferedPipeline) : List Nat :=
  [(b.decodeBuffer 0).queue.queue.length, (b.dummyBuffer 0).queue.queue.length,
    (b.executeBuffer 0).queue.queue.length]

/-- With buffers of one element the three later buffers fill up and empty again, and all four
loads enter Execute. -/
theorem buffers_never_overflow_filled :
    (∃ b, Lib.run step (new Pipeline.noMacroops narrowDecode oneSlot Pipeline.noTraining) fill
          = some b ∧ b.queued = [1, 1, 1] ∧
        Reserved (b.decodeBuffer 0) 1 (onWay (·.threadId) b.pipeline.path.f2ToD 0) ∧
        Reserved (b.dummyBuffer 0) 1 (onWay (·.threadId) b.pipeline.path.dToE 0) ∧
        Reserved (b.executeBuffer 0) 1 (onWay (·.threadId) b.pipeline.path.eToE 0)) ∧
      ∃ b, Lib.run step (new Pipeline.noMacroops narrowDecode oneSlot Pipeline.noTraining)
          (fill ++ drain) = some b ∧ b.queued = [0, 0, 0] ∧
        (b.pipeline.path.received 0).length = 4 := by
  refine ⟨?_, ?_⟩
  · obtain ⟨b, hrun, hqueued⟩ : ∃ b ∈ run step
        (new Pipeline.noMacroops narrowDecode oneSlot Pipeline.noTraining) fill,
        b.queued = [1, 1, 1] := by
      decide +kernel
    exact ⟨b, hrun, hqueued, (buffers_never_overflow Pipeline.noMacroops narrowDecode oneSlot
      Pipeline.noTraining fill b hrun 0).2⟩
  · show ∃ b ∈ run step (new Pipeline.noMacroops narrowDecode oneSlot Pipeline.noTraining)
      (fill ++ drain), b.queued = [0, 0, 0] ∧ (b.pipeline.path.received 0).length = 4
    decide +kernel

end BufferedPipeline

end Gem5.MyMinor
