import Mathlib.Tactic.Linarith
import Gem5.Lib.Run
import Gem5.MyMinor.DecodePath
import Gem5.Proofs.MyMinor.Decode

/-!
# `Gem5.Proofs.MyMinor.DecodePath`: nothing is lost between Fetch2 and Execute

`Tracks` puts the two stages together: what has entered Execute is the beginning of the
decomposition of what left Fetch2, whatever the schedule.

Packets in a latch move on in every cycle, and a stage that is scheduled with a packet in its
buffer writes an instruction or pops the packet. `Left` adds this up to a number that each cycle
lowers, so the path drains once Fetch2 sends nothing more of the thread. The result for the
whole path is `received_expands_sent`.
-/

namespace Gem5.MyMinor

open List ForwardLatch DynInst

/-! ### The whole path -/

namespace DecodePath

/-- Both stages have turned what was put into their latches into what they wrote. -/
structure Tracks (isa : Isa) (s : DecodePath) (t : ThreadID) : Prop where
  decode_emit : s.decode.emit = Decode.emit isa
  dummy_emit : s.executeDummy.emit = ExecuteDummy.emit
  stages : ∃ mid, StageTracks s.decode s.f2ToD t (s.sent t) mid ∧
    StageTracks s.executeDummy s.dToE t mid (s.received t ++ s.eToE.flatMap (packetInsts t))

/-- The path starts empty. -/
theorem init_tracks (isa : Isa) (params : PathParams) (t : ThreadID) :
    Tracks isa (init isa params) t := by
  have hlatch : ∀ n, (ForwardLatch.new n).flatMap (packetInsts t) = [] := by
    intro n
    refine flatMap_eq_nil_iff.mpr fun p hp => ?_
    rw [eq_of_mem_replicate hp]
    rfl
  have hok : StageThread.init.Ok := ⟨fun _ => rfl, fun _ _ h => (by cases h), fun h => by cases h⟩
  refine ⟨rfl, rfl, [], ⟨hok, ?_⟩, ⟨hok, ?_⟩⟩
  · simp only [init, hlatch, append_nil]
    exact .nil _ _
  · simp only [init, hlatch, append_nil]
    exact .nil _ _

section
variable {isa : Isa} {s : DecodePath} {t : ThreadID}

theorem Tracks.decode_lawful (h : Tracks isa s t) : LawfulEmit s.decode.emit := by
  rw [h.decode_emit]
  exact Decode.emit_lawful isa

theorem Tracks.dummy_lawful (h : Tracks isa s t) : LawfulEmit s.executeDummy.emit := by
  rw [h.dummy_emit]
  exact ExecuteDummy.emit_lawful

/-- One cycle, for any packet from Fetch2 and any schedule. -/
theorem Tracks.cycle (h : Tracks isa s t) (inp : PathInput) : Tracks isa (s.cycle inp) t := by
  obtain ⟨mid, hdecode, hdummy⟩ := h.stages
  have hdecode' := hdecode.evaluate h.decode_lawful inp.packet inp.decodeThread
  have hdummy' := hdummy.evaluate h.dummy_lawful
    (s.decode.evaluate s.f2ToD.read inp.decodeThread).2 inp.dummyThread
  refine ⟨(PathStage.evaluate_frame ..).1.trans h.decode_emit,
    (PathStage.evaluate_frame ..).1.trans h.dummy_emit, _, hdecode', ?_⟩
  rw [flatMap_eq, ← append_assoc, append_assoc _ _ (packetInsts _ _), ← flatMap_write] at hdummy'
  exact hdummy'

/-- Any list of cycles. The induction is on the list. -/
theorem Tracks.after (h : Tracks isa s t) (inputs : List PathInput) :
    Tracks isa (s.after inputs) t := by
  induction inputs generalizing s with
  | nil => exact h
  | cons inp inputs ih => exact ih (h.cycle inp)

/-- What has entered Execute is the beginning of the decomposition of what left Fetch2, and all
of it once nothing of the thread is under way. -/
theorem Tracks.received (h : Tracks isa s t) :
    ∃ outs rest micro, Expands isa (s.sent t) none outs rest micro ∧
      s.received t <+: renumber 2 outs ∧
      (s.Empty t → rest = [] ∧ micro = none ∧ s.received t = renumber 2 outs) := by
  obtain ⟨mid, hdecode, hdummy⟩ := h.stages
  have hd := hdecode.consumes
  have he := hdummy.consumes
  rw [h.decode_emit] at hd
  rw [h.dummy_emit] at he
  obtain ⟨outs, hmid, hexpands⟩ := Decode.expands_of_consumes hd (fun hm => by cases hm)
  obtain ⟨used, hused, hreceived⟩ := ExecuteDummy.renumber_of_consumes he
  -- both stages number from their own counter, and the second numbering is what is seen
  have houts : renumber 2 outs =
      s.received t ++ (s.eToE.flatMap (packetInsts t) ++ renumber (2 + used.length)
        ((s.executeDummy.threads t).pending ++ s.dToE.flatMap (packetInsts t))) := by
    rw [← renumber_renumber 2 1 outs, show renumber 1 outs = mid from hmid.symm, hused,
      renumber_append, ← append_assoc, show renumber 2 used = _ from hreceived.symm]
  refine ⟨outs, _, _, hexpands, ⟨_, houts.symm⟩, ?_⟩
  rintro ⟨hf2ToD, hdecodeBuf, hdToE, hdummyBuf, heToE⟩
  refine ⟨?_, ?_, ?_⟩
  · rw [hf2ToD, StageThread.pending, StageThread.unread_of_empty hdecodeBuf]
    rfl
  · refine if_neg fun hm => ?_
    obtain ⟨i, rest, hi, -⟩ := hdecode.ok.macroop hm
    rw [StageThread.unread_of_empty hdecodeBuf] at hi
    cases hi
  · rw [houts, heToE, hdToE, StageThread.pending, StageThread.unread_of_empty hdummyBuf]
    exact (append_nil _).symm

/-- What holds of all instructions that left Fetch2, and is kept by a decomposition and by a
new number, holds of all that enter Execute. -/
theorem Tracks.forall_received {R : DynInst → Prop} (h : Tracks isa s t)
    (hmicro : ∀ i pc m, i.decomposed = true → R i → R (i.microOp pc m))
    (hnumber : ∀ i n, R i → R (number n i)) (hsent : ∀ i ∈ s.sent t, R i) :
    ∀ i ∈ s.received t, R i := by
  obtain ⟨outs, rest, micro, hexpands, hbegin, -⟩ := h.received
  exact fun i hi => forall_mem_renumber 2 hnumber (hexpands.forall_mem hmicro hsent) i
    (hbegin.subset hi)

end

end DecodePath

/-! ### The path drains -/

/-- 1 for a packet of the thread. -/
def held (t : ThreadID) (p : Option ForwardInstData) : Nat :=
  isThread (p.map ForwardInstData.threadId) t

/-- The packets of the thread in a latch. -/
def heldIn (t : ThreadID) (latch : ForwardLatch ForwardInstData) : Nat :=
  onWay ForwardInstData.threadId latch t

/-- The cycles until the packets of the thread have left a latch, added up. -/
def latchWork (t : ThreadID) : ForwardLatch ForwardInstData → Nat
  | [] => 0
  | p :: latch => heldIn t (p :: latch) + latchWork t latch

/-- The packets of the thread in front of a stage: those in its buffer, and those in its latch
with the cycles that they need to leave it. -/
def backlog (s : PathStage) (latch : ForwardLatch ForwardInstData) (t : ThreadID) : Nat :=
  (s.threads t).inputBuffer.length + heldIn t latch + latchWork t latch

section
variable (t : ThreadID) (p : Option ForwardInstData)

/-- A packet of the thread has an instruction. -/
theorem held_eq_zero : held t p = 0 ↔ packetInsts t p = [] := by
  cases p with
  | none => exact ⟨fun _ => rfl, fun _ => rfl⟩
  | some p =>
    by_cases ht : p.threadId = t
    · subst ht
      simp [held, isThread, packetInsts_ne_nil]
    · simp [held, isThread, packetInsts, ht]

theorem held_le : held t p ≤ (packetInsts t p).length := by
  by_cases h : packetInsts t p = []
  · rw [(held_eq_zero t p).mpr h]
    exact Nat.zero_le _
  · refine le_trans ?_ (length_pos_of_ne_nil h)
    unfold held isThread
    split <;> decide

variable (latch : ForwardLatch ForwardInstData)

theorem heldIn_eq_zero : heldIn t latch = 0 ↔ latch.flatMap (packetInsts t) = [] := by
  induction latch with
  | nil => exact ⟨fun _ => rfl, fun _ => rfl⟩
  | cons q latch ih =>
    rw [heldIn, onWay_cons, Nat.add_eq_zero_iff, flatMap_cons, append_eq_nil_iff,
      ← held_eq_zero t q, ← ih, and_comm]
    rfl

theorem heldIn_read : heldIn t latch = heldIn t latch.tail + held t latch.read :=
  onWay_read ..

theorem heldIn_write : heldIn t (latch.write p) = heldIn t latch.tail + held t p :=
  onWay_write ..

theorem latchWork_eq : latchWork t latch = heldIn t latch + latchWork t latch.tail := by
  cases latch <;> rfl

/-- In an empty latch there is nothing to wait for. -/
theorem latchWork_of_heldIn (h : heldIn t latch = 0) : latchWork t latch = 0 := by
  induction latch with
  | nil => rfl
  | cons q latch ih =>
    have htail := heldIn_read t (q :: latch)
    rw [tail_cons] at htail
    rw [latchWork, h, ih (by omega)]

/-- A packet at the end of a latch waits as many cycles as the latch is long. -/
theorem latchWork_append : latchWork t (latch ++ [p]) =
    latchWork t latch + (latch.length + 1) * held t p := by
  induction latch with
  | nil => exact (heldIn_write t p []).trans (by simp [latchWork, heldIn, onWay])
  | cons q latch ih =>
    have hheld : heldIn t (q :: latch ++ [p]) = heldIn t (q :: latch) + held t p :=
      heldIn_write t p (q :: q :: latch)
    rw [cons_append] at hheld ⊢
    rw [latchWork, ih, hheld, latchWork, length_cons]
    ring

/-- One cycle of a latch of at most `L` places. -/
theorem latchWork_write {L : Nat} (hL : latch.length ≤ L) (hpos : 1 ≤ L) :
    latchWork t (latch.write p) + heldIn t latch ≤ latchWork t latch + L * held t p := by
  have hplaces : latch.tail.length + 1 ≤ L := by
    rw [length_tail]
    omega
  have := Nat.mul_le_mul_right (held t p) hplaces
  rw [write, latchWork_append, latchWork_eq t latch]
  omega

end

section
variable {t : ThreadID} {s : PathStage} {latch : ForwardLatch ForwardInstData} {L : Nat}

/-- An evaluation does not add to the packets in front of the stage, except for the packet that
is written into its latch. -/
theorem backlog_evaluate (hL : latch.length ≤ L) (hpos : 1 ≤ L) (q : Option ForwardInstData)
    (scheduled : Option ThreadID) :
    backlog (s.evaluate latch.read scheduled).1 (latch.write q) t + heldIn t latch ≤
      backlog s latch t + (L + 1) * held t q := by
  have hbuf := (s.evaluate_suffix latch.read scheduled t).length_le
  have hwork := latchWork_write t q latch hL hpos
  have hread := heldIn_read t latch
  have hbuffer : _ = _ + held t latch.read := s.pushPacket_length latch.read t
  rw [backlog, backlog, heldIn_write, Nat.succ_mul]
  omega

/-- When the thread is scheduled and nothing is written, there is one packet less. -/
theorem backlog_evaluate_lt (he : LawfulEmit s.emit) (hok : (s.threads t).Ok)
    (hwidth : 1 ≤ s.outputWidth) (hL : latch.length ≤ L) (hpos : 1 ≤ L)
    (q : Option ForwardInstData) (hout : packetInsts t (s.evaluate latch.read (some t)).2 = [])
    (hsome : 0 < backlog s latch t) :
    backlog (s.evaluate latch.read (some t)).1 (latch.write q) t <
      backlog s latch t + (L + 1) * held t q := by
  have hle := backlog_evaluate (s := s) (t := t) hL hpos q (some t)
  by_cases hheld : heldIn t latch = 0
  · -- nothing comes out of the latch, so the buffer has a packet and loses it
    have hread := heldIn_read t latch
    have hbuffer : _ = _ + held t latch.read := s.pushPacket_length latch.read t
    have hinput : (s.pushPacket latch.read t).inputBuffer ≠ [] := by
      rw [← length_pos_iff, hbuffer]
      rw [backlog, hheld, latchWork_of_heldIn t latch hheld] at hsome
      omega
    have hless := PathStage.evaluate_progress he hok hwidth hinput hout
    have hwork := latchWork_write t q latch hL hpos
    rw [backlog, backlog, heldIn_write, Nat.succ_mul]
    omega
  · omega

end

namespace DecodePath
variable {isa : Isa} {t : ThreadID} {L : Nat} {fed : List DynInst}

/-- What is left to do for the thread when Decode still has to write `due`. An instruction that
Decode writes may need a packet of its own, a packet `L` cycles in each latch. -/
def work (L : Nat) (s : DecodePath) (t : ThreadID) (due : List DynInst) : Nat :=
  (2 * L + 3) * due.length + backlog s.decode s.f2ToD t +
    (L + 1) * ((s.executeDummy.threads t).pending ++ s.dToE.flatMap (packetInsts t)).length +
    backlog s.executeDummy s.dToE t + latchWork t s.eToE

/-- A path that has got `fed` of the thread and will empty: `n` is left to do. -/
structure Left (isa : Isa) (t : ThreadID) (L : Nat) (fed : List DynInst) (n : Nat)
    (s : DecodePath) : Prop where
  tracks : Tracks isa s t
  sent : s.sent t = fed
  f2ToD : s.f2ToD.length ≤ L
  dToE : s.dToE.length ≤ L
  eToE : s.eToE.length ≤ L
  decode : 1 ≤ s.decode.outputWidth
  dummy : 1 ≤ s.executeDummy.outputWidth
  due : ∃ due d', Consumes (Decode.emit isa) (s.decode.threads t).info
    ((s.decode.threads t).pending ++ s.f2ToD.flatMap (packetInsts t)) due d' [] ∧
    n = work L s t due

/-- What Decode writes in a cycle is no longer due. -/
theorem due_cycle {s : DecodePath} {inp : PathInput} (h : Tracks isa s t)
    (hinp : packetInsts t inp.packet = []) {due : List DynInst} {d' : StageInfo}
    (hdue : Consumes (Decode.emit isa) (s.decode.threads t).info
      ((s.decode.threads t).pending ++ s.f2ToD.flatMap (packetInsts t)) due d' []) :
    ∃ due', due = packetInsts t (s.decode.evaluate s.f2ToD.read inp.decodeThread).2 ++ due' ∧
      Consumes (Decode.emit isa) ((s.cycle inp).decode.threads t).info
        (((s.cycle inp).decode.threads t).pending ++
          (s.cycle inp).f2ToD.flatMap (packetInsts t)) due' d' [] := by
  obtain ⟨mid, hdecode, -⟩ := h.stages
  have hnew := ((PathStage.evaluate_consumes h.decode_lawful hdecode.ok s.f2ToD.read
    inp.decodeThread).2).append_input (s.f2ToD.tail.flatMap (packetInsts t))
  rw [append_assoc, ← flatMap_eq, h.decode_emit] at hnew
  obtain ⟨due', hsplit, hrest⟩ := hnew.remaining hdue
  refine ⟨due', hsplit, ?_⟩
  have hlatch : (s.cycle inp).f2ToD.flatMap (packetInsts t) =
      s.f2ToD.tail.flatMap (packetInsts t) := by
    rw [cycle, flatMap_write, hinp, append_nil]
  rw [hlatch]
  exact hrest

/-- ExecuteDummy and its latch lose what it writes and get what Decode writes. -/
theorem dummy_cycle {s : DecodePath} (h : Tracks isa s t) (inp : PathInput) :
    (((s.cycle inp).executeDummy.threads t).pending ++
        (s.cycle inp).dToE.flatMap (packetInsts t)).length +
        (packetInsts t (s.executeDummy.evaluate s.dToE.read inp.dummyThread).2).length =
      ((s.executeDummy.threads t).pending ++ s.dToE.flatMap (packetInsts t)).length +
        (packetInsts t (s.decode.evaluate s.f2ToD.read inp.decodeThread).2).length := by
  obtain ⟨mid, -, hdummy⟩ := h.stages
  have hnew := (PathStage.evaluate_consumes h.dummy_lawful hdummy.ok s.dToE.read
    inp.dummyThread).2
  rw [h.dummy_emit] at hnew
  obtain ⟨used, hused, hout⟩ := ExecuteDummy.renumber_of_consumes hnew
  have hlen := congrArg length hused
  have hwritten := congrArg length hout
  rw [renumber_length] at hwritten
  simp only [length_append] at hlen
  rw [flatMap_eq s.dToE, hwritten]
  simp only [cycle, flatMap_write, length_append]
  omega

/-- The latches do not get longer than `L`. -/
theorem write_length_le {latch : ForwardLatch ForwardInstData} (h : latch.length ≤ L)
    (hpos : 1 ≤ L) (p : Option ForwardInstData) : (latch.write p).length ≤ L := by
  rw [write, length_append, length_tail, length_singleton]
  omega

/-- Nothing is left to do when no packet of the thread is under way. -/
theorem work_eq_zero {s : DecodePath} {due : List DynInst} {d' : StageInfo}
    (hdue : Consumes (Decode.emit isa) (s.decode.threads t).info
      ((s.decode.threads t).pending ++ s.f2ToD.flatMap (packetInsts t)) due d' [])
    (hdecode : backlog s.decode s.f2ToD t = 0) (hdummy : backlog s.executeDummy s.dToE t = 0)
    (hlast : heldIn t s.eToE = 0) : work L s t due = 0 := by
  have hempty : ∀ {st : PathStage} {latch : ForwardLatch ForwardInstData}, backlog st latch t = 0 →
      (st.threads t).pending ++ latch.flatMap (packetInsts t) = [] := by
    intro st latch h
    rw [backlog, Nat.add_eq_zero_iff, Nat.add_eq_zero_iff] at h
    rw [(heldIn_eq_zero t latch).mp h.1.2, StageThread.pending,
      StageThread.unread_of_empty (length_eq_zero_iff.mp h.1.1)]
    rfl
  rw [hempty hdecode] at hdue
  rw [work, hdue.of_nil, hdecode, hdummy, hempty hdummy, latchWork_of_heldIn t _ hlast]
  rfl

/-- The work of a cycle. Each instruction that Decode writes pays for its way through
ExecuteDummy and for a packet in `dToE`, each one that ExecuteDummy writes for a packet in
`eToE`. What the two stages take from their packets is on the right. -/
theorem work_cycle (hpos : 1 ≤ L) {s : DecodePath} (h : Tracks isa s t)
    (heToE : s.eToE.length ≤ L) (inp : PathInput) (due' : List DynInst) :
    let decodeOut := (s.decode.evaluate s.f2ToD.read inp.decodeThread).2
    let dummyOut := (s.executeDummy.evaluate s.dToE.read inp.dummyThread).2
    work L (s.cycle inp) t due' + held t decodeOut + held t dummyOut + heldIn t s.eToE +
        backlog s.decode s.f2ToD t +
        (backlog s.executeDummy s.dToE t + (L + 1) * held t decodeOut) ≤
      work L s t (packetInsts t decodeOut ++ due') +
        backlog (s.cycle inp).decode (s.cycle inp).f2ToD t +
        backlog (s.cycle inp).executeDummy (s.cycle inp).dToE t := by
  have hpending := congrArg ((L + 1) * ·) (dummy_cycle h inp)
  have hlast := latchWork_write t (s.executeDummy.evaluate s.dToE.read inp.dummyThread).2 s.eToE
    heToE hpos
  have hdecode := Nat.mul_le_mul_left (L + 2)
    (held_le t (s.decode.evaluate s.f2ToD.read inp.decodeThread).2)
  have hdummy := Nat.mul_le_mul_left (L + 1)
    (held_le t (s.executeDummy.evaluate s.dToE.read inp.dummyThread).2)
  have heToE' : (s.cycle inp).eToE =
      s.eToE.write (s.executeDummy.evaluate s.dToE.read inp.dummyThread).2 := rfl
  simp only [work, length_append, heToE'] at hpending ⊢
  linarith

/-- A cycle without a packet of the thread does not add to what is left. A cycle that schedules
the thread in both stages lowers it. -/
theorem Left.cycle (hpos : 1 ≤ L) {n : Nat} {s : DecodePath} {inp : PathInput}
    (h : Left isa t L fed n s) (hinp : packetInsts t inp.packet = []) :
    ∃ m ≤ n, Left isa t L fed m (s.cycle inp) ∧ (inp.serves t = true → 0 < n → m < n) := by
  obtain ⟨due, d', hdue, rfl⟩ := h.due
  obtain ⟨due', rfl, hdue'⟩ := due_cycle h.tracks hinp hdue
  obtain ⟨mid, hdecodeOk, hdummyOk⟩ := h.tracks.stages
  have hwork := work_cycle hpos h.tracks h.eToE inp due'
  have hdecode : backlog (s.cycle inp).decode (s.cycle inp).f2ToD t + heldIn t s.f2ToD ≤
      backlog s.decode s.f2ToD t := by
    have hle := @backlog_evaluate t s.decode _ L h.f2ToD hpos inp.packet inp.decodeThread
    rw [(held_eq_zero t inp.packet).mpr hinp] at hle
    exact hle
  have hdummy : backlog (s.cycle inp).executeDummy (s.cycle inp).dToE t + heldIn t s.dToE ≤
      backlog s.executeDummy s.dToE t +
        (L + 1) * held t (s.decode.evaluate s.f2ToD.read inp.decodeThread).2 :=
    backlog_evaluate h.dToE hpos _ inp.dummyThread
  dsimp only at hwork
  refine ⟨work L (s.cycle inp) t due', by omega, ?_, ?_⟩
  · exact
      { tracks := h.tracks.cycle inp
        sent := (congrArg (s.sent t ++ ·) hinp).trans ((append_nil _).trans h.sent)
        f2ToD := write_length_le h.f2ToD hpos _
        dToE := write_length_le h.dToE hpos _
        eToE := write_length_le h.eToE hpos _
        decode := (PathStage.evaluate_frame ..).2.symm ▸ h.decode
        dummy := (PathStage.evaluate_frame ..).2.symm ▸ h.dummy
        due := ⟨due', d', hdue', rfl⟩ }
  · intro hserves hsome
    obtain ⟨hdecodeThread, hdummyThread⟩ : inp.decodeThread = some t ∧ inp.dummyThread = some t := by
      simpa [PathInput.serves] using hserves
    by_contra hnot
    -- nothing was written and no packet moved, so there was no packet
    have hdecodeOut := (held_eq_zero t _).mp
      (show held t (s.decode.evaluate s.f2ToD.read inp.decodeThread).2 = 0 by omega)
    have hdummyOut := (held_eq_zero t _).mp
      (show held t (s.executeDummy.evaluate s.dToE.read inp.dummyThread).2 = 0 by omega)
    rw [hdecodeThread] at hdecodeOut
    rw [hdummyThread] at hdummyOut
    have hdecode₀ : backlog s.decode s.f2ToD t = 0 := by
      by_contra hne
      have hlt := backlog_evaluate_lt h.tracks.decode_lawful hdecodeOk.ok h.decode h.f2ToD hpos
        inp.packet hdecodeOut (Nat.pos_of_ne_zero hne)
      rw [(held_eq_zero t inp.packet).mpr hinp, ← hdecodeThread] at hlt
      have : backlog (s.cycle inp).decode (s.cycle inp).f2ToD t < backlog s.decode s.f2ToD t := hlt
      omega
    have hdummy₀ : backlog s.executeDummy s.dToE t = 0 := by
      by_contra hne
      have hlt := backlog_evaluate_lt h.tracks.dummy_lawful hdummyOk.ok h.dummy h.dToE hpos
        (s.decode.evaluate s.f2ToD.read inp.decodeThread).2 hdummyOut (Nat.pos_of_ne_zero hne)
      rw [← hdummyThread] at hlt
      have : backlog (s.cycle inp).executeDummy (s.cycle inp).dToE t < _ := hlt
      omega
    exact absurd (work_eq_zero hdue hdecode₀ hdummy₀ (by omega)) (Nat.ne_of_gt hsome)

/-- With nothing left to do, the path is empty. -/
theorem Left.empty {s : DecodePath} (h : Left isa t L fed 0 s) : s.Empty t := by
  obtain ⟨due, d', -, hwork⟩ := h.due
  simp only [work, backlog] at hwork
  have hlast := latchWork_eq t s.eToE
  exact ⟨(heldIn_eq_zero t _).mp (by omega), length_eq_zero_iff.mp (by omega),
    (heldIn_eq_zero t _).mp (by omega), length_eq_zero_iff.mp (by omega),
    (heldIn_eq_zero t _).mp (by omega)⟩

end DecodePath

end Gem5.MyMinor
