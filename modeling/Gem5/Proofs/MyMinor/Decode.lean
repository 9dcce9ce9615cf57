import Mathlib.Data.List.Basic
import Gem5.MyMinor.Decode

/-!
# `Gem5.Proofs.MyMinor.Decode`: what Decode and ExecuteDummy make of their input

`Consumes emit d l outs d' l'` says that the treatment `emit` turns the instructions `l`
into `outs`, with `l'` left over. It has no packets, no bubbles and no widths. The packing
loop of a stage does some of these steps (`packLoop_spec`), so a stage with its input latch
consumes what was put into the latch, whatever the schedule (`StageTracks.evaluate`). A stage
that is scheduled with a packet in its buffer writes an instruction or pops the packet
(`evaluate_progress`).

`Expands` states the decomposition into micro-ops without any stage: an instruction stands
for itself, or for its micro-ops from the PC on, up to the last one. Decode consumes a list
into its decomposition, and ExecuteDummy into the list itself.
-/

namespace Gem5.MyMinor

open List ForwardLatch DynInst StageInfo

/-! ### What a treatment makes of a list -/

/-- The instructions `l` are turned into `outs` by the treatment `emit`, and `l'` is left. -/
inductive Consumes (emit : EmitInst) :
    StageInfo → List DynInst → List DynInst → StageInfo → List DynInst → Prop
  | nil (d : StageInfo) (l : List DynInst) : Consumes emit d l [] d l
  | cons {d d' : StageInfo} {i : DynInst} {l outs l' : List DynInst} :
      Consumes emit (emit d i).1 (if (emit d i).2.2 then l else i :: l) outs d' l' →
      Consumes emit d (i :: l) ((emit d i).2.1 :: outs) d' l'

namespace Consumes
variable {emit : EmitInst} {d d' d'' : StageInfo} {l l' l'' outs outs' : List DynInst} {i : DynInst}

/-- Two stretches of input in a row. -/
theorem trans (h : Consumes emit d l outs d' l') (h' : Consumes emit d' l' outs' d'' l'') :
    Consumes emit d l (outs ++ outs') d'' l'' := by
  induction h with
  | nil => exact h'
  | cons _ ih => exact .cons (ih h')

/-- More input at the end is left over. -/
theorem append_input (h : Consumes emit d l outs d' l') (more : List DynInst) :
    Consumes emit d (l ++ more) outs d' (l' ++ more) := by
  induction h with
  | nil => exact .nil _ _
  | @cons d d' i l outs l' _ ih =>
    refine .cons ?_
    split at ih <;> rename_i hfin
    · rw [if_pos hfin]
      exact ih
    · rw [if_neg hfin]
      exact ih

/-- One step on the head instruction. -/
theorem head (emit : EmitInst) (d : StageInfo) (i : DynInst) (l : List DynInst) :
    Consumes emit d (i :: l) [(emit d i).2.1] (emit d i).1
      (if (emit d i).2.2 then l else i :: l) :=
  .cons (.nil _ _)

/-- A treatment is a function: what is used up completely is used up from any point on. -/
theorem remaining {all : List DynInst} (h : Consumes emit d l outs d' l')
    (hall : Consumes emit d l all d'' []) :
    ∃ due, all = outs ++ due ∧ Consumes emit d' l' due d'' [] := by
  induction h generalizing all with
  | nil => exact ⟨all, rfl, hall⟩
  | cons _ ih =>
    cases hall with
    | cons hall =>
      obtain ⟨due, rfl, hdue⟩ := ih hall
      exact ⟨due, rfl, hdue⟩

theorem of_nil (h : Consumes emit d [] outs d' l') : outs = [] := by
  cases h
  rfl

end Consumes

/-- What the packing loop needs of the treatment of one instruction. -/
structure LawfulEmit (emit : EmitInst) : Prop where
  finished : ∀ d i, (emit d i).2.2 = true → (emit d i).1.inMacroop = false
  isBubble : ∀ d i, (emit d i).2.1.isBubble = i.isBubble

/-- The instructions of a list that are not bubbles. -/
def nonBubbles (l : List DynInst) : List DynInst :=
  l.filter (!·.isBubble)

@[simp] theorem nonBubbles_append (l l' : List DynInst) :
    nonBubbles (l ++ l') = nonBubbles l ++ nonBubbles l' :=
  List.filter_append ..

variable {t : ThreadID} {fed outs : List DynInst} {s : PathStage} {i : DynInst}

/-- A bubble in front does not count. -/
theorem nonBubbles_cons_bubble (h : i.isBubble = true) (l : List DynInst) :
    nonBubbles (i :: l) = nonBubbles l := by
  simp [nonBubbles, h]

/-- An instruction in front stays in front. -/
theorem nonBubbles_cons_inst (h : i.isBubble = false) (l : List DynInst) :
    nonBubbles (i :: l) = i :: nonBubbles l := by
  simp [nonBubbles, h]

/-- A packet starts with an instruction. -/
theorem ForwardInstData.insts_eq_cons (p : ForwardInstData) :
    ∃ i rest, p.insts = i :: rest ∧ i.isBubble = false := by
  have h := p.not_bubble
  cases hp : p.insts with
  | nil => simp [hp, packetIsBubble] at h
  | cons i rest =>
    rw [hp] at h
    exact ⟨i, rest, rfl, h⟩

theorem ForwardInstData.insts_length_pos (p : ForwardInstData) : 0 < p.insts.length := by
  obtain ⟨i, rest, hp, -⟩ := p.insts_eq_cons
  rw [hp]
  exact Nat.succ_pos _

/-! ### The packing loop -/

namespace StageThread

/-- The instructions of the buffer that the stage has not finished. -/
def pending (th : StageThread) : List DynInst :=
  nonBubbles th.unread

/-- `inputIndex` is inside the head packet, and inside a macro-op it is at an instruction. -/
structure Ok (th : StageThread) : Prop where
  index_empty : th.inputBuffer = [] → th.inputIndex = 0
  index_lt : ∀ p rest, th.inputBuffer = p :: rest → th.inputIndex < p.insts.length
  macroop : th.info.inMacroop = true → ∃ i rest, th.unread = i :: rest ∧ i.isBubble = false

variable {th : StageThread} {emit : EmitInst} {p : ForwardInstData} {rest : List ForwardInstData}

@[simp] theorem turn_inputBuffer (th : StageThread) (emit : EmitInst) (i : DynInst) :
    (th.turn emit i).1.inputBuffer = th.inputBuffer := by
  unfold turn
  split <;> rfl

/-- `popInput` at the end of the head packet leaves nothing behind. -/
theorem unread_popInput (hbuf : th.inputBuffer = p :: rest)
    (hidx : th.inputIndex = p.insts.length) : th.popInput.unread = th.unread := by
  simp [unread, popInput, hbuf, hidx]

/-- The instruction at `inputIndex` is the first unread one. -/
theorem unread_eq_cons (hbuf : th.inputBuffer = p :: rest) (hidx : th.inputIndex < p.insts.length) :
    ∃ l, th.unread = p.insts.get ⟨th.inputIndex, hidx⟩ :: l ∧
      ∀ d : StageInfo, unread ⟨th.inputBuffer, th.inputIndex + 1, d⟩ = l := by
  have hlt : th.inputIndex < (p.insts ++ rest.flatMap (·.insts)).length := by
    rw [length_append]
    omega
  refine ⟨(p.insts ++ rest.flatMap (·.insts)).drop (th.inputIndex + 1), ?_, fun d => ?_⟩
  · rw [unread, hbuf, flatMap_cons, drop_eq_getElem_cons hlt,
      getElem_append_left hidx]
    rfl
  · rw [unread, hbuf, flatMap_cons]

/-- A bubble is stepped over. -/
theorem turn_bubble (th : StageThread) (emit : EmitInst) (h : i.isBubble = true) :
    th.turn emit i = ({ th with inputIndex := th.inputIndex + 1,
                                info := { th.info with inMacroop := false } }, []) := by
  rw [turn, if_pos h]

/-- An instruction is treated. -/
theorem turn_inst (th : StageThread) (emit : EmitInst) (h : i.isBubble = false) :
    th.turn emit i =
      ({ th with
          inputIndex := if (emit th.info i).2.2 then th.inputIndex + 1 else th.inputIndex,
          info := (emit th.info i).1 }, [(emit th.info i).2.1]) := by
  simp [turn, h]

/-- One turn of the loop: it consumes, and it stops inside a macro-op only at the macro-op. -/
theorem turn_spec (he : LawfulEmit emit) (hok : th.Ok) (hbuf : th.inputBuffer = p :: rest)
    (hidx : th.inputIndex < p.insts.length) :
    let next := th.turn emit (p.insts.get ⟨th.inputIndex, hidx⟩)
    Consumes emit th.info th.pending next.2 next.1.info next.1.pending ∧
      (∀ o ∈ next.2, o.isBubble = false) ∧
      next.1.inputIndex ≤ p.insts.length ∧
      (next.1.inputIndex = p.insts.length → next.1.info.inMacroop = false) ∧
      (next.1.info.inMacroop = true →
        ∃ i l, next.1.unread = i :: l ∧ i.isBubble = false) := by
  obtain ⟨l, hunread, hadvance⟩ := unread_eq_cons hbuf hidx
  generalize p.insts.get ⟨th.inputIndex, hidx⟩ = i at hunread
  cases hb : i.isBubble with
  | true =>
    -- a bubble is never inside a macro-op, so clearing the flag changes nothing
    have hexpand : th.info.inMacroop = false := by
      cases hm : th.info.inMacroop with
      | false => rfl
      | true =>
        obtain ⟨j, l', hj, hjb⟩ := hok.macroop hm
        rw [hunread] at hj
        cases hj
        rw [hb] at hjb
        cases hjb
    have hinfo : ({ th.info with inMacroop := false } : StageInfo) = th.info := by
      rw [← hexpand]
    simp only [turn_bubble th emit hb, hinfo, pending, hunread, hadvance,
      nonBubbles_cons_bubble hb, not_mem_nil, false_implies, implies_true, hexpand, true_and]
    exact ⟨.nil _ _, hidx, by simp⟩
  | false =>
    have hout : ∀ o ∈ [(emit th.info i).2.1], o.isBubble = false := by
      intro o ho
      rw [mem_singleton.mp ho, he.isBubble, hb]
    have hhead := Consumes.head emit th.info i (nonBubbles l)
    rw [turn_inst th emit hb]
    simp only [pending, hunread, nonBubbles_cons_inst hb]
    cases hfin : (emit th.info i).2.2 with
    | true =>
      rw [hfin] at hhead
      simp only [if_true]
      rw [hadvance]
      refine ⟨hhead, hout, hidx, fun _ => he.finished _ _ hfin, fun hm => ?_⟩
      rw [he.finished _ _ hfin] at hm
      cases hm
    | false =>
      rw [hfin] at hhead
      have hsame : ({ th with info := (emit th.info i).1 } : StageThread).unread = i :: l :=
        hunread
      simp only [Bool.false_eq_true, if_false, hsame, nonBubbles_cons_inst hb] at hhead ⊢
      exact ⟨hhead, hout, le_of_lt hidx, fun h => absurd h (ne_of_lt hidx),
        fun _ => ⟨i, l, rfl, hb⟩⟩

/-- `popInput` changes nothing of the record when no macro-op is open. -/
theorem popInput_info (h : th.info.inMacroop = false) : th.popInput.info = th.info := by
  rw [popInput, ← h]

/-- The next packet is read from its start. -/
theorem popInput_ok (th : StageThread) : th.popInput.Ok where
  index_empty := fun _ => rfl
  index_lt := fun p _ _ => p.insts_length_pos
  macroop := fun h => by cases h

/-- A turn inside a packet leaves the index inside it. -/
theorem turn_ok (he : LawfulEmit emit) (hok : th.Ok) (hbuf : th.inputBuffer = p :: rest)
    (hidx : th.inputIndex < p.insts.length)
    (hin : (th.turn emit (p.insts.get ⟨th.inputIndex, hidx⟩)).1.inputIndex ≠ p.insts.length) :
    (th.turn emit (p.insts.get ⟨th.inputIndex, hidx⟩)).1.Ok := by
  obtain ⟨-, -, hle, -, hexpand⟩ := turn_spec he hok hbuf hidx
  refine ⟨fun h => ?_, fun q rest' hq => ?_, hexpand⟩
  · rw [turn_inputBuffer, hbuf] at h
    cases h
  · rw [turn_inputBuffer, hbuf] at hq
    cases hq
    exact lt_of_le_of_ne hle hin

variable {w : Nat} {more reading : Bool} {turns : Nat} {out : List DynInst}

/-- The packing loop consumes, whatever the width and the cycle-input flag. -/
theorem packLoop_spec (he : LawfulEmit emit) (w : Nat) (more : Bool) (turns : Nat)
    (th : StageThread) (reading : Bool) (out : List DynInst) (hok : th.Ok) :
    (packLoop emit w more turns th reading out).1.Ok ∧
      ∃ new, (packLoop emit w more turns th reading out).2 = out ++ new ∧
        (∀ o ∈ new, o.isBubble = false) ∧
        Consumes emit th.info th.pending new (packLoop emit w more turns th reading out).1.info
          (packLoop emit w more turns th reading out).1.pending := by
  fun_induction packLoop emit w more turns th reading out with
  | case1 th reading out => exact ⟨hok, [], by simp, by simp, .nil _ _⟩
  | case2 turns th reading out hbuf => exact ⟨hok, [], by simp, by simp, .nil _ _⟩
  | case3 turns th reading out p rest hbuf h next hend ih =>
    obtain ⟨hturn, hout, -, hexpand, -⟩ := turn_spec he hok hbuf h.2.1
    obtain ⟨hok', new, hnew, hnb, hrest⟩ := ih (popInput_ok _)
    rw [popInput_info (hexpand hend), pending,
      unread_popInput ((turn_inputBuffer ..).trans hbuf) hend] at hrest
    exact ⟨hok', next.2 ++ new, by rw [hnew, append_assoc], forall_mem_append.mpr ⟨hout, hnb⟩,
      hturn.trans hrest⟩
  | case4 turns th reading out p rest hbuf h next hend ih =>
    obtain ⟨hturn, hout, -⟩ := turn_spec he hok hbuf h.2.1
    obtain ⟨hok', new, hnew, hnb, hrest⟩ := ih (turn_ok he hok hbuf h.2.1 hend)
    exact ⟨hok', next.2 ++ new, by rw [hnew, append_assoc], forall_mem_append.mpr ⟨hout, hnb⟩,
      hturn.trans hrest⟩
  | case5 turns th reading out p rest hbuf h => exact ⟨hok, [], by simp, by simp, .nil _ _⟩

/-- The packing loop writes behind its output and takes packets off the front of the buffer. -/
theorem packLoop_grows (emit : EmitInst) (w : Nat) (more : Bool) (turns : Nat)
    (th : StageThread) (reading : Bool) (out : List DynInst) :
    out <+: (packLoop emit w more turns th reading out).2 ∧
      (packLoop emit w more turns th reading out).1.inputBuffer <:+ th.inputBuffer := by
  fun_induction packLoop emit w more turns th reading out with
  | case1 | case2 | case5 => exact ⟨prefix_rfl, suffix_rfl⟩
  | case3 turns th reading out p rest hbuf h next hend ih =>
    refine ⟨(prefix_append _ _).trans ih.1, ih.2.trans ?_⟩
    rw [popInput, turn_inputBuffer]
    exact tail_suffix _
  | case4 turns th reading out p rest hbuf h next hend ih =>
    rw [turn_inputBuffer] at ih
    exact ⟨(prefix_append _ _).trans ih.1, ih.2⟩

/-- A turn uses up a place in the output or an unread entry. -/
theorem turn_bound (emit : EmitInst) (hbuf : th.inputBuffer = p :: rest)
    (hidx : th.inputIndex < p.insts.length) (hout : out.length < w) :
    let next := th.turn emit (p.insts.get ⟨th.inputIndex, hidx⟩)
    w - (out ++ next.2).length + next.1.unread.length < w - out.length + th.unread.length := by
  obtain ⟨l, hunread, hadvance⟩ := unread_eq_cons hbuf hidx
  generalize p.insts.get ⟨th.inputIndex, hidx⟩ = i at hunread
  cases hb : i.isBubble with
  | true =>
    simp only [turn_bubble th emit hb, hadvance, hunread, append_nil, length_cons]
    omega
  | false =>
    rw [turn_inst th emit hb]
    -- the instruction is finished, or it stays the first unread one
    have hle : unread ⟨th.inputBuffer,
        if (emit th.info i).2.2 then th.inputIndex + 1 else th.inputIndex,
        (emit th.info i).1⟩ <:+ th.unread := by
      split
      · rw [hadvance, hunread]
        exact suffix_cons _ _
      · exact suffix_rfl
    have := hle.length_le
    simp only [length_append, length_singleton]
    omega

/-- The bound is no limit: the loop has ended by its own tests, and more turns change
nothing. -/
theorem packLoop_of_le (hturns : w - out.length + th.unread.length ≤ turns) (k : Nat) :
    packLoop emit w more (turns + k) th reading out = packLoop emit w more turns th reading out := by
  induction turns generalizing th reading out with
  | zero =>
    have hfull : ¬ out.length < w := by omega
    cases k with
    | zero => rfl
    | succ k =>
      rw [Nat.zero_add, packLoop, packLoop]
      split
      · rfl
      · rw [dif_neg fun h => hfull h.2.2]
  | succ turns ih =>
    rw [Nat.add_right_comm, packLoop, packLoop]
    split
    · rfl
    · rename_i p rest hbuf
      split
      · rename_i h
        have hbound := turn_bound emit hbuf h.2.1 h.2.2
        dsimp only at hbound ⊢
        split
        · rename_i hend
          refine ih ?_
          rw [unread_popInput ((turn_inputBuffer ..).trans hbuf) hend]
          omega
        · refine ih ?_
          omega
      · rfl

/-- With a packet in the buffer and room in the output, the loop writes an instruction or pops
a packet. The induction is on the turns: bubbles are skipped until one of the two happens. -/
theorem packLoop_progress (emit : EmitInst) (more : Bool)
    (hbuf : th.inputBuffer = p :: rest) (hidx : th.inputIndex < p.insts.length)
    (hout : out.length < w) (hturns : th.unread.length ≤ turns) :
    out.length < (packLoop emit w more turns th true out).2.length ∨
      (packLoop emit w more turns th true out).1.inputBuffer.length < th.inputBuffer.length := by
  induction turns generalizing th with
  | zero =>
    obtain ⟨l, hunread, -⟩ := unread_eq_cons hbuf hidx
    rw [hunread] at hturns
    cases hturns
  | succ turns ih =>
    obtain ⟨l, hunread, hadvance⟩ := unread_eq_cons hbuf hidx
    unfold packLoop
    simp only [hbuf]
    rw [dif_pos ⟨trivial, hidx, hout⟩]
    generalize p.insts.get ⟨th.inputIndex, hidx⟩ = i at hunread ⊢
    cases hb : i.isBubble with
    | true =>
      simp only [turn_bubble th emit hb, append_nil]
      split
      · refine .inr (lt_of_le_of_lt (packLoop_grows ..).2.length_le ?_)
        rw [popInput, hbuf]
        exact Nat.lt_succ_self _
      · rename_i hin
        rw [hunread] at hturns
        have hnext := @ih ⟨th.inputBuffer, th.inputIndex + 1, { th.info with inMacroop := false }⟩
          hbuf (lt_of_le_of_ne hidx hin) (by
            rw [hadvance]
            exact Nat.le_of_succ_le_succ hturns)
        rw [← hbuf]
        exact hnext
    | false =>
      -- what is written stays written
      have hgrows : ∀ th' reading', out.length <
          (packLoop emit w more turns th' reading' (out ++ (th.turn emit i).2)).2.length := by
        intro th' reading'
        refine lt_of_lt_of_le ?_ (packLoop_grows ..).1.length_le
        rw [turn_inst th emit hb, length_append]
        exact Nat.lt_succ_self _
      split
      · exact .inl (hgrows _ _)
      · exact .inl (hgrows _ _)

/-- The index is inside the buffer. -/
theorem Ok.inputIndex_le (h : th.Ok) :
    th.inputIndex ≤ (th.inputBuffer.flatMap (·.insts)).length := by
  cases hbuf : th.inputBuffer with
  | nil => rw [h.index_empty hbuf]; exact Nat.zero_le _
  | cons p rest =>
    have := h.index_lt p rest hbuf
    rw [flatMap_cons, length_append]
    omega

/-- Without a packet nothing is pending. -/
theorem unread_of_empty (h : th.inputBuffer = []) : th.unread = [] := by
  rw [unread, h, flatMap_nil, drop_nil]

end StageThread

/-! ### One evaluation of a stage -/

/-- A packet of the thread has an instruction. -/
theorem packetInsts_ne_nil (p : ForwardInstData) : packetInsts p.threadId (some p) ≠ [] := by
  obtain ⟨i, rest, hp, hi⟩ := p.insts_eq_cons
  rw [packetInsts, if_pos rfl, hp, filter_cons_of_pos (by rw [hi]; rfl)]
  exact cons_ne_nil _ _

/-- The instructions of a packet on a wire. -/
theorem packetInsts_ofInsts (tid t : ThreadID) (insts : List DynInst) :
    packetInsts t (ForwardInstData.ofInsts tid insts) =
      if packetIsBubble insts = false ∧ tid = t then nonBubbles insts else [] := by
  unfold ForwardInstData.ofInsts
  split <;> rename_i h
  · simp only [h, true_and]
    rfl
  · rw [if_neg (fun hc => h hc.1)]
    rfl

/-- The filling of an output packet is left out. -/
theorem nonBubbles_fill (out : List DynInst) (n : Nat) :
    nonBubbles (out ++ replicate n .bubble) = nonBubbles out := by
  have hfill : nonBubbles (replicate n .bubble) = [] := filter_eq_nil_iff.mpr fun i hi => by
    rw [eq_of_mem_replicate hi]
    decide
  rw [nonBubbles_append, hfill, append_nil]

/-- What is in an output packet was written to it. -/
theorem mem_of_mem_packetInsts_sized {tid width : Nat} {out : List DynInst}
    (h : i ∈ packetInsts t (ForwardInstData.sized tid width out)) : i ∈ out := by
  rw [ForwardInstData.sized, packetInsts_ofInsts] at h
  split at h
  · rw [nonBubbles_fill] at h
    exact mem_of_mem_filter h
  · cases h

/-- The bubbles that fill the output packet are all that it has beside the output. -/
theorem packetInsts_sized (tid : ThreadID) (width : Nat) {out : List DynInst}
    (hout : ∀ o ∈ out, o.isBubble = false) :
    packetInsts tid (ForwardInstData.sized tid width out) = out := by
  have hself : nonBubbles out = out := filter_eq_self.mpr fun i hi => by
    rw [hout i hi]
    rfl
  rw [ForwardInstData.sized, packetInsts_ofInsts, nonBubbles_fill, hself]
  split <;> rename_i h
  · rfl
  · -- a packet that starts with an instruction is no bubble, so there is no output
    cases out with
    | nil => rfl
    | cons o => exact absurd ⟨hout o (by simp), rfl⟩ h

namespace PathStage

/-- The packet on the input wire is behind what its thread has in the buffer. -/
theorem pushPacket_spec (h : (s.threads t).Ok) (packet : Option ForwardInstData) :
    (s.pushPacket packet t).Ok ∧ (s.pushPacket packet t).info = (s.threads t).info ∧
      (s.pushPacket packet t).pending = (s.threads t).pending ++ packetInsts t packet := by
  cases packet with
  | none => exact ⟨h, rfl, (append_nil _).symm⟩
  | some p =>
    by_cases ht : p.threadId = t
    · have hunread : (s.pushPacket (some p) t).unread = (s.threads t).unread ++ p.insts := by
        simp only [pushPacket, if_pos ht, StageThread.unread, flatMap_append,
          flatMap_cons, flatMap_nil, append_nil]
        exact drop_append_of_le_length h.inputIndex_le
      refine ⟨⟨fun hbuf => ?_, fun q rest hbuf => ?_, fun hm => ?_⟩, ?_, ?_⟩
      · simp [pushPacket, ht] at hbuf
      · simp only [pushPacket, if_pos ht] at hbuf ⊢
        cases hold : (s.threads t).inputBuffer with
        | nil =>
          rw [h.index_empty hold]
          exact q.insts_length_pos
        | cons =>
          rw [hold] at hbuf
          cases hbuf
          exact h.index_lt _ _ hold
      · simp only [pushPacket, if_pos ht] at hm
        obtain ⟨i, rest, hi, hib⟩ := h.macroop hm
        exact ⟨i, rest ++ p.insts, by rw [hunread, hi]; rfl, hib⟩
      · simp only [pushPacket, if_pos ht]
      · rw [StageThread.pending, hunread, nonBubbles_append, packetInsts, if_pos ht]
        rfl
    · simp only [pushPacket, if_neg ht, packetInsts, append_nil]
      exact ⟨h, trivial, trivial⟩

/-- What one evaluation does with the instructions of a thread, for any schedule. -/
theorem evaluate_consumes (he : LawfulEmit s.emit) (hok : (s.threads t).Ok)
    (wire : Option ForwardInstData) (scheduled : Option ThreadID) :
    let r := s.evaluate wire scheduled
    (r.1.threads t).Ok ∧
      Consumes s.emit (s.threads t).info ((s.threads t).pending ++ packetInsts t wire)
        (packetInsts t r.2) (r.1.threads t).info (r.1.threads t).pending := by
  obtain ⟨hok, hinfo, hpending⟩ := pushPacket_spec hok wire
  rw [← hinfo, ← hpending]
  cases scheduled with
  | none => exact ⟨hok, .nil _ _⟩
  | some tid =>
    dsimp only [evaluate]
    by_cases ht : t = tid
    · subst ht
      obtain ⟨hok', new, hout, hnb, hnew⟩ := StageThread.packLoop_spec he s.outputWidth
        s.processMoreThanOneInput _ (s.pushPacket wire t) true [] hok
      rw [if_pos rfl]
      rw [nil_append] at hout
      refine ⟨hok', ?_⟩
      rw [StageThread.pack, hout, packetInsts_sized t _ hnb]
      exact hnew
    · rw [if_neg ht, ForwardInstData.sized, packetInsts_ofInsts, if_neg fun h => ht h.2.symm]
      exact ⟨hok, .nil _ _⟩

/-- An evaluation takes packets off the front of the buffers. -/
theorem evaluate_suffix (s : PathStage) (wire : Option ForwardInstData)
    (scheduled : Option ThreadID) (t : ThreadID) :
    ((s.evaluate wire scheduled).1.threads t).inputBuffer <:+
      (s.pushPacket wire t).inputBuffer := by
  cases scheduled with
  | none => exact suffix_rfl
  | some tid =>
    dsimp only [evaluate]
    split
    · rename_i ht
      subst ht
      exact (StageThread.packLoop_grows ..).2
    · exact suffix_rfl

/-- A scheduled thread with input writes an instruction or pops a packet. -/
theorem evaluate_progress (he : LawfulEmit s.emit) (hok : (s.threads t).Ok)
    (hwidth : 1 ≤ s.outputWidth) {wire : Option ForwardInstData}
    (hinput : (s.pushPacket wire t).inputBuffer ≠ [])
    (hout : packetInsts t (s.evaluate wire (some t)).2 = []) :
    ((s.evaluate wire (some t)).1.threads t).inputBuffer.length <
      (s.pushPacket wire t).inputBuffer.length := by
  obtain ⟨hok, -, -⟩ := pushPacket_spec hok wire
  obtain ⟨-, new, hnew, hnb, -⟩ := StageThread.packLoop_spec he s.outputWidth
    s.processMoreThanOneInput (s.outputWidth + (s.pushPacket wire t).unread.length)
    (s.pushPacket wire t) true [] hok
  dsimp only [evaluate] at hout ⊢
  rw [if_pos rfl]
  rw [StageThread.pack, hnew, nil_append, packetInsts_sized t _ hnb] at hout
  cases hbuf : (s.pushPacket wire t).inputBuffer with
  | nil => exact absurd hbuf hinput
  | cons p rest =>
    have hroom : ([] : List DynInst).length < s.outputWidth := hwidth
    have hprogress := StageThread.packLoop_progress s.emit s.processMoreThanOneInput hbuf
      (hok.index_lt p rest hbuf) hroom (Nat.le_add_left _ s.outputWidth)
    rw [hnew, hout] at hprogress
    rw [← hbuf]
    exact hprogress.resolve_left (Nat.lt_irrefl _)

/-- A stage keeps its treatment and its width. -/
theorem evaluate_frame (s : PathStage) (wire : Option ForwardInstData)
    (scheduled : Option ThreadID) : (s.evaluate wire scheduled).1.emit = s.emit ∧
      (s.evaluate wire scheduled).1.outputWidth = s.outputWidth := by
  cases scheduled <;> exact ⟨rfl, rfl⟩

end PathStage

/-- 1 for the thread itself. -/
def isThread (o : Option ThreadID) (t : ThreadID) : Nat :=
  if o = some t then 1 else 0

/-- The elements of a thread in a latch. -/
def onWay {α : Type} (threadOf : α → ThreadID) (latch : ForwardLatch α) (t : ThreadID) : Nat :=
  latch.countP fun x => x.map threadOf == some t

section
variable {α : Type} (threadOf : α → ThreadID) (latch : ForwardLatch α) (t : ThreadID)

theorem onWay_cons (x : Option α) :
    onWay threadOf (x :: latch) t = onWay threadOf latch t + isThread (x.map threadOf) t := by
  by_cases hx : x.map threadOf = some t <;> simp [onWay, isThread, hx]

/-- What comes out of a latch leaves it. -/
theorem onWay_read :
    onWay threadOf latch t =
      onWay threadOf latch.tail t + isThread (latch.read.map threadOf) t := by
  cases latch with
  | nil => rfl
  | cons y latch => exact onWay_cons threadOf latch t y

/-- What is written into a latch is in it. -/
theorem onWay_write (x : Option α) :
    onWay threadOf (latch.write x) t =
      onWay threadOf latch.tail t + isThread (x.map threadOf) t := by
  refine countP_append.trans (congrArg _ ?_)
  exact (onWay_cons threadOf [] t x).trans (Nat.zero_add _)

end

/-- The packets of a stage's buffer with the one on the input wire. -/
theorem PathStage.pushPacket_length (s : PathStage) (wire : Option ForwardInstData)
    (t : ThreadID) : (s.pushPacket wire t).inputBuffer.length =
      (s.threads t).inputBuffer.length + isThread (wire.map (·.threadId)) t := by
  cases wire with
  | none => rfl
  | some p => by_cases ht : p.threadId = t <;> simp [pushPacket, isThread, ht]

/-- The stage and its input latch have turned `fed` into `outs`. -/
structure StageTracks (s : PathStage) (latch : ForwardLatch ForwardInstData) (t : ThreadID)
    (fed outs : List DynInst) : Prop where
  ok : (s.threads t).Ok
  consumes : Consumes s.emit .init fed outs (s.threads t).info
    ((s.threads t).pending ++ latch.flatMap (packetInsts t))

variable {latch : ForwardLatch ForwardInstData}

/-- What comes out of a latch is in front of the rest. -/
theorem ForwardLatch.flatMap_eq (latch : ForwardLatch ForwardInstData) (t : ThreadID) :
    latch.flatMap (packetInsts t) =
      packetInsts t latch.read ++ latch.tail.flatMap (packetInsts t) := by
  cases latch with
  | nil => rfl
  | cons => rfl

/-- What is written into a latch is behind the rest. -/
theorem ForwardLatch.flatMap_write (latch : ForwardLatch ForwardInstData)
    (packet : Option ForwardInstData) (t : ThreadID) :
    (latch.write packet).flatMap (packetInsts t) =
      latch.tail.flatMap (packetInsts t) ++ packetInsts t packet := by
  simp [write]

/-- One evaluation of a stage, for any schedule. -/
theorem StageTracks.evaluate (he : LawfulEmit s.emit) (h : StageTracks s latch t fed outs)
    (packet : Option ForwardInstData) (scheduled : Option ThreadID) :
    StageTracks (s.evaluate latch.read scheduled).1 (latch.write packet) t
      (fed ++ packetInsts t packet)
      (outs ++ packetInsts t (s.evaluate latch.read scheduled).2) := by
  obtain ⟨hok, hnew⟩ := PathStage.evaluate_consumes he h.ok latch.read scheduled
  refine ⟨hok, ?_⟩
  have hfed := h.consumes.append_input (packetInsts t packet)
  have hrest := hnew.append_input (latch.tail.flatMap (packetInsts t) ++ packetInsts t packet)
  rw [flatMap_eq] at hfed
  rw [(s.evaluate_frame _ _).1, flatMap_write]
  refine hfed.trans ?_
  simpa only [append_assoc] using hrest

/-! ### The decomposition, without the stages -/

/-- The instruction is decomposed: it is no fault and it is a macro-op. -/
def DynInst.decomposed (i : DynInst) : Bool :=
  !i.isFault && i.staticInst.isMacroop

/-- The micro-op `m` of the macro-op `i` at `pc`. Only the last one has the prediction. -/
def DynInst.microOp (i : DynInst) (pc : PCState) (m : MicroOp) : DynInst :=
  { i with staticInst := m.staticInst, pc := pc, fault := noFault,
           predictedTaken := m.isLastMicroop && i.predictedTaken,
           predictedTarget := if m.isLastMicroop then i.predictedTarget else none }

/-- `Expands isa l micro outs l' micro'`: the instructions `l` stand for `outs`, followed by
what `l'` stands for. `micro` is the PC inside the head macro-op, if a part of it is done. -/
inductive Expands (isa : Isa) :
    List DynInst → Option PCState → List DynInst → List DynInst → Option PCState → Prop
  | stop (l : List DynInst) (micro : Option PCState) : Expands isa l micro [] l micro
  | whole {i : DynInst} {l outs l' : List DynInst} {micro' : Option PCState} :
      i.decomposed = false → Expands isa l none outs l' micro' →
      Expands isa (i :: l) none (i :: outs) l' micro'
  | micro {i : DynInst} {l outs l' : List DynInst} {micro micro' : Option PCState} {m : MicroOp} :
      i.decomposed = true → m = isa i (micro.getD i.pc) →
      m.isLastMicroop = false → Expands isa (i :: l) (some m.nextPC) outs l' micro' →
      Expands isa (i :: l) micro (i.microOp (micro.getD i.pc) m :: outs) l' micro'
  | last {i : DynInst} {l outs l' : List DynInst} {micro micro' : Option PCState} {m : MicroOp} :
      i.decomposed = true → m = isa i (micro.getD i.pc) →
      m.isLastMicroop = true → Expands isa l none outs l' micro' →
      Expands isa (i :: l) micro (i.microOp (micro.getD i.pc) m :: outs) l' micro'

/-- What holds of the instructions and is kept by a decomposition holds of what they stand
for. -/
theorem Expands.forall_mem {isa : Isa} {R : DynInst → Prop}
    (hmicro : ∀ i pc m, i.decomposed = true → R i → R (i.microOp pc m)) {l outs l' : List DynInst}
    {micro micro' : Option PCState} (h : Expands isa l micro outs l' micro')
    (hl : ∀ i ∈ l, R i) : ∀ i ∈ outs, R i := by
  induction h with
  | stop => simp
  | whole _ _ ih =>
    rw [forall_mem_cons] at hl ⊢
    exact ⟨hl.1, ih hl.2⟩
  | micro hi _ _ _ ih =>
    rw [forall_mem_cons]
    exact ⟨hmicro _ _ _ hi (hl _ mem_cons_self), ih hl⟩
  | last hi _ _ _ ih =>
    rw [forall_mem_cons] at hl ⊢
    exact ⟨hmicro _ _ _ hi hl.1, ih hl.2⟩

variable (n : InstSeqNum)

/-- The instruction with `execSeqNum` set. -/
def DynInst.number (i : DynInst) : DynInst :=
  { i with id := { i.id with execSeqNum := n } }

/-- The instructions with the consecutive numbers from `n` on. -/
def renumber : InstSeqNum → List DynInst → List DynInst
  | _, [] => []
  | n, i :: l => i.number n :: renumber (n + 1) l

/-- The last numbering counts. -/
theorem renumber_renumber (n k : InstSeqNum) (l : List DynInst) :
    renumber n (renumber k l) = renumber n l := by
  induction l generalizing n k with
  | nil => rfl
  | cons i l ih => simp only [renumber, ih, number]

theorem renumber_append (l l' : List DynInst) :
    renumber n (l ++ l') = renumber n l ++ renumber (n + l.length) l' := by
  induction l generalizing n with
  | nil => rfl
  | cons i l ih =>
    rw [cons_append, renumber, ih, renumber, cons_append, length_cons,
      Nat.add_assoc, Nat.add_comm 1]

theorem renumber_length (l : List DynInst) : (renumber n l).length = l.length := by
  induction l generalizing n with
  | nil => rfl
  | cons i l ih => rw [renumber, length_cons, ih, length_cons]

theorem forall_mem_renumber {R : DynInst → Prop} (hnumber : ∀ i n, R i → R (number n i))
    {l : List DynInst} (h : ∀ i ∈ l, R i) : ∀ i ∈ renumber n l, R i := by
  induction l generalizing n with
  | nil => exact h
  | cons i l ih =>
    rw [forall_mem_cons] at h
    rw [renumber, forall_mem_cons]
    exact ⟨hnumber i n h.1, ih (n + 1) h.2⟩

/-! ### The two treatments -/

variable (d : StageInfo)

/-- The PC inside the macro-op that Decode is in. -/
def StageInfo.micro : Option PCState :=
  if d.inMacroop then some d.microopPC else none

theorem StageInfo.nextMicroPC_eq (i : DynInst) : d.nextMicroPC i = d.micro.getD i.pc := by
  unfold nextMicroPC micro
  split <;> rfl

namespace Decode
variable {isa : Isa} {d : StageInfo} {i : DynInst}

/-- An instruction that is not decomposed is numbered. -/
theorem emit_whole (isa : Isa) (d : StageInfo) (h : i.decomposed = false) :
    emit isa d i =
      ({ inMacroop := false, microopPC := d.microopPC, execSeqNum := d.execSeqNum + 1 },
        i.number d.execSeqNum, true) := by
  have hbranch : (i.isFault || !i.staticInst.isMacroop) = true := by
    rw [decomposed] at h
    rw [← Bool.not_not i.isFault, ← Bool.not_and, h]
    rfl
  simp only [emit, hbranch, if_true, number]

/-- A macro-op gives its next micro-op, numbered. -/
theorem emit_micro {m : MicroOp} (h : i.decomposed = true) (hm : m = isa i (d.micro.getD i.pc)) :
    emit isa d i =
      ({ inMacroop := !m.isLastMicroop, microopPC := m.nextPC,
         execSeqNum := d.execSeqNum + 1 },
        (i.microOp (d.micro.getD i.pc) m).number d.execSeqNum, m.isLastMicroop) := by
  have hbranch : (i.isFault || !i.staticInst.isMacroop) = false := by
    rw [decomposed] at h
    rw [← Bool.not_not i.isFault, ← Bool.not_and, h]
    rfl
  rw [← d.nextMicroPC_eq i] at hm ⊢
  simp only [emit, hbranch, ← hm, Bool.false_eq_true, if_false, number, microOp]
  cases m.isLastMicroop <;> rfl

/-- Decode ends an input only outside a macro-op, and keeps bubbles. -/
theorem emit_lawful (isa : Isa) : LawfulEmit (emit isa) where
  finished := by
    intro d i hfin
    cases h : i.decomposed with
    | false => rw [emit_whole isa d h]
    | true =>
      rw [emit_micro h rfl] at hfin ⊢
      simpa using hfin
  isBubble := by
    intro d i
    cases h : i.decomposed with
    | false => rw [emit_whole isa d h]; rfl
    | true => rw [emit_micro h rfl]; rfl

/-- What Decode makes of a list of instructions is its decomposition, numbered. -/
theorem expands_of_consumes {d' : StageInfo} {l outs l' : List DynInst}
    (h : Consumes (emit isa) d l outs d' l')
    (hd : d.inMacroop = true → ∃ i rest, l = i :: rest ∧ i.decomposed = true) :
    ∃ plain, outs = renumber d.execSeqNum plain ∧ Expands isa l d.micro plain l' d'.micro := by
  induction h with
  | nil => exact ⟨[], rfl, .stop _ _⟩
  | @cons d d' i l outs l' h ih =>
    cases hi : i.decomposed with
    | false =>
      have hmicro : d.micro = none := by
        refine if_neg fun hm => ?_
        obtain ⟨j, rest, hj, hjd⟩ := hd hm
        cases hj
        rw [hi] at hjd
        cases hjd
      simp only [emit_whole isa d hi] at ih ⊢
      obtain ⟨plain, rfl, hplain⟩ := ih (by simp)
      rw [hmicro]
      exact ⟨i :: plain, rfl, .whole hi hplain⟩
    | true =>
      obtain ⟨m, hm⟩ : ∃ m, m = isa i (d.micro.getD i.pc) := ⟨_, rfl⟩
      simp only [emit_micro hi hm] at ih ⊢
      cases hlast : m.isLastMicroop with
      | true =>
        simp only [hlast] at ih
        obtain ⟨plain, rfl, hplain⟩ := ih (by simp)
        exact ⟨_ :: plain, rfl, .last hi hm hlast hplain⟩
      | false =>
        simp only [hlast, Bool.false_eq_true] at ih
        obtain ⟨plain, rfl, hplain⟩ := ih (fun _ => ⟨i, l, rfl, hi⟩)
        exact ⟨_ :: plain, rfl, .micro hi hm hlast hplain⟩

end Decode

namespace ExecuteDummy

theorem emit_lawful : LawfulEmit emit where
  finished := fun _ _ _ => rfl
  isBubble := fun _ _ => rfl

/-- What ExecuteDummy makes of a list is the front part of the list, numbered. -/
theorem renumber_of_consumes {d d' : StageInfo} {l outs l' : List DynInst}
    (h : Consumes emit d l outs d' l') :
    ∃ used, l = used ++ l' ∧ outs = renumber (d.execSeqNum + 1) used := by
  induction h with
  | nil => exact ⟨[], rfl, rfl⟩
  | @cons d d' i l outs l' h ih =>
    obtain ⟨used, hused, rfl⟩ := ih
    exact ⟨i :: used, congrArg (i :: ·) hused, rfl⟩

end ExecuteDummy

end Gem5.MyMinor
