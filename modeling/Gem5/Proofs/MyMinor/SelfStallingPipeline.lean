import Gem5.Lib.Run
import Gem5.MyMinor.SelfStallingPipeline

/-!
# `Gem5.Proofs.MyMinor.SelfStallingPipeline`: a pipeline loses nothing

The slots of a pipeline are read as a list. A push replaces its head (`contents_set`), and an
effective advance puts a bubble in front and drops the end (`contents_advance`). So the slots are
the first entries of the history: the end shows what was pushed `depth` effective advances ago.
`pipeline_delivers` says so for every run.
-/

namespace Gem5.MyMinor

open Gem5.Base BubbleTraits SelfStallingPipeline PipelineSession List

variable {α : Type} [BubbleTraits α] {depth : Nat} {b : TimeBuffer α} {p : SelfStallingPipeline α}
  {s : PipelineSession α} {x : α}

/-- The buffer has `depth` past slots and no others. -/
structure SelfStallingPipeline.Shaped (depth : Nat) (p : SelfStallingPipeline α) : Prop where
  past : p.buffer.past = depth
  future : p.buffer.future = 0
  base : p.buffer.base < p.buffer.size

/-- The pipeline holds what its history says. -/
structure PipelineSession.Delivers (depth : Nat) (s : PipelineSession α) : Prop where
  shaped : s.pipe.Shaped depth
  /-- A slot holds what was pushed that many effective advances ago. -/
  contents : s.pipe.contents <+: s.history
  /-- The history has every non-bubble that was pushed, once and in order. -/
  pushes : s.history.filter (!isBubble ·) = s.pushes
  occupancy : s.pipe.occupancy = s.pipe.contents.countP (!isBubble ·)
  /-- What is at the end stays there until the user clears `stalled`. -/
  held : s.pipe.isPopable → s.pipe.stalled ∨ s.cleared

/-! ### The slots -/

omit [BubbleTraits α] in
theorem get_set_slot {i j : Nat} (hi : i ≤ b.past) (hj : j ≤ b.past) (x : α) :
    (b.set (-(i : Int)) x).get (-(j : Int)) = if j = i then x else b.get (-(j : Int)) := by
  rw [TimeBuffer.get_set ⟨by omega, by omega⟩ ⟨by omega, by omega⟩]
  exact if_congr (by omega) rfl rfl

omit [BubbleTraits α] in
theorem contents_head :
    p.contents = p.slot 0 :: (range p.buffer.past).map fun i => p.slot (i + 1) := by
  unfold contents
  rw [range_succ_eq_map, map_cons, map_map]
  rfl

omit [BubbleTraits α] in
theorem contents_last : p.contents = (range p.buffer.past).map p.slot ++ [p.front] := by
  unfold contents
  rw [range_succ, map_append]
  rfl

omit [BubbleTraits α] in
/-- A write to the slot of the push. -/
theorem contents_set (stalled : Bool) (occupancy : Nat) :
    contents ⟨p.buffer.set 0 x, stalled, occupancy⟩ = x :: p.contents.tail := by
  rw [contents_head, contents_head]
  have hslot : ∀ i ≤ p.buffer.past, (p.buffer.set 0 x).get (-(i : Int))
      = if i = 0 then x else p.slot i := fun i hi => get_set_slot (i := 0) (Nat.zero_le _) hi x
  refine congrArg₂ cons (hslot 0 (Nat.zero_le _)) (map_congr_left fun i hi => ?_)
  exact hslot (i + 1) (mem_range.mp hi)

theorem advance_eq [Inhabited α] (hst : p.stalled = false) : p.advance =
    ⟨p.buffer.advance.set 0 bubble, isPopable { p with buffer := p.buffer.advance },
      if p.isPopable then p.occupancy - 1 else p.occupancy⟩ :=
  if_neg (by simp [hst])

/-- The slots after an effective advance. -/
theorem contents_advance [Inhabited α] (h : p.Shaped depth) (hst : p.stalled = false) :
    p.advance.contents = bubble :: p.contents.dropLast := by
  have hmoved : (contents { p with buffer := p.buffer.advance }).tail = p.contents.dropLast := by
    rw [contents_head, contents_last, dropLast_concat]
    refine map_congr_left fun i hi => ?_
    have hlt : i < p.buffer.past := mem_range.mp hi
    show p.buffer.advance.get (-((i + 1 : Nat) : Int)) = p.buffer.get (-(i : Int))
    rw [TimeBuffer.get_advance h.base ⟨by omega, by omega⟩ (by omega)]
    exact congrArg _ (by omega)
  rw [advance_eq hst, ← hmoved]
  exact contents_set (p := { p with buffer := p.buffer.advance }) _ _

omit [BubbleTraits α] in
/-- A write to the slot of the push does not change the end. -/
theorem front_set (hpos : 0 < p.buffer.past) (stalled : Bool) (occupancy : Nat) :
    front ⟨p.buffer.set 0 x, stalled, occupancy⟩ = p.front :=
  (get_set_slot (i := 0) (Nat.zero_le _) (Nat.le_refl p.buffer.past) x).trans
    (if_neg (Nat.ne_of_gt hpos))

/-! ### The calls -/

/-- The constructor's loop leaves bubbles in the slots it visits. -/
theorem foldl_set_bubble (l : List Nat) (hl : ∀ j ∈ l, j ≤ b.past) :
    let b' := l.foldl (fun b (j : Nat) => b.set (-(j : Int)) (bubble : α)) b
    (b'.past = b.past ∧ b'.future = b.future ∧ b'.base = b.base) ∧ ∀ i ≤ b.past,
      b'.get (-(i : Int)) = if i ∈ l then bubble else b.get (-(i : Int)) := by
  -- The rest of the loop starts from the buffer with slot `j` written.
  induction l generalizing b with
  | nil => exact ⟨⟨rfl, rfl, rfl⟩, fun i _ => rfl⟩
  | cons j l ih =>
    obtain ⟨hframe, hget⟩ := ih (b := b.set (-(j : Int)) bubble)
      fun k hk => hl k (mem_cons_of_mem j hk)
    refine ⟨hframe, fun i hi => ?_⟩
    rw [foldl_cons, hget i hi, get_set_slot (hl j mem_cons_self) hi]
    by_cases hij : i = j <;> simp [hij]

variable [Inhabited α]

/-- A new pipeline has bubbles only. -/
theorem delivers_init : (init (α := α) depth).Delivers depth := by
  obtain ⟨⟨hpast, hfuture, hbase⟩, hget⟩ := foldl_set_bubble (α := α) (b := .new depth 0)
    (range (depth + 1)) fun j hj => Nat.lt_succ_iff.mp (mem_range.mp hj)
  have hslot : ∀ i ≤ depth, (new depth : SelfStallingPipeline α).slot i = bubble := fun i hi =>
    (hget i hi).trans (if_pos (mem_range.mpr (Nat.lt_succ_of_le hi)))
  have hcontents : contents (new depth) = replicate (depth + 1) (bubble : α) := by
    refine eq_replicate_iff.mpr ⟨by simp [contents, new, hpast]; rfl, fun x hx => ?_⟩
    obtain ⟨i, hi, rfl⟩ := mem_map.mp hx
    exact hslot i (Nat.le_trans (Nat.lt_succ_iff.mp (mem_range.mp hi)) (Nat.le_of_eq hpast))
  refine ⟨⟨hpast, hfuture, hbase ▸ Nat.succ_pos _⟩, hcontents ▸ prefix_rfl, ?_, ?_, fun hend => ?_⟩
  · simp [PipelineSession.init]
  · show 0 = (contents (new depth)).countP _
    simp [hcontents, countP_replicate]
  · have hfront : front (new depth) = (bubble : α) := hslot _ (Nat.le_of_eq hpast)
    have hend : (!isBubble (front (new depth : SelfStallingPipeline α))) = true := hend
    rw [hfront, isBubble_bubble] at hend
    cases hend

namespace PipelineSession.Delivers

variable (h : s.Delivers depth)
include h

omit [Inhabited α] in
/-- An instruction enters the first stage. -/
theorem push (hdepth : 0 < depth) (hp : s.pipe.push x = some p) :
    Delivers depth { s with
      pipe := p
      history := x :: s.history.tail
      pushes := if isBubble x then s.pushes else x :: s.pushes } := by
  unfold SelfStallingPipeline.push at hp
  split at hp
  · cases hp
  next hfree =>
  cases hp
  have hempty : isBubble (s.pipe.slot 0) = true := by simpa [alreadyPushed] using hfree
  -- The entry of this cycle is a bubble, because the slot of the push is one.
  obtain ⟨older, hhistory⟩ := h.contents
  rw [contents_head, cons_append] at hhistory
  refine ⟨⟨h.shaped.past, h.shaped.future, h.shaped.base⟩, ?_, ?_, ?_, fun hend => h.held ?_⟩
  · show SelfStallingPipeline.contents ⟨s.pipe.buffer.set 0 x, _, _⟩ <+: x :: s.history.tail
    rw [contents_set, contents_head, ← hhistory]
    exact ⟨older, rfl⟩
  · have hpushes := h.pushes
    rw [← hhistory, filter_cons_of_neg (by simp [hempty])] at hpushes
    rw [← hhistory, tail_cons, filter_cons, hpushes]
    cases isBubble x <;> rfl
  · show (if isBubble x then s.pipe.occupancy else s.pipe.occupancy + 1)
      = (SelfStallingPipeline.contents ⟨s.pipe.buffer.set 0 x, _, _⟩).countP _
    rw [contents_set, h.occupancy, contents_head]
    cases hx : isBubble x <;> simp [hx, hempty]
  · have hfront := front_set (x := x) (p := s.pipe) (h.shaped.past ▸ hdepth)
    exact (congrArg (!isBubble ·) (hfront _ _)).symm.trans hend

/-- A cycle moves the pipeline on, unless it stalls. -/
theorem advance (hdepth : 0 < depth) : Delivers depth { s with
    pipe := s.pipe.advance
    history := if s.pipe.stalled then s.history else bubble :: s.history
    cleared := s.pipe.stalled && s.cleared } := by
  cases hst : s.pipe.stalled with
  | true =>
    rw [SelfStallingPipeline.advance, if_pos hst]
    exact h
  | false =>
    have hmoved := contents_advance h.shaped hst
    have hoccupancy := h.occupancy
    rw [contents_last] at hoccupancy
    refine ⟨?_, ?_, ?_, ?_, fun hend => .inl ?_⟩
    · rw [advance_eq hst]
      exact ⟨h.shaped.past, h.shaped.future, TimeBuffer.base_advance_lt⟩
    · show s.pipe.advance.contents <+: bubble :: s.history
      have hfront := dropLast_prefix s.pipe.contents
      rw [hmoved]
      exact (prefix_cons_inj bubble).mpr (hfront.trans h.contents)
    · show (bubble :: s.history).filter _ = s.pushes
      simpa using h.pushes
    · -- The end leaves, and a bubble comes in.
      show s.pipe.advance.occupancy = s.pipe.advance.contents.countP _
      rw [hmoved, contents_last, advance_eq hst]
      show (if !isBubble s.pipe.front then _ else _) = _
      cases hend : isBubble s.pipe.front <;> simp_all
    · show s.pipe.advance.stalled = true
      rw [advance_eq hst] at hend ⊢
      -- The bubble written at the other end does not change what `stalled` was computed from.
      have hfront := front_set (x := bubble) (p := { s.pipe with buffer := s.pipe.buffer.advance })
        (h.shaped.past ▸ hdepth)
      exact (congrArg (!isBubble ·) (hfront _ _)).symm.trans hend

end PipelineSession.Delivers

/-- Each call keeps what the pipeline delivers. -/
theorem delivers_step (hdepth : 0 < depth) (s : PipelineSession α) (c : PipelineCall α)
    (s' : PipelineSession α) (h : s.Delivers depth) (hstep : s.step c = some s') :
    s'.Delivers depth := by
  cases c with
  | push =>
    obtain ⟨p, hp, rfl⟩ := Option.map_eq_some_iff.mp hstep
    exact h.push hdepth hp
  | advance =>
    cases hstep
    exact h.advance hdepth
  | unstall =>
    cases hstep
    exact { h with
      shaped := ⟨h.shaped.past, h.shaped.future, h.shaped.base⟩
      held := fun _ => .inr rfl }

/-- In every run, each slot holds what was pushed that many effective advances ago, the end holds
its element until the user clears `stalled`, and `occupancy` counts the non-bubbles. -/
theorem pipeline_delivers (hdepth : 0 < depth) (calls : List (PipelineCall α))
    (hrun : Lib.run PipelineSession.step (.init depth) calls = some s) : s.Delivers depth :=
  Lib.run_invariant (delivers_step hdepth) delivers_init hrun

/-- Elements that may be absent, with the absent one as the bubble. -/
instance optionBubble {β : Type} : BubbleTraits (Option β) :=
  { bubble := none, isBubble := Option.isNone, isBubble_bubble := rfl }

/-- The element pushed into a pipeline of depth 2 is at its end after two advances. -/
theorem pipeline_delivers_two : ∃ s : PipelineSession (Option Nat),
    Lib.run PipelineSession.step (.init 2) [.push (some 5), .advance, .advance] = some s ∧
      s.pipe.front = some 5 ∧ s.Delivers 2 := by
  refine ⟨_, rfl, rfl, ?_⟩
  exact pipeline_delivers (by decide) [.push (some 5), .advance, .advance] rfl

end Gem5.MyMinor
