import Mathlib.Data.List.Basic

/-!
# `Gem5.Lib.Patch`: writes as partial maps over a memory

A memory is a total map `α → β`. A write is a partial map `α → Option β`: it gives the
addresses it covers a new value and leaves the others alone. `applyAll` performs a list of
writes in order, so the last write that covers an address decides its value.

`applyAll_eq_of_forall_none` and `applyAll_congr_of_exists` are the two facts about one
address: with no covering write the old value stays, and with a covering write the old
value does not matter. `applyAll_move_front` says that a write commutes to the front of
the list when the writes before it cover none of its addresses.

A list of writes over a memory is a write buffer. `applyAll_absorb` performs a part of a write
that stays in the buffer, `applyAll_erase` takes a write out of the middle of it, and
`applyAll_eq_apply` splits a write into parts.
-/

namespace Gem5.Lib

open List

/-- A write to a memory `α → β`. -/
def Patch (α β : Type) := α → Option β

namespace Patch
variable {α β : Type}

/-- Perform a write. -/
def apply (p : Patch α β) (m : α → β) : α → β :=
  fun a => (p a).getD (m a)

/-- Perform writes in order. -/
def applyAll (ps : List (Patch α β)) (m : α → β) : α → β :=
  ps.foldl (fun m p => p.apply m) m

/-- Two writes cover no common address. -/
def Disjoint (p q : Patch α β) : Prop :=
  ∀ a, p a = none ∨ q a = none

/-- Every address that `p` covers gets the same value from `q`. -/
def Below (p q : Patch α β) : Prop :=
  ∀ a v, p a = some v → q a = some v

variable {a : α} {p : Patch α β} {ps : List (Patch α β)} {m : α → β}

theorem apply_of_none (h : p a = none) : p.apply m a = m a := by
  simp [apply, h]

variable {qs : List (Patch α β)} {v : β}

theorem apply_of_some (h : p a = some v) : p.apply m a = v := by
  simp [apply, h]

@[simp] theorem applyAll_cons (p : Patch α β) (ps : List (Patch α β)) (m : α → β) :
    applyAll (p :: ps) m = applyAll ps (p.apply m) := rfl

theorem applyAll_append (ps qs : List (Patch α β)) (m : α → β) :
    applyAll (ps ++ qs) m = applyAll qs (applyAll ps m) := by
  simp [applyAll, foldl_append]

/-- The value at an address depends on the old value at that address only. -/
theorem applyAll_congr (ps : List (Patch α β)) {m' : α → β} (h : m a = m' a) :
    applyAll ps m a = applyAll ps m' a := by
  induction ps generalizing m m' with
  | nil => exact h
  | cons p ps ih =>
    apply ih
    simp [apply, h]

/-- With no covering write the old value stays. -/
theorem applyAll_eq_of_forall_none (h : ∀ p ∈ ps, p a = none) : applyAll ps m a = m a := by
  induction ps generalizing m with
  | nil => rfl
  | cons p ps ih =>
    rw [applyAll_cons, ih fun q hq => h q (mem_cons_of_mem p hq)]
    exact apply_of_none (h p mem_cons_self)

/-- With a covering write the old value does not matter. -/
theorem applyAll_congr_of_exists (m m' : α → β) (h : ∃ p ∈ ps, p a ≠ none) :
    applyAll ps m a = applyAll ps m' a := by
  induction ps generalizing m m' with
  | nil => simp at h
  | cons p ps ih =>
    cases hp : p a with
    | some v =>
      have hv : p.apply m a = p.apply m' a := by
        rw [apply_of_some hp, apply_of_some hp]
      exact applyAll_congr ps hv
    | none =>
      obtain ⟨q, hq, hqa⟩ := h
      rcases mem_cons.mp hq with rfl | hq
      · exact absurd hp hqa
      · exact ih _ _ ⟨q, hq, hqa⟩

/-- The last covering write decides the value. -/
theorem applyAll_of_last (hp : p a = some v) (hqs : ∀ q ∈ qs, q a = none) :
    applyAll (ps ++ p :: qs) m a = v := by
  rw [applyAll_append, applyAll_cons, applyAll_eq_of_forall_none hqs, apply_of_some hp]

/-- A write that is disjoint from all writes before it can be performed first. -/
theorem applyAll_move_front (m : α → β) (h : ∀ q ∈ ps, Disjoint q p) :
    applyAll (ps ++ p :: qs) m = applyAll (ps ++ qs) (p.apply m) := by
  funext a
  rw [applyAll_append, applyAll_append, applyAll_cons]
  apply applyAll_congr
  cases hp : p a with
  | some v =>
    -- No earlier write covers `a`, so `p` is the only one that matters there.
    have hnone : ∀ q ∈ ps, q a = none := by
      intro q hq
      rcases h q hq a with hqa | hpa
      · exact hqa
      · rw [hp] at hpa
        cases hpa
    rw [applyAll_eq_of_forall_none hnone, apply_of_some hp, apply_of_some hp]
  | none =>
    rw [apply_of_none hp]
    exact applyAll_congr ps (apply_of_none hp).symm

/-- A part of a buffered write can be performed early: the buffer hides it. -/
theorem applyAll_absorb {q : Patch α β} (m : α → β) (hq : q ∈ ps) (hbelow : Below p q) :
    applyAll ps (p.apply m) = applyAll ps m := by
  funext a
  cases hp : p a with
  | none => exact applyAll_congr ps (apply_of_none hp)
  | some v =>
    refine applyAll_congr_of_exists _ _ ⟨q, hq, ?_⟩
    rw [hbelow a v hp]
    simp

/-- A write leaves the buffer when at each of its addresses a later write covers it, or the
memory has the right value and no earlier write covers it. -/
theorem applyAll_erase {older younger : List (Patch α β)}
    (h : ∀ a, p a ≠ none → (∃ q ∈ younger, q a ≠ none) ∨
      ((∀ q ∈ older, q a = none) ∧ m a = applyAll (older ++ p :: younger) m a)) :
    applyAll (older ++ younger) m = applyAll (older ++ p :: younger) m := by
  funext a
  rw [applyAll_append, applyAll_append, applyAll_cons]
  cases hp : p a with
  | none => exact applyAll_congr younger (apply_of_none hp).symm
  | some v =>
    rcases h a (by simp [hp]) with hcovered | ⟨holder, hmem⟩
    · exact applyAll_congr_of_exists _ _ hcovered
    · rw [applyAll_append, applyAll_cons] at hmem
      by_cases hcovered : ∃ q ∈ younger, q a ≠ none
      · exact applyAll_congr_of_exists _ _ hcovered
      · -- Nothing else covers `a`, so both sides are the value in memory.
        have hyounger : ∀ q ∈ younger, q a = none := by
          intro q hq
          by_contra hqa
          exact hcovered ⟨q, hq, hqa⟩
        rw [← hmem, applyAll_eq_of_forall_none hyounger, applyAll_eq_of_forall_none holder]

/-- Parts of a write that cover all of it have its effect. -/
theorem applyAll_eq_apply (m : α → β) (hbelow : ∀ q ∈ ps, Below q p)
    (hcover : ∀ a, p a ≠ none → ∃ q ∈ ps, q a ≠ none) : applyAll ps m = p.apply m := by
  funext a
  cases hp : p a with
  | none =>
    rw [apply_of_none hp]
    refine applyAll_eq_of_forall_none fun q hq => ?_
    cases hqa : q a with
    | none => rfl
    | some v =>
      rw [hbelow q hq a v hqa] at hp
      cases hp
  | some v =>
    -- The value is that of any part that covers `a`, and there is one.
    rw [apply_of_some hp]
    have hall : ∀ (qs : List (Patch α β)) (m : α → β), (∀ q ∈ qs, Below q p) →
        (m a = v ∨ ∃ q ∈ qs, q a ≠ none) → applyAll qs m a = v := by
      intro qs
      induction qs with
      | nil =>
        rintro m - (hm | ⟨q, hq, -⟩)
        · exact hm
        · cases hq
      | cons q qs ih =>
        intro m hqs hcase
        rw [applyAll_cons]
        refine ih _ (fun q' hq' => hqs q' (mem_cons_of_mem q hq')) ?_
        cases hqa : q a with
        | some w =>
          have hw := hqs q mem_cons_self a w hqa
          rw [hp, Option.some.injEq] at hw
          exact .inl ((apply_of_some hqa).trans hw.symm)
        | none =>
          rcases hcase with hm | ⟨q', hq', hne⟩
          · exact .inl ((apply_of_none hqa).trans hm)
          · rcases mem_cons.mp hq' with rfl | hq'
            · exact absurd hqa hne
            · exact .inr ⟨q', hq', hne⟩
    exact hall ps m hbelow (.inr (hcover a (by simp [hp])))

end Patch

end Gem5.Lib
