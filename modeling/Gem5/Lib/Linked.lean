import Mathlib.Data.List.Nodup

/-!
# `Gem5.Lib.Linked`: linked lists in a heap

`next` gives the link that an address holds, and `none` for an address that holds nothing.
`Linked next o ps` says that the list which starts at the link `o` visits the addresses `ps`
and then ends. Only the links of the addresses in `ps` count, so links of other addresses may
be stale.
-/

namespace Gem5.Lib

open List

section
variable {α : Type} {next next' : α → Option (Option α)}

/-- The list that starts at a link visits the given addresses. -/
def Linked (next : α → Option (Option α)) : Option α → List α → Prop
  | o, [] => o = none
  | o, p :: ps => o = some p ∧ ∃ o', next p = some o' ∧ Linked next o' ps

variable {p : α} {o : Option α} {ps : List α}

/-- An empty link starts the empty list only. -/
theorem Linked.eq_nil (h : Linked next none ps) : ps = [] := by
  cases ps with
  | nil => rfl
  | cons p ps => cases h.1

/-- The first address of a list. -/
theorem Linked.eq_cons (h : Linked next (some p) ps) :
    ∃ o rest, ps = p :: rest ∧ next p = some o ∧ Linked next o rest := by
  cases ps with
  | nil => cases h
  | cons q rest =>
    obtain ⟨hq, o, ho, hrest⟩ := h
    cases hq
    exact ⟨o, rest, rfl, ho, hrest⟩

/-- Only the links of the visited addresses count. -/
theorem Linked.congr (h : Linked next o ps) (heq : ∀ p ∈ ps, next' p = next p) :
    Linked next' o ps := by
  induction ps generalizing o with
  | nil => exact h
  | cons p ps ih =>
    obtain ⟨ho, o', hp, hrest⟩ := h
    refine ⟨ho, o', ?_, ih hrest fun q hq => heq q (mem_cons_of_mem p hq)⟩
    rw [heq p mem_cons_self, hp]

/-- A link starts one list only. -/
theorem Linked.unique {qs : List α} (hp : Linked next o ps) (hq : Linked next o qs) : ps = qs := by
  induction ps generalizing o qs with
  | nil =>
    cases hp
    exact hq.eq_nil.symm
  | cons p ps ih =>
    obtain ⟨ho, o', hnext, hrest⟩ := hp
    subst ho
    obtain ⟨o'', rest, rfl, hnext', hrest'⟩ := hq.eq_cons
    rw [hnext] at hnext'
    cases hnext'
    rw [ih hrest hrest']

/-- The part of a list behind one of its addresses. -/
theorem Linked.suffix {xs ys : List α} (h : Linked next o (xs ++ p :: ys)) :
    ∃ o', next p = some o' ∧ Linked next o' ys := by
  induction xs generalizing o with
  | nil =>
    obtain ⟨_, o', hp, hys⟩ := h
    exact ⟨o', hp, hys⟩
  | cons x xs ih =>
    obtain ⟨_, o', _, hrest⟩ := h
    exact ih hrest

/-- Writing the link of one address replaces the list behind it. -/
theorem Linked.splice {o' : Option α} {xs ys zs : List α} (h : Linked next o (xs ++ p :: ys))
    (hxs : ∀ x ∈ xs, next' x = next x) (hp : next' p = some o') (hzs : Linked next' o' zs) :
    Linked next' o (xs ++ p :: zs) := by
  induction xs generalizing o with
  | nil => exact ⟨h.1, o', hp, hzs⟩
  | cons x xs ih =>
    obtain ⟨ho, o'', hx, hrest⟩ := h
    refine ⟨ho, o'', ?_, ih hrest fun y hy => hxs y (mem_cons_of_mem x hy)⟩
    rw [hxs x mem_cons_self, hx]

end

end Gem5.Lib
