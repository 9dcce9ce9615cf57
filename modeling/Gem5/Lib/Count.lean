import Mathlib.Data.List.Count
import Mathlib.Data.List.Nodup
import Mathlib.Data.List.Perm.Basic

/-!
# `Gem5.Lib.Count`: counting over a list of keys

A list holds keys, and a map `g` gives each key its value. `xs.countP fun x => f (g x)` counts
the keys whose value passes a test. The lemmas say how the count changes when the value of one
key changes. A list without duplicates counts each key once.
-/

namespace Gem5.Lib

open Function List

section
variable {α β : Type} [DecidableEq α] (g : α → β) {a : α} {b : β} (f : β → Bool) {xs : List α}

/-- A key that is not in the list does not matter. -/
theorem countP_update_of_not_mem (h : a ∉ xs) :
    xs.countP (fun x => f (update g a b x)) = xs.countP fun x => f (g x) := by
  refine countP_congr fun x hx => ?_
  have hne : x ≠ a := fun hxa => h (hxa ▸ hx)
  rw [update_of_ne hne]

/-- A new value that tests like the old one does not matter either. -/
theorem countP_update_of_eq (h : f b = f (g a)) (xs : List α) :
    xs.countP (fun x => f (update g a b x)) = xs.countP fun x => f (g x) := by
  refine countP_congr fun x _ => ?_
  by_cases hx : x = a
  · subst hx
    rw [update_self, h]
  · rw [update_of_ne hx]

/-- A key of the list counts once, before and after the change. -/
theorem countP_update_add (hnodup : xs.Nodup) (h : a ∈ xs) :
    xs.countP (fun x => f (update g a b x)) + (f (g a)).toNat
      = xs.countP (fun x => f (g x)) + (f b).toNat := by
  obtain ⟨ys, zs, rfl⟩ := append_of_mem h
  rw [nodup_append, nodup_cons] at hnodup
  have hys : a ∉ ys := fun ha => hnodup.2.2 a ha a mem_cons_self rfl
  simp only [countP_append, countP_cons, update_self,
    countP_update_of_not_mem g f hys, countP_update_of_not_mem g f hnodup.2.1.1]
  cases f b <;> cases f (g a) <;> simp <;> omega

end

section
variable {α β : Type} (f : α → β) {xs : List α} {k : Nat} {x : α}

/-- Replacing an element by one with the same image keeps the images. -/
theorem map_set_of_eq {y : α} (hx : xs[k]? = some x) (hxy : f y = f x) :
    (xs.set k y).map f = xs.map f := by
  apply List.ext_getElem?
  intro i
  rw [List.getElem?_map, List.getElem?_map, List.getElem?_set]
  split
  · rename_i hki
    subst hki
    obtain ⟨hlt, -⟩ := List.getElem?_eq_some_iff.mp hx
    rw [if_pos hlt, hx, Option.map_some, Option.map_some, hxy]
  · rfl

/-- Removing an element lowers the count of its image by one. -/
theorem count_map_eraseIdx_add [DecidableEq β] (hx : xs[k]? = some x) (b : β) :
    ((xs.eraseIdx k).map f).count b + (if f x = b then 1 else 0) = (xs.map f).count b := by
  obtain ⟨hlt, rfl⟩ := List.getElem?_eq_some_iff.mp hx
  have hperm := (List.getElem_cons_eraseIdx_perm hlt).map f
  rw [← hperm.count_eq b, List.map_cons, List.count_cons]
  simp

end

end Gem5.Lib
