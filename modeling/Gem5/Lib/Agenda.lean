import Mathlib.Data.List.Sort

/-!
# `Gem5.Lib.Agenda`: priority queues that serve the last entry first among equals

An agenda is a list of entries, each with a key, and the last one that was put in comes first
in the list. The next entry to serve has a minimal key, and among the entries with this key it
is the one that was put in last.

A queue can keep its entries sorted instead. `sorted` is the order in which such a queue holds
them, and each operation on the agenda is one on the sorted list: `put` is an ordered insertion,
`drop` removes an entry, and the next entry is the first one.
-/

namespace Gem5.Lib

open List

/-- The entries of a priority queue with their keys, the last one that was put in first. -/
abbrev Agenda (α κ : Type) := List (α × κ)

namespace Agenda

section
variable {α κ : Type} [LinearOrder κ] (a : Agenda α κ)

/-- `x` is served next: it has a minimal key, and every entry that was put in later has a
larger one. -/
def IsNext (x : α) : Prop :=
  ∃ later k earlier, a = later ++ (x, k) :: earlier ∧ (∀ e ∈ later, k < e.2) ∧
    ∀ e ∈ earlier, k ≤ e.2

/-- The order in which a sorted queue holds the entries. -/
def sorted : List (α × κ) :=
  a.insertionSort fun e f => e.2 ≤ f.2

theorem sorted_cons (e : α × κ) (a : Agenda α κ) :
    sorted (e :: a) = (sorted a).orderedInsert (fun e f => e.2 ≤ f.2) e := rfl

theorem mem_sorted {a : Agenda α κ} {e : α × κ} : e ∈ sorted a ↔ e ∈ a := mem_insertionSort _

/-- An agenda of sorted entries comes out in order. -/
theorem pairwise_sorted : (sorted a).Pairwise fun e f => e.2 ≤ f.2 := by
  exact pairwise_insertionSort _ a

/-- Entries that a sorted list drops may be dropped before or after an insertion. -/
theorem filter_orderedInsert {p : α × κ → Bool} (e : α × κ) :
    ∀ l : List (α × κ), l.Pairwise (fun e f => e.2 ≤ f.2) →
      (l.orderedInsert (fun e f => e.2 ≤ f.2) e).filter p
        = if p e then (l.filter p).orderedInsert (fun e f => e.2 ≤ f.2) e else l.filter p
  | [], _ => by
    cases hp : p e with
    | false => simp [hp]
    | true => simp [hp]
  | f :: l, hl => by
    rw [pairwise_cons] at hl
    by_cases hef : e.2 ≤ f.2
    · rw [orderedInsert_cons, if_pos hef]
      cases hp : p e with
      | false => simp [hp]
      | true =>
        cases hpf : p f with
        | true => simp [hp, hpf, hef]
        | false =>
          -- the entry behind `f` that stays first is not before `e` either
          rw [filter_cons_of_pos hp, filter_cons_of_neg (by simp [hpf]), if_pos rfl]
          cases hrest : l.filter p with
          | nil => rfl
          | cons g rest =>
            have hg : g ∈ l := mem_of_mem_filter (hrest ▸ mem_cons_self)
            rw [orderedInsert_cons, if_pos (le_trans hef (hl.1 g hg))]
    · rw [orderedInsert_cons, if_neg hef, filter_cons, filter_cons, filter_orderedInsert e l hl.2]
      cases hp : p e with
      | false => simp
      | true =>
        cases hpf : p f with
        | false => simp
        | true => simp [hef]

/-- The first entry of the sorted list is the next one to serve. -/
theorem isNext_of_sorted {x : α} {k : κ} {rest : List (α × κ)} :
    ∀ {a : Agenda α κ}, sorted a = (x, k) :: rest → IsNext a x := by
  intro a
  suffices h : sorted a = (x, k) :: rest → ∃ later earlier, a = later ++ (x, k) :: earlier ∧
      (∀ e ∈ later, k < e.2) ∧ ∀ e ∈ earlier, k ≤ e.2 by
    intro hs
    obtain ⟨later, earlier, heq, hlater, hearlier⟩ := h hs
    exact ⟨later, k, earlier, heq, hlater, hearlier⟩
  induction a generalizing rest with
  | nil => intro h; cases h
  | cons e a ih =>
    intro h
    rw [sorted_cons] at h
    cases hs : sorted a with
    | nil =>
      have ha : a = [] := by
        cases a with
        | nil => rfl
        | cons f b =>
          have hf := mem_sorted.mpr (mem_cons_self : f ∈ f :: b)
          rw [hs] at hf
          cases hf
      subst ha
      cases h
      exact ⟨[], [], rfl, by simp, by simp⟩
    | cons f l =>
      rw [hs] at h
      by_cases hef : e.2 ≤ f.2
      · -- the new entry comes first, and everything before it has a key at least as large
        rw [orderedInsert_cons, if_pos hef] at h
        cases h
        refine ⟨[], a, rfl, by simp, fun g hg => ?_⟩
        have hsorted := pairwise_sorted a
        have hmem := mem_sorted.mpr hg
        rw [hs] at hsorted hmem
        rcases mem_cons.mp hmem with rfl | hgl
        · exact hef
        · exact le_trans hef ((pairwise_cons.mp hsorted).1 g hgl)
      · rw [orderedInsert_cons, if_neg hef] at h
        cases h
        obtain ⟨later, earlier, rfl, hlater, hearlier⟩ := ih hs
        refine ⟨e :: later, earlier, rfl, fun g hg => ?_, hearlier⟩
        rcases mem_cons.mp hg with rfl | hg
        · exact not_le.mp hef
        · exact hlater g hg

end

section
variable {α κ : Type} [DecidableEq α] (a : Agenda α κ) (x : α)

/-- The agenda without the entry of `x`. -/
def drop : Agenda α κ :=
  a.filter fun e => e.1 ≠ x

/-- The agenda with `x` put in, in place of an entry that it had before. -/
def put (k : κ) : Agenda α κ :=
  (x, k) :: a.drop x

variable [LinearOrder κ]

/-- Dropping an entry drops it from the sorted list. -/
theorem sorted_drop : sorted (a.drop x) = (sorted a).filter fun e => e.1 ≠ x := by
  induction a with
  | nil => rfl
  | cons e a ih =>
    rw [sorted_cons, filter_orderedInsert e _ (pairwise_sorted a), ← ih]
    by_cases he : e.1 = x
    · simp [drop, he]
    · simp [drop, he, sorted_cons]

/-- What can happen to an agenda. -/
inductive Act (α κ : Type) where
  | put (x : α) (k : κ)
  | drop (x : α)
  | serve (x : α)

/-- The moves of a priority queue. -/
inductive Step : Agenda α κ → Act α κ → Agenda α κ → Prop
  | put (a : Agenda α κ) (x : α) (k : κ) : Step a (.put x k) (a.put x k)
  | drop {a : Agenda α κ} {x : α} {k : κ} (h : (x, k) ∈ a) : Step a (.drop x) (a.drop x)
  | serve {a : Agenda α κ} {x : α} (h : a.IsNext x) : Step a (.serve x) (a.drop x)

/-- A sequence of moves. -/
inductive Path : Agenda α κ → List (Act α κ) → Agenda α κ → Prop
  | nil (a : Agenda α κ) : Path a [] a
  | cons {a b c : Agenda α κ} {x : Act α κ} {xs : List (Act α κ)} (h : Step a x b)
      (hrest : Path b xs c) : Path a (x :: xs) c

theorem Path.append {a b c : Agenda α κ} {xs ys : List (Act α κ)} (h : Path a xs b)
    (hrest : Path b ys c) : Path a (xs ++ ys) c := by
  induction h with
  | nil => exact hrest
  | cons hstep _ ih => exact .cons hstep (ih hrest)

end

end Agenda

end Gem5.Lib
