import Mathlib.Data.List.Induction

/-!
# `Gem5.Lib.Origin`: where the items of a state come from

A system that takes every event, `step : σ → ε → σ`. `has s a` says that the state `s` holds the
item `a`. If an item of the next state is either made by the event or was there before and is kept
by it, then an item at the end of a history was made by one of the events, and each later event
kept it. `exists_origin` gives the event and the events after it.
-/

namespace Gem5.Lib

open List

variable {σ ε α : Type} {step : σ → ε → σ} {s : σ}

/-- The cut of a history with one more event: before the last event, or at it. -/
theorem append_singleton_eq {es front back : List ε} {e last : ε}
    (h : es ++ [last] = front ++ e :: back) :
    (∃ back', es = front ++ e :: back') ∨ front = es ∧ e = last := by
  induction back using reverseRecOn with
  | nil =>
    obtain ⟨hes, he⟩ := append_inj' h rfl
    cases he
    exact .inr ⟨hes.symm, rfl⟩
  | append_singleton back' x _ =>
    rw [← cons_append, ← append_assoc] at h
    exact .inl ⟨back', (append_inj' h rfl).1⟩

/-- An item at the end of a history was made by an event and kept by every later one. -/
theorem exists_origin (has : σ → α → Prop) (makes : ε → α → Prop) (kept : σ → ε → α → Prop)
    (hfirst : ∀ a, ¬ has s a)
    (hstep : ∀ (es : List ε) e a, has (step (es.foldl step s) e) a →
      makes e a ∨ has (es.foldl step s) a ∧ kept (es.foldl step s) e a) :
    ∀ (es : List ε) (a : α), has (es.foldl step s) a →
      ∃ before e after, es = before ++ e :: after ∧ makes e a ∧
        ∀ front later back, after = front ++ later :: back →
          kept ((before ++ e :: front).foldl step s) later a := by
  intro es
  induction es using reverseRecOn with
  | nil =>
    intro a ha
    exact absurd ha (hfirst a)
  | append_singleton es last ih =>
    intro a ha
    rw [foldl_append] at ha
    rcases hstep es last a ha with hmade | ⟨hold, hkept⟩
    · refine ⟨es, last, [], rfl, hmade, fun front later back h => ?_⟩
      simp at h
    · obtain ⟨before, e, after, hes, hmade, hafter⟩ := ih a hold
      refine ⟨before, e, after ++ [last], by simp [hes], hmade, fun front later back h => ?_⟩
      rcases append_singleton_eq h with ⟨back', h⟩ | ⟨hfront, hlater⟩
      · exact hafter front later back' h
      · -- the last event met the state after the whole history
        rw [hfront, hlater, ← hes]
        exact hkept

end Gem5.Lib
