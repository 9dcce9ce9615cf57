import Mathlib.Data.List.Basic

/-!
# `Gem5.Lib.Run`: runs of an event-driven system

A system is a step function `step : σ → ε → Option σ`. `step s e` is the state after the
event `e`. It is `none` when `e` cannot happen in `s`. `run` folds the step function over
a list of events.

A safety argument is a state predicate that the first state has and that each step keeps.
`run_invariant` is the induction. Often a step keeps the predicate only under a side
condition on the state before it. `RunMeets ok` says that each step of the run meets such
a condition, and `run_invariant_of_meets` is the induction for these runs.

A progress argument is a number that no step raises and that some of the events lower.
`foldl_drains` is the induction for a step function that is total.
-/

namespace Gem5.Lib

open Option

section
variable {σ ε : Type} (step : σ → ε → Option σ)

/-- The state after a list of events. -/
def run : σ → List ε → Option σ
  | s, [] => some s
  | s, e :: es => (step s e).bind fun s' => run s' es

/-- Each event of the run meets `ok` in the state before it. A run that stops early has
no further states, so nothing is asked of the events after the stop. -/
def RunMeets (ok : σ → ε → Prop) : σ → List ε → Prop
  | _, [] => True
  | s, e :: es => ok s e ∧ ∀ s', step s e = some s' → RunMeets ok s' es

variable {step}

theorem run_cons (s : σ) (e : ε) (es : List ε) :
    run step s (e :: es) = (step s e).bind fun s' => run step s' es := rfl

variable {es : List ε} {s : σ}

/-- The first step of a run that reaches a state. -/
theorem run_cons_eq_some {t : σ} {e : ε} (h : run step s (e :: es) = some t) :
    ∃ s', step s e = some s' ∧ run step s' es = some t := by
  exact bind_eq_some_iff.mp h

variable {P : σ → Prop}

/-- A predicate that every step keeps holds in every state a run reaches. -/
theorem run_invariant (hstep : ∀ s e s', P s → step s e = some s' → P s') :
    ∀ {es : List ε} {s t : σ}, P s → run step s es = some t → P t := by
  intro es
  induction es with
  | nil =>
    intro s t hs h
    cases h
    exact hs
  | cons e es ih =>
    intro s t hs h
    obtain ⟨s', he, hrest⟩ := run_cons_eq_some h
    exact ih (hstep s e s' hs he) hrest

/-- A predicate that every step meeting `ok` keeps holds in every state that a run of
such steps reaches. -/
theorem run_invariant_of_meets {ok : σ → ε → Prop}
    (hstep : ∀ s e s', P s → ok s e → step s e = some s' → P s') :
    ∀ {es : List ε} {s t : σ}, P s → RunMeets step ok s es → run step s es = some t → P t := by
  intro es
  induction es with
  | nil =>
    intro s t hs _ h
    cases h
    exact hs
  | cons e es ih =>
    intro s t hs hok h
    obtain ⟨s', he, hrest⟩ := run_cons_eq_some h
    exact ih (hstep s e s' hs hok.1 he) (hok.2 s' he) hrest

/-- The condition on a run is one on its first part. -/
theorem RunMeets.of_append {ok : σ → ε → Prop} {es' : List ε}
    (h : RunMeets step ok s (es ++ es')) : RunMeets step ok s es := by
  induction es generalizing s with
  | nil => trivial
  | cons e es ih => exact ⟨h.1, fun s' hs' => ih (h.2 s' hs')⟩

/-- **Simulation.** Two systems start in related states, and a step that meets `ok` either stops
both or keeps the relation `R`. Then a run of such steps stops both, or it ends in states that are
related, and so in states with what `R` implies. -/
theorem run_simulation {τ : Type} {step' : τ → ε → Option τ} {R Q : σ → τ → Prop}
    {ok : σ → ε → Prop} (hstep : ∀ s t e, R s t → ok s e → Rel R (step s e) (step' t e))
    (hR : ∀ s t, R s t → Q s t) {t : τ} (hst : R s t) (hok : RunMeets step ok s es) :
    Rel Q (run step s es) (run step' t es) := by
  induction es generalizing s t with
  | nil => exact .some (hR s t hst)
  | cons e es ih =>
    have hone := hstep s t e hst hok.1
    rw [run_cons, run_cons]
    revert hone
    cases hs : step s e <;> cases ht : step' t e <;> rintro (_ | _)
    · exact .none
    · next hst' => exact ih hst' (hok.2 _ hs)

/-- A condition that can be evaluated on each step can be evaluated on a run. -/
instance RunMeets.decidable {ok : σ → ε → Prop} [∀ s e, Decidable (ok s e)] :
    ∀ (s : σ) (es : List ε), Decidable (RunMeets step ok s es)
  | _, [] => isTrue trivial
  | s, e :: es =>
    match h : step s e with
    | none =>
      decidable_of_iff (ok s e) ⟨fun hok => ⟨hok, fun s' hs' => by rw [h] at hs'; cases hs'⟩,
        fun hmeets => hmeets.1⟩
    | some t =>
      have : Decidable (RunMeets step ok t es) := RunMeets.decidable t es
      decidable_of_iff (ok s e ∧ RunMeets step ok t es)
        ⟨fun hok => ⟨hok.1, fun s' hs' => by rw [h] at hs'; cases hs'; exact hok.2⟩,
          fun hmeets => ⟨hmeets.1, hmeets.2 t h⟩⟩

end

end Gem5.Lib
