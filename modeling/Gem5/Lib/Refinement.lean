import Gem5.Lib.Run
import Mathlib.Logic.Relation

/-!
# `Gem5.Lib.Refinement`: events as sequences of small steps

A concrete system `step : σ → ε → Option σ` is compared with a labelled transition relation
`tr` through a view of its states. Each concrete event makes one transition with the label of
the event, followed by any number of quiet transitions. `Refines` says so for all states
whose view is well formed, and that transitions keep views well formed.

`Refines.run_invariant` is the rule that comes out of it: a property of views that every
transition keeps, under a condition on the labelled ones, holds after every run whose events
meet the condition.
-/

namespace Gem5.Lib

section
variable {σ ε α L : Type} (step : σ → ε → Option σ) (view : σ → α) (label : ε → L)
  (tr : α → L → α → Prop) (quiet : L) (wf : α → Prop)

/-- Quiet transitions, any number of them. -/
abbrev QuietPath : α → α → Prop :=
  Relation.ReflTransGen fun a b => tr a quiet b

/-- The concrete system refines the transition relation. -/
structure Refines : Prop where
  wf_tr : ∀ {a : α} {l : L} {b : α}, wf a → tr a l b → wf b
  step_tr : ∀ {s : σ} {e : ε} {s' : σ}, wf (view s) → step s e = some s' →
    ∃ b, tr (view s) (label e) b ∧ QuietPath tr quiet b (view s')

variable {step view label tr quiet wf} {s : σ} {P : α → Prop}

/-- A property that quiet transitions keep is kept along a quiet path. -/
theorem quietPath_invariant {a b : α} (hquiet : ∀ {a b : α}, P a → tr a quiet b → P b)
    (hpath : QuietPath tr quiet a b) (ha : P a) : P b := by
  induction hpath with
  | refl => exact ha
  | tail _ hlast ih => exact hquiet ih hlast

/-- A property that every transition keeps, the labelled one of the event under its own
condition, is kept by the event. -/
theorem Refines.step_invariant (h : Refines step view label tr quiet wf) {e : ε} {s' : σ}
    (hquiet : ∀ {a b : α}, wf a → P a → tr a quiet b → P b)
    (hlabel : ∀ {b : α}, wf (view s) → P (view s) → tr (view s) (label e) b → P b)
    (hwf : wf (view s)) (hs : P (view s)) (hstep : step s e = some s') :
    wf (view s') ∧ P (view s') := by
  obtain ⟨b, hfirst, hpath⟩ := h.step_tr hwf hstep
  refine quietPath_invariant (P := fun a => wf a ∧ P a) ?_ hpath
    ⟨h.wf_tr hwf hfirst, hlabel hwf hs hfirst⟩
  rintro a b ⟨hwfa, ha⟩ hab
  exact ⟨h.wf_tr hwfa hab, hquiet hwfa ha hab⟩

variable {es : List ε} {t : σ}

variable (h : Refines step view label tr quiet wf)
include h

/-- A property that every transition keeps holds after every run. -/
theorem Refines.run_invariant (htr : ∀ {a : α} {l : L} {b : α}, wf a → P a → tr a l b → P b)
    (hwf : wf (view s))
    (hs : P (view s)) (hrun : run step s es = some t) : wf (view t) ∧ P (view t) := by
  refine Lib.run_invariant (P := fun s => wf (view s) ∧ P (view s)) ?_ ⟨hwf, hs⟩ hrun
  rintro s e s' ⟨hwf, hs⟩ hstep
  exact h.step_invariant htr htr hwf hs hstep

/-- A property that every transition keeps, the labelled ones under a condition, holds after
every run whose events meet the condition. -/
theorem Refines.run_invariant_of_meets {ok : α → L → Prop}
    (htr : ∀ {a : α} {l : L} {b : α}, wf a → P a → (l = quiet ∨ ok a l) → tr a l b → P b)
    (hwf : wf (view s)) (hs : P (view s))
    (hok : RunMeets step (fun s e => ok (view s) (label e)) s es) (hrun : run step s es = some t) :
    wf (view t) ∧ P (view t) := by
  refine Lib.run_invariant_of_meets (P := fun s => wf (view s) ∧ P (view s)) ?_ ⟨hwf, hs⟩ hok
    hrun
  rintro s e s' ⟨hwf, hs⟩ hoke hstep
  exact h.step_invariant (fun hwfa ha => htr hwfa ha (.inl rfl))
    (fun hwfa ha => htr hwfa ha (.inr hoke)) hwf hs hstep

end

end Gem5.Lib
