import Gem5.Lib.Returns

/-!
# `Gem5.Lib.Session`: a component against its specification

A component offers calls `call : Op → StateT σ (Except ε) R`. Its specification says in which
abstract states a call is allowed, and how a call with a result moves the abstract state. A
session is a sequence of allowed calls that return, with the abstract state moved along.

`Implements` is the forward simulation: an allowed call returns, with a result and a state that
the specification admits. In a session the component and the specification then stay related
(`Implements.session`).
-/

namespace Gem5.Lib

section
variable {σ ε α Op R : Type} (call : Op → StateT σ (Except ε) R) (allowed : α → Op → Prop)
  (tr : α → Op → R → α → Prop)

/-- Allowed calls with their results, the component and the specification side by side. -/
inductive Session (s₀ : σ) (a₀ : α) : List (Op × R) → σ → α → Prop
  | start : Session s₀ a₀ [] s₀ a₀
  | next {l : List (Op × R)} {s s' : σ} {a a' : α} {op : Op} {r : R} :
      Session s₀ a₀ l s a → allowed a op → call op s = .ok (r, s') → tr a op r a' →
        Session s₀ a₀ (l ++ [(op, r)]) s' a'

/-- An allowed call returns what the specification admits, and the result determines the next
abstract state. -/
structure Implements (rel : σ → α → Prop) : Prop where
  call_tr : ∀ {s : σ} {a : α} {op : Op}, rel s a → allowed a op →
    Returns (call op) s fun r s' => ∃ a', tr a op r a' ∧ rel s' a'
  tr_unique : ∀ {a a' a'' : α} {op : Op} {r : R}, tr a op r a' → tr a op r a'' → a' = a''

variable {call allowed tr} {rel : σ → α → Prop} {s₀ s : σ} {a₀ a : α} {l : List (Op × R)}

/-- The component and the specification stay related. -/
theorem Implements.session (h : Implements call allowed tr rel) (h₀ : rel s₀ a₀)
    (hs : Session call allowed tr s₀ a₀ l s a) : rel s a := by
  induction hs with
  | start => exact h₀
  | next _ hallowed hcall htr ih =>
    obtain ⟨a'', htr', hrel⟩ := (h.call_tr ih hallowed).of_eq hcall
    rw [h.tr_unique htr htr']
    exact hrel

end

end Gem5.Lib
