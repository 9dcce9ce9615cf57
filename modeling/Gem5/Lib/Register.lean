import Mathlib.Order.Basic

/-!
# `Gem5.Lib.Register`: reads and writes at instants

Operations on a register take place at instants. A read returns the value of the latest write
before it, or the initial value if there is none. `Atomic` says so for a set of reads and writes.
`Atomic.eq_of_no_write_between` is the rule that checkers rely on: two reads with no write between
them return the same value.
-/

namespace Gem5.Lib

section
variable {ι D τ : Type} [PartialOrder τ] (write read : ι → D → Prop) (init : D) (instant : ι → τ)

/-- The write `w` is the latest one before the instant. -/
def Latest (w : ι) (at_ : τ) : Prop :=
  instant w < at_ ∧ ∀ w' x, write w' x → instant w' < at_ → instant w' ≤ instant w

/-- The operations take effect at their instants. -/
structure Atomic : Prop where
  functional : ∀ {w x y}, write w x → write w y → x = y
  distinct : ∀ {w w' x y}, write w x → write w' y → instant w = instant w' → w = w'
  reads : ∀ {r d}, read r d →
    (∃ w, write w d ∧ Latest write instant w (instant r)) ∨
      ((∀ w x, write w x → ¬ instant w < instant r) ∧ d = init)

variable {write read init instant}

/-- Two reads with no write between them return the same value. -/
theorem Atomic.eq_of_no_write_between (h : Atomic write read init instant) {o r : ι} {x y : D}
    (ho : read o x) (hr : read r y) (hor : instant o < instant r)
    (hbetween : ∀ w v, write w v → instant w < instant r → instant w < instant o) : x = y := by
  rcases h.reads hr with ⟨w, hw, hlt, hlatest⟩ | ⟨hnone, rfl⟩
  · have hwo := hbetween w y hw hlt
    rcases h.reads ho with ⟨w', hw', hlt', hlatest'⟩ | ⟨hnone, _⟩
    · have hle := hlatest w' x hw' (lt_trans hlt' hor)
      have hge := hlatest' w y hw hwo
      have heq := h.distinct hw' hw (le_antisymm hle hge)
      subst heq
      exact h.functional hw' hw
    · exact absurd hwo (hnone w y hw)
  · rcases h.reads ho with ⟨w', hw', hlt', _⟩ | ⟨_, hx⟩
    · exact absurd (lt_trans hlt' hor) (hnone w' x hw')
    · exact hx

end

end Gem5.Lib
