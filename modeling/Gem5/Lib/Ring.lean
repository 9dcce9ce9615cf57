import Mathlib.Data.Int.ModEq

/-!
# `Gem5.Lib.Ring`: positions in a ring of slots

A ring has `n` slots. `ringSlot base o` is the slot at the signed distance `o` from `base`.
Two distances less than `n` apart name different slots (`ringSlot_inj`, and `eq_of_mod_eq` for
indices that only grow). A step of a wrapping
index is a step of the distance (`ringSlot_add_one`, `ringSlot_sub_one`).
-/

namespace Gem5.Lib

section
variable {n : Nat} (base : Fin n)

/-- The slot at the distance `o` from `base`. -/
def ringSlot (o : Int) : Fin n :=
  ⟨((base.val + o) % n).toNat, by
    have hpos : (0 : Int) < n := by exact_mod_cast base.pos
    have hlt := Int.emod_lt_of_pos (base.val + o) hpos
    have hnonneg := Int.emod_nonneg (base.val + o) hpos.ne'
    omega⟩

theorem ringSlot_val (o : Int) : ((ringSlot base o).val : Int) = (base.val + o) % n := by
  have hpos : (0 : Int) < n := by exact_mod_cast base.pos
  have hnonneg := Int.emod_nonneg (base.val + o) hpos.ne'
  simp only [ringSlot]
  omega

@[simp] theorem ringSlot_zero : ringSlot base 0 = base := by
  apply Fin.ext
  have hval := ringSlot_val base 0
  have hmod : ((base.val : Int) + 0) % n = base.val :=
    Int.emod_eq_of_lt (by omega) (by have := base.isLt; omega)
  omega

/-- A position reached in two moves. -/
theorem ringSlot_ringSlot (a b : Int) : ringSlot (ringSlot base a) b = ringSlot base (a + b) := by
  apply Fin.ext
  have hleft := ringSlot_val (ringSlot base a) b
  have hright := ringSlot_val base (a + b)
  rw [ringSlot_val base a, Int.emod_add_emod, add_assoc] at hleft
  omega

/-- One slot up: the next index, or slot 0 at the end. -/
theorem ringSlot_one : (ringSlot base 1).val = if base.val + 1 = n then 0 else base.val + 1 := by
  have hval := ringSlot_val base 1
  split
  · next hend =>
      have hcast : (base.val : Int) + 1 = n := by omega
      rw [hcast, Int.emod_self] at hval
      omega
  · next hend =>
      have hmod : ((base.val : Int) + 1) % n = base.val + 1 :=
        Int.emod_eq_of_lt (by omega) (by omega)
      omega

/-- One slot down: the index before, or the last slot at the start. -/
theorem ringSlot_neg_one :
    (ringSlot base (-1)).val = if base.val = 0 then n - 1 else base.val - 1 := by
  have hval := ringSlot_val base (-1)
  split
  · next hstart =>
      have hmod : ((base.val : Int) + -1) % n = n - 1 := by
        rw [hstart, ← Int.add_emod_right, Int.emod_eq_of_lt] <;> push_cast <;> omega
      omega
  · next hstart =>
      have hmod : ((base.val : Int) + -1) % n = base.val - 1 :=
        Int.emod_eq_of_lt (by omega) (by omega)
      omega

/-- Two distances less than `n` apart name one slot only if they are equal. -/
theorem ringSlot_inj {a b : Int} (h : ringSlot base a = ringSlot base b)
    (hlo : -(n : Int) < a - b) (hhi : a - b < n) : a = b := by
  have hmod : ((base.val : Int) + a) % n = (base.val + b) % n := by
    rw [← ringSlot_val, ← ringSlot_val, h]
  have hdvd : (n : Int) ∣ a - b := by
    have hsub := Int.emod_eq_emod_iff_emod_sub_eq_zero.mp hmod
    rw [add_sub_add_left_eq_sub] at hsub
    exact Int.dvd_of_emod_eq_zero hsub
  have hzero : a - b = 0 := Int.eq_zero_of_abs_lt_dvd hdvd (abs_lt.mpr ⟨hlo, hhi⟩)
  omega

end

/-- Two indices less than `n` apart name one slot only if they are equal. -/
theorem eq_of_mod_eq {n a b : Nat} (h : a % n = b % n) (hab : a < b + n) (hba : b < a + n) :
    a = b :=
  Nat.ModEq.eq_of_abs_lt h (abs_lt.mpr ⟨by omega, by omega⟩)

end Gem5.Lib
