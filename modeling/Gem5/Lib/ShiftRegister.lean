import Mathlib.Data.Nat.Bitwise

/-!
# `Gem5.Lib.ShiftRegister`: a shift register and the bits shifted into it

`Holds n reg bits` says that the low `n` bits of `reg` are the newest `n` of `bits`, the
newest one in bit 0. A list that is too short is filled with zeros. A shift puts one bit on
the front of the list (`Holds.shift`). A mask of the low `n` bits changes nothing
(`Holds.mask`).
-/

namespace Gem5.Lib

open BitVec

open BitVec (ofNat getLsbD_and)

/-- The low `n` bits of `reg` are `bits`, newest lowest. -/
def Holds {w : Nat} (n : Nat) (reg : BitVec w) (bits : List Bool) : Prop :=
  ∀ i < n, reg.getLsbD i = bits.getD i false

section
variable {w n : Nat} {reg : BitVec w} {bits : List Bool}

theorem holds_zero : Holds n (0#w) [] := by
  intro i _
  simp

/-- A shift by one that puts `b` into bit 0. -/
theorem Holds.shift (h : Holds n reg bits) (hn : n ≤ w) (b : Bool) :
    Holds n ((reg <<< 1) ||| ofNat w b.toNat) (b :: bits) := by
  intro i hi
  have hiw : i < w := by omega
  cases i with
  | zero => cases b <;> simp [hiw]
  | succ i =>
    have hzero : (ofNat w b.toNat).getLsbD (i + 1) = false := by
      cases b <;> simp [getLsbD_one]
    rw [getLsbD_or, hzero, Bool.or_false, getLsbD_shiftLeft]
    simpa [hiw] using h i (by omega)

/-- The mask `2 ^ n - 1`. -/
theorem getLsbD_ofNat_two_pow_sub_one (hn : n ≤ w) {i : Nat} (hi : i < n) :
    (ofNat w (2 ^ n - 1)).getLsbD i = true := by
  simp [getLsbD_ofNat, Nat.testBit_two_pow_sub_one, hi, hi.trans_le hn]

/-- The mask covers the low `n` bits. -/
theorem Holds.mask (h : Holds n reg bits) (hn : n ≤ w) :
    Holds n (reg &&& ofNat w (2 ^ n - 1)) bits := by
  intro i hi
  rw [getLsbD_and, getLsbD_ofNat_two_pow_sub_one hn hi, Bool.and_true, h i hi]

/-- The mask without bit 0. -/
theorem Holds.clear {b : Bool} (h : Holds n reg (b :: bits)) (hn : n ≤ w) :
    Holds n (reg &&& (ofNat w (2 ^ n - 1) &&& ~~~1#w)) (false :: bits) := by
  intro i hi
  cases i with
  | zero => simp
  | succ i =>
    rw [getLsbD_and, getLsbD_and, getLsbD_ofNat_two_pow_sub_one hn hi,
      h (i + 1) hi, getLsbD_not, getLsbD_one]
    simp [hn.trans_lt' hi]

end

end Gem5.Lib
