import Mathlib.Data.BitVec

/-!
# `Gem5.Base.Bitfield`: bit fields of 64-bit words

The functions of `src/base/bitfield.hh` on 64-bit words. Bit 63 is the most significant one.
-/

namespace Gem5.Base

open BitVec

/-- `mask`: `nbits` ones, right justified. -/
def mask (nbits : Nat) : BitVec 64 :=
  if 64 ≤ nbits then BitVec.allOnes 64 else (1#64 <<< nbits) - 1#64

variable (val : BitVec 64) (first last : Nat)

/-- `bits`: the field from `first` down to `last`, right justified. -/
def bits : BitVec 64 :=
  (val >>> last) &&& mask (first - last + 1)

/-- `mbits`: the field from `first` down to `last`, in its place. -/
def mbits : BitVec 64 :=
  val &&& (mask (first + 1) &&& ~~~ mask last)

/-- `insertBits`: `val` with the field from `first` down to `last` taken from `bitVal`. -/
def insertBits (bitVal : BitVec 64) : BitVec 64 :=
  let bmask := mbits (BitVec.allOnes 64) first last
  (val &&& ~~~ bmask) ||| ((bitVal <<< last) &&& bmask)

/-- `sext`: the `n` lowest bits extended by the sign, where the other bits are zero. -/
def sext (n : Nat) (val : BitVec 64) : BitVec 64 :=
  if bits val (n - 1) (n - 1) ≠ 0 then val ||| ~~~ mask n else val

/-- `szext`: the `n` lowest bits extended by the sign. -/
def szext (n : Nat) (val : BitVec 64) : BitVec 64 :=
  if bits val (n - 1) (n - 1) ≠ 0 then val ||| ~~~ mask n else val &&& mask n

/-! ### The bits of the results -/

theorem toNat_mask {nbits : Nat} (h : nbits < 64) : (mask nbits).toNat = 2 ^ nbits - 1 := by
  have hpow : 2 ^ nbits < 2 ^ 64 := Nat.pow_lt_pow_right (by decide) h
  have hpos : 0 < 2 ^ nbits := Nat.two_pow_pos nbits
  have hshift : (1#64 <<< nbits).toNat = 2 ^ nbits := by
    rw [toNat_shiftLeft, Nat.shiftLeft_eq, show (1#64).toNat = 1 from rfl, Nat.one_mul,
      Nat.mod_eq_of_lt hpow]
  rw [mask, if_neg (Nat.not_le.mpr h), toNat_sub, hshift, toNat_ofNat]
  omega

theorem getLsbD_mask (nbits i : Nat) :
    (mask nbits).getLsbD i = (decide (i < 64) && decide (i < nbits)) := by
  by_cases h : nbits < 64
  · rw [getLsbD, toNat_mask h, Nat.testBit_two_pow_sub_one, ← Bool.decide_and]
    exact decide_eq_decide.mpr (by omega)
  · rw [mask, if_pos (Nat.not_lt.mp h), getLsbD_allOnes, ← Bool.decide_and]
    exact decide_eq_decide.mpr (by omega)

theorem getLsbD_bits (first last i : Nat) :
    (bits val first last).getLsbD i
      = (decide (i < 64) && decide (i < first - last + 1) && val.getLsbD (last + i)) := by
  unfold bits
  rw [getLsbD_and, getLsbD_ushiftRight, getLsbD_mask, Bool.and_comm]

theorem getLsbD_mbits (first last i : Nat) :
    (mbits val first last).getLsbD i
      = (val.getLsbD i && (decide (i < first + 1) && decide (last ≤ i))) := by
  unfold mbits
  rw [getLsbD_and, getLsbD_and, getLsbD_not, getLsbD_mask, getLsbD_mask]
  by_cases hi : i < 64
  · rw [decide_eq_true hi]
    simp only [Bool.true_and, ← decide_not, Nat.not_lt]
  · rw [getLsbD_of_ge val i (by omega), Bool.false_and, Bool.false_and]

/-- Inserting one bit. -/
theorem getLsbD_insertBit (val bitVal : BitVec 64) (b i : Nat) (hb : b < 64) :
    (insertBits val b b bitVal).getLsbD i
      = if i = b then bitVal.getLsbD 0 else val.getLsbD i := by
  unfold insertBits
  have hmask : (mbits (allOnes 64) b b).getLsbD i = decide (i = b) := by
    rw [getLsbD_mbits, getLsbD_allOnes, ← Bool.decide_and, ← Bool.decide_and]
    apply decide_eq_decide.mpr
    omega
  rw [getLsbD_or, getLsbD_and, getLsbD_and, getLsbD_not, hmask]
  by_cases hib : i = b
  · subst hib
    simp [hb]
  · rw [if_neg hib, decide_eq_false hib]
    by_cases hi : i < 64
    · simp [hi]
    · rw [getLsbD_of_ge val i (by omega)]
      simp

/-! ### Sign extension -/

/-- A field of one bit. -/
theorem bits_self_ne_zero (i : Nat) : bits val i i ≠ 0 ↔ val.getLsbD i = true := by
  have hbit : ∀ j, (bits val i i).getLsbD j = (decide (j = 0) && val.getLsbD i) := by
    intro j
    rw [getLsbD_bits]
    by_cases hj : j = 0
    · subst hj
      simp
    · simp [hj]
  constructor
  · intro hne
    by_contra hnot
    apply hne
    apply eq_of_getLsbD_eq
    intro j _
    rw [hbit, Bool.eq_false_iff.mpr hnot, Bool.and_false]
    exact getLsbD_zero.symm
  · intro hset hzero
    have := hbit 0
    rw [hzero, hset] at this
    simp at this

/-- The bits from the sign on are equal to it. -/
theorem getLsbD_szext (n : Nat) (val : BitVec 64) (i : Nat) :
    (szext n val).getLsbD i
      = (decide (i < 64) && if i < n then val.getLsbD i else val.getLsbD (n - 1)) := by
  unfold szext
  by_cases hi : i < 64
  · split
    · rename_i hsign
      have hset := (bits_self_ne_zero val (n - 1)).mp hsign
      rw [getLsbD_or, getLsbD_not, getLsbD_mask]
      by_cases hin : i < n <;> simp [hi, hin, hset]
    · rename_i hsign
      have hclear : val.getLsbD (n - 1) = false := by
        rw [bits_self_ne_zero] at hsign
        exact Bool.eq_false_iff.mpr hsign
      rw [getLsbD_and, getLsbD_mask]
      by_cases hin : i < n <;> simp [hi, hin, hclear]
  · rw [getLsbD_of_ge _ i (Nat.not_lt.mp hi), decide_eq_false hi, Bool.false_and]

/-- Sign extension of a field that was cut out. -/
theorem sext_and_mask {n : Nat} (hpos : 0 < n) (val : BitVec 64) :
    sext n (val &&& mask n) = szext n val := by
  have hsign : bits (val &&& mask n) (n - 1) (n - 1) ≠ 0 ↔ bits val (n - 1) (n - 1) ≠ 0 := by
    rw [bits_self_ne_zero, bits_self_ne_zero, getLsbD_and, getLsbD_mask,
      decide_eq_true (show n - 1 < n by omega), Bool.and_true]
    by_cases hi : n - 1 < 64
    · rw [decide_eq_true hi, Bool.and_true]
    · rw [getLsbD_of_ge val _ (Nat.not_lt.mp hi), Bool.false_and]
  unfold sext szext
  by_cases h : bits val (n - 1) (n - 1) ≠ 0
  · rw [if_pos (hsign.mpr h), if_pos h]
    apply eq_of_getLsbD_eq
    intro i hi
    rw [getLsbD_or, getLsbD_or, getLsbD_and, getLsbD_not]
    cases (mask n).getLsbD i <;> simp [hi]
  · rw [if_neg (fun hs => h (hsign.mp hs)), if_neg h]

end Gem5.Base
