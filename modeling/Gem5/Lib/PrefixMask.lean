import Mathlib.Data.Nat.Find

/-!
# `Gem5.Lib.PrefixMask`: words that agree on their first bits

`topMask w d` is the word with its first `d` bits set, counted from the most significant one.
`Agree d x y` says that two words have the same first `d` bits. For each `d` this is an
equality, so it is reflexive, symmetric and transitive at no cost. It gets weaker as `d` gets
smaller (`Agree.mono`), and a bit has two values only, so two words that differ from a third one
in the same first bit agree there (`agree_succ_of_not_agree`). Nothing else about bits is needed
to reason about a tree of prefixes.
-/

namespace Gem5.Lib

open BitVec

section
variable {w : Nat}

/-- The word with its first `d` bits set. -/
def topMask (w d : Nat) : BitVec w := BitVec.allOnes w <<< (w - d)

theorem getLsbD_topMask (d i : Nat) (hi : i < w) :
    (topMask w d).getLsbD i = decide (w - d ≤ i) := by
  rw [topMask, getLsbD_shiftLeft]
  by_cases h : w - d ≤ i
  · simp [hi, h, show ¬ i < w - d by omega, show i - (w - d) < w by omega]
  · simp [hi, h, show i < w - d by omega]

theorem topMask_zero : topMask w 0 = 0#w := by
  apply eq_of_getLsbD_eq
  intro i hi
  rw [getLsbD_topMask 0 i hi, getLsbD_zero]
  simp
  omega

theorem topMask_full : topMask w w = BitVec.allOnes w := by
  rw [topMask, Nat.sub_self, shiftLeft_zero]

theorem topMask_and (d e : Nat) : topMask w d &&& topMask w e = topMask w (min d e) := by
  apply eq_of_getLsbD_eq
  intro i hi
  rw [getLsbD_and, getLsbD_topMask d i hi, getLsbD_topMask e i hi, getLsbD_topMask _ i hi,
    ← Bool.decide_and]
  congr 1
  rw [eq_iff_iff]
  omega

variable {x y : BitVec w} {d : Nat} {z : BitVec w} {e : Nat}

/-- The number of set bits is determined. -/
theorem topMask_inj (hd : d ≤ w) (he : e ≤ w) (h : topMask w d = topMask w e) : d = e := by
  -- the last bit of the longer mask tells the two apart
  have hlt : ∀ {d e : Nat}, d ≤ w → e ≤ w → topMask w d = topMask w e → ¬ d < e := by
    intro d e hd he h hlt
    have hi : w - e < w := by omega
    have hbit : (topMask w d).getLsbD (w - e) = (topMask w e).getLsbD (w - e) := by rw [h]
    rw [getLsbD_topMask d (w - e) hi, getLsbD_topMask e (w - e) hi, decide_eq_decide] at hbit
    omega
  have h1 := hlt hd he h
  have h2 := hlt he hd h.symm
  omega

/-- The mask with one more bit, as it is computed with a shift. -/
theorem topMask_succ (hw : 0 < w) (hd : d ≤ w) :
    topMask w d ||| topMask w d >>> 1 ||| BitVec.twoPow w (w - 1) = topMask w (min (d + 1) w) := by
  apply eq_of_getLsbD_eq
  intro i hi
  rw [getLsbD_or, getLsbD_or, getLsbD_ushiftRight, getLsbD_topMask d i hi,
    getLsbD_topMask _ i hi, getLsbD_twoPow]
  by_cases hlast : i = w - 1
  · simp [hlast, show w - 1 < w by omega, show w ≤ w - 1 + min (d + 1) w by omega]
  · rw [getLsbD_topMask d (1 + i) (by omega)]
    simp only [show ¬ w - 1 = i by omega, decide_false, Bool.and_false, Bool.or_false,
      ← Bool.decide_or]
    congr 1
    rw [eq_iff_iff]
    omega

/-- The words agree on their first `d` bits. -/
def Agree (d : Nat) (x y : BitVec w) : Prop := x &&& topMask w d = y &&& topMask w d

instance (d : Nat) (x y : BitVec w) : Decidable (Agree d x y) :=
  inferInstanceAs (Decidable (_ = _))

theorem Agree.refl (d : Nat) (x : BitVec w) : Agree d x x := rfl

theorem Agree.symm (h : Agree d x y) : Agree d y x := Eq.symm h

theorem Agree.trans (h : Agree d x y) (h' : Agree d y z) :
    Agree d x z := Eq.trans h h'

theorem agree_zero (x y : BitVec w) : Agree 0 x y := by
  rw [Agree, topMask_zero, and_zero, and_zero]

theorem Agree.mono (h : Agree d x y) (he : e ≤ d) : Agree e x y := by
  have hmask : topMask w e = topMask w d &&& topMask w e := by
    rw [topMask_and, Nat.min_eq_right he]
  rw [Agree, hmask, ← BitVec.and_assoc, ← BitVec.and_assoc, h]

/-- A word that is cut after `d` bits still agrees on them. -/
theorem agree_and (d : Nat) (x : BitVec w) : Agree d (x &&& topMask w d) x := by
  rw [Agree, BitVec.and_assoc, BitVec.and_self]

/-- A cut word is the test word exactly when they agree. -/
theorem and_topMask_eq_iff (hy : y = y &&& topMask w d) : x &&& topMask w d = y ↔ Agree d x y := by
  rw [Agree, ← hy]

/-- Agreement bit by bit. -/
theorem agree_iff (d : Nat) (x y : BitVec w) :
    Agree d x y ↔ ∀ i < w, w - d ≤ i → x.getLsbD i = y.getLsbD i := by
  constructor
  · intro h i hi hd
    have hbit := congrArg (fun z => getLsbD z i) h
    simp only [getLsbD_and, getLsbD_topMask d i hi, decide_eq_true hd, Bool.and_true] at hbit
    exact hbit
  · intro h
    apply eq_of_getLsbD_eq
    intro i hi
    rw [getLsbD_and, getLsbD_and, getLsbD_topMask d i hi]
    by_cases hd : w - d ≤ i
    · rw [h i hi hd]
    · simp [hd]

/-- A bit has two values: words that leave a third word at the same bit agree on this bit. -/
theorem agree_succ_of_not_agree (hx : Agree d x z) (hy : Agree d y z) (hx' : ¬ Agree (d + 1) x z)
    (hy' : ¬ Agree (d + 1) y z) : Agree (d + 1) x y := by
  rw [agree_iff] at hx hy hx' hy' ⊢
  push Not at hx' hy'
  obtain ⟨i, hi, hdi, hxi⟩ := hx'
  obtain ⟨j, hj, hdj, hyj⟩ := hy'
  -- the bits where they differ are the one that `d + 1` adds
  have hi' : ¬ w - d ≤ i := fun h => hxi (hx i hi h)
  have hj' : ¬ w - d ≤ j := fun h => hyj (hy j hj h)
  intro k hk hdk
  by_cases hkd : w - d ≤ k
  · rw [hx k hk hkd, hy k hk hkd]
  · have hki : k = i := by omega
    have hkj : k = j := by omega
    rw [← hki] at hxi
    rw [← hkj] at hyj
    generalize x.getLsbD k = a at *
    generalize y.getLsbD k = b at *
    generalize z.getLsbD k = c at *
    revert hxi hyj
    cases a <;> cases b <;> cases c <;> simp

/-- The number of set bits of a mask. -/
def maskLength (m : BitVec w) : Nat := Nat.findGreatest (fun d => m = topMask w d) w

theorem maskLength_topMask (hd : d ≤ w) : maskLength (topMask w d) = d := by
  have hspec := Nat.findGreatest_spec (P := fun e => topMask w d = topMask w e) hd rfl
  exact (topMask_inj hd (Nat.findGreatest_le w) hspec).symm

end

end Gem5.Lib
