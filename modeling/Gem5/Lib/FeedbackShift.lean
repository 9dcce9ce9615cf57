import Mathlib.Logic.Function.Iterate

/-!
# `Gem5.Lib.FeedbackShift`: a shift register with feedback

A register of `n` bits is a function from positions to bits. `feed n` shifts it down by one
and puts the exclusive or of the old first and last bit at the top. `unfeed n` goes back.

`feed` is linear over the exclusive or, and `feed_iterate_size` is its characteristic
equation: `n` turns are `n - 1` turns plus the register itself. So `n - 1` turns undo
"one turn plus the register itself" (`feed_iterate_pred`).
-/

namespace Gem5.Lib

open Function

variable (n : Nat) (x : Nat → Bool)

/-- One turn of a register of `n` bits. -/
def feed (i : Nat) : Bool :=
  if i + 1 < n then x (i + 1) else if i + 1 = n then x i ^^ x 0 else false

/-- One turn back. -/
def unfeed (i : Nat) : Bool :=
  if i = 0 then x (n - 2) ^^ x (n - 1) else if i < n then x (i - 1) else false

/-- The exclusive or of two registers. -/
def xorBits (x y : Nat → Bool) (i : Nat) : Bool :=
  x i ^^ y i

/-- Two registers of `n` bits hold the same bits. -/
def SameBits (x y : Nat → Bool) : Prop :=
  ∀ i, i < n → x i = y i

section
variable {n : Nat} {x y : Nat → Bool}

theorem unfeed_feed (hn : 2 ≤ n) : SameBits n (unfeed n (feed n x)) x := by
  intro i hi
  simp only [unfeed, feed]
  by_cases h0 : i = 0
  · subst h0
    rw [if_pos rfl, if_pos (by omega), if_neg (by omega), if_pos (by omega),
      show n - 2 + 1 = n - 1 by omega]
    cases x (n - 1) <;> cases x 0 <;> rfl
  · rw [if_neg h0, if_pos hi, if_pos (by omega), show i - 1 + 1 = i by omega]

theorem feed_unfeed (hn : 2 ≤ n) : SameBits n (feed n (unfeed n x)) x := by
  intro i hi
  simp only [unfeed, feed]
  by_cases hlast : i + 1 = n
  · rw [if_neg (by omega), if_pos hlast, if_neg (by omega), if_pos hi, if_pos trivial,
      show n - 2 = i - 1 by omega, show n - 1 = i by omega]
    cases x (i - 1) <;> cases x i <;> rfl
  · rw [if_pos (by omega), if_neg (by omega), if_pos (by omega), Nat.add_sub_cancel]

theorem feed_xorBits : feed n (xorBits x y) = xorBits (feed n x) (feed n y) := by
  funext i
  simp only [feed, xorBits]
  split
  · rfl
  · split
    · cases x i <;> cases x 0 <;> cases y i <;> cases y 0 <;> rfl
    · rfl

theorem feed_iterate_xorBits (k : Nat) :
    (feed n)^[k] (xorBits x y) = xorBits ((feed n)^[k] x) ((feed n)^[k] y) := by
  induction k generalizing x y with
  | zero => rfl
  | succ k ih =>
    rw [iterate_succ_apply, feed_xorBits, ih]
    rfl

/-- Bit `i` comes to the bottom in `i` turns. -/
theorem feed_iterate_zero {i : Nat} (hi : i < n) : (feed n)^[i] x 0 = x i := by
  induction i generalizing x with
  | zero => rfl
  | succ i ih =>
    rw [iterate_succ_apply, ih (by omega)]
    unfold feed
    rw [if_pos hi]

/-- The characteristic equation of the register. -/
theorem feed_iterate_size (hn : 0 < n) :
    SameBits n ((feed n)^[n] x) (xorBits ((feed n)^[n - 1] x) x) := by
  -- It is enough to look at the lowest bit: bit `i` is the lowest bit after `i` turns.
  have hlow : ∀ y : Nat → Bool, (feed n)^[n] y 0 = ((feed n)^[n - 1] y 0 ^^ y 0) := by
    intro y
    have hsucc : n = (n - 1) + 1 := by omega
    have hturn : (feed n)^[n] y = (feed n)^[n - 1] (feed n y) := by
      rw [← iterate_succ_apply, ← Nat.add_one, ← hsucc]
    rw [hturn, feed_iterate_zero (by omega), feed_iterate_zero (by omega)]
    unfold feed
    rw [if_neg (by omega), if_pos (by omega)]
  intro i hi
  calc (feed n)^[n] x i = (feed n)^[i] ((feed n)^[n] x) 0 := (feed_iterate_zero hi).symm
    _ = (feed n)^[n] ((feed n)^[i] x) 0 := by
        rw [← iterate_add_apply, Nat.add_comm, iterate_add_apply]
    _ = ((feed n)^[n - 1] ((feed n)^[i] x) 0 ^^ (feed n)^[i] x 0) := hlow _
    _ = ((feed n)^[i] ((feed n)^[n - 1] x) 0 ^^ (feed n)^[i] x 0) := by
        rw [← iterate_add_apply, Nat.add_comm, iterate_add_apply]
    _ = xorBits ((feed n)^[n - 1] x) x i := by
        rw [feed_iterate_zero hi, feed_iterate_zero hi]
        rfl

/-- `n - 1` turns undo one turn plus the register. -/
theorem feed_iterate_pred (hn : 0 < n) :
    SameBits n ((feed n)^[n - 1] (xorBits (feed n x) x)) x := by
  intro i hi
  have hsucc : (feed n)^[n - 1] (feed n x) = (feed n)^[n] x := by
    rw [← iterate_succ_apply, show (n - 1).succ = n by omega]
  rw [feed_iterate_xorBits, hsucc]
  show ((feed n)^[n] x i ^^ (feed n)^[n - 1] x i) = x i
  rw [feed_iterate_size hn i hi]
  show (((feed n)^[n - 1] x i ^^ x i) ^^ (feed n)^[n - 1] x i) = x i
  cases (feed n)^[n - 1] x i <;> cases x i <;> rfl

end

end Gem5.Lib
