import Mathlib.Algebra.Order.Group.Nat

/-!
# `Gem5.Pred.SatCounter`: saturating counters and history registers

`SatCounter8` of `base/sat_counter.hh`, and the `unsigned` arithmetic that the direction
predictors share: `mask` of `base/bitfield.hh` and `ceilLog2` of `base/intmath.hh`. An
`unsigned` is a 32-bit vector.
-/

namespace Gem5.Pred

/-- `SatCounter8`. -/
structure SatCounter8 where
  maxVal : Nat
  counter : Nat

namespace SatCounter8

/-- The constructor, with the default initial value. -/
def new (bits : Nat) : SatCounter8 := { maxVal := 2 ^ bits - 1, counter := 0 }

variable (c : SatCounter8)

/-- `operator++`. -/
def incr : SatCounter8 :=
  if c.counter < c.maxVal then { c with counter := c.counter + 1 } else c

/-- `operator--`. -/
def decr : SatCounter8 :=
  if 0 < c.counter then { c with counter := c.counter - 1 } else c

/-- `++` for a taken branch, and `--` for one that is not. -/
def train (taken : Bool) : SatCounter8 := if taken then c.incr else c.decr

end SatCounter8

/-- An `unsigned`. -/
abbrev Unsigned := BitVec 32

/-- `mask(nbits)`, stored in an `unsigned`. -/
def mask (nbits : Nat) : Unsigned := BitVec.ofNat 32 (2 ^ nbits - 1)

/-- `ceilLog2`. -/
def ceilLog2 (n : Nat) : Nat := if n = 1 then 0 else Nat.log2 (n - 1) + 1

/-- A table size that the constructors accept: a power of two that fits an `unsigned`. -/
def IsTableSize (n : Nat) : Prop := n.isPowerOfTwo ∧ n < 2 ^ 32

/-- A history register after one more branch: `(history << 1) | taken`. -/
def shiftIn (history : Unsigned) (taken : Bool) : Unsigned :=
  (history <<< 1) ||| BitVec.ofNat 32 taken.toNat

end Gem5.Pred
