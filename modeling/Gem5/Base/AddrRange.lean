import Gem5.Lib.Returns
import Mathlib.Data.BitVec

/-!
# `Gem5.Base.AddrRange`: address ranges

The model of `src/base/addr_range.hh`: plain ranges and interleaved ones. An interleaved range has
masks. Each of them selects the bits of an address whose parity is one bit of the selector, and an
address is in the range if its selector is `intlvMatch`.

`intersects` and `isSubset` panic on the pairs of ranges that they do not support. The merging
constructors and the address translation (`removeIntlvBits`, `addIntlvBits`, `getOffset`) are
left out. The texts of the panics stand without the ranges that they print.
-/

namespace Gem5.Base

open Gem5.Lib (Fault)

/-- `popCount`. -/
def popCount (val : BitVec 64) : Nat := (List.range 64).countP val.getLsbD

/-- `ctz64`. -/
def ctz64 (value : BitVec 64) : Nat := ((List.range 64).find? value.getLsbD).getD 64

/-- `AddrRange`. The address `end_` is not in the range. -/
structure AddrRange where
  start : BitVec 64
  end_ : BitVec 64
  masks : List (BitVec 64)
  intlvMatch : BitVec 8
  deriving Repr, DecidableEq

namespace AddrRange

/-- The constructor of a plain range. -/
def plain (start end_ : BitVec 64) : AddrRange :=
  { start := start, end_ := end_, masks := [], intlvMatch := 0 }

/-- `RangeSize`. -/
def rangeSize (start size : BitVec 64) : AddrRange := plain start (start + size)

variable (r : AddrRange)

/-- `interleaved`. -/
def interleaved : Bool := r.masks.length > 0

/-- `size`. -/
def size : BitVec 64 := (r.end_ - r.start) >>> r.masks.length

/-- `granularity`. The combined mask is an `int`: only the low 32 bits count, with their sign. -/
def granularity : BitVec 64 :=
  if r.interleaved then
    let combinedMask := (r.masks.foldl (fun combined mask => combined ||| mask.truncate 32) 0#32)
    1#64 <<< ctz64 (combinedMask.signExtend 64)
  else r.size

/-- The selector of an address. -/
def sel (masks : List (BitVec 64)) (a : BitVec 64) : Nat :=
  masks.zipIdx.foldl (fun sel m => sel ||| (popCount (a &&& m.1) % 2) <<< m.2) 0

/-- `contains`. -/
def contains (a : BitVec 64) : Bool :=
  if decide (r.start ≤ a) && decide (a < r.end_) then sel r.masks a == r.intlvMatch.toNat else false

/-- `mergesWith`. -/
def mergesWith (this r : AddrRange) : Bool :=
  r.start == this.start && r.end_ == this.end_ && r.masks == this.masks

/-- `intersects`. -/
def intersects (this r : AddrRange) : Except Fault Bool :=
  if r.end_ ≤ this.start ∨ this.end_ ≤ r.start then .ok false
  else if !this.interleaved && !r.interleaved then .ok true
  else if r.size = 1 then .ok (this.contains r.start)
  else if this.mergesWith r then .ok (this.intlvMatch == r.intlvMatch)
  else .error (.panic "Cannot test intersection of %s and %s\n")

/-- `isSubset`. -/
def isSubset (this r : AddrRange) : Except Fault Bool :=
  if this.interleaved then .error (.panic "Cannot test subset of interleaved range %s\n")
  else if r.interleaved then
    .ok (r.contains this.start && r.contains (this.end_ - 1) && decide (this.size ≤ r.granularity))
  else .ok (decide (r.start ≤ this.start) && decide (this.end_ ≤ r.end_))

/-- `operator<`. -/
def lt (this r : AddrRange) : Bool :=
  if this.start ≠ r.start then decide (this.start < r.start)
  else if this.interleaved && r.interleaved then decide (this.intlvMatch < r.intlvMatch)
  else this.interleaved

/-- `std::list::sort`. -/
def sort (ranges : List AddrRange) : List AddrRange := ranges.mergeSort fun a b => !b.lt a

/-- The loop of `exclude`, from `nextStart` on and with the `ranges` found so far. -/
def sweep (this : AddrRange) : List AddrRange → BitVec 64 → List AddrRange →
    Except Fault (List AddrRange)
  | [], nextStart, ranges =>
    .ok (if nextStart < this.end_ then ranges ++ [plain nextStart this.end_] else ranges)
  | e :: rest, nextStart, ranges =>
    if e.interleaved then .error (.assertion "!e.interleaved()")
    else do
      if !(← this.intersects e) then sweep this rest nextStart ranges
      else if e.start ≤ nextStart then
        if e.end_ < this.end_ then
          sweep this rest (if nextStart < e.end_ then e.end_ else nextStart) ranges
        else .ok ranges
      else
        let ranges := ranges ++ [plain nextStart e.start]
        if e.end_ < this.end_ then sweep this rest e.end_ ranges else .ok ranges

/-- `exclude`. -/
def exclude (this : AddrRange) (excludeRanges : List AddrRange) : Except Fault (List AddrRange) :=
  if this.interleaved then .error (.assertion "!interleaved()")
  else this.sweep (sort excludeRanges) this.start []

/-- `exclude` of a list: the pieces of each range of `base`, one after the other. -/
def excludeList (base toExclude : List AddrRange) : Except Fault (List AddrRange) := do
  let sorted := sort toExclude
  let pieces ← base.mapM fun range => range.exclude sorted
  return pieces.flatten

end AddrRange

end Gem5.Base
