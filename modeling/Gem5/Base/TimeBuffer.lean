import Mathlib.Data.Int.Notation
import Mathlib.Logic.Function.Basic
import Mathlib.Tactic.SplitIfs

/-!
# `Gem5.Base.TimeBuffer`: a window of cycles in a rotating vector

The model of `src/cpu/timebuf.hh`. The window has the slots `-past` to `future` around the current
cycle 0. `advance` moves the window by one slot: it turns the base of the vector and makes the slot
that comes in new. `get_set` and `get_advance` say so for the slots, without the vector.
-/

namespace Gem5.Base

open Function

/-- `TimeBuffer`. -/
structure TimeBuffer (α : Type) where
  past : Nat
  future : Nat
  index : Nat → α
  base : Nat

namespace TimeBuffer

variable {α : Type} [Inhabited α]

/-- The constructor. -/
def new (past future : Nat) : TimeBuffer α :=
  { past := past, future := future, index := fun _ => default, base := 0 }

variable (b : TimeBuffer α)

/-- `size`. -/
def size : Nat := b.past + b.future + 1

variable (idx : Int)

/-- `calculateVectorIndex`. -/
def calculateVectorIndex : Nat :=
  let vectorIndex := idx + b.base
  if b.size ≤ vectorIndex then (vectorIndex - b.size).toNat
  else if vectorIndex < 0 then (vectorIndex + b.size).toNat
  else vectorIndex.toNat

/-- `operator[]`. -/
def get : α := b.index (b.calculateVectorIndex idx)

/-- An assignment through `operator[]` or a wire. -/
def set (x : α) : TimeBuffer α :=
  { b with index := update b.index (b.calculateVectorIndex idx) x }

/-- `advance`. -/
def advance : TimeBuffer α :=
  let base := if b.size ≤ b.base + 1 then 0 else b.base + 1
  let ptr := if b.size ≤ base + b.future then base + b.future - b.size else base + b.future
  { b with base := base, index := update b.index ptr default }

/-- The slots that may be accessed. -/
def Valid : Prop := -b.past ≤ idx ∧ idx ≤ b.future

variable {b} {i j : Int}

omit [Inhabited α] in
/-- Different slots lie at different places of the vector. -/
theorem calculateVectorIndex_inj (hi : b.Valid i) (hj : b.Valid j)
    (h : b.calculateVectorIndex i = b.calculateVectorIndex j) : i = j := by
  unfold calculateVectorIndex at h
  unfold Valid size at *
  dsimp only at h
  split_ifs at h <;> omega

omit [Inhabited α] in
theorem get_set (hi : b.Valid i) (hj : b.Valid j) (x : α) :
    (b.set i x).get j = if j = i then x else b.get j := by
  show update b.index (b.calculateVectorIndex i) x (b.calculateVectorIndex j) = _
  split
  · next hji => rw [hji, update_self]
  · next hji => exact update_of_ne (fun h => hji (calculateVectorIndex_inj hj hi h)) _ _

/-- The base stays inside the vector. -/
theorem base_advance_lt : b.advance.base < b.size := by
  show (if b.size ≤ b.base + 1 then 0 else b.base + 1) < b.size
  unfold size
  split <;> omega

/-- A slot is found after `advance` where the next one was before. -/
theorem calculateVectorIndex_advance (hbase : b.base < b.size) (hj : b.Valid j) :
    b.advance.calculateVectorIndex j = b.calculateVectorIndex (j + 1) := by
  have hadv : b.advance.base = if b.size ≤ b.base + 1 then 0 else b.base + 1 := rfl
  unfold calculateVectorIndex
  unfold Valid at hj
  show (if (b.size : Int) ≤ j + b.advance.base then (j + b.advance.base - b.size).toNat
    else if j + b.advance.base < 0 then (j + b.advance.base + b.size).toNat
    else (j + b.advance.base).toNat) = _
  unfold size at *
  dsimp only
  -- The base wraps or not, and so does each of the two indices.
  split_ifs at hadv ⊢ <;> omega

/-- The slots that stay in the window move on by one. -/
theorem get_advance (hbase : b.base < b.size) (hj : b.Valid j) (hlt : j < b.future) :
    b.advance.get j = b.get (j + 1) := by
  have hadv : b.advance.base = if b.size ≤ b.base + 1 then 0 else b.base + 1 := rfl
  -- The slot that `advance` makes new is another one.
  have hnew : b.calculateVectorIndex (j + 1) ≠
      if b.size ≤ b.advance.base + b.future then b.advance.base + b.future - b.size
      else b.advance.base + b.future := by
    unfold calculateVectorIndex
    unfold Valid size at *
    dsimp only
    split_ifs at hadv ⊢ <;> omega
  show update b.index (if b.size ≤ b.advance.base + b.future then b.advance.base + b.future - b.size
    else b.advance.base + b.future) default (b.advance.calculateVectorIndex j) = _
  rw [calculateVectorIndex_advance hbase hj, update_of_ne hnew]
  rfl

end TimeBuffer

end Gem5.Base
