import Mathlib.Algebra.Group.Nat.Defs
import Mathlib.Logic.Function.Iterate

/-!
# `Gem5.Base.CircularQueue`: a queue in a vector whose indices only grow

The model of `src/base/circular_queue.hh`. An index is a `size_t`. It grows with each element, and
an access takes it modulo the capacity. The size never exceeds the capacity, so only the sums with
the head can leave 64 bits. An iterator is its index.
-/

namespace Gem5.Base

open Function

/-- `CircularQueue`. The vector `data` is read and written only below the capacity. -/
structure CircularQueue (α : Type) where
  data : Nat → α
  capacity : Nat
  size : Nat
  head : Nat

namespace CircularQueue

variable {α : Type}

/-- The constructor. -/
def new [Inhabited α] (size : Nat) : CircularQueue α :=
  { data := fun _ => default, capacity := size, size := 0, head := 1 }

section
variable (q : CircularQueue α)

/-- `operator[]`. -/
def get (index : Nat) : α := q.data (index % q.capacity)

/-- An assignment through `operator[]`. -/
def set (index : Nat) (val : α) : CircularQueue α :=
  { q with data := update q.data (index % q.capacity) val }

/-- `flush`. -/
def flush : CircularQueue α := { q with head := 1, size := 0 }

/-- `isValidIdx`. -/
def isValidIdx (idx : Nat) : Bool := q.head ≤ idx && idx < (q.head + q.size) % 2 ^ 64

/-- `tail`. -/
def tail : Nat := (q.head + q.size + (2 ^ 64 - 1)) % 2 ^ 64

/-- `begin`. -/
def beginIdx : Nat := q.head

/-- `end`. -/
def endIdx : Nat := (q.tail + 1) % 2 ^ 64

/-- `empty`. -/
def empty : Bool := q.size == 0

/-- `full`. -/
def full : Bool := q.size == q.capacity

/-- `pop_front`. The assertion fails when the queue is shorter. -/
def popFront (numElem : Nat) : Option (CircularQueue α) :=
  if numElem ≤ q.size then
    some { q with head := (q.head + numElem) % 2 ^ 64, size := q.size - numElem }
  else none

/-- `pop_back`. -/
def popBack : Option (CircularQueue α) :=
  if !q.empty then some { q with size := q.size - 1 } else none

/-- `advance_tail` without a length. -/
def advanceTail : CircularQueue α :=
  if q.full then { q with head := (q.head + 1) % 2 ^ 64 } else { q with size := q.size + 1 }

/-- `advance_tail` by a length. -/
def advanceTailBy (len : Nat) : CircularQueue α :=
  let remaining := q.capacity - q.size
  if remaining < len then
    let overflow := len - remaining
    { q with head := (q.head + overflow) % 2 ^ 64, size := q.size + (len - overflow) }
  else { q with size := q.size + len }

/-- `push_back`. -/
def pushBack (val : α) : CircularQueue α :=
  let q := q.advanceTail
  q.set q.tail val

end

/-- The calls that change a queue. `write` is an assignment through an iterator. -/
inductive Event (α : Type) where
  | pushBack (val : α)
  | popFront (numElem : Nat)
  | popBack
  | advanceTail (len : Nat)
  | flush
  | write (idx : Nat) (val : α)

/-- One call. The iterator of a write has to be dereferenceable. -/
def step (q : CircularQueue α) : Event α → Option (CircularQueue α)
  | .pushBack val => some (q.pushBack val)
  | .popFront numElem => q.popFront numElem
  | .popBack => q.popBack
  | .advanceTail len => some (q.advanceTailBy len)
  | .flush => some q.flush
  | .write idx val => if q.isValidIdx idx then some (q.set idx val) else none

end CircularQueue

end Gem5.Base
