import Mathlib.Algebra.GroupWithZero.Nat
import Mathlib.Logic.Function.Basic

/-!
# `Gem5.Pred.RAS`: the return address stack

`ReturnAddrStack` of `cpu/pred/ras.cc`. The stack is a ring of `numEntries` slots. `push`
writes the slot above the top, and wraps. `pop` moves the top down and leaves the slot as
it is. `restore` moves the top anywhere and writes that slot.

The type of `tos` is `Fin numEntries`, so an index outside `addrStack` cannot be built.
-/

namespace Gem5.Pred

/-- `ReturnAddrStack`. A slot is a `unique_ptr`, so it can be null. -/
structure ReturnAddrStack (PC : Type) (numEntries : Nat) where
  addrStack : Fin numEntries → Option PC
  usedEntries : Nat
  tos : Fin numEntries

namespace ReturnAddrStack

variable {PC : Type} {numEntries : Nat}

/-- `ReturnAddrStack::init`. -/
def init [NeZero numEntries] : ReturnAddrStack PC numEntries :=
  { addrStack := fun _ => none, usedEntries := 0, tos := 0 }

/-- `ReturnAddrStack::incrTos`. -/
def incrTos (tos : Fin numEntries) : Fin numEntries :=
  if h : tos.val + 1 = numEntries then ⟨0, tos.pos⟩ else ⟨tos.val + 1, by omega⟩

/-- `ReturnAddrStack::decrTos`. -/
def decrTos (tos : Fin numEntries) : Fin numEntries :=
  if tos.val = 0 then ⟨numEntries - 1, Nat.sub_one_lt_of_lt tos.pos⟩
  else ⟨tos.val - 1, Nat.lt_of_le_of_lt (Nat.sub_le _ _) tos.isLt⟩

variable (ras : ReturnAddrStack PC numEntries)

/-- `ReturnAddrStack::top`. -/
def top : Option PC := ras.addrStack ras.tos

/-- `ReturnAddrStack::topIdx`. -/
def topIdx : Fin numEntries := ras.tos

/-- `ReturnAddrStack::push`. -/
def push (returnAddr : PC) : ReturnAddrStack PC numEntries :=
  let tos := incrTos ras.tos
  { addrStack := Function.update ras.addrStack tos (some returnAddr)
    usedEntries :=
      if ras.usedEntries != numEntries then ras.usedEntries + 1 else ras.usedEntries
    tos := tos }

/-- `ReturnAddrStack::pop`. -/
def pop : ReturnAddrStack PC numEntries :=
  { ras with
    usedEntries := if 0 < ras.usedEntries then ras.usedEntries - 1 else ras.usedEntries
    tos := decrTos ras.tos }

/-- `ReturnAddrStack::restore`. -/
def restore (topEntryIdx : Fin numEntries) (restored : Option PC) : ReturnAddrStack PC numEntries :=
  { addrStack := Function.update ras.addrStack topEntryIdx restored
    usedEntries :=
      if ras.usedEntries != numEntries then ras.usedEntries + 1 else ras.usedEntries
    tos := topEntryIdx }

end ReturnAddrStack

end Gem5.Pred
