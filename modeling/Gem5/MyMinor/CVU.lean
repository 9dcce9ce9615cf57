import Gem5.MyMinor.Types

/-!
# `Gem5.MyMinor.CVU`: the constant verification unit

The model of `src/cpu/myminor/CVU.cc`. The unit holds a table of constant loads and a
FIFO of free slots (`InvalidEntries`). A store invalidates the entries with its own start
address, and a constant load is looked up by virtual address, LVPT index and value.

`storeInvalidate` does not look at the `valid` flag of an entry it matches: it pushes the index of
the entry onto the free list in every case.

`AddEntryToCVU` draws `rand() % (tableSize + 1)` when the free list is empty. The draw can be
`tableSize`, which is no slot. The write then lands outside the vector: the table keeps its
contents, and what the write destroys is outside the model. Statements ask for `newEntryIndex`, the
slot that is written, to be in the table.

The debug prints and the statistics counters are left out.
-/

namespace Gem5.MyMinor

/-- `CVU::tableEntry`. -/
structure CVU.TableEntry where
  valid : Bool
  vaddr : Addr
  paddr : Addr
  index : Nat
  data : Word
  deriving Repr, DecidableEq

/-- A value-initialised entry, as `cvuTable.resize` makes it. -/
def CVU.TableEntry.zero : CVU.TableEntry :=
  { valid := false, vaddr := 0, paddr := 0, index := 0, data := 0 }

/-- The CVU state. The table always has `tableSize` slots: no method resizes it after the
constructor. `threshold` and `maxValue` are not read by any method. -/
structure CVU where
  tableSize : Nat
  invalidEntries : List Nat
  cvuTable : List CVU.TableEntry
  length_cvuTable : cvuTable.length = tableSize
  deriving Repr, DecidableEq

namespace CVU

/-- The constructor: all slots are zero, and all are on the free list in order. -/
def new (cvuTableSize : Nat) : CVU :=
  { tableSize := cvuTableSize
    invalidEntries := List.range cvuTableSize
    cvuTable := List.replicate cvuTableSize TableEntry.zero
    length_cvuTable := by simp }

variable (c : CVU)

/-- `cvuTable[i]`. The default is never read below `tableSize`. -/
def entry (i : Nat) : TableEntry :=
  c.cvuTable.getD i TableEntry.zero

/-- `cvuTable[i] = e`. A write outside the table leaves the slots as they are. -/
def setEntry (i : Nat) (e : TableEntry) : CVU :=
  { c with
    cvuTable := c.cvuTable.set i e
    length_cvuTable := by simp [c.length_cvuTable] }

/-- The address test of `storeInvalidate`. -/
def TableEntry.hasAddr (e : TableEntry) (vaddr paddr : Addr) : Bool :=
  e.vaddr == vaddr || e.paddr == paddr

/-- `AddToInvalidateList`. -/
def addToInvalidateList (tableIndex : Nat) : CVU :=
  { c with invalidEntries := c.invalidEntries ++ [tableIndex] }

/-- The loop body of `storeInvalidate` at `hitIndex`. -/
def invalidateAt (vaddr paddr : Addr) (c : CVU) (hitIndex : Nat) : CVU :=
  if (c.entry hitIndex).hasAddr vaddr paddr then
    (c.setEntry hitIndex { c.entry hitIndex with valid := false }).addToInvalidateList hitIndex
  else c

/-- `storeInvalidate`: the loop over all table indices. -/
def storeInvalidate (vaddr paddr : Addr) : CVU :=
  (List.range c.tableSize).foldl (invalidateAt vaddr paddr) c

/-- The slot that `AddEntryToCVU` writes. `rand` is the value `std::rand()` returns. -/
def newEntryIndex (rand : Nat) : Nat :=
  match c.invalidEntries with
  | [] => rand % (c.tableSize + 1)
  | front :: _ => front

/-- `AddEntryToCVU` finds a free slot, or draws a slot of the table. -/
def DrawsInTable (rand : Nat) : Prop :=
  c.invalidEntries ≠ [] ∨ rand % (c.tableSize + 1) ≠ c.tableSize

instance (rand : Nat) : Decidable (c.DrawsInTable rand) :=
  inferInstanceAs (Decidable (_ ∨ _))

/-- `AddEntryToCVU`. -/
def addEntryToCVU (data : Word) (lvptIndex : Nat) (vaddr paddr : Addr) (rand : Nat) : CVU :=
  let newEntry : TableEntry :=
    { valid := true, vaddr := vaddr, paddr := paddr, index := lvptIndex, data := data }
  { c.setEntry (c.newEntryIndex rand) newEntry with
    invalidEntries := c.invalidEntries.tail }

/-- The test that `verifyEntryInCVU` makes on each entry. -/
def TableEntry.verifies (e : TableEntry) (address index : Nat) (data : Word) : Bool :=
  e.valid && e.vaddr == address && e.index == index && e.data == data

/-- `verifyEntryInCVU`: whether some entry verifies. The out parameter `paddr` is the
`paddr` of the first such entry. Both callers drop it, so the model does too. -/
def verifyEntryInCVU (address index : Nat) (data : Word) (constant : Bool) : Bool :=
  constant && (List.range c.tableSize).any fun hitIndex =>
    (c.entry hitIndex).verifies address index data

end CVU

end Gem5.MyMinor
