import Gem5.MyMinor.DynInst

/-!
# `Gem5.MyMinor.LVPT`: the load value prediction table

The model of `src/cpu/myminor/LVPT.cc`. `valueTable` remembers the last value per PC, and
`predictTable` holds the saturating counters that classify a load as constant. The
tables are maps from indices, and the model reads them only below the sizes that the
constructor gives to the vectors. Statistics and debug prints are left out.
-/

namespace Gem5.MyMinor

/-- `LVPT::tableEntry`. -/
structure LVPT.TableEntry where
  valid : Bool
  tag : Addr
  addr : Addr
  value : Word
  deriving Repr, DecidableEq

/-- The LVPT state. -/
structure LVPT where
  tableSize : Nat
  threshold : Nat
  maxValue : Nat
  valueTable : Nat → LVPT.TableEntry
  predictTable : Nat → Nat

namespace LVPT

/-- The constructor: all entries are invalid and all counters are 0. The source stops
when `thresholdLCT` is above `maxValueLCT`. -/
def new (tableSizeLVPT thresholdLCT maxValueLCT : Nat) : LVPT :=
  { tableSize := tableSizeLVPT
    threshold := thresholdLCT
    maxValue := maxValueLCT
    valueTable := fun _ => { valid := false, tag := 0, addr := 0, value := 0 }
    predictTable := fun _ => 0 }

variable (t : LVPT)

/-- `numIndexBits`: the truncated binary logarithm of the table size. -/
def numIndexBits : Nat :=
  Nat.log2 t.tableSize

variable (pc : Addr)

/-- `index`: the low bits of the PC. -/
def index : Nat :=
  pc % 2 ^ t.numIndexBits

/-- `indexLCT`: four neighbouring indices share one counter. -/
def indexLCT : Nat :=
  t.index pc / 4

/-- `tag`: the PC with the index bits cleared. -/
def tag : Addr :=
  pc - t.index pc

/-- `updateTable`. -/
def updateTable (data : Word) (addr pc : Addr) (predict constant : Bool) : LVPT :=
  if constant then
    let prediction := t.predictTable (t.indexLCT pc)
    if !predict then
      { t with
        predictTable := fun i =>
          if i = t.indexLCT pc then (if prediction = 0 then 0 else prediction - 1)
          else t.predictTable i
        valueTable := fun i =>
          if i = t.index pc then
            { valid := true, tag := t.tag pc, addr := addr, value := data }
          else t.valueTable i }
    else
      { t with
        predictTable := fun i =>
          if i = t.indexLCT pc then
            (if t.maxValue ≤ prediction then prediction else prediction + 1)
          else t.predictTable i }
  else t

/-- Whether the table has an entry for `pc`. -/
def hasEntry : Bool :=
  (t.valueTable (t.index pc)).valid && (t.valueTable (t.index pc)).tag == t.tag pc

/-- `read`. -/
def read : LvptOut :=
  let entry := t.valueTable (t.index pc)
  let predict := t.predictTable (t.indexLCT pc)
  if t.hasEntry pc then
    { predict := true, constant := decide (t.threshold ≤ predict), value := entry.value,
      pc := pc, index := t.index pc, addr := entry.addr, counter := predict }
  else LvptOut.zero

end LVPT

end Gem5.MyMinor
