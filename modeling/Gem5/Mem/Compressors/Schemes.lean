import Gem5.Mem.Compressors.Dictionary
import Mathlib.Data.Nat.Log

/-!
# `Gem5.Mem.Compressors.Schemes`: the dictionary compressors

The compressors of `zero.{hh,cc}`, `repeated_qwords.{hh,cc}`, `cpack.{hh,cc}`, `fpc.{hh,cc}`,
`fpcd.{hh,cc}` and `base_delta.{hh,cc}`: their patterns in the order of their factories, how they
keep their dictionaries and what they do with the size of the compressed data. `Scheme` lists them.
-/

namespace Gem5.Mem.Compression

open Gem5.Base (mask szext)
open Gem5.Lib (Fault)

/-! ### `Zero` -/

namespace Zero

/-- `Zero::PatternNumber`. -/
inductive PatternNumber where
  | x | z
  deriving Repr, DecidableEq

/-- `Zero::PatternX`. -/
def patternX : PatternClass PatternNumber 8 := uncompressedPattern .x 0

/-- `Zero::PatternZ`. -/
def patternZ : PatternClass PatternNumber 8 := maskedValuePattern 0 0xFFFFFFFFFFFFFFFF .z 0 false

/-- `Zero`. -/
def compressor (size : Nat) : Compressor PatternNumber size 8 where
  getPattern := Factory.getPattern patternX [patternZ]
  resetDictionary := resetDictionary
  addToDictionary := appendToDictionary
  addEntry := CompData.addEntry
  afterCompress base compData := do
    if 0 < (← get).numEntries then pure (compData.setSizeBits (base.blkSize * 8))
    else pure compData

end Zero

/-! ### `RepeatedQwords` -/

namespace RepeatedQwords

/-- `RepeatedQwords::PatternNumber`. -/
inductive PatternNumber where
  | x | m
  deriving Repr, DecidableEq

/-- `RepeatedQwords::PatternX`. -/
def patternX : PatternClass PatternNumber 8 := uncompressedPattern .x 0

/-- `RepeatedQwords::PatternM`. -/
def patternM : PatternClass PatternNumber 8 :=
  locatedMaskedPattern 0xFFFFFFFFFFFFFFFF 0 .m 0 false

/-- `RepeatedQwords`. -/
def compressor (size : Nat) : Compressor PatternNumber size 8 where
  getPattern := Factory.getPattern patternX [patternM]
  resetDictionary := resetDictionary
  addToDictionary := appendToDictionary
  addEntry := CompData.addEntry
  afterCompress base compData := do
    let numEntries := (← get).numEntries
    if numEntries < 1 then throw (.assertion "numEntries >= 1")
    else if 1 < numEntries then pure (compData.setSizeBits (base.blkSize * 8))
    else pure compData

end RepeatedQwords

/-! ### `CPack` -/

namespace CPack

/-- `CPack::PatternNumber`. -/
inductive PatternNumber where
  | zzzz | xxxx | mmmm | mmxx | zzzx | mmmx
  deriving Repr, DecidableEq

/-- `CPack::PatternZZZZ`. -/
def patternZZZZ : PatternClass PatternNumber 4 := maskedValuePattern 0 0xFFFFFFFF .zzzz 2 false

/-- `CPack::PatternXXXX`. -/
def patternXXXX : PatternClass PatternNumber 4 := uncompressedPattern .xxxx 2

/-- `CPack::PatternMMMM`. -/
def patternMMMM : PatternClass PatternNumber 4 := maskedPattern 0xFFFFFFFF .mmmm 6 true

/-- `CPack::PatternMMXX`. -/
def patternMMXX : PatternClass PatternNumber 4 := maskedPattern 0xFFFF0000 .mmxx 8 true

/-- `CPack::PatternZZZX`. -/
def patternZZZX : PatternClass PatternNumber 4 := maskedValuePattern 0 0xFFFFFF00 .zzzx 4 false

/-- `CPack::PatternMMMX`. -/
def patternMMMX : PatternClass PatternNumber 4 := maskedPattern 0xFFFFFF00 .mmmx 8 true

/-- `CPack`. -/
def compressor (size : Nat) : Compressor PatternNumber size 4 where
  getPattern := Factory.getPattern patternXXXX
    [patternZZZZ, patternMMMM, patternZZZX, patternMMMX, patternMMXX]
  resetDictionary := resetDictionary
  addToDictionary := appendToDictionary
  addEntry := CompData.addEntry
  afterCompress _ compData := pure compData

end CPack

/-! ### `FPC` -/

/-- A class whose patterns are made without a match location. -/
def PatternClass.unlocated {ν : Type} {k : Nat} (c : PatternClass ν k) : PatternClass ν k where
  isPattern := c.isPattern
  new bytes _ := c.new bytes (-1)

namespace FPC

/-- `FPC::PatternNumber`. -/
inductive PatternNumber where
  | zeroRun | signExtended4Bits | signExtended1Byte | signExtendedHalfword | zeroPaddedHalfword
  | signExtendedTwoHalfwords | repBytes | uncompressed
  deriving Repr, DecidableEq

/-- `FPC::ZeroRun`. -/
def zeroRun : PatternClass PatternNumber 4 where
  isPattern bytes _ _ := isMaskedValue 0 0xFFFFFFFF bytes
  new bytes _ :=
    { patternNumber := .zeroRun, length := 3, numUnmatchedBits := popCount (k := 4) (~~~ 0xFFFFFFFF),
      matchLocation := -1, allocate := false
      contents := .zeroRun (fromDictionaryEntry bytes &&& ~~~ 0xFFFFFFFF) 0 0 }

variable (pattern : Pattern PatternNumber 4)

/-- `ZeroRun::getRunLength`. -/
def getRunLength : Nat :=
  match pattern.contents with
  | .zeroRun _ runLength _ => runLength
  | _ => 0

/-- `ZeroRun::setRunLength`. -/
def setRunLength (length : Nat) : Pattern PatternNumber 4 :=
  match pattern.contents with
  | .zeroRun bits _ realSize => { pattern with contents := .zeroRun bits length realSize }
  | _ => pattern

/-- `ZeroRun::setRealSize`. -/
def setRealSize (size : Nat) : Pattern PatternNumber 4 :=
  match pattern.contents with
  | .zeroRun bits runLength _ =>
    { pattern with contents := .zeroRun bits runLength (pattern.length + size) }
  | _ => pattern

/-- The comparison of a signed halfword with its lower byte, extended by the sign. The comparison
is one of integers: the extended byte is unsigned. -/
def isExtendedByte (halfword : BitVec 16) : Bool :=
  halfword.toInt == (((szext 8 (halfword.signExtend 64)).setWidth 16).toNat : Int)

/-- `FPC::SignExtended4Bits`. -/
def signExtended4Bits : PatternClass PatternNumber 4 :=
  signExtendedPattern 4 .signExtended4Bits 3 false

/-- `FPC::SignExtended1Byte`. -/
def signExtended1Byte : PatternClass PatternNumber 4 :=
  signExtendedPattern 8 .signExtended1Byte 3 false

/-- `FPC::SignExtendedHalfword`. -/
def signExtendedHalfword : PatternClass PatternNumber 4 :=
  signExtendedPattern 16 .signExtendedHalfword 3 false

/-- `FPC::ZeroPaddedHalfword`. -/
def zeroPaddedHalfword : PatternClass PatternNumber 4 :=
  (maskedValuePattern 0 0x0000FFFF .zeroPaddedHalfword 3 false).unlocated

/-- `FPC::SignExtendedTwoHalfwords`. -/
def signExtendedTwoHalfwords : PatternClass PatternNumber 4 where
  isPattern bytes _ _ :=
    let data := fromDictionaryEntry bytes
    isExtendedByte ((data.setWidth 64 &&& mask 16).setWidth 16) &&
      isExtendedByte (((data >>> 16).setWidth 64 &&& mask 16).setWidth 16)
  new bytes _ :=
    let data := fromDictionaryEntry bytes
    { patternNumber := .signExtendedTwoHalfwords, length := 3, numUnmatchedBits := 16,
      matchLocation := -1, allocate := false
      contents := .signExtendedTwoHalfwords ((data.setWidth 64 &&& mask 8).setWidth 8)
        (((data >>> 16).setWidth 64 &&& mask 8).setWidth 8) }

/-- `FPC::RepBytes`. -/
def repBytes : PatternClass PatternNumber 4 := (repeatedValuePattern 1 .repBytes 3 false).unlocated

/-- `FPC::Uncompressed`. -/
def uncompressed : PatternClass PatternNumber 4 := (uncompressedPattern .uncompressed 3).unlocated

/-- What `FPCCompData::addEntry` makes of a zero. A zero continues a run until the run is full. -/
def addZero (zeroRunSizeBits : Nat) (data : CompData PatternNumber 4)
    (pattern : Pattern PatternNumber 4) : Pattern PatternNumber 4 :=
  match data.entries.getLast? with
  | none => setRealSize pattern zeroRunSizeBits
  | some back =>
    if back.patternNumber ≠ .zeroRun then setRealSize pattern zeroRunSizeBits
    else if getRunLength back = (mask zeroRunSizeBits).toNat then
      setRealSize pattern zeroRunSizeBits
    else setRunLength pattern (getRunLength back + 1)

/-- `FPC`. It has no dictionary, and nothing is added to it. -/
def compressor (size zeroRunSizeBits : Nat) : Compressor PatternNumber size 4 where
  getPattern := Factory.getPattern uncompressed
    [zeroRun, signExtended4Bits, signExtended1Byte, signExtendedHalfword, zeroPaddedHalfword,
      signExtendedTwoHalfwords, repBytes]
  resetDictionary := resetDictionary
  addToDictionary _ := pure ()
  addEntry data pattern :=
    data.addEntry
      (if pattern.patternNumber = .zeroRun then addZero zeroRunSizeBits data pattern else pattern)
  afterCompress _ compData := pure compData

end FPC

/-! ### `FPCD` -/

namespace FPCD

/-- `FPCD::PatternNumber`. -/
inductive PatternNumber where
  | zzzz | ffff | mmmmPenultimate | mmmmPrevious | zzzx | xzzz | rrrr | mmmxPenultimate
  | mmmxPrevious | zzxx | zxzx | ffxx | xxzz | mmxxPenultimate | mmxxPrevious | xxxx
  deriving Repr, DecidableEq

/-- `FPCD::prefixSize`. -/
def prefixSize : Nat := 4

/-- `FPCD::previousIndex`. -/
def previousIndex : Nat := 1

/-- `FPCD::penultimateIndex`. -/
def penultimateIndex : Nat := 0

/-- `FPCD::PatternZZZZ`. -/
def patternZZZZ : PatternClass PatternNumber 4 :=
  maskedValuePattern 0 0xFFFFFFFF .zzzz prefixSize true

/-- `FPCD::PatternFFFF`. -/
def patternFFFF : PatternClass PatternNumber 4 :=
  maskedValuePattern 0xFFFFFFFF 0xFFFFFFFF .ffff prefixSize true

/-- `FPCD::PatternMMMMPrevious`. -/
def patternMMMMPrevious : PatternClass PatternNumber 4 :=
  locatedMaskedPattern 0xFFFFFFFF previousIndex .mmmmPrevious prefixSize true

/-- `FPCD::PatternMMMMPenultimate`. -/
def patternMMMMPenultimate : PatternClass PatternNumber 4 :=
  locatedMaskedPattern 0xFFFFFFFF penultimateIndex .mmmmPenultimate prefixSize true

/-- `FPCD::PatternZZZX`. -/
def patternZZZX : PatternClass PatternNumber 4 :=
  maskedValuePattern 0 0xFFFFFF00 .zzzx prefixSize true

/-- `FPCD::PatternXZZZ`. -/
def patternXZZZ : PatternClass PatternNumber 4 :=
  maskedValuePattern 0 0x00FFFFFF .xzzz prefixSize true

/-- `FPCD::PatternRRRR`. -/
def patternRRRR : PatternClass PatternNumber 4 := repeatedValuePattern 1 .rrrr prefixSize true

/-- `FPCD::PatternMMMXPrevious`. -/
def patternMMMXPrevious : PatternClass PatternNumber 4 :=
  locatedMaskedPattern 0xFFFFFF00 previousIndex .mmmxPrevious prefixSize true

/-- `FPCD::PatternMMMXPenultimate`. -/
def patternMMMXPenultimate : PatternClass PatternNumber 4 :=
  locatedMaskedPattern 0xFFFFFF00 penultimateIndex .mmmxPenultimate prefixSize true

/-- `FPCD::PatternZZXX`. -/
def patternZZXX : PatternClass PatternNumber 4 :=
  maskedValuePattern 0 0xFFFF0000 .zzxx prefixSize true

/-- `FPCD::PatternZXZX`. -/
def patternZXZX : PatternClass PatternNumber 4 :=
  maskedValuePattern 0 0xFF00FF00 .zxzx prefixSize true

/-- `FPCD::PatternFFXX`. -/
def patternFFXX : PatternClass PatternNumber 4 :=
  maskedValuePattern 0xFFFFFFFF 0xFFFF0000 .ffxx prefixSize true

/-- `FPCD::PatternXXZZ`. -/
def patternXXZZ : PatternClass PatternNumber 4 :=
  maskedValuePattern 0 0x0000FFFF .xxzz prefixSize true

/-- `FPCD::PatternMMXXPrevious`. -/
def patternMMXXPrevious : PatternClass PatternNumber 4 :=
  locatedMaskedPattern 0xFFFF0000 previousIndex .mmxxPrevious prefixSize true

/-- `FPCD::PatternMMXXPenultimate`. -/
def patternMMXXPenultimate : PatternClass PatternNumber 4 :=
  locatedMaskedPattern 0xFFFF0000 penultimateIndex .mmxxPenultimate prefixSize true

/-- `FPCD::PatternXXXX`. -/
def patternXXXX : PatternClass PatternNumber 4 := uncompressedPattern .xxxx prefixSize

/-- `FPCD::addToDictionary`: a queue of two entries. -/
def addToDictionary {size k : Nat} (data : DictionaryEntry k) : DictM size k Unit := fun d =>
  if h : d.numEntries = 2 then
    have hsize : 2 ≤ size := h ▸ d.numEntries_le
    let dictionary := d.dictionary.set penultimateIndex
      (d.dictionary.get ⟨previousIndex, hsize⟩) (Nat.lt_of_lt_of_le Nat.two_pos hsize)
    .ok ((), ⟨dictionary.set previousIndex data hsize, d.numEntries, d.numEntries_le⟩)
  else if h : d.numEntries < size then .ok ((), d.push data h)
  else .error .badPointer

/-- `FPCD`. -/
def compressor (size : Nat) : Compressor PatternNumber size 4 where
  getPattern := Factory.getPattern patternXXXX
    [patternZZZZ, patternFFFF, patternMMMMPrevious, patternMMMMPenultimate, patternZZZX,
      patternXZZZ, patternRRRR, patternMMMXPrevious, patternMMMXPenultimate, patternZZXX,
      patternZXZX, patternFFXX, patternXXZZ, patternMMXXPrevious, patternMMXXPenultimate]
  resetDictionary := resetDictionary
  addToDictionary := addToDictionary
  addEntry := CompData.addEntry
  afterCompress _ compData := pure compData

end FPCD

/-! ### `BaseDelta` -/

namespace BaseDelta

/-- `BaseDelta::PatternNumber`. -/
inductive PatternNumber where
  | x | m
  deriving Repr, DecidableEq

/-- `BaseDelta::DEFAULT_MAX_NUM_BASES`. -/
def defaultMaxNumBases : Nat := 2

/-- `BaseDelta::PatternX`. -/
def patternX (k deltaSizeBits : Nat) : PatternClass PatternNumber k :=
  uncompressedPattern .x (Nat.clog 2 defaultMaxNumBases + deltaSizeBits)

/-- `BaseDelta::PatternM`. -/
def patternM (k deltaSizeBits : Nat) : PatternClass PatternNumber k :=
  deltaPattern deltaSizeBits .m (Nat.clog 2 defaultMaxNumBases)

/-- `BaseDelta`. The dictionary starts with a base for immediate values. -/
def compressor (size k deltaSizeBits : Nat) : Compressor PatternNumber size k where
  getPattern := Factory.getPattern (patternX k deltaSizeBits) [patternM k deltaSizeBits]
  resetDictionary := do
    resetDictionary
    appendToDictionary (toDictionaryEntry 0)
  addToDictionary := appendToDictionary
  addEntry := CompData.addEntry
  afterCompress base compData := do
    let diff : Int := defaultMaxNumBases - (← get).numEntries
    if diff < 0 then pure (compData.setSizeBits (base.blkSize * 8))
    else if 0 < diff then pure (compData.setSizeBits (compData.sizeBits + 8 * k * diff.toNat))
    else pure compData

/-- `BaseDelta::compress`. -/
def compress (size k deltaSizeBits : Nat) (base : Base) (chunks : List Chunk) :
    DictM size k (CompData PatternNumber k) := do
  let compData ← (compressor size k deltaSizeBits).compressChunks chunks
  (compressor size k deltaSizeBits).afterCompress base compData

end BaseDelta

/-! ### All of them -/

/-- The dictionary compressors. -/
inductive Scheme where
  | zero | repeatedQwords | cPack | fpc (zeroRunSizeBits : Nat) | fpcd
  | base64Delta8 | base64Delta16 | base64Delta32 | base32Delta8 | base32Delta16 | base16Delta8
  deriving Repr, DecidableEq

namespace Scheme

/-- The type of the pattern numbers. -/
def Number : Scheme → Type
  | .zero => Zero.PatternNumber
  | .repeatedQwords => RepeatedQwords.PatternNumber
  | .cPack => CPack.PatternNumber
  | .fpc _ => FPC.PatternNumber
  | .fpcd => FPCD.PatternNumber
  | _ => BaseDelta.PatternNumber

/-- The number of bytes of a dictionary entry. -/
def entrySize : Scheme → Nat
  | .zero | .repeatedQwords | .base64Delta8 | .base64Delta16 | .base64Delta32 => 8
  | .cPack | .fpc _ | .fpcd | .base32Delta8 | .base32Delta16 => 4
  | .base16Delta8 => 2

/-- The compressor, with a dictionary of `size` entries. -/
def compressor (size : Nat) : (s : Scheme) → Compressor s.Number size s.entrySize
  | .zero => Zero.compressor size
  | .repeatedQwords => RepeatedQwords.compressor size
  | .cPack => CPack.compressor size
  | .fpc zeroRunSizeBits => FPC.compressor size zeroRunSizeBits
  | .fpcd => FPCD.compressor size
  | .base64Delta8 => BaseDelta.compressor size 8 8
  | .base64Delta16 => BaseDelta.compressor size 8 16
  | .base64Delta32 => BaseDelta.compressor size 8 32
  | .base32Delta8 => BaseDelta.compressor size 4 8
  | .base32Delta16 => BaseDelta.compressor size 4 16
  | .base16Delta8 => BaseDelta.compressor size 2 8

end Scheme

end Gem5.Mem.Compression
