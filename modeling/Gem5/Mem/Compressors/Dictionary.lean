import Gem5.Base.Bitfield
import Gem5.Lib.Returns

/-!
# `Gem5.Mem.Compressors.Dictionary`: dictionary compressors

The model of `src/mem/cache/compressors/dictionary_compressor.hh`, `dictionary_compressor_impl.hh`
and of the functions of `base.cc` that cut a cache line into chunks and compress it. `T`, the type
of a dictionary entry, is a word of `k` bytes. A pattern is what the compressor keeps of a value;
`Contents` has one constructor for each class of patterns, with the fields of the class. A
`PatternClass` is the part of a class that a factory uses, its test and its constructor.

The latencies, the codes of the patterns and the statistics are left out. The decompressor reads
the dictionary at the match location of a pattern also when the pattern has none. `outside` is what
the memory holds at the locations that are not in the dictionary.
-/

namespace Gem5.Mem.Compression

open Gem5.Base (bits mask sext szext)
open Gem5.Lib (Fault)

/-- `Base::Chunk`. -/
abbrev Chunk := BitVec 64

/-- The parameters of `Base` and of `BaseDictionaryCompressor`. -/
structure Base where
  blkSize : Nat
  chunkSizeBits : Nat
  sizeThreshold : Nat
  dictionarySize : Nat
  deriving Repr, DecidableEq

/-- `Base::toChunks`. -/
def Base.toChunks (base : Base) (data : List (BitVec 64)) : Except Fault (List Chunk) :=
  let numChunksPer64 := 64 / base.chunkSizeBits
  (List.range (base.blkSize * 8 / base.chunkSizeBits)).mapM fun i =>
    let start := i % numChunksPer64
    match data[i / numChunksPer64]? with
    | none => .error .badPointer
    | some word =>
      .ok (bits word ((start + 1) * base.chunkSizeBits - 1) (start * base.chunkSizeBits))

/-! ### Dictionary entries -/

/-- `T`, an unsigned type of `k` bytes. -/
abbrev Value (k : Nat) := BitVec (8 * k)

/-- `DictionaryEntry`: the bytes of a value, the lowest one first. -/
abbrev DictionaryEntry (k : Nat) := Vector (BitVec 8) k

/-- `toDictionaryEntry`. -/
def toDictionaryEntry {k : Nat} (value : Value k) : DictionaryEntry k :=
  Vector.ofFn fun i => ((value >>> (8 * i.val)) &&& 0xFF).setWidth 8

/-- `fromDictionaryEntry`. -/
def fromDictionaryEntry {k : Nat} (entry : DictionaryEntry k) : Value k :=
  entry.toList.foldr (fun byte value => (value <<< 8) ||| byte.setWidth (8 * k)) 0

/-! ### Patterns -/

/-- The fields of the classes of patterns. `RepT` is a type of `r` bytes. -/
inductive Contents (k : Nat) where
  /-- `UncompressedPattern`. -/
  | uncompressed (data : DictionaryEntry k)
  /-- `MaskedPattern` and `LocatedMaskedPattern`. -/
  | masked (mask bits : Value k)
  /-- `MaskedValuePattern`. -/
  | maskedValue (value mask bits : Value k)
  /-- `RepeatedValuePattern`. -/
  | repeatedValue (r : Nat) (value : Value r)
  /-- `DeltaPattern`. -/
  | delta (bytes : DictionaryEntry k)
  /-- `SignExtendedPattern`. -/
  | signExtended (n : Nat) (bits : BitVec n)
  /-- `FPC::ZeroRun`, a `MaskedValuePattern` for the value zero. -/
  | zeroRun (bits : Value k) (runLength realSize : Nat)
  /-- `FPC::SignExtendedTwoHalfwords`. -/
  | signExtendedTwoHalfwords (low high : BitVec 8)
  deriving Repr, DecidableEq

/-- `Pattern`. `ν` is the enumeration of the patterns of the compressor. -/
structure Pattern (ν : Type) (k : Nat) where
  patternNumber : ν
  length : Nat
  numUnmatchedBits : Nat
  matchLocation : Int
  allocate : Bool
  contents : Contents k
  deriving Repr, DecidableEq

/-- `MaskedPattern::decompress`. -/
def decompressMasked {k : Nat} (mask bits : Value k) (dictBytes : DictionaryEntry k) :
    DictionaryEntry k :=
  toDictionaryEntry (bits ||| (fromDictionaryEntry dictBytes &&& mask))

/-- The loop of `RepeatedValuePattern::decompress`, with `n` rounds left. -/
def repeatValue {k r : Nat} (value : Value r) : Nat → Value k → Value k
  | 0, decompValue => decompValue
  | n + 1, decompValue => repeatValue value n ((decompValue <<< (8 * r)) ||| value.setWidth (8 * k))

/-- `(uint16_t)szext<8>` of a byte that is widened with its sign. -/
def extendByte (byte : BitVec 8) : BitVec 16 := (szext 8 (byte.signExtend 64)).setWidth 16

/-- `decompress` of each class of patterns. -/
def Contents.decompress {k : Nat} (dictBytes : DictionaryEntry k) : Contents k → DictionaryEntry k
  | .uncompressed data => data
  | .masked mask bits => decompressMasked mask bits dictBytes
  | .maskedValue value mask bits => decompressMasked mask bits (toDictionaryEntry value)
  | .repeatedValue r value => toDictionaryEntry (repeatValue value (k / r) 0)
  | .delta bytes => bytes
  | .signExtended n bits => toDictionaryEntry ((sext n (bits.setWidth 64)).setWidth (8 * k))
  | .zeroRun bits _ _ => decompressMasked (BitVec.allOnes (8 * k)) bits (toDictionaryEntry 0)
  | .signExtendedTwoHalfwords low high =>
    toDictionaryEntry (((((extendByte high).setWidth 32) <<< 16)
      ||| (extendByte low).setWidth 32).setWidth (8 * k))

namespace Pattern

variable {ν : Type} {k : Nat}

/-- `Pattern::getMatchLocation`, an unsigned byte. -/
def getMatchLocation (p : Pattern ν k) : Nat := (p.matchLocation % 256).toNat

/-- `Pattern::getSizeBits`. A zero run has its own size. -/
def getSizeBits (p : Pattern ν k) : Nat :=
  match p.contents with
  | .zeroRun _ _ realSize => realSize
  | _ => p.numUnmatchedBits + p.length

/-- `Pattern::decompress`. -/
def decompress (p : Pattern ν k) (dictBytes : DictionaryEntry k) : DictionaryEntry k :=
  p.contents.decompress dictBytes

end Pattern

/-- What a factory uses of a class of patterns. -/
structure PatternClass (ν : Type) (k : Nat) where
  isPattern : DictionaryEntry k → DictionaryEntry k → Int → Bool
  new : DictionaryEntry k → Int → Pattern ν k

/-- `Factory::getPattern`. The last class is not tested. -/
def Factory.getPattern {ν : Type} {k : Nat} (last : PatternClass ν k) :
    List (PatternClass ν k) → DictionaryEntry k → DictionaryEntry k → Int → Pattern ν k
  | [], bytes, _, matchLocation => last.new bytes matchLocation
  | head :: tail, bytes, dictBytes, matchLocation =>
    if head.isPattern bytes dictBytes matchLocation then head.new bytes matchLocation
    else Factory.getPattern last tail bytes dictBytes matchLocation

section
variable {ν : Type} {k : Nat}

/-- `popCount`. -/
def popCount (value : Value k) : Nat := (List.range (8 * k)).countP value.getLsbD

/-- `UncompressedPattern`. -/
def uncompressedPattern (number : ν) (metadataLength : Nat) : PatternClass ν k where
  isPattern _ _ _ := true
  new bytes matchLocation :=
    { patternNumber := number, length := metadataLength, numUnmatchedBits := 8 * k,
      matchLocation, allocate := true, contents := .uncompressed bytes }

/-- `MaskedPattern::isPattern`. -/
def isMasked (mask : Value k) (bytes dictBytes : DictionaryEntry k) (matchLocation : Int) : Bool :=
  decide (0 ≤ matchLocation) &&
    fromDictionaryEntry bytes &&& mask == fromDictionaryEntry dictBytes &&& mask

/-- `MaskedPattern`. -/
def maskedPattern (mask : Value k) (number : ν) (metadataLength : Nat) (allocate : Bool) :
    PatternClass ν k where
  isPattern := isMasked mask
  new bytes matchLocation :=
    { patternNumber := number, length := metadataLength, numUnmatchedBits := popCount (~~~ mask),
      matchLocation, allocate, contents := .masked mask (fromDictionaryEntry bytes &&& ~~~ mask) }

/-- `LocatedMaskedPattern`. -/
def locatedMaskedPattern (mask : Value k) (location : Int) (number : ν) (metadataLength : Nat)
    (allocate : Bool) : PatternClass ν k where
  isPattern bytes dictBytes matchLocation :=
    matchLocation == location && isMasked mask bytes dictBytes matchLocation
  new := (maskedPattern mask number metadataLength allocate).new

/-- `MaskedValuePattern::isPattern`. -/
def isMaskedValue (value mask : Value k) (bytes : DictionaryEntry k) : Bool :=
  value &&& mask == fromDictionaryEntry bytes &&& mask

/-- `MaskedValuePattern`. -/
def maskedValuePattern (value mask : Value k) (number : ν) (metadataLength : Nat)
    (allocate : Bool) : PatternClass ν k where
  isPattern bytes _ _ := isMaskedValue value mask bytes
  new bytes matchLocation :=
    { patternNumber := number, length := metadataLength, numUnmatchedBits := popCount (~~~ mask),
      matchLocation, allocate
      contents := .maskedValue value mask (fromDictionaryEntry bytes &&& ~~~ mask) }

/-- The loop of `RepeatedValuePattern::isPattern`, with `n` rounds left. -/
def isRepeated {r : Nat} (repValue : Value r) : Nat → Value k → Bool
  | 0, _ => true
  | n + 1, bytesValue =>
    bytesValue.setWidth (8 * r) == repValue && isRepeated repValue n (bytesValue >>> (8 * r))

/-- `RepeatedValuePattern` for a type of `r` bytes. -/
def repeatedValuePattern (r : Nat) (number : ν) (metadataLength : Nat) (allocate : Bool) :
    PatternClass ν k where
  isPattern bytes _ _ :=
    isRepeated ((fromDictionaryEntry bytes).setWidth (8 * r)) (k / r) (fromDictionaryEntry bytes)
  new bytes matchLocation :=
    { patternNumber := number, length := metadataLength, numUnmatchedBits := 8 * r,
      matchLocation, allocate
      contents := .repeatedValue r ((fromDictionaryEntry bytes).setWidth (8 * r)) }

/-- `DeltaPattern::isValidDelta`. -/
def isValidDelta (deltaSizeBits : Nat) (bytes baseBytes : DictionaryEntry k) : Bool :=
  let limit : Int := if deltaSizeBits = 0 then 0 else (mask (deltaSizeBits - 1)).toNat
  let delta := (fromDictionaryEntry bytes - fromDictionaryEntry baseBytes).toInt
  decide (-limit ≤ delta) && decide (delta ≤ limit)

/-- `DeltaPattern`. -/
def deltaPattern (deltaSizeBits : Nat) (number : ν) (metadataLength : Nat) : PatternClass ν k where
  isPattern bytes dictBytes matchLocation :=
    decide (0 ≤ matchLocation) && isValidDelta deltaSizeBits bytes dictBytes
  new bytes matchLocation :=
    { patternNumber := number, length := metadataLength, numUnmatchedBits := deltaSizeBits,
      matchLocation, allocate := false, contents := .delta bytes }

/-- `SignExtendedPattern`. -/
def signExtendedPattern (n : Nat) (number : ν) (metadataLength : Nat) (allocate : Bool) :
    PatternClass ν k where
  isPattern bytes _ _ :=
    let data := fromDictionaryEntry bytes
    data == (szext n (data.setWidth 64)).setWidth (8 * k)
  new bytes _ :=
    { patternNumber := number, length := metadataLength, numUnmatchedBits := n,
      matchLocation := -1, allocate
      contents := .signExtended n
        (((fromDictionaryEntry bytes).setWidth 64 &&& mask n).setWidth n) }

end

/-! ### The dictionary -/

/-- The dictionary of a compressor: `dictionary` and `numEntries`. -/
structure Dictionary (size k : Nat) where
  dictionary : Vector (DictionaryEntry k) size
  numEntries : Nat
  numEntries_le : numEntries ≤ size

namespace Dictionary

variable {size k : Nat}

/-- No valid entry, and all entries are zero. -/
def reset : Dictionary size k := ⟨Vector.replicate size (toDictionaryEntry 0), 0, Nat.zero_le _⟩

/-- One of the valid entries. -/
def entry (d : Dictionary size k) (i : Fin d.numEntries) : DictionaryEntry k :=
  d.dictionary.get (i.castLE d.numEntries_le)

/-- What a read at a location gives. -/
def read (outside : Nat → DictionaryEntry k) (d : Dictionary size k) (i : Nat) :
    DictionaryEntry k :=
  if h : i < size then d.dictionary.get ⟨i, h⟩ else outside i

/-- `dictionary[numEntries++] = data`, where there is room. -/
def push (d : Dictionary size k) (data : DictionaryEntry k) (h : d.numEntries < size) :
    Dictionary size k :=
  ⟨d.dictionary.set d.numEntries data h, d.numEntries + 1, h⟩

end Dictionary

/-- The state of a compressor is its dictionary. -/
abbrev DictM (size k : Nat) := StateT (Dictionary size k) (Except Fault)

/-- `DictionaryCompressor::resetDictionary`. -/
def resetDictionary {size k : Nat} : DictM size k Unit := set (Dictionary.reset : Dictionary size k)

/-- `addToDictionary` of the compressors whose dictionary only grows. -/
def appendToDictionary {size k : Nat} (data : DictionaryEntry k) : DictM size k Unit := fun d =>
  if h : d.numEntries < size then .ok ((), d.push data h)
  else .error (.assertion "numEntries < dictionarySize")

/-! ### Compression and decompression -/

/-- `CompData`. -/
structure CompData (ν : Type) (k : Nat) where
  sizeBits : Nat
  entries : List (Pattern ν k)
  deriving Repr, DecidableEq

namespace CompData

variable {ν : Type} {k : Nat}

/-- `CompData::CompData`. -/
def new : CompData ν k := ⟨0, []⟩

/-- `CompData::addEntry`. -/
def addEntry (data : CompData ν k) (pattern : Pattern ν k) : CompData ν k :=
  ⟨data.sizeBits + pattern.getSizeBits, data.entries ++ [pattern]⟩

/-- `CompressionData::setSizeBits`. -/
def setSizeBits (data : CompData ν k) (size : Nat) : CompData ν k := { data with sizeBits := size }

end CompData

/-- The virtual functions of a dictionary compressor. `afterCompress` is what its `compress` does
with the compressed data. -/
structure Compressor (ν : Type) (size k : Nat) where
  getPattern : DictionaryEntry k → DictionaryEntry k → Int → Pattern ν k
  resetDictionary : DictM size k Unit
  addToDictionary : DictionaryEntry k → DictM size k Unit
  addEntry : CompData ν k → Pattern ν k → CompData ν k
  afterCompress : Base → CompData ν k → DictM size k (CompData ν k)

namespace Compressor

variable {ν : Type} {size k : Nat} (c : Compressor ν size k)

/-- The search of `compressValue`: start without a match and take an entry whose pattern is
smaller. -/
def choosePattern (bytes : DictionaryEntry k) (d : Dictionary size k) : Pattern ν k :=
  (List.finRange d.numEntries).foldl (fun pattern i =>
    let tempPattern := c.getPattern bytes (d.entry i) i
    if tempPattern.getSizeBits < pattern.getSizeBits then tempPattern else pattern)
    (c.getPattern bytes (toDictionaryEntry 0) (-1))

/-- `if (pattern->shouldAllocate()) addToDictionary(data)`. -/
def allocate (pattern : Pattern ν k) (data : DictionaryEntry k) : DictM size k Unit :=
  if pattern.allocate then c.addToDictionary data else pure ()

/-- `DictionaryCompressor::compressValue`. -/
def compressValue (data : Value k) : DictM size k (Pattern ν k) := do
  let bytes := toDictionaryEntry data
  let pattern := c.choosePattern bytes (← get)
  c.allocate pattern bytes
  pure pattern

/-- `DictionaryCompressor::compress`. -/
def compressChunks (chunks : List Chunk) : DictM size k (CompData ν k) := do
  c.resetDictionary
  chunks.foldlM (fun compData value => do
    let pattern ← c.compressValue (value.setWidth (8 * k))
    pure (c.addEntry compData pattern)) CompData.new

/-- `Base::compress` of a cache line. -/
def compress (base : Base) (data : List (BitVec 64)) : DictM size k (CompData ν k) := do
  let chunks ← StateT.lift (base.toChunks data)
  let compData ← c.compressChunks chunks
  let compData ← c.afterCompress base compData
  if base.sizeThreshold * 8 < compData.sizeBits then pure (compData.setSizeBits (base.blkSize * 8))
  else pure compData

/-- `DictionaryCompressor::decompressValue`. -/
def decompressValue (outside : Nat → DictionaryEntry k) (pattern : Pattern ν k) :
    DictM size k (Value k) := do
  let data := pattern.decompress ((← get).read outside pattern.getMatchLocation)
  c.allocate pattern data
  pure (fromDictionaryEntry data)

end Compressor

/-- The inner loop that concatenates the decompressed values, with `j` rounds left. -/
def concatenateWord {k : Nat} (decompValues : List (Value k)) (i : Nat) :
    Nat → BitVec 64 → Except Fault (BitVec 64)
  | 0, word => .ok word
  | j + 1, word =>
    match decompValues[8 / k * i + j]? with
    | none => .error .badPointer
    | some value => concatenateWord decompValues i j (word ||| (value.setWidth 64 <<< (8 * k * j)))

/-- The loop that concatenates the decompressed values. -/
def concatenate {k : Nat} (blkSize : Nat) (decompValues : List (Value k)) :
    Except Fault (List (BitVec 64)) :=
  (List.range (blkSize / 8)).mapM fun i => concatenateWord decompValues i (8 / k) 0

/-- `DictionaryCompressor::decompress`. -/
def Compressor.decompress {ν : Type} {size k : Nat} (c : Compressor ν size k) (base : Base)
    (outside : Nat → DictionaryEntry k) (compData : CompData ν k) :
    DictM size k (List (BitVec 64)) := do
  c.resetDictionary
  let decompValues ← compData.entries.mapM (c.decompressValue outside)
  StateT.lift (concatenate base.blkSize decompValues)

end Gem5.Mem.Compression
