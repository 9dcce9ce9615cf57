import Gem5.Base.Bitfield

/-!
# `Gem5.Mem.SkewedAssociative`: skewed indexing of a cache

The model of `src/mem/cache/tags/indexing_policies/base.cc` and `skewed_associative.cc`. An
address is split into the block offset, `N` set bits and the tag. Each way has its own
skewing function of the set bits and the lowest `N` tag bits. `regenerateAddr` takes an
address back from its tag and from the position of its entry.

The table of entries is left out: the functions only read the position of an entry.
-/

namespace Gem5.Mem

open Gem5.Base (bits mbits insertBits)

/-- `Addr`. -/
abbrev Addr := BitVec 64

/-- `BaseIndexingPolicyParams`. -/
structure IndexingParams where
  size : Nat
  entrySize : Nat
  assoc : Nat
  deriving Repr, DecidableEq

/-- `BaseIndexingPolicy`. `numSets` and `setMask` have 32 bits. -/
structure BaseIndexingPolicy where
  assoc : Nat
  numSets : Nat
  setShift : Nat
  setMask : BitVec 32
  tagShift : Nat
  deriving Repr, DecidableEq

/-- `ReplaceableEntry`: the position of an entry. -/
structure ReplaceableEntry where
  set : BitVec 32
  way : BitVec 32
  deriving Repr, DecidableEq

/-- `isPowerOf2` on 32 bits. -/
def isPowerOf2 (n : BitVec 32) : Bool :=
  n != 0 && n &&& (n - 1) == 0

namespace BaseIndexingPolicy

/-- `BaseIndexingPolicy::BaseIndexingPolicy`. A size that gives no set fails the assertion of
`floorLog2`. -/
def new (p : IndexingParams) : Except String BaseIndexingPolicy :=
  let numSets := p.size / (p.entrySize * p.assoc % 2 ^ 32) % 2 ^ 32
  if numSets = 0 ∨ p.entrySize = 0 then .error "x > 0"
  else if !isPowerOf2 (BitVec.ofNat 32 numSets) then
    .error "# of sets must be non-zero and a power of 2"
  else if p.assoc = 0 then .error "associativity must be greater than zero"
  else
    .ok { assoc := p.assoc, numSets := numSets, setShift := Nat.log2 p.entrySize
          setMask := BitVec.ofNat 32 (numSets - 1)
          tagShift := Nat.log2 p.entrySize + Nat.log2 numSets }

/-- `extractTag`. -/
def extractTag (p : BaseIndexingPolicy) (addr : Addr) : Addr :=
  addr >>> p.tagShift

end BaseIndexingPolicy

/-- `SkewedAssociative`. -/
structure SkewedAssociative extends BaseIndexingPolicy where
  msbShift : Nat
  deriving Repr, DecidableEq

namespace SkewedAssociative

/-- `NUM_SKEWING_FUNCTIONS`. -/
def numSkewingFunctions : Nat := 8

/-- `SkewedAssociative::SkewedAssociative`. -/
def new (p : IndexingParams) : Except String SkewedAssociative := do
  let base ← BaseIndexingPolicy.new p
  let msbShift := Nat.log2 base.numSets - 1
  if base.setShift + 2 * (msbShift + 1) > 64 then
    .error "Unsuported number of bits for the skewing functions."
  else if base.numSets ≤ 2 then
    .error "The number of sets must be greater than 2"
  else .ok { base with msbShift := msbShift }

variable (s : SkewedAssociative) (addr : Addr)

/-- `hash`. -/
def hash : Addr :=
  let lsb := bits addr 0 0
  let msb := bits addr s.msbShift s.msbShift
  insertBits (addr >>> 1) s.msbShift s.msbShift (msb ^^^ lsb)

/-- `dehash`. -/
def dehash : Addr :=
  let msb := bits addr (s.msbShift - 1) (s.msbShift - 1)
  let xorBit := bits addr s.msbShift s.msbShift
  let addrNoMsb := mbits addr (s.msbShift - 1) 0
  insertBits (addrNoMsb <<< 1) 0 0 (msb ^^^ xorBit)

/-- The skewing function of a way below `NUM_SKEWING_FUNCTIONS`. -/
def skewWay (addr1 addr2 : Addr) : Nat → Addr
  | 0 => s.hash addr1 ^^^ s.hash addr2 ^^^ addr2
  | 1 => s.hash addr1 ^^^ s.hash addr2 ^^^ addr1
  | 2 => s.hash addr1 ^^^ s.dehash addr2 ^^^ addr2
  | 3 => s.hash addr1 ^^^ s.dehash addr2 ^^^ addr1
  | 4 => s.dehash addr1 ^^^ s.hash addr2 ^^^ addr2
  | 5 => s.dehash addr1 ^^^ s.hash addr2 ^^^ addr1
  | 6 => s.dehash addr1 ^^^ s.dehash addr2 ^^^ addr2
  | _ => s.dehash addr1 ^^^ s.dehash addr2 ^^^ addr1

/-- `skew`. -/
def skew (way : Nat) : Addr :=
  let addr1 := bits addr s.msbShift 0
  let addr2 := bits addr (2 * (s.msbShift + 1) - 1) (s.msbShift + 1)
  s.hash^[way / numSkewingFunctions] (s.skewWay addr1 addr2 (way % numSkewingFunctions))

/-- The inverse of the skewing function of a way below `NUM_SKEWING_FUNCTIONS`. -/
def deskewWay (addr1 addr2 : Addr) : Nat → Addr
  | 0 => s.dehash (addr1 ^^^ s.hash addr2 ^^^ addr2)
  | 1 => s.hash^[s.msbShift] (addr1 ^^^ s.hash addr2)
  | 2 => s.dehash (addr1 ^^^ s.dehash addr2 ^^^ addr2)
  | 3 => s.hash^[s.msbShift] (addr1 ^^^ s.dehash addr2)
  | 4 => s.hash (addr1 ^^^ s.hash addr2 ^^^ addr2)
  | 5 => s.hash^[s.msbShift + 1] (addr1 ^^^ s.hash addr2)
  | 6 => s.hash (addr1 ^^^ s.dehash addr2 ^^^ addr2)
  | _ => s.hash^[s.msbShift + 1] (addr1 ^^^ s.dehash addr2)

/-- `deskew`. -/
def deskew (way : Nat) : Addr :=
  let addr1 := bits addr s.msbShift 0
  let addr2 := bits addr (2 * (s.msbShift + 1) - 1) (s.msbShift + 1)
  let addr1 :=
    if way ≥ numSkewingFunctions then s.dehash^[way / numSkewingFunctions] addr1 else addr1
  s.deskewWay addr1 addr2 (way % 8)

/-- `extractSet`. -/
def extractSet (way : BitVec 32) : BitVec 32 :=
  (s.skew (addr >>> s.setShift) way.toNat &&& s.setMask.zeroExtend 64).truncate 32

/-- `regenerateAddr`. -/
def regenerateAddr (tag : Addr) (entry : ReplaceableEntry) : Addr :=
  let addrSet := (tag <<< (s.msbShift + 1)) ||| entry.set.zeroExtend 64
  (tag <<< s.tagShift) |||
    ((s.deskew addrSet entry.way.toNat &&& s.setMask.zeroExtend 64) <<< s.setShift)

end SkewedAssociative

end Gem5.Mem
