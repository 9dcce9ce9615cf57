import Gem5.Proofs.Mem.Compressors.Lossless

/-!
# `Gem5.Proofs.Mem.Compressors.Schemes`: the compressors are lossless

Each compressor is `Sound`, because each of its patterns is, and `decompress_compress` follows for
all of them. A compressor returns if its dictionary is large enough for the line (`Scheme.Fits`).
The dictionary of `BaseDelta` holds the base for immediate values too, and the one of `FPCD` is a
queue of two entries. `RepeatedQwords` asserts that there is an entry, so the line is not empty.
-/

namespace Gem5.Mem.Compression

open Gem5.Lib Factory Compressor List
open RepeatedQwords (compressor)

/-! ### Each compressor is sound -/

variable {k : Nat} {ν : Type}

theorem keeps_addEntry :
    Keeps (CompData.addEntry : CompData ν k → Pattern ν k → CompData ν k) CompData.entries
      SamePattern :=
  fun _ p => ⟨p, rfl, rfl, rfl, rfl⟩

variable (size : Nat)

theorem Zero.sound : (Zero.compressor size).Sound where
  recovers := by
    apply getPattern_recovers (uncompressedPattern_sound _ _) fun _ _ _ => rfl
    exact maskedValuePattern_sound _ _ _ _ _
  keeps := keeps_addEntry
  resets _ _ := rfl
  afterCompress base compData d := by
    simp only [Zero.compressor, ensures_bind, ensures_get]
    split <;> exact (ensures_pure _ _ _).mpr rfl

/-- Lines of one repeated qword. -/
theorem RepeatedQwords.sound : (compressor size).Sound where
  recovers := by
    apply getPattern_recovers (uncompressedPattern_sound _ _) fun _ _ _ => rfl
    exact locatedMaskedPattern_sound _ _ _ _ _
  keeps := keeps_addEntry
  resets _ _ := rfl
  afterCompress base compData d := by
    simp only [compressor, ensures_bind, ensures_get]
    split
    · exact (ensures_throw _ _ _).mpr trivial
    · split <;> exact (ensures_pure _ _ _).mpr rfl

theorem CPack.sound : (CPack.compressor size).Sound where
  recovers := by
    apply getPattern_recovers (uncompressedPattern_sound _ _) fun _ _ _ => rfl
    exact ⟨maskedValuePattern_sound _ _ _ _ _, maskedPattern_sound _ _ _ _,
      maskedValuePattern_sound _ _ _ _ _, maskedPattern_sound _ _ _ _, maskedPattern_sound _ _ _ _⟩
  keeps := keeps_addEntry
  resets _ _ := rfl
  afterCompress _ _ _ := (ensures_pure _ _ _).mpr rfl

namespace FPC

theorem samePattern_setRealSize (p : Pattern PatternNumber 4) (size : Nat) :
    SamePattern p (setRealSize p size) := by
  obtain ⟨number, len, unmatched, loc, allocate, contents⟩ := p
  cases contents <;> exact ⟨rfl, rfl, rfl⟩

/-- The count of zero runs keeps the pattern. -/
theorem samePattern_addZero (zeroRunSizeBits : Nat) (compData : CompData PatternNumber 4)
    (p : Pattern PatternNumber 4) : SamePattern p (addZero zeroRunSizeBits compData p) := by
  unfold addZero
  split
  · exact samePattern_setRealSize p _
  · split
    · exact samePattern_setRealSize p _
    · split
      · exact samePattern_setRealSize p _
      · -- the run length and the size do not matter to the decompressor
        obtain ⟨number, len, unmatched, loc, allocate, contents⟩ := p
        cases contents <;> exact ⟨rfl, rfl, rfl⟩

theorem sound (size zeroRunSizeBits : Nat) : (compressor size zeroRunSizeBits).Sound where
  recovers := by
    apply getPattern_recovers
      ((uncompressedPattern_sound _ _).unlocated fun _ => rfl) fun _ _ _ => rfl
    exact ⟨zeroRun_sound, signExtendedPattern_sound (by decide) _ _ _,
      signExtendedPattern_sound (by decide) _ _ _, signExtendedPattern_sound (by decide) _ _ _,
      (maskedValuePattern_sound _ _ _ _ _).unlocated id, signExtendedTwoHalfwords_sound,
      (repeatedValuePattern_sound (by decide) (by decide) _ _ _).unlocated id⟩
  keeps compData p := by
    refine ⟨_, rfl, ?_⟩
    split
    · exact samePattern_addZero _ _ _
    · exact ⟨rfl, rfl, rfl⟩
  resets _ _ := rfl
  afterCompress _ _ _ := (ensures_pure _ _ _).mpr rfl

end FPC

/-- Words that match a pattern or one of the last two words. -/
theorem FPCD.sound : (FPCD.compressor size).Sound where
  recovers := by
    apply getPattern_recovers (uncompressedPattern_sound _ _) fun _ _ _ => rfl
    exact ⟨maskedValuePattern_sound _ _ _ _ _, maskedValuePattern_sound _ _ _ _ _,
      locatedMaskedPattern_sound _ _ _ _ _, locatedMaskedPattern_sound _ _ _ _ _,
      maskedValuePattern_sound _ _ _ _ _, maskedValuePattern_sound _ _ _ _ _,
      repeatedValuePattern_sound (by decide) (by decide) _ _ _,
      locatedMaskedPattern_sound _ _ _ _ _, locatedMaskedPattern_sound _ _ _ _ _,
      maskedValuePattern_sound _ _ _ _ _, maskedValuePattern_sound _ _ _ _ _,
      maskedValuePattern_sound _ _ _ _ _, maskedValuePattern_sound _ _ _ _ _,
      locatedMaskedPattern_sound _ _ _ _ _, locatedMaskedPattern_sound _ _ _ _ _⟩
  keeps := keeps_addEntry
  resets _ _ := rfl
  afterCompress _ _ _ := (ensures_pure _ _ _).mpr rfl

/-- Deltas to a base in the dictionary. -/
theorem BaseDelta.sound (size k deltaSizeBits : Nat) :
    (BaseDelta.compressor size k deltaSizeBits).Sound where
  recovers := by
    apply getPattern_recovers (uncompressedPattern_sound _ _) fun _ _ _ => rfl
    exact fun _ _ _ _ => .inl fun _ => rfl
  keeps := keeps_addEntry
  resets _ _ := rfl
  afterCompress base compData d := by
    simp only [BaseDelta.compressor, ensures_bind, ensures_get]
    split
    · exact (ensures_pure _ _ _).mpr rfl
    · split <;> exact (ensures_pure _ _ _).mpr rfl

/-- Every compressor of the source is sound. -/
theorem Scheme.sound (s : Scheme) (size : Nat) : (s.compressor size).Sound := by
  cases s with
  | zero => exact Zero.sound size
  | repeatedQwords => exact RepeatedQwords.sound size
  | cPack => exact CPack.sound size
  | fpc zeroRunSizeBits => exact FPC.sound size zeroRunSizeBits
  | fpcd => exact FPCD.sound size
  | base64Delta8 => exact BaseDelta.sound size 8 8
  | base64Delta16 => exact BaseDelta.sound size 8 16
  | base64Delta32 => exact BaseDelta.sound size 8 32
  | base32Delta8 => exact BaseDelta.sound size 4 8
  | base32Delta16 => exact BaseDelta.sound size 4 16
  | base16Delta8 => exact BaseDelta.sound size 2 8

/-! ### Each compressor returns -/

/-- The dictionary is large enough for a line of `n` values. -/
def Scheme.Fits (size n : Nat) : Scheme → Prop
  | .zero | .repeatedQwords | .cPack => n ≤ size
  | .fpc _ => True
  | .fpcd => 2 ≤ size
  | _ => n < size

instance (size n : Nat) (s : Scheme) : Decidable (s.Fits size n) :=
  match s with
  | .zero | .repeatedQwords | .cPack => inferInstanceAs (Decidable (n ≤ size))
  | .fpc _ => inferInstanceAs (Decidable True)
  | .fpcd => inferInstanceAs (Decidable (2 ≤ size))
  | .base64Delta8 | .base64Delta16 | .base64Delta32 | .base32Delta8 | .base32Delta16
  | .base16Delta8 => inferInstanceAs (Decidable (n < size))

/-- Room for `n` more entries in a dictionary that only grows. -/
def Room {size k : Nat} (n : Nat) (d : Dictionary size k) : Prop := d.numEntries + n ≤ size

/-- A value takes at most one entry. -/
theorem Room.step {size : Nat} {c : Compressor ν size k}
    (hadd : c.addToDictionary = appendToDictionary) {n : Nat} {value : Value k}
    {d : Dictionary size k} (h : Room (n + 1) d) :
    Returns (c.compressValue value) d fun _ d' => Room n d' := by
  unfold Room at h
  refine returns_compressValue fun p _ => ?_
  refine (returns_allocate hadd (by omega)).mono fun _ d' hnum => ?_
  show d'.numEntries + n ≤ size
  rw [hnum]
  split <;> omega

section
variable {size : Nat} {base : Base} {line : List (BitVec 64)}

section
variable (hblk : base.blkSize = 8 * line.length)
include hblk

theorem Zero.returns_compress (hchunk : base.chunkSizeBits = 8 * 8)
    (hfits : line.length * 1 ≤ size) (d : Dictionary size 8) :
    Returns ((Zero.compressor size).compress base line) d fun _ _ => True := by
  apply Compression.returns_compress (m := 1) Room rfl hblk hchunk
  · exact fun d => ⟨(), .reset, rfl, show 0 + line.length * 1 ≤ size by omega⟩
  · exact Room.step rfl
  · intro compData d _
    simp only [Zero.compressor, returns_bind, returns_get]
    split <;> exact (returns_pure _ _ _).mpr trivial

variable (hchunk : base.chunkSizeBits = 8 * 4)
include hchunk

theorem CPack.returns_compress (hfits : line.length * 2 ≤ size) (d : Dictionary size 4) :
    Returns ((CPack.compressor size).compress base line) d fun _ _ => True := by
  apply Compression.returns_compress (m := 2) Room rfl hblk hchunk
  · exact fun d => ⟨(), .reset, rfl, show 0 + line.length * 2 ≤ size by omega⟩
  · exact Room.step rfl
  · exact fun _ => (returns_pure _ _ _).mpr trivial

theorem FPC.returns_compress {zeroRunSizeBits : Nat} (d : Dictionary size 4) :
    Returns ((FPC.compressor size zeroRunSizeBits).compress base line) d fun _ _ => True := by
  apply Compression.returns_compress (m := 2) (fun _ _ => True) rfl hblk hchunk
  · exact fun d => ⟨(), .reset, rfl, trivial⟩
  · intro n value d _
    refine returns_compressValue fun p _ => ?_
    rw [allocate]
    split <;> exact (returns_pure _ _ _).mpr trivial
  · exact fun _ => (returns_pure _ _ _).mpr trivial

/-- The dictionary of FPCD has room for what it inserts. -/
theorem FPCD.returns_compress (hfits : 2 ≤ size) (d : Dictionary size 4) :
    Returns ((FPCD.compressor size).compress base line) d fun _ _ => True := by
  apply Compression.returns_compress (m := 2) (fun _ d => d.numEntries ≤ 2) rfl hblk hchunk
  · exact fun d => ⟨(), .reset, rfl, Nat.zero_le 2⟩
  · intro n value d hready
    refine returns_compressValue fun p _ => ?_
    rw [allocate]
    split
    · -- the queue takes an entry, and it has two at most
      by_cases htwo : d.numEntries = 2
      · exact ⟨(), _, dif_pos htwo, hready⟩
      · have hroom : d.numEntries < size := by omega
        exact ⟨(), d.push _ hroom, (dif_neg htwo).trans (dif_pos hroom),
          show d.numEntries + 1 ≤ 2 by omega⟩
    · exact (returns_pure _ _ _).mpr hready
  · exact fun _ => (returns_pure _ _ _).mpr trivial

end

theorem BaseDelta.returns_afterCompress {deltaSizeBits : Nat}
    (compData : CompData BaseDelta.PatternNumber k) (d : Dictionary size k) :
    Returns ((BaseDelta.compressor size k deltaSizeBits).afterCompress base compData) d
      fun _ _ => True := by
  simp only [BaseDelta.compressor, returns_bind, returns_get]
  split
  · exact (returns_pure _ _ _).mpr trivial
  · split <;> exact (returns_pure _ _ _).mpr trivial

theorem BaseDelta.returns_compress {k m deltaSizeBits : Nat} (hkm : 8 * k * m = 64)
    (hblk : base.blkSize = 8 * line.length) (hchunk : base.chunkSizeBits = 8 * k)
    (hfits : line.length * m < size) (d : Dictionary size k) :
    Returns ((BaseDelta.compressor size k deltaSizeBits).compress base line) d
      fun _ _ => True := by
  apply Compression.returns_compress Room hkm hblk hchunk
  · intro d
    have hroom : (Dictionary.reset : Dictionary size k).numEntries < size := show 0 < size by omega
    exact ⟨(), Dictionary.push .reset (toDictionaryEntry 0) hroom, dif_pos hroom,
      show 0 + 1 + line.length * m ≤ size by omega⟩
  · exact Room.step rfl
  · exact fun _ => BaseDelta.returns_afterCompress _ _

/-- Each chunk takes a dictionary entry at most. -/
theorem RepeatedQwords.returns_compress (hblk : base.blkSize = 8 * line.length)
    (hchunk : base.chunkSizeBits = 8 * 8) (hline : line ≠ []) (hfits : line.length * 1 ≤ size)
    (d : Dictionary size 8) :
    Returns ((compressor size).compress base line) d fun _ _ => True := by
  have hpos : 0 < line.length := length_pos_iff.mpr hline
  -- after the first value there is an entry
  apply Compression.returns_compress (m := 1)
    (fun n d => Room n d ∧ (n < line.length → 0 < d.numEntries)) rfl hblk hchunk
  · exact fun d => ⟨(), .reset, rfl, show 0 + line.length * 1 ≤ size by omega, by omega⟩
  · rintro n value d ⟨hroom, hentry⟩
    unfold Room at hroom
    refine returns_compressValue fun p hp => ?_
    refine (returns_allocate rfl (by omega)).mono fun _ d' hnum => ?_
    constructor
    · show d'.numEntries + n ≤ size
      rw [hnum]
      split <;> omega
    · intro hn
      rw [hnum]
      by_cases hzero : d.numEntries = 0
      · -- without a valid entry one is allocated
        have hrange : finRange d.numEntries = [] :=
          eq_nil_of_length_eq_zero (by rw [length_finRange, hzero])
        rw [hp, choosePattern, hrange]
        exact Nat.succ_pos _
      · split <;> omega
  · rintro compData d ⟨_, hentry⟩
    have hnot : ¬ d.numEntries < 1 := by have := hentry hpos; omega
    simp only [compressor, returns_bind, returns_get]
    rw [if_neg hnot]
    split <;> exact (returns_pure _ _ _).mpr trivial

end

theorem Scheme.returns_compress (s : Scheme) {base : Base} {line : List (BitVec 64)}
    (hblk : base.blkSize = 8 * line.length) (hchunk : base.chunkSizeBits = 8 * s.entrySize)
    (hline : line ≠ []) (hfits : s.Fits base.dictionarySize (line.length * (8 / s.entrySize)))
    (d : Dictionary base.dictionarySize s.entrySize) :
    Returns ((s.compressor base.dictionarySize).compress base line) d fun _ _ => True := by
  cases s with
  | zero => exact Zero.returns_compress hblk hchunk hfits d
  | repeatedQwords => exact RepeatedQwords.returns_compress hblk hchunk hline hfits d
  | cPack => exact CPack.returns_compress hblk hchunk hfits d
  | fpc => exact FPC.returns_compress hblk hchunk d
  | fpcd => exact FPCD.returns_compress hblk hchunk hfits d
  | base64Delta8 | base64Delta16 | base64Delta32 | base32Delta8 | base32Delta16 | base16Delta8 =>
    exact BaseDelta.returns_compress rfl hblk hchunk hfits d

end Gem5.Mem.Compression
