import Gem5.Lib.Slices
import Gem5.Mem.Compressors.Schemes
import Mathlib.Data.List.GetD

/-!
# `Gem5.Proofs.Mem.Compressors.Patterns`: the patterns keep the value

A pattern that matches a value gives the value back. It does so from any dictionary entry, or it
has the match location and gives the value back from the entry there (`Recovers`). `Sound` says
this of a class of patterns, with one lemma for each class, and `Factory.getPattern_recovers` of a
factory.
-/

namespace Gem5.Mem.Compression

open BitVec

open Gem5.Base (mask sext szext getLsbD_mask getLsbD_szext sext_and_mask)
open Gem5.Lib

variable {ν : Type} {k : Nat}

/-! ### Dictionary entries -/

variable (entry : DictionaryEntry k)

theorem fromDictionaryEntry_eq_shiftJoin :
    fromDictionaryEntry entry = shiftJoin (8 * k) entry.toList := rfl

/-- The bytes of an entry are the bytes of the value. -/
theorem toDictionaryEntry_getD (value : Value k) {i : Nat} (hi : i < k) :
    (toDictionaryEntry value).toList.getD i 0 = slice 8 value i := by
  have hbyte : (toDictionaryEntry value).toList.getD i 0
      = ((value >>> (8 * i)) &&& 0xFF).setWidth 8 := by
    simp [toDictionaryEntry, hi]
  rw [hbyte]
  apply BitVec.eq_of_getLsbD_eq
  intro j hj
  have hones : (0xFF : Value k).getLsbD j = true := by
    show (BitVec.ofNat (8 * k) (2 ^ 8 - 1)).getLsbD j = true
    rw [BitVec.getLsbD_ofNat, Nat.testBit_two_pow_sub_one, decide_eq_true hj,
      decide_eq_true (show j < 8 * k by omega), Bool.true_and]
  rw [BitVec.getLsbD_setWidth, BitVec.getLsbD_and, BitVec.getLsbD_ushiftRight, hones,
    getLsbD_slice, Bool.and_true]

/-- A value is the same after it was an entry. -/
@[simp] theorem fromDictionaryEntry_toDictionaryEntry (value : Value k) :
    fromDictionaryEntry (toDictionaryEntry value) = value := by
  apply shiftJoin_eq (by decide)
  intro i hi
  exact toDictionaryEntry_getD value (by omega)

/-- An entry is the same after it was a value. -/
@[simp] theorem toDictionaryEntry_fromDictionaryEntry :
    toDictionaryEntry (fromDictionaryEntry entry) = entry := by
  apply Vector.toList_inj.mp
  apply List.ext_getElem
  · simp
  · intro i hi hi'
    have hk : i < k := by simpa using hi'
    rw [← List.getD_eq_getElem _ 0 hi, ← List.getD_eq_getElem _ 0 hi',
      toDictionaryEntry_getD _ hk, fromDictionaryEntry_eq_shiftJoin, slice_shiftJoin (by omega)]

/-! ### Classes of patterns -/

/-- The pattern gives the bytes back, from every entry or from the entry at its match location. -/
def Recovers (p : Pattern ν k) (bytes dictBytes : DictionaryEntry k) (matchLocation : Int) : Prop :=
  (∀ entry, p.decompress entry = bytes) ∨
    (0 ≤ matchLocation ∧ p.matchLocation = matchLocation ∧ p.decompress dictBytes = bytes)

/-- A pattern of the class gives the bytes back that it matches. -/
def PatternClass.Sound (c : PatternClass ν k) : Prop :=
  ∀ bytes dictBytes matchLocation, c.isPattern bytes dictBytes matchLocation = true →
    Recovers (c.new bytes matchLocation) bytes dictBytes matchLocation

theorem uncompressedPattern_sound (number : ν) (length : Nat) :
    (uncompressedPattern number length : PatternClass ν k).Sound :=
  fun _ _ _ _ => .inl fun _ => rfl

/-- A masked part and the rest make the value. -/
theorem decompressMasked_eq {mask : Value k} {bytes dictBytes : DictionaryEntry k}
    (h : fromDictionaryEntry bytes &&& mask = fromDictionaryEntry dictBytes &&& mask) :
    decompressMasked mask (fromDictionaryEntry bytes &&& ~~~ mask) dictBytes = bytes := by
  have hjoin : (fromDictionaryEntry bytes &&& ~~~ mask) ||| (fromDictionaryEntry bytes &&& mask)
      = fromDictionaryEntry bytes := by
    apply eq_of_getLsbD_eq
    intro i hi
    rw [getLsbD_or, getLsbD_and, getLsbD_and, getLsbD_not, decide_eq_true hi]
    cases mask.getLsbD i <;> simp
  rw [decompressMasked, ← h, hjoin, toDictionaryEntry_fromDictionaryEntry]

theorem maskedPattern_sound (mask : Value k) (number : ν) (length : Nat) (allocate : Bool) :
    (maskedPattern mask number length allocate).Sound := by
  intro bytes dictBytes matchLocation h
  obtain ⟨hloc, hmask⟩ := Bool.and_eq_true_iff.mp h
  exact .inr ⟨of_decide_eq_true hloc, rfl, decompressMasked_eq (eq_of_beq hmask)⟩

theorem locatedMaskedPattern_sound (mask : Value k) (location : Int) (number : ν) (length : Nat)
    (allocate : Bool) : (locatedMaskedPattern mask location number length allocate).Sound :=
  fun _ _ _ h => maskedPattern_sound mask number length allocate _ _ _ (Bool.and_eq_true_iff.mp h).2

/-- A masked part of a fixed value and the rest make the value. -/
theorem decompressMasked_value {value mask : Value k} {bytes : DictionaryEntry k}
    (h : isMaskedValue value mask bytes = true) :
    decompressMasked mask (fromDictionaryEntry bytes &&& ~~~ mask) (toDictionaryEntry value)
      = bytes := by
  apply decompressMasked_eq
  rw [fromDictionaryEntry_toDictionaryEntry]
  exact (eq_of_beq h).symm

theorem maskedValuePattern_sound (value mask : Value k) (number : ν) (length : Nat)
    (allocate : Bool) : (maskedValuePattern value mask number length allocate).Sound :=
  fun _ _ _ h => .inl fun _ => decompressMasked_value h

variable {r : Nat}

/-- The test for a repeated value looks at all slices. -/
theorem isRepeated_iff {repValue : Value r} (n : Nat) : ∀ {bytesValue : Value k},
    isRepeated repValue n bytesValue = true ↔ ∀ i < n, slice (8 * r) bytesValue i = repValue := by
  induction n with
  | zero => simp [isRepeated]
  | succ n ih =>
    intro bytesValue
    have hfirst : slice (8 * r) bytesValue 0 = bytesValue.setWidth (8 * r) := by
      rfl
    have hnext : ∀ i, slice (8 * r) (bytesValue >>> (8 * r)) i
        = slice (8 * r) bytesValue (i + 1) := by
      intro i
      rw [slice, slice, ← shiftRight_add, Nat.mul_succ, Nat.add_comm]
    rw [isRepeated, Bool.and_eq_true_iff, beq_iff_eq, ih]
    simp only [hnext]
    constructor
    · rintro ⟨hzero, hrest⟩ i hi
      cases i with
      | zero => exact hzero
      | succ i => exact hrest i (by omega)
    · intro hall
      exact ⟨hall 0 (by omega), fun i hi => hall (i + 1) (by omega)⟩

/-- The loop puts copies of the value below what there is. -/
theorem repeatValue_shiftJoin (value : Value r) (n : Nat) :
    ∀ slices, repeatValue value n (shiftJoin (8 * k) slices)
      = shiftJoin (8 * k) (List.replicate n value ++ slices) := by
  induction n with
  | zero => exact fun _ => rfl
  | succ n ih =>
    intro slices
    show repeatValue value n (shiftJoin (8 * k) (value :: slices)) = _
    rw [ih, List.replicate_succ', List.append_assoc, List.singleton_append]

/-- A repeated part is stored once, and decompression repeats it. -/
theorem repeatedValuePattern_sound (hr : 0 < r) (hdvd : r ∣ k) (number : ν) (length : Nat)
    (allocate : Bool) :
    (repeatedValuePattern r number length allocate : PatternClass ν k).Sound := by
  intro bytes dictBytes matchLocation h
  have hslices := (isRepeated_iff (k / r)).mp h
  refine .inl fun _ => ?_
  show toDictionaryEntry (repeatValue ((fromDictionaryEntry bytes).setWidth (8 * r)) (k / r)
    (shiftJoin (w := 8 * r) (8 * k) [])) = bytes
  rw [repeatValue_shiftJoin, List.append_nil, shiftJoin_eq (Nat.mul_pos (by decide) hr),
    toDictionaryEntry_fromDictionaryEntry]
  intro i hi
  have hlt : i < k / r := by
    rw [Nat.lt_div_iff_mul_lt' hdvd]
    rw [Nat.mul_assoc] at hi
    exact Nat.lt_of_mul_lt_mul_left hi
  rw [hslices i hlt, List.getD_eq_getElem _ _ (by simpa using hlt), List.getElem_replicate]

/-- A field of `n` bits is the word without the other bits. -/
theorem setWidth_setWidth_mask (n : Nat) (v : BitVec 64) :
    ((v &&& mask n).setWidth n).setWidth 64 = v &&& mask n := by
  apply eq_of_getLsbD_eq
  intro i hi
  rw [getLsbD_setWidth, getLsbD_setWidth, getLsbD_and, getLsbD_mask]
  by_cases hin : i < n <;> simp [hi]

theorem signExtendedPattern_sound {n : Nat} (hpos : 0 < n) (number : ν) (length : Nat)
    (allocate : Bool) :
    (signExtendedPattern n number length allocate : PatternClass ν k).Sound := by
  intro bytes dictBytes matchLocation h
  refine .inl fun _ => ?_
  show toDictionaryEntry ((sext n (((_ &&& mask n).setWidth n).setWidth 64)).setWidth (8 * k)) = bytes
  rw [setWidth_setWidth_mask, sext_and_mask hpos, ← eq_of_beq h,
    toDictionaryEntry_fromDictionaryEntry]

/-! ### Classes of `FPC` -/

/-- Without a match location, the pattern does not use the dictionary. -/
theorem PatternClass.Sound.unlocated {c : PatternClass ν k} (h : c.Sound)
    (hloc : ∀ {bytes dictBytes loc}, c.isPattern bytes dictBytes loc = true →
      c.isPattern bytes dictBytes (-1) = true) : c.unlocated.Sound := by
  intro bytes dictBytes matchLocation hmatch
  rcases h _ _ _ (hloc hmatch) with hall | ⟨hneg, _⟩
  · exact .inl hall
  · exact absurd hneg (by decide)

namespace FPC

theorem zeroRun_sound : zeroRun.Sound := fun _ _ _ h => .inl fun _ => decompressMasked_value h

theorem setWidth_and_mask (n : Nat) (v : BitVec 64) : (v &&& mask n).setWidth n = v.setWidth n := by
  apply eq_of_getLsbD_eq
  grind [getLsbD_setWidth, getLsbD_mask]

theorem setWidth_szext {n w : Nat} (hn : 0 < n) (hw : w ≤ 64) (v : BitVec 64) :
    (szext n v).setWidth w = (v.setWidth n).signExtend w := by
  apply eq_of_getLsbD_eq
  intro i hi
  rw [getLsbD_setWidth, getLsbD_szext, getLsbD_signExtend, msb_eq_getLsbD_last]
  grind

theorem setWidth_signExtend {n w : Nat} (hn : n ≤ w) (hw : n ≤ 64) (v : BitVec w) :
    (v.signExtend 64).setWidth n = v.setWidth n := by
  apply eq_of_getLsbD_eq
  grind [getLsbD_setWidth]

/-- The comparison of integers holds only if the halfwords are the same and not negative. -/
theorem isExtendedByte_eq (h : BitVec 16) :
    isExtendedByte h = (h == (h.setWidth 8).signExtend 16 && !h.msb) := by
  rw [isExtendedByte, setWidth_szext (by decide) (by decide),
    setWidth_signExtend (by decide) (by decide)]
  generalize (h.setWidth 8).signExtend 16 = extended
  have hlt := h.isLt
  rw [Bool.eq_iff_iff, Bool.and_eq_true, beq_iff_eq, beq_iff_eq, ← toNat_inj,
    toInt_eq_toNat_cond, Bool.not_eq_true', msb_eq_decide, decide_eq_false_iff_not]
  grind

/-- A matching halfword comes back from its lower byte. -/
theorem extendByte_eq {x : BitVec 64} (h : isExtendedByte ((x &&& mask 16).setWidth 16) = true) :
    extendByte ((x &&& mask 8).setWidth 8) = x.setWidth 16 := by
  rw [setWidth_and_mask, isExtendedByte_eq, Bool.and_eq_true, beq_iff_eq,
    setWidth_setWidth_of_le _ (by decide)] at h
  rw [setWidth_and_mask, extendByte, setWidth_szext (by decide) (by decide),
    setWidth_signExtend (by decide) (by decide), setWidth_eq, ← h.1]

/-- Both halves are sign extended from their low bytes. -/
theorem signExtendedTwoHalfwords_sound : signExtendedTwoHalfwords.Sound := by
  intro bytes dictBytes matchLocation h
  obtain ⟨hlow, hhigh⟩ := Bool.and_eq_true_iff.mp h
  refine .inl fun _ => ?_
  have hjoin : ∀ v : BitVec 32, ((((v >>> 16).setWidth 64).setWidth 16).setWidth 32 <<< 16
        ||| ((v.setWidth 64).setWidth 16).setWidth 32).setWidth (8 * 4) = v := by
    intro v
    apply eq_of_getLsbD_eq
    grind [getLsbD_setWidth]
  show toDictionaryEntry
    ((((extendByte _).setWidth 32 <<< 16) ||| (extendByte _).setWidth 32).setWidth (8 * 4)) = bytes
  rw [extendByte_eq hlow, extendByte_eq hhigh, hjoin, toDictionaryEntry_fromDictionaryEntry]

end FPC

/-! ### Factories -/

/-- A factory gives a pattern that recovers the bytes. -/
theorem Factory.getPattern_recovers {last : PatternClass ν k} {classes : List (PatternClass ν k)}
    (hlast : last.Sound) (hall : ∀ bytes dictBytes loc, last.isPattern bytes dictBytes loc = true)
    (hclasses : classes.Forall PatternClass.Sound) (bytes dictBytes : DictionaryEntry k)
    (matchLocation : Int) :
    Recovers (Factory.getPattern last classes bytes dictBytes matchLocation) bytes dictBytes
      matchLocation := by
  induction classes with
  | nil => exact hlast _ _ _ (hall bytes dictBytes matchLocation)
  | cons head tail ih =>
    obtain ⟨hhead, htail⟩ := (List.forall_cons _ _ _).mp hclasses
    rw [Factory.getPattern]
    split
    · rename_i hmatch
      exact hhead _ _ _ hmatch
    · exact ih htail

end Gem5.Mem.Compression
