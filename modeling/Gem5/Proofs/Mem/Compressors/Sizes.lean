import Gem5.Proofs.Mem.Compressors.Schemes

/-!
# `Gem5.Proofs.Mem.Compressors.Sizes`: the sizes of compressed lines

`BaseDelta` keeps a line in one base and a delta for each value, if every value is close to zero
or to the first value that is not (`size_compress_baseDelta`).

`FPC` gives a line the size of its specification, if no word has a negative halfword that only the
pattern of two halfwords fits (`size_compress_fpc`): this pattern compares with an unsigned value.
-/

namespace Gem5.Mem.Compression

open List CompData

open Gem5.Base (mask toNat_mask)
open Gem5.Lib

/-! ### `BaseDelta` -/

namespace BaseDelta

variable {size k D : Nat}

/-- The difference, read as a signed value, is at most `2 ^ (D - 1) - 1` in size. -/
def close (D : Nat) (value base : Value k) : Bool :=
  decide (-((2 ^ (D - 1) - 1 : Nat) : Int) ≤ (value - base).toInt) &&
    decide ((value - base).toInt ≤ (2 ^ (D - 1) - 1 : Nat))

/-- Every value is close to zero or to the first value that is not close to zero. -/
def covered (D : Nat) (values : List (Value k)) : Bool :=
  match values.find? fun v => !close D v 0 with
  | none => true
  | some base => values.all fun v => close D v 0 || close D v base

/-- The bases after one more value. -/
def addBase (D : Nat) (bases : List (Value k)) (value : Value k) : List (Value k) :=
  if bases.any (close D value) then bases else bases ++ [value]

variable (values : List (Value k))

theorem length_le_foldl_addBase : ∀ bases : List (Value k),
    bases.length ≤ (values.foldl (addBase D) bases).length := by
  induction values with
  | nil => simp
  | cons v values ih =>
    intro bases
    grind [addBase]

/-- No base is added if and only if each value has one that is close. -/
theorem foldl_addBase_le_iff (bases : List (Value k)) :
    (values.foldl (addBase D) bases).length ≤ bases.length ↔
      values.all fun v => bases.any (close D v) := by
  induction values with
  | nil => simp
  | cons v values ih =>
    have hmore := length_le_foldl_addBase (D := D) values (bases ++ [v])
    by_cases hclose : bases.any (close D v) = true
    · simp [addBase, hclose, ih]
    · simp only [length_append, length_singleton] at hmore
      simp [addBase, hclose]
      omega

/-- Two bases are enough for the lines that are covered. -/
theorem foldl_addBase_le_two_iff :
    (values.foldl (addBase D) [0]).length ≤ 2 ↔ covered D values = true := by
  induction values with
  | nil => simp [covered]
  | cons v values =>
    cases hzero : close D v 0 with
    | true => grind [covered, addBase]
    | false =>
      -- the value is the base that the other values need
      have hself : close D v v = true := by
        rw [close, BitVec.sub_self, BitVec.toInt_zero, Bool.and_eq_true]
        exact ⟨decide_eq_true (by omega), decide_eq_true (by omega)⟩
      have hiff := foldl_addBase_le_iff (D := D) values [0, v]
      grind [covered, addBase]

variable (d : Dictionary size k)

/-- The values of the valid entries. -/
def bases : List (Value k) :=
  List.ofFn fun i => fromDictionaryEntry (d.entry i)

variable (value : Value k)

theorem bases_push (h : d.numEntries < size) :
    bases (d.push (toDictionaryEntry value) h) = bases d ++ [value] := by
  have hold : ∀ i : Fin d.numEntries, (d.push (toDictionaryEntry value) h).entry i.castSucc
      = d.entry i := fun i => Vector.getElem_set_ne h _ (Nat.ne_of_gt i.isLt)
  have hnew : (d.push (toDictionaryEntry value) h).entry (Fin.last d.numEntries)
      = toDictionaryEntry value := Vector.getElem_set_self h
  refine ofFn_succ_last.trans ?_
  simp only [hold, hnew, fromDictionaryEntry_toDictionaryEntry]
  rfl

theorem ensures_append (d : Dictionary size k) :
    Ensures (appendToDictionary (toDictionaryEntry value)) d fun _ d' =>
      bases d' = bases d ++ [value] := by
  intro _ d' h
  unfold appendToDictionary at h
  split at h
  · cases h
    exact bases_push d value _
  · cases h

/-- The pattern of a delta or of a new base. A new base has a delta too. -/
def HasSize (D : Nat) (isNew : Bool) (p : Pattern PatternNumber k) : Prop :=
  p.allocate = isNew ∧ p.getSizeBits = (if isNew then 8 * k else 0) + (1 + D)

/-- A hit stores the delta, a miss the whole value. -/
theorem getPattern_hasSize (hD : D ≤ 64) (value : Value k) (entry : DictionaryEntry k) (loc : Int) :
    HasSize D (!(decide (0 ≤ loc) && close D value (fromDictionaryEntry entry)))
      ((compressor size k D).getPattern (toDictionaryEntry value) entry loc) := by
  have hlimit : (if D = 0 then 0 else ((mask (D - 1)).toNat : Int)) = (2 ^ (D - 1) - 1 : Nat) := by
    by_cases hzero : D = 0
    · simp [hzero]
    · rw [if_neg hzero, toNat_mask (by omega)]
  have htest : isValidDelta D (toDictionaryEntry value) entry
      = close D value (fromDictionaryEntry entry) := by
    simp only [isValidDelta, close, hlimit, fromDictionaryEntry_toDictionaryEntry]
  show HasSize D _ (if (decide (0 ≤ loc) && isValidDelta D (toDictionaryEntry value) entry) = true
    then (patternM k D).new _ loc else (patternX k D).new _ loc)
  rw [htest]
  have hone : Nat.clog 2 defaultMaxNumBases = 1 := by decide
  cases decide (0 ≤ loc) && close D value (fromDictionaryEntry entry) with
  | true => exact ⟨rfl, show D + Nat.clog 2 defaultMaxNumBases = 0 + (1 + D) by omega⟩
  | false => exact ⟨rfl, show 8 * k + (Nat.clog 2 defaultMaxNumBases + D) = _ by rw [hone]; rfl⟩

/-- A value takes a delta if one of the bases is close, and is a new base otherwise. -/
theorem choosePattern_hasSize (hk : 0 < k) (hD : D ≤ 64) (value : Value k) (d : Dictionary size k) :
    HasSize D (!(bases d).any (close D value))
      ((compressor size k D).choosePattern (toDictionaryEntry value) d) := by
  have hbases : (bases d).any (close D value) = (finRange d.numEntries).any fun i =>
      close D value (fromDictionaryEntry (d.entry i)) := by
    rw [bases, ofFn_eq_map, any_map]
    rfl
  rw [hbases, Compressor.choosePattern]
  induction finRange d.numEntries using reverseRecOn with
  | nil => exact getPattern_hasSize hD value (toDictionaryEntry 0) (-1)
  | append_singleton l i =>
    -- the new pattern is taken if it is the first delta
    have htemp : HasSize D _ ((compressor size k D).getPattern _ _ _) :=
      getPattern_hasSize hD value (d.entry i) i
    grind [HasSize]

/-- One value. -/
theorem ensures_compressValue (hk : 0 < k) (hD : D ≤ 64) (value : Value k) (d : Dictionary size k) :
    Ensures ((compressor size k D).compressValue value) d fun p d' =>
      bases d' = addBase D (bases d) value ∧
        p.getSizeBits + 8 * k * (bases d).length = 1 + D + 8 * k * (bases d').length := by
  intro p d' h
  obtain ⟨rfl, hallocate⟩ := compressValue_eq_ok h
  obtain ⟨hnew, hsize⟩ := choosePattern_hasSize hk hD value d
  rw [Compressor.allocate, hnew] at hallocate
  rw [hsize, addBase]
  cases hclose : (bases d).any (close D value) with
  | true =>
    rw [hclose] at hallocate
    cases hallocate
    simp
  | false =>
    rw [hclose] at hallocate
    have hbases := ensures_append value d _ d' hallocate
    simp [hbases, Nat.mul_add]
    omega

/-- A sequence of values. -/
theorem ensures_encodeAll (hk : 0 < k) (hD : D ≤ 64) (values : List (Value k)) :
    ∀ (compData : CompData PatternNumber k) (d : Dictionary size k),
      Ensures (encodeAll (compressor size k D).compressValue addEntry values compData) d
        fun compData' d' => bases d' = values.foldl (addBase D) (bases d) ∧
          compData'.sizeBits + 8 * k * (bases d).length
            = compData.sizeBits + values.length * (1 + D) + 8 * k * (bases d').length := by
  induction values with
  | nil => simp
  | cons v values ih =>
    intro compData d
    rw [encodeAll_cons, ensures_bind]
    refine (ensures_compressValue hk hD v d).mono fun p d₁ hfirst => ?_
    refine (ih (compData.addEntry p) d₁).mono fun compData' d' hrest => ?_
    grind [addEntry]

/-- What the correction for unused bases makes of a size. -/
theorem ensures_afterCompress (base : Base) (compData : CompData PatternNumber k)
    (d : Dictionary size k) (hone : 1 ≤ d.numEntries) :
    Ensures ((compressor size k D).afterCompress base compData) d fun compData' _ =>
      if d.numEntries ≤ 2 then
        compData'.sizeBits + 8 * k * d.numEntries = compData.sizeBits + 8 * k * 2
      else compData'.sizeBits = base.blkSize * 8 := by
  have hmax : (defaultMaxNumBases : Int) = 2 := rfl
  simp only [compressor, ensures_bind, ensures_get, hmax]
  by_cases hmore : 2 < d.numEntries
  · rw [if_pos (by omega), ensures_pure, if_neg (by omega)]
    rfl
  · obtain hnum | hnum : d.numEntries = 1 ∨ d.numEntries = 2 := by omega
    · simp [hnum, setSizeBits]
      omega
    · simp [hnum]

/-- The size that `BaseDelta::compress` sets, for every dictionary. It sets one if the dictionary
has room for the values and the base for immediate values. -/
theorem size_compress_baseDelta (hk : D < 8 * k) (hwidth : 8 * k ≤ 64) (base : Base)
    (chunks : List Chunk) (d : Dictionary size k) :
    (∀ compData d', compress size k D base chunks d = .ok (compData, d') → compData.sizeBits =
      if covered D (chunks.map fun chunk => chunk.setWidth (8 * k)) then
        8 * k + chunks.length * (1 + D)
      else base.blkSize * 8) ∧
    (chunks.length < size →
      ∃ compData d', compress size k D base chunks d = .ok (compData, d')) := by
  constructor
  · show Ensures (compress size k D base chunks) d _
    rw [compress, ensures_bind, compressChunks_eq, ensures_bind]
    intro _ d₁ hreset
    have hzero : bases d₁ = [0] := ensures_append 0 .reset _ d₁ hreset
    refine (ensures_encodeAll (by omega) (by omega) _ _ d₁).mono
      fun compData d₂ ⟨hbases, hsize⟩ => ?_
    have hlen : (bases d₂).length = d₂.numEntries := length_ofFn
    rw [hzero] at hbases hsize
    have hone := length_le_foldl_addBase (D := D) (chunks.map fun c => c.setWidth (8 * k)) [0]
    have htwo := foldl_addBase_le_two_iff (D := D) (chunks.map fun c => c.setWidth (8 * k))
    rw [← hbases, hlen] at hone htwo
    refine (ensures_afterCompress base compData d₂ hone).mono fun compData' _ hafter => ?_
    have hnew : (new : CompData PatternNumber k).sizeBits = 0 := rfl
    simp only [length_map, length_singleton, hlen] at hsize
    by_cases hcovered : covered D (chunks.map fun c => c.setWidth (8 * k)) = true
    · rw [if_pos (htwo.mpr hcovered)] at hafter
      rw [if_pos hcovered]
      omega
    · rw [if_neg (mt htwo.mp hcovered)] at hafter
      rw [if_neg hcovered, hafter]
  · intro hroom
    have hzero : (Dictionary.reset : Dictionary size k).numEntries < size := show 0 < size by omega
    have hreturns : Returns (compress size k D base chunks) d fun _ _ => True := by
      rw [compress, returns_bind, compressChunks_eq, returns_bind]
      refine ⟨(), .push .reset (toDictionaryEntry 0) hzero, dif_pos hzero, ?_⟩
      have hready : Room (chunks.map fun chunk => chunk.setWidth (8 * k)).length
          (Dictionary.push .reset (toDictionaryEntry 0) hzero : Dictionary size k) := by
        show 0 + 1 + (chunks.map _).length ≤ size
        rw [length_map]
        omega
      exact (returns_encodeAll (Room.step rfl) _ hready).mono fun compData d' _ =>
        returns_afterCompress compData d'
    obtain ⟨compData, d', hrun, _⟩ := hreturns
    exact ⟨compData, d', hrun⟩

/-- Two values around a base and a small one. -/
theorem size_compress_baseDelta_covered :
    ∃ compData d', compress 4 8 8 ⟨24, 64, 24, 4⟩ [0x1000, 3, 0x1005] (.reset : Dictionary 4 8)
      = .ok (compData, d') ∧ compData.sizeBits = 64 + 3 * 9 := by
  have h := size_compress_baseDelta (D := 8) (by decide) (by decide) ⟨24, 64, 24, 4⟩
    [0x1000, 3, 0x1005] (.reset : Dictionary 4 8)
  obtain ⟨compData, d', hrun⟩ := h.2 (by decide)
  exact ⟨compData, d', hrun, (h.1 compData d' hrun).trans (if_pos (by decide))⟩

end BaseDelta

/-! ### `FPC` -/

namespace FPC

open BitVec

/-- The value is the sign extension of its `n` lowest bits. -/
def fits (n : Nat) {w : Nat} (v : BitVec w) : Bool := v == (v.setWidth n).signExtend w

variable (word : Value 4)

/-- The lower halfword. -/
def low : BitVec 16 := word.setWidth 16

/-- The upper halfword. -/
def high : BitVec 16 := (word >>> 16).setWidth 16

/-- The four bytes are equal. -/
def sameBytes : Bool :=
  (range 4).all fun i => (word >>> (8 * i)).setWidth 8 == word.setWidth 8

/-- The least data size among the patterns that a word satisfies. -/
def dataBits : Nat :=
  [(fits 4 word, 4), (fits 8 word, 8), (fits 16 word, 16), (low word == 0#16, 16),
    (fits 8 (low word) && fits 8 (high word), 16), (sameBytes word, 8)].foldl
    (fun least p => if p.1 then min least p.2 else least) 32

/-- Both halfwords are sign-extended bytes, one of them is negative, and no other pattern of 16 bits
or less is satisfied. -/
def missed : Bool :=
  fits 8 (low word) && fits 8 (high word) && ((low word).msb || (high word).msb) &&
    !fits 16 word && !(low word == 0#16)

/-- The data size that the order of the patterns gives a word. -/
def codeBits : Nat :=
  if fits 4 word then 4 else if fits 8 word then 8 else if fits 16 word then 16
  else if low word == 0#16 then 16
  else if (fits 8 (low word) && !(low word).msb) && (fits 8 (high word) && !(high word).msb) then 16
  else if sameBytes word then 8 else 32

section
variable {word : Value 4}

theorem fits_iff {n w : Nat} (h : w = 32 ∧ (n = 4 ∨ n = 8 ∨ n = 16) ∨ w = 16 ∧ n = 8)
    (v : BitVec w) : fits n v = true ↔ v.toNat < 2 ^ (n - 1) ∨ 2 ^ w - 2 ^ (n - 1) ≤ v.toNat := by
  rw [fits, beq_iff_eq, ← toInt_inj, toInt_signExtend_of_le (by omega)]
  have hlt := v.isLt
  obtain ⟨rfl, rfl | rfl | rfl⟩ | ⟨rfl, rfl⟩ := h <;>
    simp <;> grind

theorem toNat_low : (low word).toNat = word.toNat % 65536 := by rfl

theorem toNat_high : (high word).toNat = word.toNat / 65536 := by
  simp [high, Nat.shiftRight_eq_div_pow]
  omega

/-- A word with equal bytes that satisfies a larger pattern is a sign-extended nibble. -/
theorem not_sameBytes (hfour : fits 4 word = false)
    (h : fits 16 word = true ∨ (low word == 0#16) = true ∨
      (fits 8 (low word) && fits 8 (high word)) = true) : sameBytes word = false := by
  by_contra hsame
  simp [sameBytes, range_succ, ← toNat_inj] at hsame
  have hhalves : word.toNat % 65536 = 257 * (word.toNat % 256) ∧
      word.toNat / 65536 = 257 * (word.toNat % 256) := by omega
  rw [fits_iff (by simp), Bool.and_eq_true, fits_iff (by simp), fits_iff (by simp), beq_iff_eq,
    ← toNat_inj, toNat_zero, toNat_low, toNat_high] at h
  rw [Bool.eq_false_iff, ne_eq, fits_iff (by simp)] at hfour
  omega

/-- A missed word takes 16 bits more than `dataBits`. -/
theorem codeBits_eq : codeBits word = dataBits word + if missed word then 16 else 0 := by
  have hbyte : fits 4 word = true → fits 8 word = true := by
    rw [fits_iff (by simp), fits_iff (by simp)]
    omega
  have hhalf : fits 8 word = true → fits 16 word = true := by
    rw [fits_iff (by simp), fits_iff (by simp)]
    omega
  have hsame := @not_sameBytes word
  unfold codeBits dataBits missed
  generalize fits 4 word = a, fits 8 word = b, fits 16 word = c, (low word == 0#16) = d,
    fits 8 (low word) = e, fits 8 (high word) = f, sameBytes word = g, (low word).msb = i,
    (high word).msb = j at *
  revert a b c d e f g i j
  decide

theorem isMaskedValue_zero {j : Nat} {mask : Value 4} (hmask : mask.toNat = 2 ^ j - 1) :
    isMaskedValue 0 mask (toDictionaryEntry word) = decide (word.toNat % 2 ^ j = 0) := by
  have hand : (0 : Value 4) &&& mask = 0#32 := BitVec.zero_and
  rw [Bool.eq_iff_iff, decide_eq_true_eq, isMaskedValue, beq_iff_eq, hand,
    fromDictionaryEntry_toDictionaryEntry, ← toNat_inj, toNat_and, hmask,
    Nat.and_two_pow_sub_one_eq_mod, eq_comm]
  rfl

variable {size b : Nat} {dict : DictionaryEntry 4} {loc : Int}

/-- The first pattern that matches gives the size. -/
theorem getPattern_size (hne : word ≠ 0) :
    let p := (compressor size b).getPattern (toDictionaryEntry word) dict loc
    p.patternNumber ≠ .zeroRun ∧ p.getSizeBits = 3 + codeBits word := by
  have hzero : zeroRun.isPattern (toDictionaryEntry word) dict loc = false := by
    refine (isMaskedValue_zero (j := 32) rfl).trans (decide_eq_false fun hmod => hne ?_)
    exact eq_of_toNat_eq ((Nat.mod_eq_of_lt word.isLt).symm.trans hmod)
  have hfits : ∀ {n : Nat} {number : PatternNumber}, 0 < n → n ≤ 32 →
      (signExtendedPattern n number 3 false).isPattern (toDictionaryEntry word) dict loc
        = fits n word := by
    intro n number hn hle
    simp only [signExtendedPattern, fromDictionaryEntry_toDictionaryEntry]
    rw [setWidth_szext hn (by decide), setWidth_setWidth_of_le _ (by omega)]
    rfl
  have hpad : zeroPaddedHalfword.isPattern (toDictionaryEntry word) dict loc
      = (low word == 0#16) := by
    refine (isMaskedValue_zero (j := 16) rfl).trans ?_
    rw [Bool.eq_iff_iff, decide_eq_true_eq, beq_iff_eq, ← toNat_inj]
    rfl
  have htwo : signExtendedTwoHalfwords.isPattern (toDictionaryEntry word) dict loc
      = ((fits 8 (low word) && !(low word).msb) && (fits 8 (high word) && !(high word).msb)) := by
    have hhalf : ∀ v : Value 4, (v.setWidth 64).setWidth 16 = v.setWidth 16 := fun v =>
      setWidth_setWidth_of_le v (by decide)
    simp only [signExtendedTwoHalfwords, fromDictionaryEntry_toDictionaryEntry,
      setWidth_and_mask, isExtendedByte_eq]
    rfl
  have hrep : repBytes.isPattern (toDictionaryEntry word) dict loc = sameBytes word := by
    simp [repBytes, PatternClass.unlocated, repeatedValuePattern, isRepeated, sameBytes, range_succ]
  simp only [compressor, Factory.getPattern, hzero, signExtended4Bits, signExtended1Byte,
    signExtendedHalfword, hfits, hpad, htwo, hrep, codeBits, Nat.reduceLT, Nat.reduceLeDiff]
  cases fits 4 word <;> cases fits 8 word <;> cases fits 16 word <;> cases low word == 0#16 <;>
    cases (fits 8 (low word) && !(low word).msb) && (fits 8 (high word) && !(high word).msb) <;>
    cases sameBytes word <;> exact ⟨fun h => (by cases h), rfl⟩

end

/-- The size of a run of `n` zeros. -/
def runBits (b n : Nat) : Nat := (n + (2 ^ b - 1)) / 2 ^ b * (3 + b)

/-- The size that a line is to have after `n` zeros. A run is charged as it ends. -/
def lineBits (b : Nat) : Nat → List (Value 4) → Nat
  | n, [] => runBits b n
  | n, word :: words =>
    if word = 0 then lineBits b (n + 1) words
    else runBits b n + (3 + dataBits word) + lineBits b 0 words

/-- The last entries are a run of `n` zeros, and the last of them counts its place in its chain. -/
def InRun (b n : Nat) (compData : CompData PatternNumber 4) : Prop :=
  if n = 0 then ∀ back ∈ compData.entries.getLast?, back.patternNumber ≠ .zeroRun
  else ∃ back ∈ compData.entries.getLast?, back.patternNumber = .zeroRun ∧
    getRunLength back = (n - 1) % 2 ^ b

variable {size b n : Nat} {compData : CompData PatternNumber 4}

theorem runBits_zero : runBits b 0 = 0 := by
  have hpos := Nat.two_pow_pos b
  rw [runBits, Nat.div_eq_of_lt (by omega), Nat.zero_mul]

theorem runBits_succ : runBits b (n + 1) = runBits b n + if 2 ^ b ∣ n then 3 + b else 0 := by
  have hdvd : 2 ^ b ∣ n + (2 ^ b - 1) + 1 ↔ 2 ^ b ∣ n := by
    rw [Nat.add_assoc, Nat.sub_add_cancel (Nat.two_pow_pos b), Nat.dvd_add_self_right]
  rw [runBits, Nat.add_right_comm, Nat.succ_div, runBits]
  grind

/-- A chain is full at each multiple of its size. -/
theorem pred_mod {N : Nat} (hN : 0 < N) (hn : 0 < n) :
    (n - 1) % N + 1 = if N ∣ n then N else n % N := by
  have hlt := Nat.mod_lt (n - 1) hN
  have hsucc : n % N = ((n - 1) % N + 1) % N := by rw [Nat.mod_add_mod, Nat.sub_add_cancel hn]
  have hdvd := Nat.dvd_iff_mod_eq_zero (m := N) (n := n)
  by_cases hfull : (n - 1) % N + 1 = N
  · rw [hfull, Nat.mod_self] at hsucc
    rw [if_pos (hdvd.mpr hsucc), hfull]
  · rw [Nat.mod_eq_of_lt (show (n - 1) % N + 1 < N by omega)] at hsucc
    rw [if_neg (mt hdvd.mp (by omega)), hsucc]

/-- A zero starts a chain or continues one. The runs are too short for the mask of 64 bits. -/
theorem addZero_eq (hn : n < 2 ^ 30) (h : InRun b n compData) (p : Pattern PatternNumber 4) :
    addZero b compData p = if 2 ^ b ∣ n then setRealSize p b else setRunLength p (n % 2 ^ b) := by
  unfold InRun at h
  unfold addZero
  by_cases hzero : n = 0
  · rw [if_pos (hzero ▸ Nat.dvd_zero _)]
    grind
  · rw [if_neg hzero] at h
    obtain ⟨back, hlast, hrun, hlen⟩ := h
    have hpred := pred_mod (Nat.two_pow_pos b) (Nat.pos_of_ne_zero hzero)
    have hlt := Nat.mod_lt n (Nat.two_pow_pos b)
    have hfull : (n - 1) % 2 ^ b = (mask b).toNat ↔ 2 ^ b ∣ n := by
      by_cases hb : b < 64
      · rw [toNat_mask hb]
        split at hpred <;> omega
      · have hlong : 2 ^ 30 ≤ 2 ^ b := Nat.pow_le_pow_right (by decide) (by omega)
        have hmask : mask b = allOnes 64 := if_pos (by omega)
        have hdvd : ¬2 ^ b ∣ n := Nat.not_dvd_of_pos_of_lt (by omega) (by omega)
        rw [Nat.mod_eq_of_lt (by omega), hmask, toNat_allOnes]
        omega
    rw [hlast]
    grind

/-- One word. -/
theorem returns_word (hn : n < 2 ^ 30) (h : InRun b n compData) :
    Returns ((compressor size b).compressValue word) .reset fun p d =>
      d = .reset ∧ let compData' := (compressor size b).addEntry compData p
      if word = 0 then InRun b (n + 1) compData' ∧
        compData'.sizeBits = compData.sizeBits + if 2 ^ b ∣ n then 3 + b else 0
      else InRun b 0 compData' ∧ compData'.sizeBits = compData.sizeBits + (3 + codeBits word) := by
  refine returns_compressValue fun p hp => ?_
  have hallocate : (compressor size b).allocate p (toDictionaryEntry word) = pure () := by
    rw [Compressor.allocate]
    split <;> rfl
  rw [hallocate, returns_pure]
  refine ⟨rfl, ?_⟩
  by_cases hzero : word = 0
  · subst hzero
    obtain rfl : p = zeroRun.new (toDictionaryEntry 0) (-1) := hp
    have hadd : (compressor size b).addEntry compData (zeroRun.new (toDictionaryEntry 0) (-1))
      = compData.addEntry _ := congrArg compData.addEntry (addZero_eq hn h _)
    rw [hadd]
    simp [InRun, addEntry]
    split <;> simp [*, setRealSize, setRunLength, zeroRun, getRunLength, Pattern.getSizeBits,
      Nat.mod_eq_zero_of_dvd]
  · obtain ⟨hnumber, hsize⟩ : p.patternNumber ≠ .zeroRun ∧ p.getSizeBits = 3 + codeBits word :=
      hp ▸ getPattern_size hzero
    have hadd : (compressor size b).addEntry compData p = compData.addEntry p :=
      congrArg compData.addEntry (if_neg hnumber)
    rw [if_neg hzero, hadd]
    simp [InRun, addEntry, hnumber, hsize]

/-- A sequence of words. -/
theorem returns_words (words : List (Value 4)) : ∀ {n : Nat} {compData : CompData PatternNumber 4},
    n + words.length ≤ 2 ^ 30 → InRun b n compData → Returns
        (encodeAll (compressor size b).compressValue (compressor size b).addEntry words compData)
        .reset fun compData' _ => compData'.sizeBits + runBits b n
          = compData.sizeBits + lineBits b n words + 16 * words.countP missed := by
  induction words with
  | nil =>
    intro n compData _ _
    rw [encodeAll_nil, returns_pure]
    rfl
  | cons word words ih =>
    intro n compData hlen hrun
    rw [length_cons] at hlen
    rw [encodeAll_cons, returns_bind]
    refine (returns_word word (by omega) hrun).mono fun p d ⟨hd, hword⟩ => ?_
    subst hd
    rw [lineBits, countP_cons]
    by_cases hzero : word = 0
    · rw [if_pos hzero] at hword ⊢
      refine (ih (by omega) hword.1).mono fun compData' _ hrest => ?_
      have hmissed : missed word = false := hzero ▸ (by decide)
      rw [runBits_succ] at hrest
      rw [if_neg (by simp [hmissed])]
      omega
    · rw [if_neg hzero] at hword ⊢
      refine (ih (by omega) hword.1).mono fun compData' _ hrest => ?_
      rw [hword.2, codeBits_eq, runBits_zero] at hrest
      grind

/-- A line has the size of the specification if and only if none of its words is missed. The
number of bytes of a line is an `unsigned`. -/
theorem size_compress_fpc (chunks : List Chunk) (hlen : 4 * chunks.length < 2 ^ 32)
    (d : Dictionary size 4) :
    let words := chunks.map fun chunk => chunk.setWidth (8 * 4)
    ∃ compData d', (compressor size b).compressChunks chunks d = .ok (compData, d') ∧
      (compData.sizeBits = lineBits b 0 words ↔ ∀ word ∈ words, missed word = false) := by
  intro words
  have hreturns : Returns ((compressor size b).compressChunks chunks) d fun compData _ =>
      compData.sizeBits + runBits b 0 = 0 + lineBits b 0 words + 16 * words.countP missed := by
    rw [compressChunks_eq, returns_bind]
    have hnew : InRun b 0 new := nofun
    refine ⟨(), .reset, rfl, returns_words words ?_ hnew⟩
    rw [length_map]
    omega
  obtain ⟨compData, d', hrun, hsize⟩ := hreturns
  refine ⟨compData, d', hrun, ?_⟩
  have hnone := countP_eq_zero (p := missed) (l := words)
  simp only [Bool.not_eq_true] at hnone
  rw [runBits_zero] at hsize
  rw [← hnone]
  omega

/-- Three zeros in chains of two, and a nibble. -/
theorem size_compress_fpc_runs :
    ∃ compData d', (compressor 4 1).compressChunks [0, 0, 0, 7] (.reset : Dictionary 4 4)
      = .ok (compData, d') ∧ compData.sizeBits = 2 * (3 + 1) + (3 + 4) := by
  obtain ⟨compData, d', hrun, hsize⟩ := size_compress_fpc (b := 1) [0, 0, 0, 7] (by decide)
    (.reset : Dictionary 4 4)
  exact ⟨compData, d', hrun, (hsize.mpr (by simp; decide)).trans (by decide)⟩

/-- `0x0001FF80` has a negative halfword, so it takes 32 bits and not 16. -/
theorem size_compress_fpc_negative :
    ∃ compData d', (compressor 4 1).compressChunks [0x0001FF80] (.reset : Dictionary 4 4)
      = .ok (compData, d') ∧ compData.sizeBits = 35 ∧ lineBits 1 0 [0x0001FF80] = 19 :=
  ⟨_, _, rfl, by decide, by decide⟩

end FPC

end Gem5.Mem.Compression
