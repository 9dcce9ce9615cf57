import Gem5.Lib.FeedbackShift
import Gem5.Mem.SkewedAssociative

/-!
# `Gem5.Proofs.Mem.SkewedAssociative`: skewed indexing can be undone

`hash` is one turn of a shift register with feedback over the set bits, and `dehash` is one
turn back. The skewing functions of the even ways add something that only depends on the tag.
Those of the odd ways also add the set bits themselves, so their inverse is the inverse of
"one turn plus the identity": `N - 1` turns, or `N` turns where the way uses `dehash`
(`Lib.feed_iterate_pred`).

`regenerateAddr_extractSet` is the result: the tag and the position of an entry give back the
address without its block offset, in every way. Hence two blocks with the same tag have different
sets in each way.
-/

namespace Gem5.Mem

open Function BitVec Gem5.Base
open Gem5.Lib (feed unfeed xorBits SameBits)

/-- Only the lowest `n` bits can be set. -/
def Narrow (n : Nat) (x : Addr) : Prop :=
  ∀ i, n ≤ i → x.getLsbD i = false

variable {x y : Addr} {n : Nat}

theorem Narrow.xor (hx : Narrow n x) (hy : Narrow n y) : Narrow n (x ^^^ y) := by
  intro i hi
  rw [getLsbD_xor, hx i hi, hy i hi]
  rfl

theorem narrow_bits (x : Addr) (first last : Nat) :
    Narrow (first - last + 1) (bits x first last) := by
  intro i hi
  rw [getLsbD_bits, decide_eq_false (show ¬ i < first - last + 1 by omega), Bool.and_false,
    Bool.false_and]

/-- Narrow addresses are equal when their low bits are. -/
theorem Narrow.eq (hx : Narrow n x) (hy : Narrow n y) (h : SameBits n x.getLsbD y.getLsbD) :
    x = y := by
  apply eq_of_getLsbD_eq
  intro i _
  by_cases hi : i < n
  · exact h i hi
  · rw [hx i (by omega), hy i (by omega)]

theorem xor_cancel (a b c : Addr) : (a ^^^ b ^^^ c) ^^^ b ^^^ c = a := by
  rw [BitVec.xor_assoc a b c, BitVec.xor_assoc, BitVec.xor_assoc, BitVec.xor_self, BitVec.xor_zero]

theorem xor_cancel_middle (a b c : Addr) : (a ^^^ b ^^^ c) ^^^ b = a ^^^ c := by
  rw [BitVec.xor_assoc a b c, BitVec.xor_comm b c, ← BitVec.xor_assoc, BitVec.xor_assoc,
    BitVec.xor_self, BitVec.xor_zero]

namespace SkewedAssociative

/-- The shape that the constructor gives: `N = msbShift + 1` set bits. -/
structure Shaped (s : SkewedAssociative) : Prop where
  msbShift : 1 ≤ s.msbShift
  setBits : s.msbShift + 1 < 32
  fits : s.setShift + 2 * (s.msbShift + 1) ≤ 64
  tagShift : s.tagShift = s.setShift + (s.msbShift + 1)
  setMask : s.setMask = BitVec.ofNat 32 (2 ^ (s.msbShift + 1) - 1)

/-- What `isPowerOf2` says about 32 bits. -/
theorem exists_of_isPowerOf2 {n : Nat} (hn : n < 2 ^ 32) (h0 : n ≠ 0)
    (h : isPowerOf2 (BitVec.ofNat 32 n) = true) : ∃ k, n = 2 ^ k := by
  have hval : (BitVec.ofNat 32 n).toNat = n := by
    rw [BitVec.toNat_ofNat, Nat.mod_eq_of_lt hn]
  unfold isPowerOf2 at h
  rw [Bool.and_eq_true, beq_iff_eq] at h
  have hand := congrArg BitVec.toNat h.2
  have hsub : (BitVec.ofNat 32 n - 1).toNat = n - 1 := by
    rw [BitVec.toNat_sub, hval]
    show (2 ^ 32 - 1 + n) % 2 ^ 32 = n - 1
    omega
  rw [BitVec.toNat_and, hsub, hval] at hand
  exact (Nat.and_sub_one_eq_zero_iff_isPowerOfTwo h0).mp hand

/-- What the constructor accepts has the shape. -/
theorem shaped_of_new {p : IndexingParams} {s : SkewedAssociative} (h : new p = .ok s) :
    s.Shaped := by
  unfold new BaseIndexingPolicy.new at h
  simp only [bind, Except.bind] at h
  split at h
  · cases h
  · rename_i base hbase
    split at hbase
    · cases hbase
    · rename_i hpos
      split at hbase
      · cases hbase
      · rename_i hpow
        split at hbase
        · cases hbase
        · cases hbase
          simp only [Bool.not_eq_true', Bool.not_eq_false] at hpow
          generalize hnum : p.size / (p.entrySize * p.assoc % 2 ^ 32) % 2 ^ 32 = numSets at *
          have hlt : numSets < 2 ^ 32 := by
            rw [← hnum]
            exact Nat.mod_lt _ (by decide)
          obtain ⟨k, rfl⟩ := exists_of_isPowerOf2 hlt (fun h0 => hpos (Or.inl h0)) hpow
          dsimp only at h
          rw [Nat.log2_two_pow] at h
          split at h
          · cases h
          · rename_i hfits
            split at h
            · cases h
            · cases h
              have hk : 2 ≤ k := by
                by_contra hk
                have hle : 2 ^ k ≤ 2 ^ 1 := Nat.pow_le_pow_right (by decide) (by omega)
                omega
              have hk' : k < 32 := (Nat.pow_lt_pow_iff_right (by decide)).mp hlt
              have hsucc : k - 1 + 1 = k := by omega
              exact
                { msbShift := show 1 ≤ k - 1 by omega
                  setBits := show k - 1 + 1 < 32 by omega
                  fits := by
                    show Nat.log2 p.entrySize + 2 * (k - 1 + 1) ≤ 64
                    omega
                  tagShift := by
                    show Nat.log2 p.entrySize + k = Nat.log2 p.entrySize + (k - 1 + 1)
                    omega
                  setMask := by
                    show BitVec.ofNat 32 (2 ^ k - 1) = BitVec.ofNat 32 (2 ^ (k - 1 + 1) - 1)
                    rw [hsucc] }

section
variable {s : SkewedAssociative}

/-- The mask keeps the set bits. -/
theorem Shaped.getLsbD_setMask (hs : s.Shaped) (i : Nat) :
    (s.setMask.zeroExtend 64).getLsbD i = decide (i < s.msbShift + 1) := by
  rw [hs.setMask]
  show (setWidth 64 _).getLsbD i = _
  rw [getLsbD_setWidth, getLsbD_ofNat]
  have := hs.setBits
  by_cases hi : i < s.msbShift + 1
  · simp [show i < 64 by omega, show i < 32 by omega]
  · simp [hi]

/-! ### The hash as a turn of a register -/

variable {x : Addr}

section
variable (hs : s.Shaped)
include hs

/-- `hash` is one step of the feedback register on the bits that count. -/
theorem Shaped.hash_bits (hx : Narrow (s.msbShift + 1) x) :
    (s.hash x).getLsbD = feed (s.msbShift + 1) x.getLsbD := by
  have hbits := hs.setBits
  funext i
  unfold hash feed
  rw [getLsbD_insertBit _ _ _ _ (by omega), getLsbD_xor, getLsbD_bits, getLsbD_bits,
    getLsbD_ushiftRight]
  by_cases htop : i = s.msbShift
  · subst htop
    simp
  · rw [if_neg htop, Nat.add_comm 1 i]
    by_cases hi : i + 1 < s.msbShift + 1
    · rw [if_pos hi]
    · rw [if_neg hi, if_neg (by omega), hx _ (by omega)]

/-- `dehash` is the step back. -/
theorem Shaped.dehash_bits (x : Addr) :
    (s.dehash x).getLsbD = unfeed (s.msbShift + 1) x.getLsbD := by
  have hbits := hs.setBits
  have hmsb := hs.msbShift
  funext i
  unfold dehash unfeed
  rw [getLsbD_insertBit _ _ _ _ (by omega), getLsbD_xor, getLsbD_bits, getLsbD_bits,
    getLsbD_shiftLeft, getLsbD_mbits]
  by_cases h0 : i = 0
  · subst h0
    simp
  · by_cases hi : i < s.msbShift + 1
    · simp [hi, show i < 64 by omega, show i - 1 < s.msbShift - 1 + 1 by omega,
        show ¬ i < 1 by omega]
    · rw [if_neg hi, decide_eq_false (show ¬ i - 1 < s.msbShift - 1 + 1 by omega)]
      simp

theorem Shaped.narrow_hash (hx : Narrow (s.msbShift + 1) x) :
    Narrow (s.msbShift + 1) (s.hash x) := by
  intro i hi
  rw [hs.hash_bits hx]
  show feed _ _ i = false
  unfold feed
  rw [if_neg (by omega), if_neg (by omega)]

theorem Shaped.narrow_dehash (x : Addr) : Narrow (s.msbShift + 1) (s.dehash x) := by
  intro i hi
  rw [hs.dehash_bits]
  show unfeed _ _ i = false
  unfold unfeed
  rw [if_neg (by omega), if_neg (by omega)]

variable (hx : Narrow (s.msbShift + 1) x)
include hx

theorem Shaped.dehash_hash :
    s.dehash (s.hash x) = x := by
  refine (hs.narrow_dehash _).eq hx ?_
  rw [hs.dehash_bits, hs.hash_bits hx]
  have := hs.msbShift
  exact Lib.unfeed_feed (by omega)

theorem Shaped.hash_dehash :
    s.hash (s.dehash x) = x := by
  refine (hs.narrow_hash (hs.narrow_dehash x)).eq hx ?_
  rw [hs.hash_bits (hs.narrow_dehash x), hs.dehash_bits]
  have := hs.msbShift
  exact Lib.feed_unfeed (by omega)

end

theorem getLsbD_xorBits (x y : Addr) : (x ^^^ y).getLsbD = xorBits x.getLsbD y.getLsbD := by
  funext i
  exact getLsbD_xor

section
variable (hs : s.Shaped)
include hs

variable (hx : Narrow (s.msbShift + 1) x)
include hx

theorem Shaped.hash_xor {y : Addr}
    (hy : Narrow (s.msbShift + 1) y) : s.hash (x ^^^ y) = s.hash x ^^^ s.hash y := by
  refine (hs.narrow_hash (hx.xor hy)).eq ((hs.narrow_hash hx).xor (hs.narrow_hash hy)) ?_
  rw [hs.hash_bits (hx.xor hy), getLsbD_xorBits, getLsbD_xorBits, hs.hash_bits hx, hs.hash_bits hy,
    Lib.feed_xorBits]
  exact fun _ _ => rfl

theorem Shaped.hash_iterate_bits (k : Nat) :
    Narrow (s.msbShift + 1) (s.hash^[k] x) ∧
      (s.hash^[k] x).getLsbD = (feed (s.msbShift + 1))^[k] x.getLsbD := by
  induction k generalizing x with
  | zero => exact ⟨hx, rfl⟩
  | succ k ih =>
    rw [iterate_succ_apply, iterate_succ_apply, ← hs.hash_bits hx]
    exact ih (hs.narrow_hash hx)

theorem Shaped.dehash_iterate_hash (k : Nat) :
    s.dehash^[k] (s.hash^[k] x) = x := by
  induction k generalizing x with
  | zero => rfl
  | succ k ih =>
    -- the last hash is undone first
    rw [iterate_succ_apply' s.hash, iterate_succ_apply,
      hs.dehash_hash (hs.hash_iterate_bits hx k).1]
    exact ih hx

/-- `N - 1` hashes undo "hash plus identity". -/
theorem Shaped.hash_iterate_msbShift :
    s.hash^[s.msbShift] (s.hash x ^^^ x) = x := by
  obtain ⟨hnarrow, hbits⟩ := hs.hash_iterate_bits ((hs.narrow_hash hx).xor hx) s.msbShift
  refine hnarrow.eq hx ?_
  rw [hbits, getLsbD_xorBits, hs.hash_bits hx]
  exact Lib.feed_iterate_pred (Nat.succ_pos s.msbShift)

/-- `N` hashes undo "dehash plus identity". -/
theorem Shaped.hash_iterate_setBits :
    s.hash^[s.msbShift + 1] (s.dehash x ^^^ x) = x := by
  rw [iterate_succ_apply, hs.hash_xor (hs.narrow_dehash x) hx, hs.hash_dehash hx, BitVec.xor_comm]
  exact hs.hash_iterate_msbShift hx

end

/-! ### The skewing functions -/

variable {addr1 addr2 : Addr}

variable (hs : s.Shaped)
include hs

/-- A skewed set has no bits above those of a set. -/
theorem Shaped.narrow_skewWay (h1 : Narrow (s.msbShift + 1) addr1)
    (h2 : Narrow (s.msbShift + 1) addr2) (way : Nat) :
    Narrow (s.msbShift + 1) (s.skewWay addr1 addr2 way) := by
  unfold skewWay
  split
  · exact ((hs.narrow_hash h1).xor (hs.narrow_hash h2)).xor h2
  · exact ((hs.narrow_hash h1).xor (hs.narrow_hash h2)).xor h1
  · exact ((hs.narrow_hash h1).xor (hs.narrow_dehash addr2)).xor h2
  · exact ((hs.narrow_hash h1).xor (hs.narrow_dehash addr2)).xor h1
  · exact ((hs.narrow_dehash addr1).xor (hs.narrow_hash h2)).xor h2
  · exact ((hs.narrow_dehash addr1).xor (hs.narrow_hash h2)).xor h1
  · exact ((hs.narrow_dehash addr1).xor (hs.narrow_dehash addr2)).xor h2
  · exact ((hs.narrow_dehash addr1).xor (hs.narrow_dehash addr2)).xor h1

/-- Each skewing function is undone by its inverse. -/
theorem Shaped.deskewWay_skewWay (h1 : Narrow (s.msbShift + 1) addr1) (way : Nat) :
    s.deskewWay (s.skewWay addr1 addr2 way) addr2 way = addr1 := by
  match way with
  | 0 =>
    show s.dehash ((s.hash addr1 ^^^ s.hash addr2 ^^^ addr2) ^^^ s.hash addr2 ^^^ addr2) = addr1
    rw [xor_cancel, hs.dehash_hash h1]
  | 1 =>
    show s.hash^[s.msbShift] ((s.hash addr1 ^^^ s.hash addr2 ^^^ addr1) ^^^ s.hash addr2) = addr1
    rw [xor_cancel_middle, hs.hash_iterate_msbShift h1]
  | 2 =>
    show s.dehash ((s.hash addr1 ^^^ s.dehash addr2 ^^^ addr2) ^^^ s.dehash addr2 ^^^ addr2) = addr1
    rw [xor_cancel, hs.dehash_hash h1]
  | 3 =>
    show s.hash^[s.msbShift] ((s.hash addr1 ^^^ s.dehash addr2 ^^^ addr1) ^^^ s.dehash addr2)
      = addr1
    rw [xor_cancel_middle, hs.hash_iterate_msbShift h1]
  | 4 =>
    show s.hash ((s.dehash addr1 ^^^ s.hash addr2 ^^^ addr2) ^^^ s.hash addr2 ^^^ addr2) = addr1
    rw [xor_cancel, hs.hash_dehash h1]
  | 5 =>
    show s.hash^[s.msbShift + 1]
      ((s.dehash addr1 ^^^ s.hash addr2 ^^^ addr1) ^^^ s.hash addr2) = addr1
    rw [xor_cancel_middle, hs.hash_iterate_setBits h1]
  | 6 =>
    show s.hash ((s.dehash addr1 ^^^ s.dehash addr2 ^^^ addr2) ^^^ s.dehash addr2 ^^^ addr2) = addr1
    rw [xor_cancel, hs.hash_dehash h1]
  | _ + 7 =>
    show s.hash^[s.msbShift + 1]
      ((s.dehash addr1 ^^^ s.dehash addr2 ^^^ addr1) ^^^ s.dehash addr2) = addr1
    rw [xor_cancel_middle, hs.hash_iterate_setBits h1]

omit hs in
theorem narrow_tag (addr : Addr) :
    Narrow (s.msbShift + 1) (bits addr (2 * (s.msbShift + 1) - 1) (s.msbShift + 1)) := by
  have h := narrow_bits addr (2 * (s.msbShift + 1) - 1) (s.msbShift + 1)
  rwa [show 2 * (s.msbShift + 1) - 1 - (s.msbShift + 1) + 1 = s.msbShift + 1 by omega] at h

/-- The set bits and the tag bits next to them, as `skew` reads them. -/
theorem Shaped.deskew_eq {addr skewed : Addr} (way : Nat)
    (hset : bits skewed s.msbShift 0 = s.skew addr way)
    (htag : bits skewed (2 * (s.msbShift + 1) - 1) (s.msbShift + 1)
      = bits addr (2 * (s.msbShift + 1) - 1) (s.msbShift + 1)) :
    s.deskew skewed way = bits addr s.msbShift 0 := by
  have h1 : Narrow (s.msbShift + 1) (bits addr s.msbShift 0) := narrow_bits addr s.msbShift 0
  have hskew := hs.narrow_skewWay h1 (narrow_tag addr) (way % numSkewingFunctions)
  unfold deskew
  rw [hset, htag]
  unfold skew
  -- the hashes that are piled up for the ways above 8 go first
  have hpile : ∀ x, Narrow (s.msbShift + 1) x → (if way ≥ numSkewingFunctions then
        s.dehash^[way / numSkewingFunctions] (s.hash^[way / numSkewingFunctions] x)
      else s.hash^[way / numSkewingFunctions] x) = x := by
    intro x hx
    split
    · exact hs.dehash_iterate_hash hx _
    · rename_i hsmall
      rw [Nat.div_eq_of_lt (by omega)]
      rfl
  dsimp only
  rw [hpile _ hskew]
  exact hs.deskewWay_skewWay h1 _

variable (addr : Addr)

theorem Shaped.narrow_skew (way : Nat) : Narrow (s.msbShift + 1) (s.skew addr way) := by
  exact (hs.hash_iterate_bits
    (hs.narrow_skewWay (narrow_bits addr s.msbShift 0) (narrow_tag addr) _) _).1

/-- The set of an address has the skewed bits. -/
theorem Shaped.getLsbD_extractSet (way : BitVec 32) (i : Nat) :
    ((s.extractSet addr way).zeroExtend 64).getLsbD i
      = (s.skew (addr >>> s.setShift) way.toNat).getLsbD i := by
  have hbits := hs.setBits
  show (setWidth 64 (setWidth 32 _)).getLsbD i = _
  rw [getLsbD_setWidth, getLsbD_setWidth, getLsbD_and, hs.getLsbD_setMask]
  by_cases hi : i < s.msbShift + 1
  · simp [hi, show i < 64 by omega, show i < 32 by omega]
  · rw [hs.narrow_skew _ _ i (by omega)]
    simp

/-- The address comes back from its tag and its set, without the block offset. -/
theorem Shaped.regenerateAddr_eq (way : BitVec 32) :
    s.regenerateAddr (s.extractTag addr) { set := s.extractSet addr way, way := way }
      = addr &&& ~~~ mask s.setShift := by
  have hfits := hs.fits
  have htagShift := hs.tagShift
  have htag : ∀ i, (s.extractTag addr).getLsbD i = addr.getLsbD (s.tagShift + i) := fun i => by
    unfold BaseIndexingPolicy.extractTag
    rw [getLsbD_ushiftRight]
  -- `deskew` reads the skewed set bits and the tag bits of the address
  have hdeskew : s.deskew ((s.extractTag addr <<< (s.msbShift + 1)) |||
        (s.extractSet addr way).zeroExtend 64) way.toNat
      = bits (addr >>> s.setShift) s.msbShift 0 := by
    apply hs.deskew_eq
    · apply eq_of_getLsbD_eq
      intro i hi
      rw [getLsbD_bits, getLsbD_or, hs.getLsbD_extractSet]
      by_cases hlow : i < s.msbShift + 1
      · simp [hi, hlow]
      · rw [hs.narrow_skew _ _ i (by omega),
          decide_eq_false (show ¬ i < s.msbShift - 0 + 1 by omega)]
        simp
    · apply eq_of_getLsbD_eq
      intro i hi
      rw [getLsbD_bits, getLsbD_bits, getLsbD_or, getLsbD_shiftLeft,
        hs.getLsbD_extractSet, hs.narrow_skew _ _ _ (by omega), htag,
        getLsbD_ushiftRight, htagShift]
      by_cases hlow : i < 2 * (s.msbShift + 1) - 1 - (s.msbShift + 1) + 1
      · rw [show s.setShift + (s.msbShift + 1 + i) = s.setShift + (s.msbShift + 1) + i by omega]
        simp [show s.msbShift + 1 + i < 64 by omega,
          show ¬ s.msbShift + 1 + i < s.msbShift + 1 by omega]
      · rw [decide_eq_false hlow]
        simp
  unfold regenerateAddr
  dsimp only
  rw [hdeskew]
  apply eq_of_getLsbD_eq
  intro i hi
  rw [getLsbD_or, getLsbD_shiftLeft, getLsbD_shiftLeft, getLsbD_and,
    getLsbD_and, getLsbD_not, getLsbD_mask, hs.getLsbD_setMask, getLsbD_bits,
    getLsbD_ushiftRight, htag]
  -- offset bits, set bits and tag bits
  by_cases hoffset : i < s.setShift
  · simp [hoffset, show i < s.tagShift by omega]
  · by_cases hset : i < s.tagShift
    · rw [show s.setShift + (0 + (i - s.setShift)) = i by omega]
      simp [hi, hoffset, hset, show i - s.setShift < s.msbShift + 1 by omega,
        show i - s.setShift < 64 by omega]
    · rw [show s.tagShift + (i - s.tagShift) = i by omega]
      simp [hi, hoffset, hset, show ¬ i - s.setShift < s.msbShift + 1 by omega]

end

/-- In every way of an accepted cache, an address comes back from its tag and from the set it
is put in, without its block offset. Two addresses of different blocks that have the same tag
are put in different sets. -/
theorem regenerateAddr_extractSet (p : IndexingParams) (s : SkewedAssociative)
    (h : new p = .ok s) (way : BitVec 32) :
    (∀ addr, s.regenerateAddr (s.extractTag addr) { set := s.extractSet addr way, way := way }
      = addr &&& ~~~ mask s.setShift) ∧
    ∀ a b : Addr, s.extractTag a = s.extractTag b →
      a &&& ~~~ mask s.setShift ≠ b &&& ~~~ mask s.setShift →
      s.extractSet a way ≠ s.extractSet b way := by
  have hs := shaped_of_new h
  refine ⟨fun addr => hs.regenerateAddr_eq addr way, ?_⟩
  intro a b htag hne hset
  apply hne
  rw [← hs.regenerateAddr_eq a way, ← hs.regenerateAddr_eq b way, htag, hset]

/-- A cache of four sets with ten ways and blocks of 64 bytes, in its ninth way. -/
theorem regenerateAddr_extractSet_ninth :
    ∃ s, new { size := 2560, entrySize := 64, assoc := 10 } = .ok s ∧
      s.regenerateAddr (s.extractTag 0x12345#64) { set := s.extractSet 0x12345#64 8, way := 8 }
        = 0x12340#64 := by
  have h : ∃ s, new { size := 2560, entrySize := 64, assoc := 10 } = .ok s := ⟨_, rfl⟩
  obtain ⟨s, hs⟩ := h
  refine ⟨s, hs, ?_⟩
  rw [(regenerateAddr_extractSet _ s hs 8).1]
  cases hs
  rfl

end SkewedAssociative

end Gem5.Mem
