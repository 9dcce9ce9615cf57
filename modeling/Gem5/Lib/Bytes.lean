import Mathlib.Tactic.Ring

/-!
# `Gem5.Lib.Bytes`: bytes and 64-bit words

A 64-bit word and its eight bytes, least significant byte first. `wordOfBytes` reads a
word out of a byte buffer, and `byteOfWord` is the inverse copy, byte by byte.
-/

namespace Gem5.Lib

/-- A byte. -/
abbrev Byte := BitVec 8

/-- A 64-bit word. -/
abbrev Word := BitVec 64

/-- The number whose base-256 digits are `f 0`, …, `f (n - 1)`, the first one lowest. -/
def natOfBytes (f : Nat → Byte) : Nat → Nat
  | 0 => 0
  | n + 1 => natOfBytes f n + (f n).toNat * 256 ^ n

/-- The word whose `i`-th byte is `f i`, byte 0 at the least significant end. -/
def wordOfBytes (f : Nat → Byte) : Word :=
  BitVec.ofNat 64 (natOfBytes f 8)

/-- The `i`-th byte of a word. -/
def byteOfWord (w : Word) (i : Nat) : Byte :=
  BitVec.ofNat 8 (w.toNat / 256 ^ i)

theorem natOfBytes_lt (f : Nat → Byte) (n : Nat) : natOfBytes f n < 256 ^ n := by
  induction n with
  | zero => simp [natOfBytes]
  | succ n ih =>
    have hbyte : (f n).toNat ≤ 255 := by have := (f n).isLt; omega
    have hmul : (f n).toNat * 256 ^ n ≤ 255 * 256 ^ n := Nat.mul_le_mul_right _ hbyte
    simp only [natOfBytes]
    omega

variable {i n : Nat} {f g : Nat → Byte}

/-- The digit at position `i` of `natOfBytes` is the byte that was read there. -/
theorem natOfBytes_digit (f : Nat → Byte) (hi : i < n) :
    natOfBytes f n / 256 ^ i % 256 = (f i).toNat := by
  induction n with
  | zero => omega
  | succ n ih =>
    have hpos : 0 < 256 ^ i := Nat.pow_pos (by decide)
    rcases Nat.lt_succ_iff_lt_or_eq.mp hi with hlt | rfl
    · -- The new digit is above position `i`: it adds a multiple of `256 ^ (i + 1)`.
      obtain ⟨k, rfl⟩ : ∃ k, n = i + 1 + k := ⟨n - (i + 1), by omega⟩
      have hsplit : (f (i + 1 + k)).toNat * 256 ^ (i + 1 + k)
          = 256 ^ i * ((f (i + 1 + k)).toNat * 256 ^ k * 256) := by ring
      rw [natOfBytes, hsplit, Nat.add_mul_div_left _ _ hpos, Nat.add_mul_mod_self_right]
      exact ih hlt
    · have hbyte : (f i).toNat < 256 := (f i).isLt
      rw [natOfBytes, Nat.add_mul_div_right _ _ hpos,
        Nat.div_eq_of_lt (natOfBytes_lt f i), Nat.zero_add, Nat.mod_eq_of_lt hbyte]

/-- A word depends on its eight bytes only. -/
theorem natOfBytes_congr (h : ∀ i < n, f i = g i) : natOfBytes f n = natOfBytes g n := by
  induction n with
  | zero => rfl
  | succ n ih =>
    rw [natOfBytes, natOfBytes, h n (Nat.lt_succ_self n), ih fun i hi => h i (Nat.lt_succ_of_lt hi)]

theorem wordOfBytes_congr (h : ∀ i < 8, f i = g i) : wordOfBytes f = wordOfBytes g := by
  rw [wordOfBytes, wordOfBytes, natOfBytes_congr h]

/-- Reading a word and copying it back gives the bytes that were read. -/
theorem byteOfWord_wordOfBytes (f : Nat → Byte) (hi : i < 8) :
    byteOfWord (wordOfBytes f) i = f i := by
  apply BitVec.eq_of_toNat_eq
  have hlt : natOfBytes f 8 < 2 ^ 64 := natOfBytes_lt f 8
  simp only [byteOfWord, wordOfBytes, BitVec.toNat_ofNat, Nat.mod_eq_of_lt hlt]
  exact natOfBytes_digit f hi

end Gem5.Lib
