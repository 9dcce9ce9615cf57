import Gem5.MyMinor.LSQRequest
import Mathlib.Data.Nat.Bitwise

/-!
# `Gem5.Proofs.MyMinor.Fragments`: when the fragments of a split request partition it

`Partitions` says what `makeFragmentRequests` is for. It holds exactly if the line behind the access
still has an address of 64 bits (`partitions_iff`): in the last line of the address space the test
for the last fragment compares a sum that wraps to zero, and the fragment gets the size of a whole
line.

`Consecutive` carries the loop: the pieces lie one behind the other, from the start of the access to
its end. Hence every enabled byte lies in a fragment, and no two fragments share a byte.
-/

namespace Gem5.MyMinor

open List

/-- Pieces that lie one behind the other, from `addr` to `stop`, each with a byte. -/
def Consecutive (stop : Nat) : Nat → List (Nat × Nat) → Prop
  | addr, [] => addr = stop
  | addr, piece :: pieces =>
    piece.1 = addr ∧ 0 < piece.2 ∧ Consecutive stop (addr + piece.2) pieces

namespace Consecutive
variable {stop addr : Nat} {pieces : List (Nat × Nat)}

section
variable (h : Consecutive stop addr pieces)
include h

/-- The range does not run backwards. -/
theorem le : addr ≤ stop := by
  induction pieces generalizing addr with
  | nil => exact Nat.le_of_eq h
  | cons piece pieces ih => exact (Nat.le_add_right _ _).trans (ih h.2.2)

/-- No piece leaves the range. -/
theorem mem_le {piece : Nat × Nat} (hmem : piece ∈ pieces) :
    addr ≤ piece.1 ∧ piece.1 + piece.2 ≤ stop := by
  induction pieces generalizing addr with
  | nil => cases hmem
  | cons first pieces ih =>
    obtain ⟨hstart, -, hrest⟩ := h
    rcases mem_cons.mp hmem with rfl | hmem
    · exact ⟨hstart.ge, hstart ▸ hrest.le⟩
    · have := ih hrest hmem
      omega

/-- A piece ends before the next ones start. -/
theorem pairwise :
    pieces.Pairwise fun piece other => piece.1 + piece.2 ≤ other.1 := by
  induction pieces generalizing addr with
  | nil => exact List.Pairwise.nil
  | cons piece pieces ih =>
    obtain ⟨rfl, -, hrest⟩ := h
    exact pairwise_cons.mpr ⟨fun other hmem => (hrest.mem_le hmem).1, ih hrest⟩

/-- Each byte of the range is in one piece, and in no other one. -/
theorem existsUnique {x : Nat} (hstart : addr ≤ x) (hstop : x < stop) :
    ∃ piece ∈ pieces, piece.1 ≤ x ∧ x < piece.1 + piece.2 ∧
      ∀ other ∈ pieces, other.1 ≤ x → x < other.1 + other.2 → other = piece := by
  induction pieces generalizing addr with
  | nil => exact absurd hstop (Nat.not_lt.mpr (h ▸ hstart))
  | cons first pieces ih =>
    obtain ⟨hfirst, hpos, hrest⟩ := h
    by_cases hx : x < addr + first.2
    · refine ⟨first, mem_cons_self, by omega, by omega, fun other hmem hle _ => ?_⟩
      rcases mem_cons.mp hmem with rfl | hmem
      · rfl
      · have := (hrest.mem_le hmem).1
        omega
    · obtain ⟨piece, hmem, hle, hlt, hunique⟩ := ih hrest (Nat.not_lt.mp hx)
      refine ⟨piece, mem_cons_of_mem _ hmem, hle, hlt, fun other hother hle' hlt' => ?_⟩
      rcases mem_cons.mp hother with rfl | hother
      · omega
      · exact hunique other hother hle' hlt'

end

end Consecutive

/-- For a power of two the mask gives the remainder. -/
theorem addrBlockOffset_two_pow (addr k : Nat) : addrBlockOffset addr (2 ^ k) = addr % 2 ^ k :=
  Nat.and_two_pow_sub_one_eq_mod addr k

/-- A difference that does not wrap. -/
theorem subWrap_of_le {w a b : Nat} (ha : a < 2 ^ w) (hle : b ≤ a) : subWrap w a b = a - b := by
  have hsum : a + (2 ^ w - b) = a - b + 2 ^ w := by omega
  rw [subWrap, Nat.mod_eq_of_lt (hle.trans_lt ha), hsum, Nat.add_mod_right,
    Nat.mod_eq_of_lt (by omega)]

namespace Request

/-- What `makeFragmentRequests` is for: the fragments are consecutive and cover each byte of the
access once, none crosses a line, each takes its slice of the mask, those without an enabled byte
are left out and the others are counted, and the assertions hold. -/
structure Partitions (r : Request) (lineWidth : Nat) : Prop where
  consecutive : Consecutive (r.vaddr + r.size) r.vaddr (r.pieces lineWidth)
  once : ∀ x, r.vaddr ≤ x → x < r.vaddr + r.size →
    ∃ piece ∈ r.pieces lineWidth, piece.1 ≤ x ∧ x < piece.1 + piece.2 ∧
      ∀ other ∈ r.pieces lineWidth, other.1 ≤ x → x < other.1 + other.2 → other = piece
  inLine : ∀ piece ∈ r.pieces lineWidth, piece.1 / lineWidth = (piece.1 + piece.2 - 1) / lineWidth
  slices : ∀ f ∈ r.fragmentRequests lineWidth, f.byteEnable.length = f.size ∧
    ∀ i < f.size, f.enabled i = r.enabled (f.vaddr - r.vaddr + i)
  kept : ∀ f, f ∈ r.fragmentRequests lineWidth ↔ ∃ piece ∈ r.pieces lineWidth,
    f = r.fragmentRequest piece ∧ ∃ i < f.size, f.enabled i = true
  count : r.numFragments lineWidth = (r.fragmentRequests lineWidth).length
  asserts : r.assertions lineWidth = true

section
variable {r : Request} {lineWidth addr n : Nat} {piece : Nat × Nat}

/-- The sizes in the loop are those that `fragmentSize` chooses. -/
theorem size_of_mem_loop (h : piece ∈ r.loop lineWidth n addr) :
    piece.2 = r.fragmentSize lineWidth piece.1 := by
  induction n generalizing addr with
  | zero => cases h
  | succ n ih =>
    rcases mem_cons.mp h with rfl | h
    · rfl
    · exact ih h

/-- The loop makes as many fragments as it has turns. -/
theorem length_loop (r : Request) (lineWidth n addr : Nat) :
    (r.loop lineWidth n addr).length = n := by
  induction n generalizing addr with
  | zero => rfl
  | succ n ih => rw [loop, length_cons, ih]

/-- The fragments that are kept are counted, whatever the sizes are. -/
theorem numFragments_eq (r : Request) (lineWidth : Nat) :
    r.numFragments lineWidth = (r.fragmentRequests lineWidth).length := by
  have hsplit := length_eq_countP_add_countP r.active (l := r.pieces lineWidth)
  have hlength : (r.pieces lineWidth).length = r.allFragments lineWidth := length_loop _ _ _ _
  have hnot : (r.pieces lineWidth).countP (fun piece => !r.active piece)
      = (r.pieces lineWidth).countP fun piece => decide ¬ r.active piece = true := by
    congr 1
    funext piece
    simp
  have hall : r.allFragments lineWidth < 2 ^ 32 := Nat.mod_lt _ (by decide)
  rw [numFragments, fragmentRequests, length_map, ← countP_eq_length_filter, hnot,
    subWrap_of_le hall (by omega)]
  omega

/-- A fragment inside the mask is kept exactly if one of its bytes is enabled. -/
theorem active_iff (hin : piece.1 - r.vaddr + piece.2 ≤ r.byteEnable.length) :
    r.active piece = true ↔ ∃ i < piece.2, (r.fragmentRequest piece).enabled i = true := by
  have hlength : ((r.byteEnable.drop (piece.1 - r.vaddr)).take piece.2).length = piece.2 := by
    rw [length_take, length_drop]
    omega
  rw [active, any_eq_true]
  constructor
  · rintro ⟨b, hb, htrue⟩
    obtain ⟨i, hi, rfl⟩ := getElem_of_mem hb
    refine ⟨i, hlength ▸ hi, ?_⟩
    rw [Request.enabled, getD_eq_getElem _ _ hi]
    exact htrue
  · rintro ⟨i, hi, htrue⟩
    have hi : i < (r.fragmentRequest piece).byteEnable.length := hlength.symm ▸ hi
    rw [Request.enabled, getD_eq_getElem _ _ hi] at htrue
    exact ⟨_, getElem_mem hi, htrue⟩

/-- The mask of a fragment is a slice of the mask of the access. -/
theorem enabled_fragmentRequest {i : Nat} (hi : i < piece.2) :
    (r.fragmentRequest piece).enabled i = r.enabled (piece.1 - r.vaddr + i) := by
  show ((r.byteEnable.drop (piece.1 - r.vaddr)).take piece.2).getD i false
    = r.byteEnable.getD (piece.1 - r.vaddr + i) false
  rw [getD_eq_getElem?_getD, getD_eq_getElem?_getD, getElem?_take_of_lt hi, getElem?_drop]

end

end Request

/-- What `makeFragmentRequests` works on: an access that crosses a line and does not wrap around,
with one flag of the mask for each byte, as `setByteEnable` asserts. -/
structure SplitAccess where
  request : Request
  lineBits : Nat
  lineBits_lt : lineBits < 32
  size_lt : request.size < 2 ^ 32
  length_byteEnable : request.byteEnable.length = request.size
  burst : transferNeedsBurst request.vaddr request.size (2 ^ lineBits) = true
  wrap : request.vaddr + request.size < 2 ^ 64

namespace SplitAccess

open Request

/-- `line_width`. -/
def lineWidth (a : SplitAccess) : Nat := 2 ^ a.lineBits

/-- The line behind the access has an address. -/
def Room (a : SplitAccess) : Prop :=
  a.request.vaddr + a.request.size + a.lineWidth ≤ 2 ^ 64

variable {a : SplitAccess}

/-! ### The sizes -/

/-- The access in lines: up to the end of the first line, `m` whole lines, and the rest. -/
structure Lines (a : SplitAccess) (m : Nat) : Prop where
  first : a.request.firstFragmentSize a.lineWidth = a.lineWidth - a.request.vaddr % a.lineWidth
  last : a.request.lastFragmentSize a.lineWidth
    = (a.request.vaddr + a.request.size) % a.lineWidth
  size : a.request.size = a.request.firstFragmentSize a.lineWidth + a.lineWidth * m
    + a.request.lastFragmentSize a.lineWidth

theorem lineWidth_pos (a : SplitAccess) : 0 < a.lineWidth := Nat.two_pow_pos _

theorem lineWidth_lt (a : SplitAccess) : a.lineWidth < 2 ^ 32 :=
  Nat.pow_lt_pow_right (by decide) a.lineBits_lt

/-- `end_addr` does not wrap. -/
theorem endAddr_eq (a : SplitAccess) : a.request.endAddr = a.request.vaddr + a.request.size :=
  Nat.mod_eq_of_lt a.wrap

/-- The access crosses the end of its first line. -/
theorem burst_lt (a : SplitAccess) :
    a.lineWidth < a.request.vaddr % a.lineWidth + a.request.size := by
  have h := a.burst
  rw [transferNeedsBurst, decide_eq_true_eq, addrBlockOffset_two_pow] at h
  exact h

/-- The lines of an access. -/
theorem exists_lines (a : SplitAccess) : ∃ m, a.Lines m := by
  have hpos := a.lineWidth_pos
  have hburst := a.burst_lt
  have hfirst : a.request.firstFragmentSize a.lineWidth
      = a.lineWidth - a.request.vaddr % a.lineWidth := by
    have hoffset : addrBlockOffset a.request.vaddr a.lineWidth = a.request.vaddr % a.lineWidth :=
      addrBlockOffset_two_pow _ _
    rw [firstFragmentSize, hoffset, subWrap_of_le a.lineWidth_lt (Nat.mod_lt _ hpos).le]
  have hlast : a.request.lastFragmentSize a.lineWidth
      = (a.request.vaddr + a.request.size) % a.lineWidth := by
    rw [lastFragmentSize, a.endAddr_eq, lineWidth, addrBlockOffset_two_pow]
  -- `q` and `e` are the lines of the first byte and of the end
  have hmod := Nat.mod_lt a.request.vaddr hpos
  have hstart := Nat.div_add_mod a.request.vaddr a.lineWidth
  have hend := Nat.div_add_mod (a.request.vaddr + a.request.size) a.lineWidth
  have hz := Nat.mod_lt (a.request.vaddr + a.request.size) hpos
  generalize a.request.vaddr / a.lineWidth = q at hstart
  generalize (a.request.vaddr + a.request.size) / a.lineWidth = e at hend
  have hlines : q + 1 ≤ e := by
    by_contra hlt
    have hle : a.lineWidth * e ≤ a.lineWidth * q := Nat.mul_le_mul_left _ (by omega)
    omega
  obtain ⟨m, rfl⟩ : ∃ m, e = q + 1 + m := ⟨e - (q + 1), by omega⟩
  rw [Nat.mul_add, Nat.mul_succ] at hend
  refine ⟨m, hfirst, hlast, ?_⟩
  rw [hfirst, hlast]
  omega

namespace Lines
variable {m : Nat}

section
variable (h : a.Lines m)
include h

/-- The first fragment is not empty. -/
theorem first_pos : 0 < a.request.firstFragmentSize a.lineWidth := by
  have := Nat.mod_lt a.request.vaddr a.lineWidth_pos
  rw [h.first]
  omega

/-- The middle fragments are the whole lines. -/
theorem middle : a.request.middleFragmentsTotalSize a.lineWidth = a.lineWidth * m ∧
    a.request.middleFragmentCount a.lineWidth = m := by
  have hsize := h.size
  have htotal : a.request.middleFragmentsTotalSize a.lineWidth = a.lineWidth * m := by
    rw [middleFragmentsTotalSize, subWrap_of_le a.size_lt (by omega)]
    omega
  exact ⟨htotal, by rw [middleFragmentCount, htotal, Nat.mul_div_cancel_left _ a.lineWidth_pos]⟩

/-- The assertions hold. -/
theorem asserts : a.request.assertions a.lineWidth = true := by
  have hsize := h.size
  have hmod : addrBlockOffset (a.lineWidth * m) a.lineWidth = 0 := by
    rw [lineWidth, addrBlockOffset_two_pow, Nat.mul_mod_right]
  have hsum : a.lineWidth * m + a.request.firstFragmentSize a.lineWidth
      + a.request.lastFragmentSize a.lineWidth = a.request.size := by
    omega
  rw [assertions, h.middle.1, h.middle.2, hmod, Nat.mul_comm m, hsum, Nat.mod_eq_of_lt a.size_lt]
  simp

/-- The count does not wrap: there are no more fragments than bytes. -/
theorem allFragments : a.request.allFragments a.lineWidth
    = m + (if a.request.lastFragmentSize a.lineWidth = 0 then 0 else 1) + 1 := by
  have hsize := h.size
  have hfirst := h.first_pos
  have hlt := a.size_lt
  have hmul : m ≤ a.lineWidth * m := Nat.le_mul_of_pos_left m a.lineWidth_pos
  rw [Request.allFragments, h.middle.2]
  split <;> rw [Nat.mod_eq_of_lt (by omega)] <;> omega

end

end Lines

/-! ### The loop -/

/-- The loop from the start of a line on. -/
theorem consecutive_lines (hroom : a.Room) {last : Nat} (hlast : last < a.lineWidth) :
    ∀ (m addr : Nat), a.request.vaddr < addr → a.lineWidth ∣ addr →
      addr + a.lineWidth * m + last = a.request.vaddr + a.request.size →
      Consecutive (a.request.vaddr + a.request.size) addr
          (a.request.loop a.lineWidth (m + if last = 0 then 0 else 1) addr) ∧
        ∀ piece ∈ a.request.loop a.lineWidth (m + if last = 0 then 0 else 1) addr,
          piece.1 / a.lineWidth = (piece.1 + piece.2 - 1) / a.lineWidth := by
  have hpos := a.lineWidth_pos
  have hwidth := a.lineWidth_lt
  have hstop := a.endAddr_eq
  unfold Room at hroom
  -- a fragment from the start of a line that is no longer than the line is in the line
  have hin {addr size : Nat} (hline : a.lineWidth ∣ addr) (hsize : 0 < size)
      (hle : size ≤ a.lineWidth) : addr / a.lineWidth = (addr + size - 1) / a.lineWidth := by
    obtain ⟨q, rfl⟩ := hline
    rw [Nat.mul_div_cancel_left q hpos, Nat.add_sub_assoc hsize, Nat.mul_add_div hpos,
      Nat.div_eq_of_lt (by omega), Nat.add_zero]
  intro m
  induction m with
  | zero =>
    intro addr hstart hline hend
    by_cases hzero : last = 0
    · rw [if_pos hzero]
      refine ⟨?_, fun piece hmem => by cases hmem⟩
      show addr = a.request.vaddr + a.request.size
      omega
    · have hsize : a.request.fragmentSize a.lineWidth addr = last := by
        -- the line behind the access has an address, so the sum does not wrap
        have hsum : (addr + a.lineWidth) % 2 ^ 64 = addr + a.lineWidth :=
          Nat.mod_eq_of_lt (by omega)
        rw [fragmentSize, if_neg (by omega), hsum, hstop, if_pos (by omega),
          subWrap_of_le (by omega) (by omega), Nat.mod_eq_of_lt (by omega)]
        omega
      have hpieces : a.request.loop a.lineWidth (0 + 1) addr = [(addr, last)] := by
        rw [loop, hsize, loop]
      rw [if_neg hzero, hpieces]
      refine ⟨⟨rfl, Nat.pos_of_ne_zero hzero, ?_⟩, fun piece hmem => ?_⟩
      · show addr + last = a.request.vaddr + a.request.size
        omega
      · rw [mem_singleton.mp hmem]
        exact hin hline (Nat.pos_of_ne_zero hzero) hlast.le
  | succ m ih =>
    intro addr hstart hline hend
    rw [Nat.mul_succ] at hend
    have hsum : (addr + a.lineWidth) % 2 ^ 64 = addr + a.lineWidth := Nat.mod_eq_of_lt (by omega)
    have hsize : a.request.fragmentSize a.lineWidth addr = a.lineWidth := by
      rw [fragmentSize, if_neg (by omega), hsum, hstop, if_neg (by omega)]
    obtain ⟨hconsecutive, hlines⟩ :=
      ih (addr + a.lineWidth) (by omega) (Nat.dvd_add hline (Nat.dvd_refl _)) (by omega)
    rw [Nat.add_right_comm, loop, hsize, hsum]
    refine ⟨⟨rfl, hpos, hconsecutive⟩, fun piece hmem => ?_⟩
    rcases mem_cons.mp hmem with rfl | hmem
    · exact hin hline hpos (Nat.le_refl _)
    · exact hlines piece hmem

/-- The pieces of a split access lie one behind the other, each in one line. -/
theorem consecutive_pieces (a : SplitAccess) (hroom : a.Room) :
    Consecutive (a.request.vaddr + a.request.size) a.request.vaddr
        (a.request.pieces a.lineWidth) ∧
      ∀ piece ∈ a.request.pieces a.lineWidth,
        piece.1 / a.lineWidth = (piece.1 + piece.2 - 1) / a.lineWidth := by
  obtain ⟨m, h⟩ := a.exists_lines
  have hpos := a.lineWidth_pos
  have hsize := h.size
  have hmod := Nat.mod_lt a.request.vaddr hpos
  have hstart := Nat.div_add_mod a.request.vaddr a.lineWidth
  have hfirst : a.request.fragmentSize a.lineWidth a.request.vaddr
      = a.lineWidth - a.request.vaddr % a.lineWidth := (if_pos rfl).trans h.first
  have hnext : a.request.vaddr + (a.lineWidth - a.request.vaddr % a.lineWidth)
      = a.lineWidth * (a.request.vaddr / a.lineWidth + 1) := by
    rw [Nat.mul_succ]
    omega
  have hlast : a.request.lastFragmentSize a.lineWidth < a.lineWidth := by
    rw [h.last]
    exact Nat.mod_lt _ hpos
  rw [h.first] at hsize
  obtain ⟨hconsecutive, hlines⟩ := consecutive_lines hroom hlast m
    (a.request.vaddr + (a.lineWidth - a.request.vaddr % a.lineWidth)) (by omega) ⟨_, hnext⟩
    (by omega)
  have hsum : (a.request.vaddr + (a.lineWidth - a.request.vaddr % a.lineWidth)) % 2 ^ 64
      = a.request.vaddr + (a.lineWidth - a.request.vaddr % a.lineWidth) :=
    Nat.mod_eq_of_lt (by unfold Room at hroom; omega)
  rw [pieces, h.allFragments, loop, hfirst, hsum]
  refine ⟨⟨rfl, by omega, hconsecutive⟩, fun piece hmem => ?_⟩
  rcases mem_cons.mp hmem with rfl | hmem
  · -- the first fragment ends with its line
    show a.request.vaddr / a.lineWidth
      = (a.request.vaddr + (a.lineWidth - a.request.vaddr % a.lineWidth) - 1) / a.lineWidth
    rw [hnext, Nat.mul_succ, Nat.add_sub_assoc hpos, Nat.mul_add_div hpos]
    have hzero : (a.lineWidth - 1) / a.lineWidth = 0 := Nat.div_eq_of_lt (by omega)
    rw [hzero, Nat.add_zero]
  · exact hlines piece hmem

/-- Where the access ends in the last line of the address space, the fragment of that line has the
size of a line. -/
theorem not_consecutive (a : SplitAccess) (hroom : ¬ a.Room)
    (hconsecutive : Consecutive (a.request.vaddr + a.request.size) a.request.vaddr
      (a.request.pieces a.lineWidth))
    (hlines : ∀ piece ∈ a.request.pieces a.lineWidth,
      piece.1 / a.lineWidth = (piece.1 + piece.2 - 1) / a.lineWidth) : False := by
  obtain ⟨m, h⟩ := a.exists_lines
  have hpos := a.lineWidth_pos
  have hwrap := a.wrap
  unfold Room at hroom
  -- the start of the last line
  obtain ⟨top, htop⟩ : ∃ top, 2 ^ 64 = a.lineWidth * (top + 1) := by
    refine ⟨2 ^ (64 - a.lineBits) - 1, ?_⟩
    have hone : 0 < 2 ^ (64 - a.lineBits) := Nat.two_pow_pos _
    rw [Nat.sub_add_cancel hone, lineWidth, ← Nat.pow_add,
      Nat.add_sub_cancel' (a.lineBits_lt.le.trans (by decide))]
  rw [Nat.mul_succ] at htop
  have hbefore : a.request.vaddr < a.lineWidth * top := by
    have hstart := Nat.div_add_mod a.request.vaddr a.lineWidth
    have hsize := h.size
    have hfirst := h.first
    by_contra hge
    have hq : top ≤ a.request.vaddr / a.lineWidth :=
      (Nat.le_div_iff_mul_le hpos).mpr (by rw [Nat.mul_comm]; omega)
    have hmul : a.lineWidth * top ≤ a.lineWidth * (a.request.vaddr / a.lineWidth) :=
      Nat.mul_le_mul_left _ hq
    omega
  obtain ⟨piece, hmem, hle, hlt, -⟩ := hconsecutive.existsUnique hbefore.le (by omega)
  -- the piece with the first byte of the last line starts there
  have hstart : piece.1 = a.lineWidth * top := by
    have hline := hlines piece hmem
    have hmono : a.lineWidth * top / a.lineWidth ≤ (piece.1 + piece.2 - 1) / a.lineWidth :=
      Nat.div_le_div_right (by omega)
    rw [Nat.mul_div_cancel_left top hpos, ← hline, Nat.le_div_iff_mul_le hpos,
      Nat.mul_comm] at hmono
    omega
  have hsize : piece.2 = a.lineWidth := by
    rw [size_of_mem_loop hmem, hstart, fragmentSize, if_neg (by omega),
      show a.lineWidth * top + a.lineWidth = 2 ^ 64 by omega, Nat.mod_self, if_neg (by omega)]
  have hend := (hconsecutive.mem_le hmem).2
  omega

/-! ### The fragments that are kept -/

/-- A fragment lies inside the access and is made from its piece. -/
theorem mem_fragmentRequests (a : SplitAccess) (hroom : a.Room) {f : Request}
    (hf : f ∈ a.request.fragmentRequests a.lineWidth) :
    a.request.vaddr ≤ f.vaddr ∧ f.vaddr + f.size ≤ a.request.vaddr + a.request.size ∧
      f = a.request.fragmentRequest (f.vaddr, f.size) := by
  obtain ⟨piece, hpiece, rfl⟩ := mem_map.mp hf
  obtain ⟨hstart, hend⟩ := (a.consecutive_pieces hroom).1.mem_le (mem_filter.mp hpiece).1
  exact ⟨hstart, hend, rfl⟩

/-- Fragments lie one behind the other. -/
theorem pairwise_fragments (a : SplitAccess) (hroom : a.Room) :
    (a.request.fragmentRequests a.lineWidth).Pairwise fun f g => f.vaddr + f.size ≤ g.vaddr :=
  pairwise_map.mpr ((a.consecutive_pieces hroom).1.pairwise.filter _)

/-- A piece of the access lies inside the mask. -/
theorem piece_le_mask (hconsecutive : Consecutive (a.request.vaddr + a.request.size)
      a.request.vaddr (a.request.pieces a.lineWidth)) {piece : Nat × Nat}
    (hmem : piece ∈ a.request.pieces a.lineWidth) :
    piece.1 - a.request.vaddr + piece.2 ≤ a.request.byteEnable.length := by
  have := hconsecutive.mem_le hmem
  rw [a.length_byteEnable]
  omega

/-- Every enabled byte of a split access lies in a fragment. -/
theorem exists_fragment (a : SplitAccess) (hroom : a.Room) {i : Nat} (hi : i < a.request.size)
    (henabled : a.request.enabled i = true) :
    ∃ f ∈ a.request.fragmentRequests a.lineWidth,
      f.vaddr ≤ a.request.vaddr + i ∧ a.request.vaddr + i < f.vaddr + f.size := by
  obtain ⟨hconsecutive, -⟩ := a.consecutive_pieces hroom
  obtain ⟨piece, hmem, hle, hlt, -⟩ :=
    hconsecutive.existsUnique (x := a.request.vaddr + i) (Nat.le_add_right _ _) (by omega)
  have hstart := (hconsecutive.mem_le hmem).1
  refine ⟨_, mem_map.mpr ⟨piece, mem_filter.mpr ⟨hmem, ?_⟩, rfl⟩, hle, hlt⟩
  refine (active_iff (piece_le_mask hconsecutive hmem)).mpr
    ⟨a.request.vaddr + i - piece.1, by omega, ?_⟩
  rw [enabled_fragmentRequest (by omega),
    show piece.1 - a.request.vaddr + (a.request.vaddr + i - piece.1) = i by omega]
  exact henabled

/-- Where the line behind the access has an address, the fragments partition it. -/
theorem partitions (a : SplitAccess) (hroom : a.Room) : a.request.Partitions a.lineWidth := by
  obtain ⟨m, h⟩ := a.exists_lines
  obtain ⟨hconsecutive, hlines⟩ := a.consecutive_pieces hroom
  refine ⟨hconsecutive, fun x hx hstop => hconsecutive.existsUnique hx hstop, hlines,
    fun f hf => ?_, fun f => ?_, numFragments_eq _ _, h.asserts⟩
  · obtain ⟨piece, hpiece, rfl⟩ := mem_map.mp hf
    have hin := piece_le_mask hconsecutive (mem_filter.mp hpiece).1
    refine ⟨?_, fun i hi => enabled_fragmentRequest hi⟩
    show ((a.request.byteEnable.drop (piece.1 - a.request.vaddr)).take piece.2).length = piece.2
    rw [length_take, length_drop]
    omega
  · constructor
    · intro hf
      obtain ⟨piece, hpiece, rfl⟩ := mem_map.mp hf
      obtain ⟨hmem, hactive⟩ := mem_filter.mp hpiece
      exact ⟨piece, hmem, rfl, (active_iff (piece_le_mask hconsecutive hmem)).mp hactive⟩
    · rintro ⟨piece, hmem, rfl, hactive⟩
      exact mem_map.mpr ⟨piece,
        mem_filter.mpr ⟨hmem, (active_iff (piece_le_mask hconsecutive hmem)).mpr hactive⟩, rfl⟩

/-- The fragments of an access that crosses a line and does not wrap partition it exactly if the
line behind it has an address. -/
theorem partitions_iff (a : SplitAccess) :
    a.request.Partitions a.lineWidth ↔
      a.request.vaddr + a.request.size + a.lineWidth ≤ 2 ^ 64 := by
  refine ⟨fun hpart => ?_, a.partitions⟩
  by_contra hroom
  exact a.not_consecutive hroom hpart.consecutive hpart.inLine

/-- An access of 16 bytes to lines of 64 bytes, with all bytes enabled. -/
def sixteenBytes (vaddr : Nat) (hburst : transferNeedsBurst vaddr 16 64 = true)
    (hwrap : vaddr + 16 < 2 ^ 64) : SplitAccess where
  request :=
    { vaddr := vaddr, size := 16, paddr := 0, flags := noFlags
      localAccess := false, byteEnable := List.replicate 16 true, useCVUValue := false }
  lineBits := 6
  lineBits_lt := by decide
  size_lt := show 16 < 2 ^ 32 by decide
  length_byteEnable := rfl
  burst := hburst
  wrap := hwrap

/-- It crosses a line at 56. -/
theorem partitions_iff_sixteen :
    (sixteenBytes 56 (by decide) (by decide)).request.Partitions 64 :=
  (partitions_iff (sixteenBytes 56 (by decide) (by decide))).mpr (by decide)

/-- The access that starts eight bytes before the last line. -/
def intoLastLine : SplitAccess :=
  sixteenBytes (2 ^ 64 - 72) (by decide +kernel) (by decide)

/-- Its second fragment has 64 bytes, although eight are left. -/
theorem lastFragment_too_long :
    intoLastLine.request.pieces 64 = [(2 ^ 64 - 72, 8), (2 ^ 64 - 64, 64)] ∧
      ¬ intoLastLine.request.Partitions 64 := by
  have hpieces : intoLastLine.request.pieces 64 = [(2 ^ 64 - 72, 8), (2 ^ 64 - 64, 64)] := by
    decide +kernel
  refine ⟨hpieces, fun hpart => ?_⟩
  have hmem : (2 ^ 64 - 64, 64) ∈ intoLastLine.request.pieces 64 := by
    rw [hpieces]
    exact mem_cons_of_mem _ mem_cons_self
  have hend := (hpart.consecutive.mem_le hmem).2
  revert hend
  decide +kernel

end SplitAccess

end Gem5.MyMinor
