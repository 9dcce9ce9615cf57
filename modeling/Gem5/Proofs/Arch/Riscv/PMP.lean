import Mathlib.Data.List.Find
import Mathlib.Tactic.Ring
import Gem5.Arch.Riscv.PMP
import Gem5.Proofs.Base.AddrRange

/-!
# `Gem5.Proofs.Arch.Riscv.PMP`: what `pmpCheck` grants

`Granted` is the rule for the registers: the lowest-numbered active entry whose region holds
any byte of the access decides. `pmpCheck` looks at the ranges of its table instead. The table
always holds the ranges of the current registers (`Reflects`), but a range is shorter than the
region of its entry, and an entry that holds only a part of the access is passed over.
`Fits` says, in the bounds of the regions, when the two answers are the same whatever the
permission bits are: `pmpCheck_granted_iff`.
-/

namespace Gem5.Arch.Riscv

open Function List Gem5.Base Gem5.Lib

/-! ### The rule -/

/-- The registers. -/
structure PmpRegs where
  cfg : Nat → BitVec 8
  addr : Nat → BitVec 64

/-- The bytes from `lo` up to `hi`. -/
structure Region where
  lo : Nat
  hi : Nat
  deriving Repr, DecidableEq

namespace Region

/-- The region holds a byte of the access. -/
def HoldsAny (r : Region) (req : Request) : Prop :=
  ∃ b, (r.lo ≤ b ∧ b < r.hi) ∧ req.paddr.toNat ≤ b ∧ b < req.paddr.toNat + req.size.toNat

/-- The region holds all bytes of the access. -/
def HoldsAll (r : Region) (req : Request) : Prop :=
  ∀ b, req.paddr.toNat ≤ b → b < req.paddr.toNat + req.size.toNat → r.lo ≤ b ∧ b < r.hi

variable {r : Region} {req : Request}

/-- A common byte, in bounds. -/
theorem holdsAny_iff : r.HoldsAny req ↔
    max r.lo req.paddr.toNat < min r.hi (req.paddr.toNat + req.size.toNat) := by
  constructor
  · rintro ⟨b, ⟨hlo, hhi⟩, hp, hn⟩
    omega
  · intro h
    exact ⟨max r.lo req.paddr.toNat, by omega, by omega, by omega⟩

/-- All bytes, in bounds. -/
theorem holdsAll_iff : r.HoldsAll req ↔ req.size.toNat = 0 ∨
    r.lo ≤ req.paddr.toNat ∧ req.paddr.toNat + req.size.toNat ≤ r.hi := by
  constructor
  · intro h
    by_cases hzero : req.size.toNat = 0
    · exact .inl hzero
    · have hfirst := h req.paddr.toNat (by omega) (by omega)
      have hlast := h (req.paddr.toNat + req.size.toNat - 1) (by omega) (by omega)
      omega
  · rintro h b hp hn
    omega

instance : Decidable (r.HoldsAny req) := decidable_of_iff _ holdsAny_iff.symm

instance : Decidable (r.HoldsAll req) := decidable_of_iff _ holdsAll_iff.symm

end Region

/-- The lowest-numbered entry with a property. -/
def lowest (entries : Nat) (test : Nat → Bool) : Option Nat :=
  (List.range entries).find? test

theorem lowest_eq_some {entries i : Nat} {test : Nat → Bool} :
    lowest entries test = some i ↔ test i = true ∧ i < entries ∧ ∀ j < i, test j = false := by
  rw [lowest, find?_range_eq_some]
  simp

theorem lowest_eq_none {entries : Nat} {test : Nat → Bool} :
    lowest entries test = none ↔ ∀ i < entries, test i = false := by
  simp [lowest]

/-- The number of one bits at the low end: the place of the lowest zero bit. -/
def trailingOnes (a : BitVec 64) : Nat :=
  ((List.range 64).find? fun i => !a.getLsbD i).getD 64

namespace PmpRegs

variable (regs : PmpRegs) (i : Nat)

/-- The address register of the entry before, and 0 for the first entry. -/
def prev : BitVec 64 :=
  if i = 0 then 0 else regs.addr (i - 1)

/-- The region of an entry. -/
def region : Region :=
  let a := (regs.addr i).toNat
  match PMP.pmpGetAField (regs.cfg i) with
  | .off => { lo := 0, hi := 0 }
  | .tor => { lo := 4 * (regs.prev i).toNat, hi := 4 * a }
  | .na4 => { lo := 4 * a, hi := 4 * a + 4 }
  | .napot =>
    let t := trailingOnes (regs.addr i)
    let base := 4 * a / 2 ^ (t + 2) * 2 ^ (t + 2)
    { lo := base, hi := base + 2 ^ (t + 3) }

/-- A write to a register. -/
def write : PMP.Write → PmpRegs
  | .addr i a => { regs with addr := update regs.addr i a }
  | .cfg i c => { regs with cfg := update regs.cfg i c }

/-- The registers at the start. -/
def zero : PmpRegs :=
  { cfg := fun _ => 0, addr := fun _ => 0 }

/-- The range that the registers of an entry give. -/
def range : AddrRange :=
  PMP.pmpRange (regs.prev i) (regs.addr i) (regs.cfg i)

variable (entries : Nat) (req : Request)

/-- The access meets the region of an active entry. -/
def touched (i : Nat) : Bool :=
  PMP.active (regs.cfg i) && decide ((regs.region i).HoldsAny req)

/-- The region of an entry holds all of the access, and the entry permits it. -/
def allows (mode : Mode) (i : Nat) : Bool :=
  decide ((regs.region i).HoldsAll req) && PMP.permits (regs.cfg i) mode

/-- No entry is active, or the lowest-numbered active entry whose region holds any byte of the
access holds all of it and permits it. -/
def Granted (mode : Mode) : Prop :=
  (∀ i < entries, PMP.active (regs.cfg i) = false) ∨
    (lowest entries (regs.touched req)).any (regs.allows req mode) = true

/-- What the test of `pmpCheck` comes to for an entry. The access and two more bytes have to be in
the region, except that a TOR entry with the address 0 takes every access from the start of its
region on, and an NA4 entry takes only an access to the first bytes of memory. -/
def passes (i : Nat) : Bool :=
  let first := req.paddr.toNat
  let last := (first + req.size.toNat) % 2 ^ 64
  let r := regs.region i
  match PMP.pmpGetAField (regs.cfg i) with
  | .off => false
  | .tor =>
    if regs.addr i = 0 then r.lo ≤ first ∧ first < 2 ^ 64 - 1 ∧ r.lo ≤ last ∧ last < 2 ^ 64 - 1
    else r.lo ≤ first ∧ first + req.size.toNat + 1 < r.hi
  | .na4 => regs.addr i = 0 ∧ first + req.size.toNat < 3
  | .napot => r.lo ≤ first ∧ first + req.size.toNat + 1 < r.hi

/-- When the check follows the rule. Take the lowest-numbered entry whose region meets the access or
that passes. Both are the case; or the region holds only a part of the access, and no later entry
passes. -/
def Fits : Prop :=
  ∀ i ∈ lowest entries fun i => regs.touched req i || regs.passes req i,
    regs.touched req i = true ∧ (regs.passes req i = true ∨ ¬ (regs.region i).HoldsAll req ∧
      ∀ j < entries, i < j → regs.passes req j = false)

/-- The entry of the table for the current registers. -/
def entry : PmpEntry :=
  { pmpAddr := regs.range i, rawAddr := regs.addr i, pmpCfg := regs.cfg i }

end PmpRegs

namespace PMP

/-! ### The table reflects the registers -/

/-- The table holds the registers and their ranges. -/
structure Reflects (p : PMP) (entries : Nat) (regs : PmpRegs) : Prop where
  table : p.pmpTable = (List.range entries).map regs.entry
  rules : p.numRules = p.pmpTable.countP fun e => active e.pmpCfg

variable {p p' : PMP} {entries : Nat} {regs : PmpRegs}

/-- A new table. -/
theorem reflects_new (entries : Nat) : (new entries).Reflects entries .zero := by
  have hentry : ∀ i, PmpRegs.zero.entry i = emptyEntry := by
    intro i
    simp only [PmpRegs.entry, PmpRegs.range, PmpRegs.zero]
    rfl
  constructor
  · rw [new, funext hentry]
    simp
  · rw [new]
    simp only [countP_replicate]
    rfl

/-- An update leaves the registers alone. -/
theorem prevAddr_pmpUpdateRule (i j : Nat) :
    prevAddr (p.pmpUpdateRule i).pmpTable j = prevAddr p.pmpTable j := by
  unfold prevAddr
  split
  · simp only [pmpUpdateRule, getElem?_modify]
    cases p.pmpTable[j - 1]? <;> simp [apply_ite]
  · rfl

/-- The entry of the table with its range computed anew. -/
def refreshed (p : PMP) (i : Nat) (e : PmpEntry) : PmpEntry :=
  { e with pmpAddr := pmpRange (prevAddr p.pmpTable i) e.rawAddr e.pmpCfg }

/-- An update computes the range of one entry. -/
theorem getElem?_pmpUpdateRule (i j : Nat) : (p.pmpUpdateRule i).pmpTable[j]? =
      (p.pmpTable[j]?).map fun e => if i = j then p.refreshed i e else e := by
  simp only [pmpUpdateRule, getElem?_modify, refreshed]
  by_cases hij : i = j <;> simp [hij]

/-- The loop of `pmpUpdateAddr` computes the ranges of the entries that it visits. -/
theorem getElem?_updateRules (is : List Nat) (j : Nat) : (is.foldl pmpUpdateRule p).pmpTable[j]? =
      (p.pmpTable[j]?).map fun e => if j ∈ is then p.refreshed j e else e := by
  induction is generalizing p with
  | nil => simp
  | cons i is ih =>
    rw [foldl_cons, ih, getElem?_pmpUpdateRule, Option.map_map]
    congr 1
    funext e
    simp only [refreshed, prevAddr_pmpUpdateRule, mem_cons]
    by_cases hij : i = j
    · subst hij
      simp
    · simp [hij, show j ≠ i from fun h => hij h.symm]

variable {is : List Nat}

/-- Each update counts the active entries. -/
theorem rules_updateRules (h : is ≠ []) : (is.foldl pmpUpdateRule p).numRules =
      (is.foldl pmpUpdateRule p).pmpTable.countP fun e => active e.pmpCfg := by
  induction is generalizing p with
  | nil => exact absurd rfl h
  | cons i is ih =>
    cases is with
    | nil => rfl
    | cons =>
      rw [foldl_cons]
      exact ih (by simp)

section
variable (h : p.Reflects entries regs)
include h

/-- A register of an entry is written, and the ranges of the entries `is` are computed anew. -/
theorem Reflects.modify {regs' : PmpRegs} {i : Nat} {f : PmpEntry → PmpEntry} (his : is ≠ [])
    (hf : ∀ j < entries, ∃ r, (if i = j then f (regs.entry j) else regs.entry j) =
      { pmpAddr := r, rawAddr := regs'.addr j, pmpCfg := regs'.cfg j } ∧
        (j ∉ is → r = regs'.range j)) :
    (is.foldl pmpUpdateRule { p with pmpTable := p.pmpTable.modify i f }).Reflects entries regs' := by
  have hregs : ∀ j < entries, ∃ r, (p.pmpTable.modify i f)[j]? =
      some { pmpAddr := r, rawAddr := regs'.addr j, pmpCfg := regs'.cfg j } ∧
        (j ∉ is → r = regs'.range j) := by
    intro j hj
    obtain ⟨r, hr, hrange⟩ := hf j hj
    refine ⟨r, ?_, hrange⟩
    rw [getElem?_modify, h.table, getElem?_map, getElem?_range hj, ← hr]
    rfl
  refine ⟨ext_getElem? fun j => ?_, rules_updateRules his⟩
  rw [getElem?_updateRules, getElem?_map]
  by_cases hj : j < entries
  · obtain ⟨r, hentry, hr⟩ := hregs j hj
    have hprev : prevAddr (p.pmpTable.modify i f) j = regs'.prev j := by
      cases j with
      | zero => rfl
      | succ j =>
        obtain ⟨r', hentry', -⟩ := hregs j (by omega)
        simp [prevAddr, PmpRegs.prev, hentry']
    rw [hentry, getElem?_range hj, Option.map_some]
    by_cases hmem : j ∈ is
    · simp [hmem, refreshed, PmpRegs.entry, PmpRegs.range, hprev]
    · simp [hmem, PmpRegs.entry, hr hmem]
  · rw [getElem?_eq_none (by simpa [h.table] using hj), getElem?_eq_none (by simpa using hj)]
    rfl

/-- Every write keeps the table in step with the registers. -/
theorem Reflects.write {w : Write} (hw : p.write w = some p') :
    p'.Reflects entries (regs.write w) := by
  have hlength : p.pmpTable.length = entries := by simp [h.table]
  cases w with
  | addr i a =>
    simp only [PMP.write, pmpUpdateAddr, length_modify, hlength, Option.ite_none_right_eq_some] at hw
    obtain ⟨hi, hp⟩ := hw
    cases hp
    refine h.modify (by rw [ne_eq, range_eq_nil]; omega) fun j hj =>
      ⟨regs.range j, ?_, fun hj' => absurd (mem_range.mpr hj) hj'⟩
    split <;> simp_all [PmpRegs.entry, PmpRegs.write, eq_comm]
  | cfg i =>
    simp only [PMP.write, pmpUpdateCfg, hlength, Option.ite_none_right_eq_some] at hw
    obtain ⟨hi, hp⟩ := hw
    cases hp
    -- one update, of the entry that was written
    show ([i].foldl pmpUpdateRule _).Reflects _ _
    refine h.modify (by simp) fun j hj => ⟨regs.range j, ?_, fun hji => ?_⟩
    · split <;> simp_all [PmpRegs.entry, PmpRegs.write, eq_comm]
    · have hji : j ≠ i := by simpa using hji
      simp [PmpRegs.range, PmpRegs.prev, PmpRegs.write, update_of_ne hji]

/-- And so does every sequence of writes. -/
theorem Reflects.writes {ws : List Write}
    (hrun : run PMP.write p ws = some p') : p'.Reflects entries (ws.foldl PmpRegs.write regs) := by
  induction ws generalizing p regs with
  | nil =>
    cases hrun
    exact h
  | cons w ws ih =>
    obtain ⟨p₁, hw, hrest⟩ := run_cons_eq_some hrun
    exact ih (h.write hw) hrest

end

/-! ### The check -/

section
variable {req : Request} {mode : Mode}

/-- A range without interleaving. -/
theorem contains_plain {start end_ a : BitVec 64} :
    (AddrRange.plain start end_).contains a = true ↔ start ≤ a ∧ a < end_ :=
  AddrRange.contains_iff_spans rfl rfl a

/-- An entry that is off holds nothing. -/
theorem active_of_holds {i : Nat} (h : holds (regs.range i) req = true) :
    active (regs.cfg i) = true := by
  by_contra hoff
  have hfield : pmpGetAField (regs.cfg i) = .off := by simpa [active] using hoff
  rw [holds, PmpRegs.range, pmpRange, hfield, Bool.and_eq_true, contains_plain] at h
  cases h.1.2

/-- The loop of `pmpCheck` takes the first entry whose range holds the access. -/
theorem checkLoop_eq_none {fault : AddressFault} (is : List Nat) :
    checkLoop req mode fault none (is.map regs.entry) = none ↔
      (is.find? fun i => holds (regs.range i) req).any (fun i => permits (regs.cfg i) mode)
        = true := by
  induction is with
  | nil => simp [checkLoop]
  | cons i is ih =>
    rw [map_cons, checkLoop, find?_cons]
    cases hholds : holds (regs.range i) req with
    | true => simp [PmpRegs.entry, hholds, active_of_holds hholds]
    | false =>
      rw [← ih]
      simp [PmpRegs.entry, hholds]

/-- What `pmpCheck` grants in S- and U-mode. -/
theorem pmpCheck_eq_none (h : p.Reflects entries regs) {pmode : PrivilegeMode} {status : Status}
    (hpmode : pmode ≠ .machine) (hmprv : status.mprv = false) (vaddr : BitVec 64) :
    p.pmpCheck req mode pmode status vaddr = none ↔ (∀ i < entries, active (regs.cfg i) = false) ∨
      (lowest entries fun i => holds (regs.range i) req).any (fun i => permits (regs.cfg i) mode)
        = true := by
  have hshould : shouldCheckPMP pmode mode status = true := by
    cases mode <;> simp [shouldCheckPMP, hpmode, hmprv]
  have hrules : p.numRules = 0 ↔ ∀ i < entries, active (regs.cfg i) = false := by
    rw [h.rules, h.table]
    simp [PmpRegs.entry]
  unfold pmpCheck
  rw [hshould, if_neg (by simp)]
  by_cases hnone : p.numRules = 0
  · rw [if_pos (by simp [hnone])]
    exact iff_of_true rfl (.inl (hrules.mp hnone))
  · rw [if_neg (by simp [hnone, hpmode]), h.table, checkLoop_eq_none]
    exact ⟨.inr, fun h => h.resolve_left fun hall => hnone (hrules.mpr hall)⟩

end

/-! ### Ranges and regions -/

section
variable {a : BitVec 64} {req : Request}

/-- An address register counts in words. -/
theorem toNat_shiftLeft_two (ha : a.toNat < 2 ^ 54) : (a <<< 2).toNat = 4 * a.toNat := by
  rw [BitVec.toNat_shiftLeft, Nat.shiftLeft_eq]
  omega

/-- The zeros below the lowest one of the complement. -/
theorem ctz64_not (a : BitVec 64) : ctz64 (~~~ a) = trailingOnes a := by
  rw [ctz64, trailingOnes]
  congr 1
  have hcongr : ∀ i ∈ range 64, (~~~ a).getLsbD i = !a.getLsbD i := by
    intro i hi
    rw [BitVec.getLsbD_not, decide_eq_true (mem_range.mp hi), Bool.true_and]
  rw [← head?_filter, ← head?_filter, filter_congr hcongr]

/-- An address below `2 ^ 54` has a zero bit. -/
theorem trailingOnes_le (ha : a.toNat < 2 ^ 54) : trailingOnes a ≤ 54 := by
  have hbit : a.getLsbD 54 = false := Nat.testBit_lt_two_pow ha
  rw [trailingOnes]
  cases hfind : (range 64).find? fun i => !a.getLsbD i with
  | none =>
    have := find?_eq_none.mp hfind 54 (by simp)
    exact absurd (by rw [hbit]; rfl) this
  | some =>
    obtain ⟨-, -, hfirst⟩ := find?_range_eq_some.mp hfind
    by_contra hlt
    have := hfirst 54 (by simpa using hlt)
    rw [hbit] at this
    cases this

/-- The low bits are cleared. -/
theorem mbits_eq_shift (a : BitVec 64) (t : Nat) : mbits a 63 t = (a >>> t) <<< t := by
  apply BitVec.eq_of_getLsbD_eq
  intro i hi
  rw [getLsbD_mbits, BitVec.getLsbD_shiftLeft]
  by_cases hit : t ≤ i
  · simp [hi, hit, Nat.add_sub_of_le hit]
  · simp [hit]

/-- The base of a NAPOT region: the address with the low bits cleared. -/
theorem toNat_napotBase (ha : a.toNat < 2 ^ 54) (t : Nat) :
    (mbits a 63 t <<< 2).toNat = 4 * a.toNat / 2 ^ (t + 2) * 2 ^ (t + 2) := by
  have hle : a.toNat / 2 ^ t * 2 ^ t ≤ a.toNat := Nat.div_mul_le_self _ _
  have hmbits : (mbits a 63 t).toNat = a.toNat / 2 ^ t * 2 ^ t := by
    rw [mbits_eq_shift, BitVec.toNat_shiftLeft, BitVec.toNat_ushiftRight,
      Nat.shiftRight_eq_div_pow]
    omega
  have hdiv : 4 * a.toNat / 2 ^ (t + 2) = a.toNat / 2 ^ t := by
    rw [Nat.pow_add, Nat.mul_comm (2 ^ t), show 2 ^ 2 = 4 from rfl,
      Nat.mul_div_mul_left _ _ (by decide)]
  rw [toNat_shiftLeft_two (by omega), hmbits, hdiv]
  ring

/-- The test of `pmpCheck` for a plain range that ends early enough for no sum to wrap. -/
theorem holds_plain_iff {start end_ : BitVec 64} (hend : end_.toNat < 2 ^ 63) :
    holds (AddrRange.plain start end_) req = true ↔
      start.toNat ≤ req.paddr.toNat ∧ req.paddr.toNat + req.size.toNat < end_.toNat := by
  have hsize := req.size.isLt
  rw [holds, Bool.and_eq_true, contains_plain, contains_plain]
  simp only [BitVec.le_def, BitVec.lt_def, BitVec.toNat_add, BitVec.toNat_setWidth]
  omega

section
variable (haddr : ∀ i, (regs.addr i).toNat < 2 ^ 54) (i : Nat)
include haddr

/-- The test of `pmpCheck` in the bounds of the region. -/
theorem holds_range_eq : holds (regs.range i) req = regs.passes req i := by
  have ha := haddr i
  have hprev : (regs.prev i).toNat < 2 ^ 54 := by
    unfold PmpRegs.prev
    split
    · decide
    · exact haddr _
  rw [Bool.eq_iff_iff]
  unfold PmpRegs.passes PmpRegs.region PmpRegs.range pmpRange
  cases hfield : pmpGetAField (regs.cfg i) with
  | off =>
    rw [holds, Bool.and_eq_true, contains_plain]
    exact iff_of_false (fun h => by cases h.1.2) Bool.false_ne_true
  | tor =>
    dsimp only
    by_cases hzero : regs.addr i = 0
    · -- the end of the range is the largest address
      rw [if_pos hzero, hzero, holds, Bool.and_eq_true, contains_plain, contains_plain]
      have hsize := req.size.isLt
      have hstart := toNat_shiftLeft_two hprev
      have hmax : ((0 : BitVec 64) <<< 2 - 1).toNat = 2 ^ 64 - 1 := by decide
      simp only [BitVec.le_def, BitVec.lt_def, BitVec.toNat_add, BitVec.toNat_setWidth, hstart, hmax]
      rw [Nat.mod_eq_of_lt (show req.size.toNat < 2 ^ 64 by omega), decide_eq_true_iff]
      omega
    · have hpos : (regs.addr i).toNat ≠ 0 := fun h => hzero (BitVec.eq_of_toNat_eq h)
      have hend : ((regs.addr i <<< 2) - 1).toNat = 4 * (regs.addr i).toNat - 1 := by
        simp
        omega
      rw [if_neg hzero, holds_plain_iff (by rw [hend]; omega), hend, toNat_shiftLeft_two hprev,
        decide_eq_true_iff]
      omega
  | na4 =>
    dsimp only
    have hend : (regs.addr i + 4 - 1).toNat = (regs.addr i).toNat + 3 := by
      simp
      omega
    have hzero : regs.addr i = 0 ↔ (regs.addr i).toNat = 0 :=
      ⟨fun h => h ▸ rfl, fun h => BitVec.eq_of_toNat_eq h⟩
    rw [holds_plain_iff (by rw [hend]; omega), hend, toNat_shiftLeft_two ha, decide_eq_true_iff,
      hzero]
    omega
  | napot =>
    dsimp only
    have hne : regs.addr i ≠ -1 := by
      intro heq
      rw [heq] at ha
      exact absurd ha (by decide)
    rw [pmpDecodeNapot, if_neg hne, ctz64_not]
    have ht := trailingOnes_le ha
    have hbase := toNat_napotBase ha (trailingOnes (regs.addr i))
    have hle : 4 * (regs.addr i).toNat / 2 ^ (trailingOnes (regs.addr i) + 2) *
        2 ^ (trailingOnes (regs.addr i) + 2) ≤ 4 * (regs.addr i).toNat := Nat.div_mul_le_self _ _
    have hpow : 2 ^ (trailingOnes (regs.addr i) + 3) ≤ 2 ^ 57 :=
      Nat.pow_le_pow_right (by decide) (by omega)
    generalize trailingOnes (regs.addr i) = t at *
    have hpos : 0 < 2 ^ (t + 3) := Nat.two_pow_pos _
    have hend : (mbits (regs.addr i) 63 t <<< 2 + BitVec.ofNat 64 (2 ^ (t + 3) - 1)).toNat =
        4 * (regs.addr i).toNat / 2 ^ (t + 2) * 2 ^ (t + 2) + (2 ^ (t + 3) - 1) := by
      rw [BitVec.toNat_add, BitVec.toNat_ofNat]
      omega
    rw [holds_plain_iff (by rw [hend]; omega), hend, hbase, decide_eq_true_iff]
    omega

/-- An access that an entry meets and passes is inside the region. -/
theorem holdsAll_of_passes {i : Nat} (hany : (regs.region i).HoldsAny req)
    (h : regs.passes req i = true) : (regs.region i).HoldsAll req := by
  have ha := haddr i
  rw [Region.holdsAny_iff] at hany
  rw [Region.holdsAll_iff]
  refine .inr ?_
  unfold PmpRegs.passes PmpRegs.region at *
  cases hfield : pmpGetAField (regs.cfg i) with
  | off =>
    simp only [hfield] at hany
    omega
  | tor =>
    simp only [hfield] at hany h ⊢
    split at h
    case isTrue hzero =>
      -- the region of such an entry is empty
      rw [hzero] at hany
      simp at hany
    case isFalse =>
      have h := of_decide_eq_true h
      omega
  | na4 =>
    simp only [hfield, decide_eq_true_eq] at hany h ⊢
    have hzero : (regs.addr i).toNat = 0 := by rw [h.1]; rfl
    omega
  | napot =>
    simp only [hfield, decide_eq_true_eq] at hany h ⊢
    omega

end

end

/-! ### When the check follows the rule -/

section
variable {req : Request} {mode : Mode}

/-- Where the entries fit, both searches end with the same verdict. -/
theorem verdicts_eq (haddr : ∀ i, (regs.addr i).toNat < 2 ^ 54) (hfits : regs.Fits entries req) :
    (lowest entries (regs.passes req)).any (fun i => permits (regs.cfg i) mode)
      = (lowest entries (regs.touched req)).any (regs.allows req mode) := by
  -- the first entry that one of them finds
  cases hfind : lowest entries fun i => regs.touched req i || regs.passes req i with
  | none =>
    have hnone := lowest_eq_none.mp hfind
    simp only [Bool.or_eq_false_iff] at hnone
    rw [lowest_eq_none.mpr fun i hi => (hnone i hi).1, lowest_eq_none.mpr fun i hi => (hnone i hi).2]
    rfl
  | some i =>
    obtain ⟨-, hi, hbefore⟩ := lowest_eq_some.mp hfind
    simp only [Bool.or_eq_false_iff] at hbefore
    obtain ⟨htouched, hcase⟩ := hfits i hfind
    have hany : (regs.region i).HoldsAny req := by
      simp only [PmpRegs.touched, Bool.and_eq_true, decide_eq_true_eq] at htouched
      exact htouched.2
    rw [lowest_eq_some.mpr ⟨htouched, hi, fun j hj => (hbefore j hj).1⟩]
    rcases hcase with hpass | ⟨hpart, hlater⟩
    · rw [lowest_eq_some.mpr ⟨hpass, hi, fun j hj => (hbefore j hj).2⟩]
      simp [PmpRegs.allows, holdsAll_of_passes haddr hany hpass]
    · -- the region holds a part of the access, and no entry passes
      have hnone : lowest entries (regs.passes req) = none := by
        refine lowest_eq_none.mpr fun j hj => ?_
        rcases Nat.lt_trichotomy j i with hlt | rfl | hlt
        · exact (hbefore j hlt).2
        · exact Bool.eq_false_iff.mpr fun h => hpart (holdsAll_of_passes haddr hany h)
        · exact hlater j hj hlt
      rw [hnone]
      simp [PmpRegs.allows, hpart]

/-- The addresses that are written are the ones in the registers. -/
theorem addr_lt_of_writes {ws : List Write} (h : ∀ i a, Write.addr i a ∈ ws → a.toNat < 2 ^ 54)
    {r : PmpRegs} (hregs : ∀ i, (r.addr i).toNat < 2 ^ 54) (j : Nat) :
    ((ws.foldl PmpRegs.write r).addr j).toNat < 2 ^ 54 := by
  induction ws generalizing r with
  | nil => exact hregs j
  | cons w ws ih =>
    refine ih (fun i a hmem => h i a (mem_cons_of_mem w hmem)) fun k => ?_
    cases w with
    | cfg => exact hregs k
    | addr i a =>
      show (update r.addr i a k).toNat < 2 ^ 54
      by_cases hk : k = i
      · subst hk
        rw [update_self]
        exact h k a mem_cons_self
      · rw [update_of_ne hk]
        exact hregs k

/-- The registers after some writes. -/
def regsAfter (ws : List Write) : PmpRegs :=
  ws.foldl PmpRegs.write .zero

/-- After any writes, with addresses below `2 ^ 54`, and for any access in S- or U-mode with
`mstatus.mprv` clear: where the entries fit, `pmpCheck` follows the rule, whatever the permission
bits are. -/
theorem pmpCheck_granted_iff (entries : Nat) (ws : List Write) (p : PMP)
    (hrun : run PMP.write (new entries) ws = some p)
    (haddr : ∀ i a, Write.addr i a ∈ ws → a.toNat < 2 ^ 54) (req : Request) (mode : Mode)
    (pmode : PrivilegeMode) (status : Status) (vaddr : BitVec 64) (hpmode : pmode ≠ .machine)
    (hmprv : status.mprv = false) (hfits : (regsAfter ws).Fits entries req) :
    p.pmpCheck req mode pmode status vaddr = none ↔ (regsAfter ws).Granted entries req mode := by
  have hreflects : p.Reflects entries (regsAfter ws) := (reflects_new entries).writes hrun
  have hbound : ∀ i, ((regsAfter ws).addr i).toNat < 2 ^ 54 :=
    addr_lt_of_writes haddr fun _ => show (0 : BitVec 64).toNat < 2 ^ 54 by decide
  simp only [pmpCheck_eq_none hreflects hpmode hmprv, holds_range_eq hbound, PmpRegs.Granted]
  rw [verdicts_eq hbound hfits]

end

/-- The writes for one NAPOT entry: the 4096 bytes at 0x1000, readable. -/
def readablePage : List Write :=
  [.addr 0 0x5ff, .cfg 0 0x19]

/-- A read of 8 bytes. -/
def readAt (paddr : BitVec 64) : Request :=
  { vaddr := none, paddr := paddr, size := 8 }

/-- A read at the start of the page is granted. -/
theorem pmpCheck_granted_iff_page :
    ∃ p, run PMP.write (new 1) readablePage = some p ∧
      (p.pmpCheck (readAt 0x1000) .read .user ⟨false, .user⟩ 0 = none ↔
        (regsAfter readablePage).Granted 1 (readAt 0x1000) .read) := by
  have haddr : ∀ i a, Write.addr i a ∈ readablePage → a.toNat < 2 ^ 54 := by
    intro i a h
    simp only [readablePage, mem_cons, Write.addr.injEq, reduceCtorEq, not_mem_nil, or_false] at h
    rw [h.2]
    decide
  refine ⟨_, rfl, pmpCheck_granted_iff 1 readablePage _ rfl haddr _ _ _ _ _ (by decide) rfl ?_⟩
  intro i hi
  obtain rfl : i = 0 := Nat.lt_one_iff.mp (lowest_eq_some.mp hi).2.1
  exact ⟨by decide +kernel, .inl (by decide +kernel)⟩

/-- Three accesses that are decided against the rule. The last 8 bytes of a readable page
cannot be read. A TOR entry whose address is 0 has an empty region, and grants every read. A
read that is half in a page without permissions is granted by a later entry. -/
theorem pmpCheck_against_rule : (∃ p, run PMP.write (new 1) readablePage = some p ∧
      p.pmpCheck (readAt 0x1ff8) .read .user ⟨false, .user⟩ 0 ≠ none ∧
      (regsAfter readablePage).Granted 1 (readAt 0x1ff8) .read) ∧
    (∃ p, run PMP.write (new 1) [.addr 0 0, .cfg 0 0x09] = some p ∧
      p.pmpCheck (readAt 0x1000) .read .user ⟨false, .user⟩ 0 = none ∧
      ¬ (regsAfter [.addr 0 0, .cfg 0 0x09]).Granted 1 (readAt 0x1000) .read) ∧
    ∃ p, run PMP.write (new 2) [.addr 0 0x5ff, .cfg 0 0x18, .addr 1 0x3fff, .cfg 1 0x19] = some p ∧
      p.pmpCheck (readAt 0x1ffc) .read .user ⟨false, .user⟩ 0 = none ∧
      ¬ (regsAfter [.addr 0 0x5ff, .cfg 0 0x18, .addr 1 0x3fff, .cfg 1 0x19]).Granted 2
        (readAt 0x1ffc) .read := by
  refine ⟨⟨_, rfl, by decide +kernel, .inr (by decide +kernel)⟩,
    ⟨_, rfl, by decide +kernel, ?_⟩, ⟨_, rfl, by decide +kernel, ?_⟩⟩
  · rintro (h | h)
    · exact absurd (h 0 (by decide)) (by decide +kernel)
    · exact absurd h (by decide +kernel)
  · rintro (h | h)
    · exact absurd (h 0 (by decide)) (by decide +kernel)
    · exact absurd h (by decide +kernel)

end PMP

end Gem5.Arch.Riscv
