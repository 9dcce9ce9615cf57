import Gem5.Lib.Run
import Gem5.MyMinor.CVU
import Mathlib.Data.List.Nodup

/-!
# `Gem5.Proofs.MyMinor.CVU`: the constant verification unit and its free list

The first part says what each method of the CVU does to one slot and to the free list.

`FreeListInv` says that the free list holds each invalid slot once and nothing else. An insertion
keeps it, and `storeInvalidate` keeps it exactly when the store matches no slot that is already
invalid (`freeListInv_storeInvalidate_iff`): the source pushes a matched slot without a look at its
`valid` flag. `freeList_duplicates` is a run where the list goes wrong, and `hit_was_inserted` holds
with a wrong list, too.

The free list holds slots of the table only (`freeInTable_run`), but the random draw can be one past
the end (`newEntryIndex_lt_iff`). The unit compares start addresses: `storeInvalidate_exact_iff`
says when a store takes out the entries whose bytes it writes.
-/

namespace Gem5.MyMinor.CVU

open List TableEntry

/-! ### Slots and the free list after each method -/

section
variable (c : CVU)

@[simp] theorem tableSize_new (n : Nat) : (new n).tableSize = n := rfl

theorem entry_new (n i : Nat) : (new n).entry i = zero := by
  simp only [entry, new, getD_eq_getElem?_getD, getElem?_replicate]
  split <;> rfl

@[simp] theorem tableSize_setEntry (i : Nat) (e : TableEntry) :
    (c.setEntry i e).tableSize = c.tableSize := rfl

@[simp] theorem invalidEntries_setEntry (i : Nat) (e : TableEntry) :
    (c.setEntry i e).invalidEntries = c.invalidEntries := rfl

/-- A write to a slot of the table changes that slot and no other. -/
theorem entry_setEntry (i j : Nat) (e : TableEntry) :
    (c.setEntry i e).entry j = if i = j ∧ i < c.tableSize then e else c.entry j := by
  simp only [entry, setEntry, getD_eq_getElem?_getD, getElem?_set, c.length_cvuTable]
  by_cases hij : i = j
  · subst hij
    by_cases hi : i < c.tableSize
    · simp [hi]
    · simp [hi, c.length_cvuTable]
  · simp [hij]

@[simp] theorem entry_addToInvalidateList (i j : Nat) :
    (c.addToInvalidateList i).entry j = c.entry j := rfl

/-- A slot past the end of the table reads as the zero entry. -/
theorem entry_of_tableSize_le {i : Nat} (hi : c.tableSize ≤ i) : c.entry i = zero := by
  have hlen : c.cvuTable.length ≤ i := by rw [c.length_cvuTable]; exact hi
  simp [entry, getElem?_eq_none hlen]

variable (e : TableEntry)

/-- The entry as `storeInvalidate` leaves it: a matching entry loses its `valid` flag. -/
def TableEntry.invalidated (vaddr paddr : Addr) : TableEntry :=
  if e.hasAddr vaddr paddr then { e with valid := false } else e

@[simp] theorem hasAddr_invalidated (v p vaddr paddr : Addr) :
    (e.invalidated vaddr paddr).hasAddr v p = e.hasAddr v p := by
  unfold invalidated
  split <;> rfl

variable (v p : Addr)

@[simp] theorem invalidated_invalidated :
    (e.invalidated v p).invalidated v p = e.invalidated v p := by
  cases hmatch : e.hasAddr v p with
  | false => simp [invalidated, hmatch]
  | true =>
    have hstill : ({ e with valid := false } : TableEntry).hasAddr v p = true := hmatch
    simp [invalidated, hmatch, hstill]

@[simp] theorem tableSize_invalidateAt (i : Nat) :
    (invalidateAt v p c i).tableSize = c.tableSize := by
  unfold invalidateAt
  split <;> rfl

/-- One iteration of the loop invalidates the slot it looks at and no other. -/
theorem entry_invalidateAt (i j : Nat) : (invalidateAt v p c i).entry j
      = if i = j then (c.entry j).invalidated v p else c.entry j := by
  unfold invalidateAt invalidated
  by_cases hmatch : (c.entry i).hasAddr v p = true
  · simp only [hmatch, if_true, entry_addToInvalidateList, entry_setEntry]
    by_cases hij : i = j
    · subst hij
      by_cases hi : i < c.tableSize
      · simp [hi, hmatch]
      · simp [hi, entry_of_tableSize_le c (Nat.le_of_not_lt hi), zero]
    · simp [hij]
  · by_cases hij : i = j
    · subst hij
      simp [hmatch]
    · simp [hmatch, hij]

/-- One iteration of the loop pushes its slot when the slot matches. -/
theorem invalidEntries_invalidateAt (i : Nat) : (invalidateAt v p c i).invalidEntries
      = c.invalidEntries ++ [i].filter fun j => (c.entry j).hasAddr v p := by
  unfold invalidateAt
  split <;> simp_all [addToInvalidateList]

end

/-- The loop over the slots `is`: the table size, each slot and the free list after it.
The induction is on the slots still to visit. It goes through because the address test
does not read the `valid` flag, the only field the loop changes. -/
theorem foldl_invalidateAt (v p : Addr) (is : List Nat) (c : CVU) :
    (is.foldl (invalidateAt v p) c).tableSize = c.tableSize ∧
    (∀ j, (is.foldl (invalidateAt v p) c).entry j
      = if j ∈ is then (c.entry j).invalidated v p else c.entry j) ∧
    (is.foldl (invalidateAt v p) c).invalidEntries
      = c.invalidEntries ++ is.filter fun j => (c.entry j).hasAddr v p := by
  induction is generalizing c with
  | nil => simp
  | cons i is ih =>
    obtain ⟨hsize, hentry, hfree⟩ := ih (invalidateAt v p c i)
    have hmatch : ∀ j, ((invalidateAt v p c i).entry j).hasAddr v p = (c.entry j).hasAddr v p := by
      intro j
      rw [entry_invalidateAt]
      split <;> simp
    refine ⟨by simpa using hsize, ?_, ?_⟩
    · intro j
      rw [foldl_cons, hentry j, entry_invalidateAt]
      by_cases hij : i = j
      · subst hij
        simp
      · simp [hij, Ne.symm hij]
    · rw [foldl_cons, hfree, invalidEntries_invalidateAt]
      simp only [hmatch, append_assoc, filter_cons, filter_nil]
      split <;> rfl

section
variable (c : CVU)

@[simp] theorem tableSize_storeInvalidate (v p : Addr) :
    (c.storeInvalidate v p).tableSize = c.tableSize :=
  (foldl_invalidateAt v p _ c).1

/-- `storeInvalidate` visits every slot. -/
theorem entry_storeInvalidate (v p : Addr) (i : Nat) :
    (c.storeInvalidate v p).entry i = (c.entry i).invalidated v p := by
  rw [storeInvalidate, (foldl_invalidateAt v p _ c).2.1 i]
  split
  · rfl
  · rename_i hi
    have hzero := entry_of_tableSize_le c (Nat.le_of_not_lt (by simpa using hi))
    simp [hzero, invalidated, zero]

/-- `storeInvalidate` pushes the matching slots in table order, valid or not. -/
theorem invalidEntries_storeInvalidate (v p : Addr) : (c.storeInvalidate v p).invalidEntries
      = c.invalidEntries
        ++ (List.range c.tableSize).filter fun i => (c.entry i).hasAddr v p :=
  (foldl_invalidateAt v p _ c).2.2

/-- A slot is valid after `storeInvalidate` when it was valid and does not match. -/
theorem valid_storeInvalidate (v p : Addr) (i : Nat) : ((c.storeInvalidate v p).entry i).valid
      = ((c.entry i).valid && !(c.entry i).hasAddr v p) := by
  rw [entry_storeInvalidate, invalidated]
  split <;> simp_all

variable (data : Word) (index : Nat) (v p : Addr) (rand : Nat)

@[simp] theorem tableSize_addEntryToCVU :
    (c.addEntryToCVU data index v p rand).tableSize = c.tableSize := rfl

@[simp] theorem invalidEntries_addEntryToCVU :
    (c.addEntryToCVU data index v p rand).invalidEntries = c.invalidEntries.tail := rfl

/-- The slots after an insertion. -/
theorem entry_addEntryToCVU (i : Nat) : (c.addEntryToCVU data index v p rand).entry i
      = if c.newEntryIndex rand = i ∧ c.newEntryIndex rand < c.tableSize then
          { valid := true, vaddr := v, paddr := p, index := index, data := data }
        else c.entry i :=
  entry_setEntry c (c.newEntryIndex rand) i _

/-- A hit of `verifyEntryInCVU`: the load is classified constant and a valid entry has
its virtual address, its LVPT index and its predicted value. -/
theorem verifyEntryInCVU_eq_true (constant : Bool) :
    c.verifyEntryInCVU v index data constant = true ↔
      constant = true ∧ ∃ i < c.tableSize, (c.entry i).valid = true ∧
        (c.entry i).vaddr = v ∧ (c.entry i).index = index ∧ (c.entry i).data = data := by
  simp [verifyEntryInCVU, verifies, and_assoc]

end

/-! ### The free list -/

/-- The free list and the `valid` flags describe the same set of slots: the list has no
duplicates, holds only slots of the table, and holds exactly the invalid ones. -/
structure FreeListInv (c : CVU) : Prop where
  nodup : c.invalidEntries.Nodup
  lt : ∀ i ∈ c.invalidEntries, i < c.tableSize
  mem_iff : ∀ i < c.tableSize, i ∈ c.invalidEntries ↔ (c.entry i).valid = false

/-- The constructor establishes the invariant. -/
theorem freeListInv_new (n : Nat) : FreeListInv (new n) := by
  refine ⟨nodup_range, ?_, ?_⟩
  · intro i hi
    simpa [new] using hi
  · intro i hi
    simp only [entry_new, zero, iff_true]
    simpa [new] using hi

namespace FreeListInv
variable {c : CVU}

section
variable (h : FreeListInv c)
include h

/-- The list is no longer than the table: it is duplicate free and inside the range. -/
theorem length_le : c.invalidEntries.length ≤ c.tableSize := by
  have hsub : c.invalidEntries ⊆ range c.tableSize := by
    intro i hi
    simpa using h.lt i hi
  simpa using h.nodup.length_le_of_subset hsub

/-- While some slot is invalid, an insertion writes an invalid slot of the table. -/
theorem newEntryIndex_invalid (rand : Nat)
    (hfree : ∃ i < c.tableSize, (c.entry i).valid = false) :
    c.newEntryIndex rand < c.tableSize ∧ (c.entry (c.newEntryIndex rand)).valid = false := by
  obtain ⟨i, hi, hinv⟩ := hfree
  have hmem := (h.mem_iff i hi).mpr hinv
  cases hlist : c.invalidEntries with
  | nil => simp [hlist] at hmem
  | cons front =>
    have hfront : front ∈ c.invalidEntries := by simp [hlist]
    have hindex : c.newEntryIndex rand = front := by simp [newEntryIndex, hlist]
    rw [hindex]
    exact ⟨h.lt front hfront, (h.mem_iff front (h.lt front hfront)).mp hfront⟩

/-- An insertion keeps the invariant. With an empty free list every slot is valid, so
the replaced slot is valid before and after. -/
theorem addEntryToCVU (data : Word) (index : Nat) (v p : Addr)
    (rand : Nat) : FreeListInv (c.addEntryToCVU data index v p rand) := by
  refine ⟨h.nodup.sublist (tail_sublist _), ?_, ?_⟩
  · intro i hi
    exact h.lt i (mem_of_mem_tail hi)
  · intro i hi
    replace hi : i < c.tableSize := hi
    rw [entry_addEntryToCVU, invalidEntries_addEntryToCVU]
    have hold := h.mem_iff i hi
    have hnodup := h.nodup
    cases hlist : c.invalidEntries with
    | nil =>
      -- No slot is invalid, and the written slot gets a valid entry.
      have hvalid : (c.entry i).valid = true := by simpa [hlist] using hold
      split <;> simp [hvalid]
    | cons front =>
      have hindex : c.newEntryIndex rand = front := by simp [newEntryIndex, hlist]
      rw [hlist] at hold hnodup
      rw [hindex]
      by_cases hif : front = i
      · subst hif
        simpa [hi] using (nodup_cons.mp hnodup).1
      · simpa [hif, Ne.symm hif] using hold

end

end FreeListInv

variable {c c' : CVU}

/-- `storeInvalidate` keeps the invariant exactly when every slot it matches is valid.
It pushes an already invalid slot a second time. -/
theorem freeListInv_storeInvalidate_iff (h : FreeListInv c) (v p : Addr) :
    FreeListInv (c.storeInvalidate v p) ↔
      ∀ i < c.tableSize, (c.entry i).hasAddr v p = true → (c.entry i).valid = true := by
  constructor
  · intro hafter i hi hmatch
    by_contra hinvalid
    have hold : i ∈ c.invalidEntries := (h.mem_iff i hi).mpr (by simpa using hinvalid)
    have hnodup := hafter.nodup
    rw [invalidEntries_storeInvalidate] at hnodup
    have hnew : i ∈ (range c.tableSize).filter fun i => (c.entry i).hasAddr v p := by
      simp [hi, hmatch]
    exact (nodup_append.mp hnodup).2.2 i hold i hnew rfl
  · intro hvalid
    refine ⟨?_, ?_, ?_⟩
    · rw [invalidEntries_storeInvalidate]
      refine nodup_append.mpr ⟨h.nodup, nodup_range.filter _, ?_⟩
      rintro i hold j hnew rfl
      have hi := h.lt i hold
      have hmatch : (c.entry i).hasAddr v p = true := by simpa [hi] using hnew
      have hinvalid := (h.mem_iff i hi).mp hold
      simp [hvalid i hi hmatch] at hinvalid
    · intro i hi
      rw [invalidEntries_storeInvalidate, mem_append] at hi
      rw [tableSize_storeInvalidate]
      rcases hi with hold | hnew
      · exact h.lt i hold
      · exact mem_range.mp (mem_of_mem_filter hnew)
    · intro i hi
      replace hi : i < c.tableSize := by simpa using hi
      rw [invalidEntries_storeInvalidate, valid_storeInvalidate, mem_append, h.mem_iff i hi]
      cases (c.entry i).valid <;> simp [hi]

/-! ### Sequences of calls -/

/-- A call of a method that changes the unit. -/
inductive Call where
  | addEntryToCVU (data : Word) (lvptIndex : Nat) (vaddr paddr : Addr) (rand : Nat)
  | storeInvalidate (vaddr paddr : Addr)
  deriving Repr, DecidableEq

/-- The unit after a call. -/
def call (c : CVU) : Call → Option CVU
  | .addEntryToCVU data lvptIndex vaddr paddr rand =>
    some (c.addEntryToCVU data lvptIndex vaddr paddr rand)
  | .storeInvalidate vaddr paddr => some (c.storeInvalidate vaddr paddr)

/-- The condition on a call: a store matches no invalid slot, and the slot an insertion
draws is a slot of the table. -/
def CallSafe (c : CVU) : Call → Prop
  | .addEntryToCVU _ _ _ _ rand => c.newEntryIndex rand < c.tableSize
  | .storeInvalidate vaddr paddr =>
    ∀ i < c.tableSize, (c.entry i).hasAddr vaddr paddr = true → (c.entry i).valid = true

instance (c : CVU) (k : Call) : Decidable (CallSafe c k) := by
  cases k <;> unfold CallSafe <;> infer_instance

variable {k : Call}

/-- One safe call keeps the invariant. -/
theorem freeListInv_call (hinv : FreeListInv c) (hsafe : CallSafe c k) (h : c.call k = some c') :
    FreeListInv c' := by
  cases k with
  | addEntryToCVU data index v p rand =>
    cases h
    exact hinv.addEntryToCVU data index v p rand
  | storeInvalidate v p =>
    cases h
    exact (freeListInv_storeInvalidate_iff hinv v p).mpr hsafe

/-- The free list of a freshly constructed unit after any sequence of safe calls. The
list describes the invalid slots and is no longer than the table. While a slot is
invalid, the next insertion writes an invalid slot of the table. -/
theorem freeListInv_run (n : Nat) (calls : List Call) (c : CVU)
    (hsafe : Lib.RunMeets call CallSafe (new n) calls)
    (hrun : Lib.run call (new n) calls = some c) :
    c.tableSize = n ∧ FreeListInv c ∧ c.invalidEntries.length ≤ c.tableSize ∧
      ∀ rand, (∃ i < c.tableSize, (c.entry i).valid = false) → c.newEntryIndex rand < c.tableSize ∧
          (c.entry (c.newEntryIndex rand)).valid = false := by
  have hsize : c.tableSize = n := by
    refine Lib.run_invariant (P := fun c => c.tableSize = n) (fun _ k _ hs hstep => ?_) rfl hrun
    cases k <;> cases hstep <;> simpa using hs
  have hinv : FreeListInv c :=
    Lib.run_invariant_of_meets (fun _ _ _ hs hok hstep => freeListInv_call hs hok hstep)
      (freeListInv_new n) hsafe hrun
  exact ⟨hsize, hinv, hinv.length_le, hinv.newEntryIndex_invalid⟩

/-- Two insertions, a store that takes out the first entry, an insertion into its slot,
and a store that takes out the second one. -/
def reinsertCalls : List Call :=
  [.addEntryToCVU 7 3 0x100 0x100 0, .addEntryToCVU 9 4 0x200 0x200 0,
    .storeInvalidate 0x100 0x100, .addEntryToCVU 8 3 0x100 0x100 0,
    .storeInvalidate 0x200 0x200]

/-- The calls of `reinsertCalls` are safe, and slot 1 is free after them. -/
theorem freeListInv_run_reinsert :
    ∃ c, Lib.run call (new 2) reinsertCalls = some c ∧ FreeListInv c ∧ c.invalidEntries = [1] :=
  ⟨_, rfl, (freeListInv_run 2 reinsertCalls _ (by decide) rfl).2.1, rfl⟩

/-- Two stores to the address of an entry push its slot twice. After the second one the
list is longer than the table and has a duplicate. Three calls later the next insertion
goes to slot 0, which is valid, while slot 1 is invalid. -/
theorem freeList_duplicates : (∃ c, Lib.run call (new 2)
        [.addEntryToCVU 7 3 0x100 0x100 0, .storeInvalidate 0x100 0x100,
          .storeInvalidate 0x100 0x100] = some c ∧
      c.tableSize < c.invalidEntries.length ∧ ¬ c.invalidEntries.Nodup) ∧
    (∃ c, Lib.run call (new 2)
        [.addEntryToCVU 7 3 0x100 0x100 0, .storeInvalidate 0x100 0x100,
          .storeInvalidate 0x100 0x100, .addEntryToCVU 9 4 0x200 0x200 0,
          .addEntryToCVU 8 5 0x300 0x300 0, .storeInvalidate 0x200 0x200] = some c ∧
      ¬ FreeListInv c ∧ (c.entry 1).valid = false ∧
      ∀ rand, c.newEntryIndex rand = 0 ∧ (c.entry (c.newEntryIndex rand)).valid = true) := by
  refine ⟨⟨_, rfl, by decide, by decide⟩, ⟨_, rfl, ?_, by decide, fun _ => ⟨rfl, rfl⟩⟩⟩
  intro hinv
  have hvalid := (hinv.mem_iff 0 (by decide)).mp (by decide)
  exact absurd hvalid (by decide)

/-- No store of the calls has one of the addresses of the entry. -/
def Spares (calls : List Call) (e : TableEntry) : Prop :=
  ∀ v p, .storeInvalidate v p ∈ calls → e.hasAddr v p = false

/-- The calls insert the entry, and the later ones spare it. -/
def Inserts (calls : List Call) (e : TableEntry) : Prop :=
  ∃ before rand after, Spares after e ∧
    calls = before ++ .addEntryToCVU e.data e.index e.vaddr e.paddr rand :: after

/-- A valid entry was there before the calls, or they insert it. -/
theorem entry_run {calls : List Call} {i : Nat} {e : TableEntry} (he : e.valid = true)
    (hrun : Lib.run call c calls = some c') (hi : c'.entry i = e) :
    (c.entry i = e ∧ Spares calls e) ∨ Inserts calls e := by
  induction calls generalizing c with
  | nil =>
    cases hrun
    exact .inl ⟨hi, nofun⟩
  | cons k calls ih =>
    obtain ⟨c₁, hcall, hrest⟩ := Lib.run_cons_eq_some hrun
    rcases ih hrest with ⟨hsame, hlater⟩ | ⟨before, rand, after, hlater, rfl⟩
    · cases k <;> cases hcall
      · rw [entry_addEntryToCVU] at hsame
        split at hsame
        · subst hsame
          exact .inr ⟨[], _, calls, hlater, rfl⟩
        · exact .inl ⟨hsame, by grind [Spares]⟩
      · rw [entry_storeInvalidate, invalidated] at hsame
        split at hsame
        · rw [← hsame] at he
          cases he
        · exact .inl ⟨hsame, by grind [Spares]⟩
    · exact .inr ⟨k :: before, rand, after, hlater, rfl⟩

/-- The condition on an insertion: a slot is free, or the draw is not the size of the table. -/
def DrawsSlot (c : CVU) : Call → Prop
  | .addEntryToCVU _ _ _ _ rand => c.DrawsInTable rand
  | .storeInvalidate _ _ => True

instance (c : CVU) : (k : Call) → Decidable (DrawsSlot c k)
  | .addEntryToCVU _ _ _ _ rand => inferInstanceAs (Decidable (c.DrawsInTable rand))
  | .storeInvalidate _ _ => inferInstanceAs (Decidable True)

/-- After any calls that drew slots of the table, a lookup hits only an entry that was inserted and
not stored to since, by its virtual or its physical address. The model drops a write outside the
table, which the source leaves undefined. -/
theorem hit_was_inserted (n : Nat) (calls : List Call) (c : CVU)
    (_hslots : Lib.RunMeets call DrawsSlot (new n) calls)
    (hrun : Lib.run call (new n) calls = some c) (v : Addr) (index : Nat) (data : Word)
    (hhit : c.verifyEntryInCVU v index data true = true) :
    ∃ p, Inserts calls ⟨true, v, p, index, data⟩ := by
  obtain ⟨-, i, -, hvalid, rfl, rfl, rfl⟩ := (verifyEntryInCVU_eq_true c data index v true).mp hhit
  rcases entry_run hvalid hrun rfl with ⟨hnew, -⟩ | hinserts
  · rw [← hnew, entry_new] at hvalid
    cases hvalid
  · exact ⟨_, hinserts⟩

theorem hit_was_inserted_reinsert : ∃ p, Inserts reinsertCalls ⟨true, 0x100, p, 3, 8⟩ :=
  hit_was_inserted 2 reinsertCalls _ (by decide) rfl 0x100 3 8 (by decide)

/-! ### The slot of an insertion -/

/-- The free list holds slots of the table. -/
def FreeInTable (c : CVU) : Prop := ∀ i ∈ c.invalidEntries, i < c.tableSize

/-- Each call keeps the free list in the table. -/
theorem freeInTable_call (hc : FreeInTable c) (h : c.call k = some c') : FreeInTable c' := by
  cases k with
  | addEntryToCVU =>
    cases h
    exact fun i hi => hc i (mem_of_mem_tail hi)
  | storeInvalidate =>
    cases h
    intro i hi
    rw [invalidEntries_storeInvalidate, mem_append] at hi
    rw [tableSize_storeInvalidate]
    rcases hi with hold | hnew
    · exact hc i hold
    · exact mem_range.mp (mem_of_mem_filter hnew)

/-- The free list is in the table after any sequence of calls. -/
theorem freeInTable_run {n : Nat} {calls : List Call} (hrun : Lib.run call (new n) calls = some c) :
    FreeInTable c :=
  Lib.run_invariant (fun _ _ _ hc hstep => freeInTable_call hc hstep)
    (fun _ hi => mem_range.mp hi) hrun

/-- The slot of an insertion is in the table exactly if there is a free slot or the draw is. -/
theorem newEntryIndex_lt_iff (hc : FreeInTable c) (rand : Nat) :
    c.newEntryIndex rand < c.tableSize ↔ c.DrawsInTable rand := by
  unfold newEntryIndex DrawsInTable
  cases hlist : c.invalidEntries with
  | nil =>
    have hle : rand % (c.tableSize + 1) < c.tableSize + 1 := Nat.mod_lt _ (Nat.succ_pos _)
    have hnot : ¬ ([] : List Nat) ≠ [] := fun h => h rfl
    show rand % (c.tableSize + 1) < c.tableSize ↔ _
    rw [or_iff_right hnot]
    omega
  | cons front =>
    have hfront : front < c.tableSize := hc front (by simp [hlist])
    exact ⟨fun _ => .inl (cons_ne_nil _ _), fun _ => hfront⟩

/-- An entry in a slot of the table is found. -/
theorem verifyEntryInCVU_addEntryToCVU {rand : Nat} (hslot : c.newEntryIndex rand < c.tableSize)
    (data : Word) (index : Nat) (v p : Addr) :
    (c.addEntryToCVU data index v p rand).verifyEntryInCVU v index data true = true := by
  rw [verifyEntryInCVU_eq_true]
  refine ⟨rfl, c.newEntryIndex rand, hslot, ?_⟩
  rw [entry_addEntryToCVU, if_pos ⟨rfl, hslot⟩]
  exact ⟨rfl, rfl, rfl, rfl⟩

/-- After any sequence of calls that drew slots of the table, an insertion writes a slot of the
table, where the entry is found, exactly if there is a free slot or the draw is not the size of the
table. The source adds one to the size of the table in 32 bits. -/
theorem newEntry_found_iff (n : Nat) (_hn : n + 1 < 2 ^ 32) (calls : List Call) (c : CVU)
    (_hslots : Lib.RunMeets call DrawsSlot (new n) calls)
    (hrun : Lib.run call (new n) calls = some c) (data : Word) (index : Nat) (v p : Addr)
    (rand : Nat) :
    (c.newEntryIndex rand < c.tableSize ∧
      (c.addEntryToCVU data index v p rand).verifyEntryInCVU v index data true = true) ↔
    DrawsSlot c (.addEntryToCVU data index v p rand) := by
  constructor
  · rintro ⟨hslot, _⟩
    exact (newEntryIndex_lt_iff (freeInTable_run hrun) rand).mp hslot
  · intro hdraw
    have hslot := (newEntryIndex_lt_iff (freeInTable_run hrun) rand).mpr hdraw
    exact ⟨hslot, verifyEntryInCVU_addEntryToCVU hslot data index v p⟩

/-- The second insertion into a table of one slot, with the draw 4. -/
theorem newEntry_found_iff_one :
    ∃ c, Lib.run call (new 1) [.addEntryToCVU 7 3 0x100 0x100 0] = some c ∧
      c.newEntryIndex 4 < c.tableSize ∧
      (c.addEntryToCVU 9 4 0x200 0x200 4).verifyEntryInCVU 0x200 4 9 true = true :=
  ⟨_, rfl, (newEntry_found_iff 1 (by decide) [.addEntryToCVU 7 3 0x100 0x100 0] _ (by decide) rfl
    9 4 0x200 0x200 4).mpr (by decide)⟩

/-- A table of one slot that is full. The draw 1 is outside the table, and the new entry is not
found. -/
theorem newEntry_outside_table :
    ∃ c, Lib.run call (new 1) [.addEntryToCVU 7 3 0x100 0x100 0] = some c ∧
      c.newEntryIndex 1 = c.tableSize ∧
      (c.addEntryToCVU 9 4 0x200 0x200 1).verifyEntryInCVU 0x200 4 9 true = false :=
  ⟨_, rfl, rfl, rfl⟩

/-! ### The bytes of a store -/

/-- Two ranges of bytes have a byte in common. Addresses wrap at 64 bits. -/
def BytesIntersect (addr size addr' size' : Nat) : Prop :=
  ∃ i < size, ∃ j < size', (addr + i) % 2 ^ 64 = (addr' + j) % 2 ^ 64

/-- The bytes of the load of an entry intersect those of a store, virtually or physically. -/
def TableEntry.Intersects (e : TableEntry) (loadSize : Nat) (vaddr paddr : Addr) (size : Nat) :
    Prop :=
  BytesIntersect e.vaddr loadSize vaddr size ∨ BytesIntersect e.paddr loadSize paddr size

/-- For every contents of the table and every store: the valid entries that are left do not
intersect the store, and the others were not taken out, exactly if the valid entries that intersect
the store are those with its virtual or its physical start address. The unit does not keep the sizes
of the loads; `loadSize` gives them. -/
theorem storeInvalidate_exact_iff (c : CVU) (loadSize : Nat → Nat) (vaddr paddr : Addr)
    (size : Nat) :
    ((∀ i < c.tableSize, ((c.storeInvalidate vaddr paddr).entry i).valid = true →
        ¬ ((c.storeInvalidate vaddr paddr).entry i).Intersects (loadSize i) vaddr paddr size) ∧
      (∀ i < c.tableSize, (c.entry i).valid = true →
        ¬ (c.entry i).Intersects (loadSize i) vaddr paddr size →
        ((c.storeInvalidate vaddr paddr).entry i).valid = true)) ↔
    ∀ i < c.tableSize, (c.entry i).valid = true →
      ((c.entry i).Intersects (loadSize i) vaddr paddr size ↔
        (c.entry i).hasAddr vaddr paddr = true) := by
  have hsame : ∀ i, ((c.storeInvalidate vaddr paddr).entry i).Intersects (loadSize i) vaddr paddr size
      ↔ (c.entry i).Intersects (loadSize i) vaddr paddr size := by
    intro i
    rw [entry_storeInvalidate, invalidated]
    split <;> exact Iff.rfl
  have hleft : ∀ i, ((c.storeInvalidate vaddr paddr).entry i).valid = true ↔
      (c.entry i).valid = true ∧ ¬ (c.entry i).hasAddr vaddr paddr = true := by
    intro i
    rw [valid_storeInvalidate, Bool.and_eq_true_iff, Bool.not_eq_true', Bool.not_eq_true]
  simp only [hsame, hleft]
  constructor
  · rintro ⟨hgone, hkept⟩ i hi hvalid
    constructor
    · intro hinter
      by_contra hother
      exact hgone i hi ⟨hvalid, hother⟩ hinter
    · intro haddr
      by_contra hapart
      exact (hkept i hi hvalid hapart).2 haddr
  · intro hexact
    refine ⟨fun i hi hafter hinter => ?_, fun i hi hvalid hapart => ?_⟩
    · exact hafter.2 ((hexact i hi hafter.1).mp hinter)
    · exact ⟨hvalid, fun haddr => hapart ((hexact i hi hvalid).mpr haddr)⟩

/-- A load of 8 bytes at 0x100 is in the table. A store of 4 bytes to its upper half does not take
it out. -/
theorem storeInvalidate_misses_overlap :
    let c := (new 1).addEntryToCVU 7 3 0x100 0x2100 0
    ((c.storeInvalidate 0x104 0x2104).entry 0).valid = true ∧
      ((c.storeInvalidate 0x104 0x2104).entry 0).Intersects 8 0x104 0x2104 4 :=
  ⟨rfl, .inl ⟨4, by decide, 0, by decide, rfl⟩⟩

end Gem5.MyMinor.CVU
