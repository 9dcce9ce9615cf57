import Gem5.MyMinor.LVPT
import Mathlib.Data.List.Induction

/-!
# `Gem5.Proofs.MyMinor.LVPT`: the LVPT as a direct-mapped map

`lastMispredict` says what the value table is for: per index, it remembers the last update that
reported a mispredict. `valueTable_applyAll` proves by induction over the updates that the table
holds exactly that, for a table whose size is a power of two. The tag of an entry then tells the
PCs of one index apart. The counters are a table of their own, with one counter for four indices.
-/

namespace Gem5.MyMinor.LVPT

open List

/-- The arguments of a call of `updateTable`. -/
structure Update where
  data : Word
  addr : Addr
  pc : Addr
  predict : Bool
  constant : Bool

/-- One call of `updateTable`. -/
def apply (t : LVPT) (u : Update) : LVPT := t.updateTable u.data u.addr u.pc u.predict u.constant

/-- A sequence of calls. -/
def applyAll (t : LVPT) (updates : List Update) : LVPT := updates.foldl apply t

/-- The call reports a mispredict. -/
def Update.mispredicts (u : Update) : Bool := u.constant && !u.predict

/-- The last mispredict among the PCs with these low bits. -/
def lastMispredict (tableSize : Nat) (updates : List Update) (low : Nat) : Option Update :=
  updates.reverse.find? fun u => u.mispredicts && u.pc % tableSize == low

/-- Two answers of `read` that differ at most in what they take from the counter. -/
def SameEntry (r r' : LvptOut) : Prop :=
  { r with constant := r'.constant, counter := r'.counter } = r'

section
variable {t : LVPT} {u : Update} {updates : List Update} {k threshold maxValue : Nat}

/-! ### Indices and tags -/

/-- No call changes the parameters. -/
theorem apply_parameters : (t.apply u).tableSize = t.tableSize ∧
    (t.apply u).threshold = t.threshold ∧ (t.apply u).maxValue = t.maxValue := by
  unfold apply updateTable
  repeat' split
  all_goals exact ⟨rfl, rfl, rfl⟩

theorem applyAll_parameters (updates : List Update) : (t.applyAll updates).tableSize = t.tableSize ∧
    (t.applyAll updates).threshold = t.threshold ∧
    (t.applyAll updates).maxValue = t.maxValue := by
  induction updates generalizing t with
  | nil => exact ⟨rfl, rfl, rfl⟩
  | cons u updates ih =>
    obtain ⟨hsize, hthreshold, hmax⟩ := ih
    obtain ⟨hsize', hthreshold', hmax'⟩ := apply_parameters
    exact ⟨hsize.trans hsize', hthreshold.trans hthreshold', hmax.trans hmax'⟩

theorem index_eq (hsize : t.tableSize = 2 ^ k) (pc : Addr) : t.index pc = pc % t.tableSize := by
  rw [index, numIndexBits, hsize, Nat.log2_two_pow]

/-- Index and tag determine the PC. -/
theorem eq_of_index_of_tag {pc pc' : Addr} (hindex : t.index pc = t.index pc')
    (htag : t.tag pc = t.tag pc') : pc = pc' := by
  have hle : t.index pc ≤ pc := Nat.mod_le _ _
  have hle' : t.index pc ≤ pc' := hindex ▸ Nat.mod_le _ _
  rw [tag, tag, ← hindex] at htag
  calc pc = pc - t.index pc + t.index pc := (Nat.sub_add_cancel hle).symm
    _ = pc' - t.index pc + t.index pc := by rw [htag]
    _ = pc' := Nat.sub_add_cancel hle'

/-- Both tables are accessed below their sizes. -/
theorem index_lt (hsize : t.tableSize = 2 ^ k) (hfour : 4 ≤ t.tableSize) (pc : Addr) :
    t.index pc < t.tableSize ∧ t.indexLCT pc < t.tableSize / 4 := by
  have hlt : t.index pc < t.tableSize := by
    rw [index_eq hsize]
    exact Nat.mod_lt _ (by omega)
  refine ⟨hlt, ?_⟩
  -- the size is a multiple of four, so no counter is missing at the end
  have hdvd : 4 ∣ t.tableSize := by
    rw [hsize] at hfour ⊢
    have hk : 2 ≤ k := (Nat.pow_le_pow_iff_right (a := 2) (by omega)).mp hfour
    exact Nat.pow_dvd_pow 2 hk
  unfold indexLCT
  omega

/-! ### One call -/

theorem valueTable_apply (i : Nat) : (t.apply u).valueTable i
    = if u.mispredicts = true ∧ i = t.index u.pc then
        { valid := true, tag := t.tag u.pc, addr := u.addr, value := u.data }
      else t.valueTable i := by
  unfold apply updateTable Update.mispredicts
  cases u.constant <;> cases u.predict <;> simp

/-- A call touches the counter of its own group only. -/
theorem predictTable_apply_of_ne {i : Nat} (hi : i ≠ t.indexLCT u.pc) :
    (t.apply u).predictTable i = t.predictTable i := by
  unfold apply updateTable
  cases u.constant <;> cases u.predict <;> simp [hi]

/-- The counters saturate. -/
theorem predictTable_apply_le (h : ∀ i, t.predictTable i ≤ t.maxValue) (i : Nat) :
    (t.apply u).predictTable i ≤ t.maxValue := by
  by_cases hi : i = t.indexLCT u.pc
  · have hold := h (t.indexLCT u.pc)
    unfold apply updateTable
    cases u.constant <;> cases u.predict <;> simp only [hi, Bool.not_false, Bool.not_true, if_true,
      Bool.false_eq_true, if_false]
    · exact hold
    · exact hold
    · split <;> omega
    · split <;> omega
  · rw [predictTable_apply_of_ne hi]
    exact h i

/-- What `read` answers depends on one entry and one counter. -/
theorem sameEntry_apply {pc : Addr} (hpc : t.index pc ≠ t.index u.pc) :
    SameEntry ((t.apply u).read pc) (t.read pc) ∧
      (t.indexLCT pc ≠ t.indexLCT u.pc → (t.apply u).read pc = t.read pc) := by
  obtain ⟨hsize, hthreshold, -⟩ := apply_parameters
  have hindex : (t.apply u).index pc = t.index pc := by
    rw [index, index, numIndexBits, numIndexBits, hsize]
  have hentry : (t.apply u).valueTable (t.index pc) = t.valueTable (t.index pc) := by
    rw [valueTable_apply, if_neg fun h => hpc h.2]
  have hhas : (t.apply u).hasEntry pc = t.hasEntry pc := by
    simp only [hasEntry, tag, hindex, hentry]
  have hread : (t.apply u).read pc = if t.hasEntry pc then
      { predict := true,
        constant := decide (t.threshold ≤ (t.apply u).predictTable (t.indexLCT pc)),
        value := (t.valueTable (t.index pc)).value, pc := pc, index := t.index pc,
        addr := (t.valueTable (t.index pc)).addr,
        counter := (t.apply u).predictTable (t.indexLCT pc) }
      else LvptOut.zero := by
    simp only [read, hhas, indexLCT, hindex, hentry, hthreshold]
    rfl
  constructor
  · rw [hread]
    unfold SameEntry read
    split <;> rfl
  · intro hcounter
    rw [hread, predictTable_apply_of_ne hcounter]
    rfl

/-! ### Sequences of calls -/

theorem lastMispredict_concat (tableSize low : Nat) :
    lastMispredict tableSize (updates ++ [u]) low
      = if u.mispredicts = true ∧ u.pc % tableSize = low then some u
        else lastMispredict tableSize updates low := by
  unfold lastMispredict
  rw [reverse_append, reverse_singleton, singleton_append]
  by_cases h : u.mispredicts = true ∧ u.pc % tableSize = low
  · rw [if_pos h, find?_cons_of_pos (by simp [h])]
  · rw [if_neg h, find?_cons_of_neg (by simpa using h)]

/-- The value table holds the last mispredict of each index. -/
theorem valueTable_applyAll (hsize : t.tableSize = 2 ^ k)
    (hnew : ∀ i, (t.valueTable i).valid = false) (updates : List Update) (i : Nat) :
    (lastMispredict t.tableSize updates i = none →
      ((t.applyAll updates).valueTable i).valid = false) ∧
    ∀ u, lastMispredict t.tableSize updates i = some u →
      t.index u.pc = i ∧ (t.applyAll updates).valueTable i
        = { valid := true, tag := t.tag u.pc, addr := u.addr, value := u.data } := by
  -- on the calls from the last one backwards, as `lastMispredict` looks at them
  induction updates using reverseRecOn with
  | nil =>
    refine ⟨fun _ => hnew i, fun u hu => ?_⟩
    cases hu
  | append_singleton updates u ih =>
    have hparameters := applyAll_parameters (t := t) updates
    have hindex (pc : Addr) : (t.applyAll updates).index pc = t.index pc := by
      rw [index, index, numIndexBits, numIndexBits, hparameters.1]
    have hlast : t.applyAll (updates ++ [u]) = (t.applyAll updates).apply u := by
      unfold applyAll
      rw [foldl_append]
      rfl
    rw [hlast, lastMispredict_concat, valueTable_apply, tag, hindex, ← index_eq hsize]
    by_cases hu : u.mispredicts = true ∧ t.index u.pc = i
    · rw [if_pos hu, if_pos ⟨hu.1, hu.2.symm⟩]
      refine ⟨by simp, fun v hv => ?_⟩
      cases hv
      exact ⟨hu.2, rfl⟩
    · rw [if_neg hu, if_neg fun h => hu ⟨h.1, h.2.symm⟩]
      exact ih

/-- Updates keep the counters in their range. -/
theorem predictTable_applyAll (h : ∀ i, t.predictTable i ≤ t.maxValue) (i : Nat) :
    (t.applyAll updates).predictTable i ≤ t.maxValue := by
  induction updates generalizing t with
  | nil => exact h i
  | cons u updates ih =>
    have hmax := (apply_parameters (t := t) (u := u)).2.2
    have hstep := ih fun i => hmax ▸ predictTable_apply_le h i
    rw [hmax] at hstep
    exact hstep

/-- The LVPT after any sequence of calls, for a table size that is a power of two: `read` answers
with the last mispredict of the index, if it was made with the PC itself. All accesses are inside
the tables, a call touches no other entry and no other counter, and the counters stay in their
range. -/
theorem refines_directMapped (tableSize : Nat) (hsize : tableSize = 2 ^ k) (hfour : 4 ≤ tableSize)
    (threshold maxValue : Nat) (updates : List Update) :
    let t := (new tableSize threshold maxValue).applyAll updates
    (∀ pc, (t.read pc).predict = true ↔
      ∃ u, lastMispredict tableSize updates (pc % tableSize) = some u ∧ u.pc = pc) ∧
    (∀ pc u, lastMispredict tableSize updates (pc % tableSize) = some u → u.pc = pc →
      (t.read pc).value = u.data ∧ (t.read pc).addr = u.addr) ∧
    (∀ pc, t.index pc < tableSize ∧ t.indexLCT pc < tableSize / 4) ∧
    (∀ u pc, t.index pc ≠ t.index u.pc → SameEntry ((t.apply u).read pc) (t.read pc) ∧
      (t.index pc >>> 2 ≠ t.index u.pc >>> 2 → (t.apply u).read pc = t.read pc)) ∧
    ∀ i, t.predictTable i ≤ maxValue := by
  intro t
  have hnew : (new tableSize threshold maxValue).tableSize = 2 ^ k := hsize
  obtain ⟨htable, -, -⟩ := applyAll_parameters updates
  have htable : t.tableSize = tableSize := htable
  have hpow : t.tableSize = 2 ^ k := htable.trans hsize
  have hindex (pc : Addr) : t.index pc = pc % tableSize := by rw [index_eq hpow, htable]
  have hentry (pc : Addr) := valueTable_applyAll hnew (fun _ => rfl) updates (pc % tableSize)
  -- an entry for the PC is one with its tag
  have hhas (pc : Addr) : t.hasEntry pc = true ↔
      ∃ u, lastMispredict tableSize updates (pc % tableSize) = some u ∧ u.pc = pc := by
    rw [hasEntry, hindex, Bool.and_eq_true, beq_iff_eq]
    cases hlast : lastMispredict tableSize updates (pc % tableSize) with
    | none =>
      have hinvalid : (t.valueTable (pc % tableSize)).valid = false := (hentry pc).1 hlast
      simp [hinvalid]
    | some u =>
      obtain ⟨hu, hvalue⟩ := (hentry pc).2 u hlast
      have hu : (new tableSize threshold maxValue).index u.pc
          = (new tableSize threshold maxValue).index pc := hu.trans (index_eq hnew pc).symm
      have htag : t.tag pc = (new tableSize threshold maxValue).tag pc := by
        rw [tag, tag, hindex, index_eq hnew]
        rfl
      rw [hvalue, htag]
      constructor
      · intro h
        exact ⟨u, rfl, eq_of_index_of_tag hu h.2⟩
      · rintro ⟨v, hv, hpc⟩
        cases hv
        rw [hpc]
        exact ⟨rfl, rfl⟩
  refine ⟨fun pc => ?_, fun pc u hlast hpc => ?_, fun pc => ?_, fun u pc hne => ?_, ?_⟩
  · rw [read]
    split <;> simp_all [LvptOut.zero]
  · have hvalue : t.valueTable (pc % tableSize) = _ := ((hentry pc).2 u hlast).2
    have hpresent : t.hasEntry pc = true := (hhas pc).mpr ⟨u, hlast, hpc⟩
    simp only [read, hpresent, if_true, hindex, hvalue, and_self]
  · have := index_lt hpow (htable ▸ hfour) pc
    rwa [htable] at this
  · obtain ⟨hsame, heq⟩ := sameEntry_apply hne
    refine ⟨hsame, fun hgroup => heq ?_⟩
    rw [Nat.shiftRight_eq_div_pow, Nat.shiftRight_eq_div_pow] at hgroup
    exact hgroup
  · exact predictTable_applyAll fun _ => Nat.zero_le _

/-- Two loads that share an index: the second mispredict takes the entry over. -/
theorem refines_directMapped_sharedIndex :
    let u : Update := ⟨7, 64, 4, false, true⟩
    let v : Update := ⟨9, 72, 8, false, true⟩
    (((new 4 1 3).applyAll [u, v]).read 8).value = 9 ∧
      (((new 4 1 3).applyAll [u, v]).read 4).predict = false := by
  intro u v
  have h := refines_directMapped (k := 2) 4 rfl (by decide) 1 3 [u, v]
  refine ⟨(h.2.1 8 v (by simp [lastMispredict, Update.mispredicts, v]) rfl).1, ?_⟩
  rw [Bool.eq_false_iff]
  intro hpredict
  obtain ⟨w, hw, hpc⟩ := (h.1 4).mp hpredict
  have hw : some v = some w := by simpa [lastMispredict, Update.mispredicts, u, v] using hw
  cases hw
  cases hpc

end

end Gem5.MyMinor.LVPT
