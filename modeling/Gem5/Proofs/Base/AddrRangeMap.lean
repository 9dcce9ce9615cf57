import Gem5.Base.AddrRangeMap
import Gem5.Lib.Run
import Mathlib.Data.List.TakeWhile

/-!
# `Gem5.Proofs.Base.AddrRangeMap`: the cache of the range map

`Inv` is the invariant of the map. The ranges of the tree follow each other (`Before`): a range
ends where the next one starts or earlier, or both are parts of one interleaved chunk with
increasing match values. The cache names entries of the tree, none of them twice.

The search of `find` looks at the entry after the range and then at the entries before it, as long
as they merge. `search_complete` says that this suffices under `Searchable`, and `contains` and
`intersects` are searchable when the range is not empty and overlaps only entries that it can be
compared with (`Compatible`).

The three conditions of `Fine` are needed (`cache_dangles_or_lookup_misses_or_entries_overlap`).
`erase` of several entries removes only the first one from the cache. A range of size one is
compared by its start, so plain ranges can stand between the start and the end of an interleaved
one, which the search then does not see.
-/

namespace Gem5.Base

open List Except
open BitVec (not_le lt_irrefl)

open Gem5.Lib

namespace AddrRange

/-- The range is not empty. -/
def Proper (r : AddrRange) : Prop := r.start < r.end_

/-- The intervals of the ranges overlap. -/
def Overlaps (a b : AddrRange) : Prop := a.start < b.end_ ∧ b.start < a.end_

instance (r : AddrRange) : Decidable r.Proper := inferInstanceAs (Decidable (_ < _))

instance (a b : AddrRange) : Decidable (a.Overlaps b) := inferInstanceAs (Decidable (_ ∧ _))

/-- The order of the ranges of a tree. -/
def Before (a b : AddrRange) : Prop :=
  a.end_ ≤ b.start ∨ (a.mergesWith b = true ∧ a.interleaved = true ∧ a.intlvMatch < b.intlvMatch)

variable {a b c r : AddrRange}

/-- Ranges that merge differ in the match value only. -/
theorem mergesWith_iff : a.mergesWith b = true ↔ ∃ k, b = { a with intlvMatch := k } := by
  constructor
  · intro h
    refine ⟨b.intlvMatch, ?_⟩
    cases b
    simpa [mergesWith, and_assoc] using h
  · rintro ⟨k, rfl⟩
    simp [mergesWith]

theorem mergesWith_symm (h : a.mergesWith b = true) : b.mergesWith a = true := by
  obtain ⟨k, rfl⟩ := mergesWith_iff.mp h
  exact mergesWith_iff.mpr ⟨a.intlvMatch, rfl⟩

theorem interleaved_of_mergesWith (h : a.mergesWith b = true) : a.interleaved = b.interleaved := by
  obtain ⟨k, rfl⟩ := mergesWith_iff.mp h
  rfl

/-- `operator<`, by cases. -/
theorem lt_iff : a.lt b = true ↔ a.start < b.start ∨ (a.start = b.start ∧ a.interleaved = true ∧
    (b.interleaved = true → a.intlvMatch < b.intlvMatch)) := by
  unfold lt
  by_cases hstart : a.start = b.start
  · rw [if_neg (by simpa using hstart)]
    have hirrefl : ¬ a.start < b.start := by
      rw [hstart]
      exact lt_irrefl _
    cases ha : a.interleaved with
    | false => simp [hirrefl]
    | true =>
      cases hb : b.interleaved with
      | false | true => simp [hstart]
  · simp [hstart]

theorem start_le_of_lt (h : a.lt b = true) : a.start ≤ b.start := by
  rcases lt_iff.mp h with hlt | ⟨heq, _⟩
  · exact BitVec.le_of_lt hlt
  · rw [heq]
    exact BitVec.le_refl _

theorem start_le_of_not_lt (h : a.lt b = false) : b.start ≤ a.start := by
  by_contra hlt
  rw [not_le] at hlt
  rw [lt_iff.mpr (.inl hlt)] at h
  cases h

/-- The order of the keys is transitive. -/
theorem lt_trans (hab : a.lt b = true) (hbc : b.lt c = true) : a.lt c = true := by
  rw [lt_iff] at hab hbc ⊢
  rcases hab with hab | ⟨heq, hia, hmatch⟩
  · refine .inl ?_
    rcases hbc with hbc | ⟨heq', _⟩
    · exact BitVec.lt_trans hab hbc
    · rwa [← heq']
  · rcases hbc with hbc | ⟨heq', hib, hmatch'⟩
    · rw [heq]
      exact .inl hbc
    · exact .inr ⟨heq.trans heq', hia, fun hic => BitVec.lt_trans (hmatch hib) (hmatch' hic)⟩

theorem Before.lt (h : Before a b) (ha : a.Proper) : a.lt b = true := by
  rw [lt_iff]
  rcases h with hle | ⟨hmerge, hia, hmatch⟩
  · exact .inl (Std.lt_of_lt_of_le ha hle)
  · obtain ⟨k, rfl⟩ := mergesWith_iff.mp hmerge
    exact .inr ⟨rfl, hia, fun _ => hmatch⟩

theorem contains_eq_true {x : BitVec 64} (h : r.contains x = true) :
    r.start ≤ x ∧ x < r.end_ ∧ sel r.masks x = r.intlvMatch.toNat := by
  unfold contains at h
  split at h
  · rename_i hin
    rw [Bool.and_eq_true, decide_eq_true_iff, decide_eq_true_iff] at hin
    exact ⟨hin.1, hin.2, beq_iff_eq.mp h⟩
  · cases h

/-- Ranges that follow each other share no address. -/
theorem Before.not_contains (h : Before a b) (x : BitVec 64) :
    ¬ (a.contains x = true ∧ b.contains x = true) := by
  rintro ⟨ha, hb⟩
  obtain ⟨_, hlt, hsel⟩ := contains_eq_true ha
  obtain ⟨hle, _, hsel'⟩ := contains_eq_true hb
  rcases h with hend | ⟨hmerge, _, hmatch⟩
  · bv_omega
  · obtain ⟨k, rfl⟩ := mergesWith_iff.mp hmerge
    rw [BitVec.lt_def, ← hsel, ← hsel'] at hmatch
    exact absurd hmatch (Nat.lt_irrefl _)

/-- What a range that another one is a subset of looks like. -/
theorem isSubset_eq_true (hr : r.Proper) (h : r.isSubset a = .ok true) :
    r.interleaved = false ∧ a.start ≤ r.start ∧ r.start < a.end_ := by
  unfold isSubset at h
  cases hi : r.interleaved with
  | true =>
    rw [if_pos hi] at h
    cases h
  | false =>
    rw [if_neg (by simp [hi])] at h
    refine ⟨rfl, ?_⟩
    split at h
    · have hcontains := (ok.inj h)
      rw [Bool.and_eq_true, Bool.and_eq_true] at hcontains
      obtain ⟨hle, hlt, _⟩ := contains_eq_true hcontains.1.1
      exact ⟨hle, hlt⟩
    · have hinside := (ok.inj h)
      rw [Bool.and_eq_true, decide_eq_true_iff, decide_eq_true_iff] at hinside
      exact ⟨hinside.1, Std.lt_of_lt_of_le hr hinside.2⟩

theorem intersects_of_not_overlaps (h : ¬ r.Overlaps a) : r.intersects a = .ok false := by
  unfold intersects
  rw [if_pos]
  by_contra hcontra
  push Not at hcontra
  exact h ⟨not_le.mp hcontra.1, not_le.mp hcontra.2⟩

theorem Overlaps.symm (h : a.Overlaps b) : b.Overlaps a := ⟨h.2, h.1⟩

theorem overlaps_of_intersects (h : r.intersects a = .ok true) : r.Overlaps a := by
  by_contra hno
  rw [intersects_of_not_overlaps hno] at h
  cases h

theorem not_apart_of_overlaps (h : r.Overlaps a) : ¬ (a.end_ ≤ r.start ∨ r.end_ ≤ a.start) := by
  rintro (hle | hle)
  · exact not_le.mpr h.1 hle
  · exact not_le.mpr h.2 hle

theorem intersects_of_plain (h : r.Overlaps a) (hr : r.interleaved = false)
    (ha : a.interleaved = false) : r.intersects a = .ok true := by
  unfold intersects
  rw [if_neg (not_apart_of_overlaps h), if_pos (by simp [hr, ha])]

theorem intersects_of_mergesWith (h : r.Overlaps a) (hr : r.interleaved = true)
    (hmerge : r.mergesWith a = true) :
    r.intersects a
      = .ok (if a.size = 1 then r.contains a.start else r.intlvMatch == a.intlvMatch) := by
  unfold intersects
  rw [if_neg (not_apart_of_overlaps h), if_neg (by simp [hr]), if_pos hmerge]
  split <;> rfl

end AddrRange

namespace AddrRangeMap

open AddrRange

variable {V : Type} {r : AddrRange} {cond : AddrRange → Except Fault Bool} {tree : List (Entry V)}
  {m : AddrRangeMap V} {n : BitVec 32}

/-! ### The search in the tree -/

variable {cache : List Iter} {c : Call V} {rest : List (Entry V)}

variable {l : List (Entry V)} {e : Entry V}

theorem testNext_some (h : testNext cond l = .ok (some e)) : e ∈ l ∧ cond e.range = .ok true := by
  cases l with
  | nil => cases h
  | cons =>
    obtain ⟨b, hcond, h⟩ := bind_eq_ok.mp h
    cases b with
    | false => cases h
    | true =>
      cases h
      exact ⟨mem_cons_self, hcond⟩

/-- The walk back returns an entry that meets the condition. -/
theorem searchBack_some (h : searchBack cond l = .ok (some e)) :
    e ∈ l ∧ cond e.range = .ok true := by
  induction l with
  | nil => cases h
  | cons i rest ih =>
    obtain ⟨b, hcond, h⟩ := bind_eq_ok.mp h
    cases b with
    | true =>
      cases h
      exact ⟨mem_cons_self, hcond⟩
    | false =>
      cases rest with
      | nil => cases h
      | cons next =>
        change (if next.range.mergesWith i.range = true then _ else _) = _ at h
        split at h
        · obtain ⟨hmem, htrue⟩ := ih h
          exact ⟨mem_cons_of_mem _ hmem, htrue⟩
        · cases h

/-- The loop reaches an entry if all entries before it merge with it. -/
theorem searchBack_none (h : searchBack cond l = .ok none) :
    ∀ {front : List (Entry V)} {e : Entry V} {back : List (Entry V)}, l = front ++ e :: back →
      (∀ x ∈ front, e.range.mergesWith x.range = true) → cond e.range ≠ .ok true := by
  induction l with
  | nil =>
    intro front e back hl
    simp at hl
  | cons i rest ih =>
    intro front e back hl hmerge
    obtain ⟨b, hcond, h⟩ := bind_eq_ok.mp h
    cases b with
    | true => cases h
    | false =>
      cases front with
      | nil =>
        cases hl
        rw [hcond]
        simp
      | cons x front =>
        cases hl
        -- the next entry merges with `i`, so the loop goes on
        cases front with
        | nil =>
          change (if e.range.mergesWith i.range = true then _ else _) = _ at h
          rw [if_pos (hmerge i mem_cons_self)] at h
          exact ih h rfl (by simp)
        | cons y =>
          have hyi : y.range.mergesWith i.range = true := by
            obtain ⟨_, hy⟩ := mergesWith_iff.mp (hmerge y (by simp))
            obtain ⟨k, hi⟩ := mergesWith_iff.mp (hmerge i (by simp))
            rw [hy, hi]
            exact mergesWith_iff.mpr ⟨k, rfl⟩
          change (if y.range.mergesWith i.range = true then _ else _) = _ at h
          rw [if_pos hyi] at h
          exact ih h rfl fun x hx => hmerge x (mem_cons_of_mem _ hx)

/-- The two stages of the search. -/
theorem search_eq_ok {found : Option (Entry V)} (h : search r cond tree = .ok found) :
    ∃ before after, tree = before ++ after ∧ (∀ x ∈ before, r.lt x.range = false) ∧
      (∀ next rest, after = next :: rest → r.lt next.range = true) ∧
      ((∃ e, testNext cond after = .ok (some e) ∧ found = some e) ∨
        (testNext cond after = .ok none ∧ searchBack cond before.reverse = .ok found)) := by
  unfold search at h
  rw [span_eq_takeWhile_dropWhile] at h
  obtain ⟨next, hnext, h⟩ := bind_eq_ok.mp h
  refine ⟨tree.takeWhile fun e => !r.lt e.range, tree.dropWhile fun e => !r.lt e.range,
    (takeWhile_append_dropWhile).symm, fun x hx => ?_, fun next rest hafter => ?_, ?_⟩
  · have hnot := mem_takeWhile_imp hx
    simpa using hnot
  · have hhead := head?_dropWhile_not (fun e : Entry V => !r.lt e.range) tree
    rw [hafter] at hhead
    simpa using hhead
  · cases next with
    | some e =>
      cases h
      exact .inl ⟨e, hnext, rfl⟩
    | none => exact .inr ⟨hnext, h⟩

theorem search_some (h : search r cond tree = .ok (some e)) :
    e ∈ tree ∧ cond e.range = .ok true := by
  obtain ⟨before, after, rfl, _, _, ⟨e', hnext, hfound⟩ | ⟨_, hback⟩⟩ := search_eq_ok h
  · cases hfound
    obtain ⟨hmem, htrue⟩ := testNext_some hnext
    exact ⟨mem_append_right _ hmem, htrue⟩
  · obtain ⟨hmem, htrue⟩ := searchBack_some hback
    exact ⟨mem_append_left _ (mem_reverse.mp hmem), htrue⟩

/-- The entries of a tree follow each other. -/
def Ordered (tree : List (Entry V)) : Prop := tree.Pairwise fun a b => Before a.range b.range

/-- What the search relies on. An entry that satisfies the condition ends after the start of the
range. If it lies behind the range, then the first entry behind the range satisfies it too. -/
structure Searchable (r : AddrRange) (cond : AddrRange → Except Fault Bool) (tree : List (Entry V)) :
    Prop where
  near : ∀ e ∈ tree, cond e.range = .ok true → r.start < e.range.end_
  ahead : ∀ next ∈ tree, ∀ e ∈ tree, r.lt next.range = true →
    (next = e ∨ Before next.range e.range) → cond e.range = .ok true → cond next.range ≠ .ok false

/-- The search finds an entry if there is one. -/
theorem search_complete (hordered : Ordered tree) (hs : Searchable r cond tree)
    (h : search r cond tree = .ok none) : ∀ e ∈ tree, cond e.range ≠ .ok true := by
  obtain ⟨before, after, rfl, hbefore, hafter, ⟨_, _, hfound⟩ | ⟨hnext, hback⟩⟩ := search_eq_ok h
  · cases hfound
  intro e he htrue
  rcases mem_append.mp he with hmem | hmem
  · -- the entries between `e` and the range are parts of the same chunk
    obtain ⟨front, back, rfl⟩ := append_of_mem hmem
    have hrev : (front ++ e :: back).reverse = back.reverse ++ e :: front.reverse := by simp
    refine searchBack_none hback hrev ?_ htrue
    intro x hx
    have hxback : x ∈ back := mem_reverse.mp hx
    have hpair : Before e.range x.range := by
      have hbefores := (pairwise_append.mp hordered).1
      have hes := (pairwise_append.mp hbefores).2.1
      exact (pairwise_cons.mp hes).1 x hxback
    rcases hpair with hend | ⟨hmerge, _⟩
    · have hxr : x.range.start ≤ r.start := start_le_of_not_lt (hbefore x (by simp [hxback]))
      have hre := hs.near e he htrue
      bv_omega
    · exact hmerge
  · cases hsplit : after with
    | nil =>
      rw [hsplit] at hmem
      cases hmem
    | cons next rest =>
      rw [hsplit] at hmem hnext hordered
      refine hs.ahead next (by rw [hsplit]; simp) e he (hafter next rest hsplit) ?_ htrue
        ?_
      · rcases mem_cons.mp hmem with heq | hrest
        · exact .inl heq.symm
        · have hafters := (pairwise_append.mp hordered).2.1
          exact .inr ((pairwise_cons.mp hafters).1 e hrest)
      · obtain ⟨b, hcond, h⟩ := bind_eq_ok.mp hnext
        cases b with
        | false => exact hcond
        | true => cases h

/-- The range overlaps only entries that it can be compared with: both are plain, or they are parts
of the same chunk. -/
def Compatible (m : AddrRangeMap V) (r : AddrRange) : Prop :=
  r.Proper ∧ ∀ e ∈ m.tree, r.Overlaps e.range →
    (r.interleaved = false ∧ e.range.interleaved = false) ∨ r.mergesWith e.range = true

/-- The search can rely on `isSubset`. -/
theorem searchable_isSubset (hr : r.Proper) (hproper : ∀ e ∈ tree, e.range.Proper) :
    Searchable r r.isSubset tree := by
  refine ⟨fun e _ htrue => (isSubset_eq_true hr htrue).2.2, fun next hnext e _ hlt hrel htrue => ?_⟩
  obtain ⟨hplain, hle, _⟩ := isSubset_eq_true hr htrue
  -- an entry that contains the range does not lie behind it
  have hstart : r.start < next.range.start := by
    rcases lt_iff.mp hlt with h | ⟨_, hi, _⟩
    · exact h
    · rw [hplain] at hi
      cases hi
  have hback : next.range.start ≤ e.range.start := by
    rcases hrel with rfl | hend | ⟨hmerge, _⟩
    · exact BitVec.le_refl _
    · have hnextProper : next.range.start < next.range.end_ := hproper next hnext
      bv_omega
    · obtain ⟨k, hk⟩ := mergesWith_iff.mp hmerge
      rw [hk]
      exact BitVec.le_refl _
  bv_omega

/-- It can rely on `intersects` for a range that is compatible with the stored ones. -/
theorem searchable_intersects (hproper : ∀ e ∈ m.tree, e.range.Proper) (hc : Compatible m r) :
    Searchable r r.intersects m.tree := by
  refine ⟨fun e _ htrue => (overlaps_of_intersects htrue).1, fun next hnext e he hlt hrel htrue => ?_⟩
  have hover := overlaps_of_intersects htrue
  have hnextProper : next.range.start < next.range.end_ := hproper next hnext
  -- the first entry behind the range overlaps it too
  have hnextOver : r.Overlaps next.range := by
    refine ⟨Std.lt_of_le_of_lt (start_le_of_lt hlt) hnextProper, ?_⟩
    have hend' := hover.2
    rcases hrel with rfl | hend | ⟨hmerge, _⟩
    · exact hend'
    · bv_omega
    · obtain ⟨k, hk⟩ := mergesWith_iff.mp hmerge
      rw [hk] at hend'
      exact hend'
  rcases hc.2 next hnext hnextOver with ⟨hr, hplain⟩ | hmerge
  · rw [intersects_of_plain hnextOver hr hplain]
    simp
  · cases hr : r.interleaved with
    | false =>
      rw [intersects_of_plain hnextOver hr ((interleaved_of_mergesWith hmerge).symm.trans hr)]
      simp
    | true =>
      have hmergeE : r.mergesWith e.range = true := (hc.2 e he hover).resolve_left fun h => by
          rw [hr] at h
          cases h.1
      rw [intersects_of_mergesWith hover hr hmergeE] at htrue
      rw [intersects_of_mergesWith hnextOver hr hmerge]
      obtain ⟨k, hk⟩ := mergesWith_iff.mp hmerge
      obtain ⟨k', hk'⟩ := mergesWith_iff.mp hmergeE
      have hstart : next.range.start = e.range.start := by rw [hk, hk']
      have hsize : next.range.size = e.range.size := by rw [hk, hk']; rfl
      by_cases hone : e.range.size = 1
      · rw [if_pos hone] at htrue
        rw [hsize, if_pos hone, hstart, htrue]
        simp
      · -- the match value of `e` is that of the range, and the range lies before `next`
        rw [if_neg hone] at htrue
        have hmatch : r.intlvMatch = e.range.intlvMatch := beq_iff_eq.mp (ok.inj htrue)
        have hbefore : r.intlvMatch < next.range.intlvMatch := by
          rcases lt_iff.mp hlt with h | ⟨_, _, h⟩
          · rw [hk] at h
            exact absurd h (lt_irrefl _)
          · exact h ((interleaved_of_mergesWith hmerge).symm.trans hr)
        rcases hrel with rfl | hle | ⟨_, _, hlt'⟩
        · exact absurd (hmatch ▸ hbefore) (lt_irrefl _)
        · bv_omega
        · exact absurd (BitVec.lt_trans hbefore (hmatch ▸ hlt')) (lt_irrefl _)

/-! ### The cache -/

theorem deref_ensures (it : Iter) :
    Ensures (deref it) m fun e m' => m' = m ∧ e ∈ m.tree ∧ e.it = it := by
  unfold deref
  rw [ensures_bind, ensures_get]
  cases hfind : m.tree.find? fun e => e.it == it with
  | none => simp
  | some =>
    rw [ensures_pure]
    have hit := find?_some hfind
    exact ⟨rfl, mem_of_find?_eq_some hfind, beq_iff_eq.mp hit⟩

/-- The loop over the cache finds an entry and reorders the cache, or it tests all of it. -/
theorem findCached_ensures (rest : List Iter) : ∀ seen : List Iter,
    Ensures (findCached cond seen rest) m fun res m' =>
      (res = none ∧ m' = m ∧ ∀ it ∈ rest, ∃ e ∈ m.tree, e.it = it ∧ cond e.range = .ok false) ∨
      ∃ e ∈ m.tree, res = some e.it ∧ cond e.range = .ok true ∧
        ∃ cache, m' = { m with cache := cache } ∧ cache.Perm (seen.reverse ++ rest) := by
  induction rest with
  | nil =>
    intro seen
    rw [findCached, ensures_pure]
    exact .inl ⟨rfl, rfl, by simp⟩
  | cons it rest ih =>
    intro seen
    rw [findCached, ensures_bind]
    refine (deref_ensures it).mono ?_
    rintro e m' ⟨hsteady, he, rfl⟩
    subst m'
    rw [ensures_bind]
    refine ensures_lift fun b hcond => ?_
    cases b with
    | true =>
      rw [if_pos rfl, ensures_bind, ensures_modify, ensures_pure]
      exact .inr ⟨e, he, rfl, hcond, _, rfl, perm_middle.symm⟩
    | false =>
      refine (ih (e.it :: seen)).mono ?_
      rintro res m' (⟨rfl, rfl, hall⟩ | ⟨e', he', hres, htrue, cache, hm', hperm⟩)
      · refine .inl ⟨rfl, rfl, fun it hit => ?_⟩
        rcases mem_cons.mp hit with rfl | hmem
        · exact ⟨e, he, rfl, hcond⟩
        · exact hall it hmem
      · refine .inr ⟨e', he', hres, htrue, cache, hm', ?_⟩
        simpa using hperm

/-- A new entry comes into the cache once. -/
theorem addNewEntryToCache_nodup {it : Iter} (hnew : it ∉ cache) (hnodup : cache.Nodup) :
    (addNewEntryToCache n it cache).Nodup ∧
      ∀ x ∈ addNewEntryToCache n it cache, x = it ∨ x ∈ cache := by
  have hdrop : ∀ x ∈ cache.dropLast, x ∈ cache := fun x hx => (dropLast_sublist _).subset hx
  have hnodup' : cache.dropLast.Nodup := hnodup.sublist (dropLast_sublist _)
  unfold addNewEntryToCache
  split
  · split
    · split
      · refine ⟨nodup_cons.mpr ⟨fun h => hnew (hdrop it h), hnodup'⟩, fun x hx => ?_⟩
        rcases mem_cons.mp hx with h | h
        · exact .inl h
        · exact .inr (hdrop x h)
      · refine ⟨hnodup'.append (nodup_singleton it) ?_, fun x hx => ?_⟩
        · intro x hx hit
          rw [mem_singleton.mp hit] at hx
          exact hnew (hdrop it hx)
        · rcases mem_append.mp hx with h | h
          · exact .inr (hdrop x h)
          · exact .inl (mem_singleton.mp h)
    · exact ⟨nodup_cons.mpr ⟨hnew, hnodup⟩, fun x hx => mem_cons.mp hx⟩
  · exact ⟨hnodup, fun x hx => .inr hx⟩

/-- The invariant of the map. -/
structure Inv (m : AddrRangeMap V) : Prop where
  ordered : Ordered m.tree
  proper : ∀ e ∈ m.tree, e.range.Proper
  named : (m.tree.map Entry.it).Nodup
  fresh : ∀ e ∈ m.tree, e.it < m.fresh
  cached : ∀ it ∈ m.cache, ∃ e ∈ m.tree, e.it = it
  once : m.cache.Nodup

theorem inv_new : Inv (new : AddrRangeMap V) := by
  refine ⟨Pairwise.nil, ?_, nodup_nil, ?_, ?_, nodup_nil⟩
  all_goals
    intro x hx
    cases hx

/-- What a lookup returns. -/
def Answers (tree : List (Entry V)) (cond : AddrRange → Except Fault Bool) (res : Option Iter) :
    Prop :=
  (res = none ↔ ∀ e ∈ tree, cond e.range ≠ .ok true) ∧
    ∀ it, res = some it → ∃ e ∈ tree, e.it = it ∧ cond e.range = .ok true

theorem answers_some (he : e ∈ tree) (htrue : cond e.range = .ok true) :
    Answers tree cond (some e.it) := by
  refine ⟨⟨nofun, fun h => absurd htrue (h e he)⟩, fun it hit => ?_⟩
  cases hit
  exact ⟨e, he, rfl, htrue⟩

/-- `find` answers right and keeps the invariant. -/
theorem find_ensures (h : Inv m) (hs : Searchable r cond m.tree) :
    Ensures (find n r cond) m fun res m' =>
      Inv m' ∧ m'.tree = m.tree ∧ m'.fresh = m.fresh ∧ Answers m.tree cond res := by
  unfold find
  rw [ensures_bind, ensures_get, ensures_bind]
  refine (findCached_ensures m.cache []).mono ?_
  rintro res m' (⟨rfl, hsteady, hall⟩ | ⟨e, he, rfl, htrue, cache, rfl, hperm⟩)
  · subst m'
    rw [ensures_bind, ensures_get, ensures_bind]
    refine ensures_lift fun found hfound => ?_
    cases found with
    | none =>
      rw [ensures_pure]
      have hnone := search_complete h.ordered hs hfound
      exact ⟨h, rfl, rfl, ⟨fun _ => hnone, fun _ => rfl⟩, nofun⟩
    | some e =>
      obtain ⟨he, htrue⟩ := search_some hfound
      rw [ensures_bind, ensures_modify, ensures_pure]
      -- the entry was not in the cache, where it would have been found
      have hnew : e.it ∉ m.cache := fun hmem => by
        obtain ⟨e', he', hit, hfalse⟩ := hall e.it hmem
        rw [inj_on_of_nodup_map h.named he' he hit, htrue] at hfalse
        cases hfalse
      obtain ⟨hnodup, hmem⟩ := addNewEntryToCache_nodup hnew h.once
      refine ⟨{ h with cached := fun it hit => ?_, once := hnodup }, rfl, rfl, answers_some he htrue⟩
      rcases hmem it hit with rfl | hold
      · exact ⟨e, he, rfl⟩
      · exact h.cached it hold
  · rw [ensures_pure]
    refine ⟨{ h with cached := fun it hit => ?_, once := ?_ }, rfl, rfl, answers_some he htrue⟩
    · exact h.cached it (by simpa using hperm.mem_iff.mp hit)
    · exact hperm.nodup_iff.mpr (by simpa using h.once)

/-! ### The calls -/

/-- A new entry between those before and those after it. -/
theorem Inv.insert_between {before after : List (Entry V)} (h : Inv m) (hr : r.Proper)
    (htree : m.tree = before ++ after) (hbefore : ∀ e ∈ before, Before e.range r)
    (hafter : ∀ e ∈ after, Before r e.range) (d : V) :
    Inv { m with
      tree := before ++ { it := m.fresh, range := r, value := d } :: after
      fresh := m.fresh + 1 } := by
  have hmem : ∀ e, e ∈ before ++ { it := m.fresh, range := r, value := d } :: after →
      e ∈ m.tree ∨ e = { it := m.fresh, range := r, value := d } := by
    intro e he
    rw [htree]
    simp only [mem_append, mem_cons] at he ⊢
    tauto
  have hordered := h.ordered
  rw [Ordered, htree, pairwise_append] at hordered
  refine ⟨?_, fun e he => ?_, ?_, fun e he => ?_, fun it hit => ?_, h.once⟩
  · rw [Ordered, pairwise_append, pairwise_cons]
    refine ⟨hordered.1, ⟨hafter, hordered.2.1⟩, fun a ha b hb => ?_⟩
    rcases mem_cons.mp hb with rfl | hb
    · exact hbefore a ha
    · exact hordered.2.2 a ha b hb
  · rcases hmem e he with hold | rfl
    · exact h.proper e hold
    · exact hr
  · -- the name is new
    have hnew : ∀ it ∈ m.tree.map Entry.it, it ≠ m.fresh := by
      intro it hit
      obtain ⟨e, he, rfl⟩ := mem_map.mp hit
      exact Nat.ne_of_lt (h.fresh e he)
    have hperm : (before ++ { it := m.fresh, range := r, value := d } :: after).Perm
        ({ it := m.fresh, range := r, value := d } :: m.tree) := by
      rw [htree]
      exact perm_middle
    rw [(hperm.map Entry.it).nodup_iff, map_cons, nodup_cons]
    exact ⟨fun hin => hnew _ hin rfl, h.named⟩
  · rcases hmem e he with hold | rfl
    · exact Nat.lt_succ_of_lt (h.fresh e hold)
    · exact Nat.lt_succ_self _
  · obtain ⟨e, he, heq⟩ := h.cached it hit
    refine ⟨e, ?_, heq⟩
    rw [htree] at he
    simp only [mem_append, mem_cons] at he ⊢
    tauto

/-- Ranges that overlap only as parts of one chunk follow each other in the order of the tree. -/
theorem before_of_lt {a b : AddrRange} (hb : b.Proper)
    (hover : a.Overlaps b → a.mergesWith b = true ∧ a.interleaved = true) (hlt : a.lt b = true) :
    Before a b := by
  by_cases hov : a.Overlaps b
  · obtain ⟨hmerge, hi⟩ := hover hov
    refine .inr ⟨hmerge, hi, ?_⟩
    rcases lt_iff.mp hlt with h | ⟨_, _, h⟩
    · obtain ⟨k, rfl⟩ := mergesWith_iff.mp hmerge
      exact absurd h (lt_irrefl _)
    · exact h ((interleaved_of_mergesWith hmerge).symm.trans hi)
  · exact .inl (BitVec.not_lt.mp fun hlt' =>
      hov ⟨Std.lt_of_le_of_lt (start_le_of_lt hlt) hb, hlt'⟩)

/-- A range that overlaps others only as part of an interleaved set keeps the invariant. -/
theorem treeInsert_ensures (h : Inv m) (hr : r.Proper)
    (hover : ∀ e ∈ m.tree, r.Overlaps e.range → r.mergesWith e.range = true ∧ r.interleaved = true)
    (d : V) : Ensures (treeInsert r d) m fun _ m' => Inv m' := by
  unfold treeInsert
  rw [ensures_bind, ensures_get, span_eq_takeWhile_dropWhile]
  have htree : m.tree = (m.tree.takeWhile fun e => e.range.lt r)
      ++ m.tree.dropWhile fun e => e.range.lt r := (takeWhile_append_dropWhile).symm
  have hbefore : ∀ e ∈ m.tree.takeWhile fun e => e.range.lt r, Before e.range r := by
    intro e he
    have hmem := (takeWhile_sublist _).subset he
    have hlt := mem_takeWhile_imp he
    refine before_of_lt hr (fun hov => ?_) hlt
    obtain ⟨hmerge, hi⟩ := hover e hmem hov.symm
    exact ⟨mergesWith_symm hmerge, (interleaved_of_mergesWith hmerge).symm.trans hi⟩
  cases hafter : m.tree.dropWhile fun e => e.range.lt r with
  | nil =>
    rw [ensures_bind, ensures_modify, ensures_pure]
    rw [hafter] at htree
    exact h.insert_between hr htree hbefore (by simp) d
  | cons e =>
    dsimp only
    split
    · rename_i hlt
      rw [ensures_bind, ensures_modify, ensures_pure]
      rw [hafter] at htree
      refine h.insert_between hr htree hbefore (fun x hx => ?_) d
      have hmem : x ∈ m.tree := by
        rw [htree]
        exact mem_append_right _ hx
      refine before_of_lt (h.proper x hmem) (hover x hmem) ?_
      -- what follows an entry behind the range lies behind the range too
      rcases mem_cons.mp hx with rfl | hrest
      · exact hlt
      · have hordered := h.ordered
        rw [Ordered, htree, pairwise_append, pairwise_cons] at hordered
        have hmemE : e ∈ m.tree := by
          rw [htree]
          simp
        exact lt_trans hlt ((hordered.2.1.1 x hrest).lt (h.proper e hmemE))
    · rw [ensures_pure]
      exact h

/-- Entries may go, if their iterators go from the cache. -/
theorem Inv.restrict (h : Inv m) (htree : tree.Sublist m.tree) (hcache : cache.Sublist m.cache)
    (hcached : ∀ it ∈ cache, ∃ e ∈ tree, e.it = it) : Inv { m with tree := tree, cache := cache } :=
  { ordered := h.ordered.sublist htree
    proper := fun e he => h.proper e (htree.subset he)
    named := h.named.sublist (htree.map _)
    fresh := fun e he => h.fresh e (htree.subset he)
    cached := hcached
    once := h.once.sublist hcache }

/-- `erase` drops the iterator from the cache, too. -/
theorem erase_ensures (h : Inv m) (p : Iter) : Ensures (erase p) m fun _ m' => Inv m' := by
  unfold erase
  rw [ensures_bind]
  refine (deref_ensures p).mono ?_
  rintro e m' ⟨hsteady, _⟩
  subst m'
  rw [ensures_modify]
  refine h.restrict filter_sublist filter_sublist fun it hit => ?_
  obtain ⟨hmem, hne⟩ := mem_filter.mp hit
  obtain ⟨e', he', rfl⟩ := h.cached it hmem
  exact ⟨e', mem_filter.mpr ⟨he', hne⟩, rfl⟩

theorem cutRange_append (p q : Option Iter) (tree : List (Entry V)) :
    tree = (cutRange p q tree).1 ++ ((cutRange p q tree).2.1 ++ (cutRange p q tree).2.2) := by
  unfold cutRange
  simp [takeWhile_append_dropWhile]

/-- The first entry of the range is `p`. -/
theorem cutRange_head {p q : Option Iter} (h : (cutRange p q tree).2.1 = e :: rest) :
    some e.it = p := by
  unfold cutRange at h
  simp only [span_eq_takeWhile_dropWhile] at h
  have hhead := head?_dropWhile_not (fun e : Entry V => decide (some e.it ≠ p)) tree
  cases hdrop : tree.dropWhile fun e => decide (some e.it ≠ p) with
  | nil =>
    rw [hdrop] at h
    cases h
  | cons =>
    rw [hdrop] at h hhead
    rw [takeWhile_cons] at h
    split at h
    · cases h
      simpa using hhead
    · cases h

/-- Removing one iterator again and again. -/
theorem foldl_filter_sublist (p : Option Iter) (erased : List (Entry V)) : ∀ cache : List Iter,
    (erased.foldl (fun cache _ => cache.filter fun it => some it ≠ p) cache).Sublist cache ∧
      (erased ≠ [] → ∀ it ∈ erased.foldl (fun cache _ => cache.filter fun it => some it ≠ p) cache,
        some it ≠ p) := by
  induction erased with
  | nil => exact fun cache => ⟨Sublist.refl _, fun h => absurd rfl h⟩
  | cons e erased ih =>
    intro cache
    obtain ⟨hsub, _⟩ := ih (cache.filter fun it => some it ≠ p)
    refine ⟨hsub.trans filter_sublist, fun _ it hit => ?_⟩
    exact of_decide_eq_true (mem_filter.mp (hsub.subset hit)).2

/-- The entries between two iterators go. None behind the first may be in the cache. -/
theorem eraseRange_ensures (h : Inv m) (p q : Option Iter)
    (hfirst : ∀ e ∈ (cutRange p q m.tree).2.1.tail, e.it ∉ m.cache) :
    Ensures (eraseRange p q) m fun _ m' => Inv m' := by
  unfold eraseRange
  rw [ensures_bind, ensures_get]
  dsimp only
  split
  · simp
  · rw [ensures_modify]
    have htree := cutRange_append p q m.tree
    obtain ⟨hsub, hgone⟩ := foldl_filter_sublist p (cutRange p q m.tree).2.1 m.cache
    refine h.restrict ?_ hsub fun it hit => ?_
    · conv_rhs => rw [htree]
      exact Sublist.append_left (sublist_append_right _ _) _
    · obtain ⟨e, he, rfl⟩ := h.cached it (hsub.subset hit)
      refine ⟨e, ?_, rfl⟩
      rw [htree] at he
      rcases mem_append.mp he with hb | ha
      · exact mem_append_left _ hb
      rcases mem_append.mp ha with herased | ha
      · -- an erased entry is `p`, or it was not in the cache
        cases hcut : (cutRange p q m.tree).2.1 with
        | nil =>
          rw [hcut] at herased
          cases herased
        | cons =>
          have hx := cutRange_head hcut
          rw [hcut] at herased hfirst
          rcases mem_cons.mp herased with rfl | hrest
          · exact absurd hx (hgone (by rw [hcut]; simp) _ hit)
          · exact absurd (hsub.subset hit) (hfirst e hrest)
      · exact mem_append_right _ ha

/-- The calls on which the map and its cache work. -/
def Fine (m : AddrRangeMap V) : Call V → Prop
  | .insert r _ => Compatible m r
  | .erase _ => True
  | .eraseRange p q => ∀ e ∈ (cutRange p q m.tree).2.1.tail, e.it ∉ m.cache
  | .clear => True
  | .contains r => r.Proper
  | .intersects r => Compatible m r

/-- `insert` tests for an overlap before it changes the tree. -/
theorem insert_ensures (h : Inv m) (hc : Compatible m r) (d : V) :
    Ensures (insert n r d) m fun _ m' => Inv m' := by
  unfold insert intersects
  rw [ensures_bind]
  refine (find_ensures h (searchable_intersects h.proper hc)).mono ?_
  rintro res m' ⟨hinv, htree, _, hanswers⟩
  cases res with
  | some =>
    rw [ensures_pure]
    exact hinv
  | none =>
    rw [ensures_bind]
    have hnone := hanswers.1.mp rfl
    refine (treeInsert_ensures hinv hc.1 (fun e he hover => ?_) d).mono fun it m'' h'' => by
      rw [ensures_pure]
      exact h''
    -- two plain ranges that overlap intersect
    rw [htree] at he
    have hplain : ¬ (r.interleaved = false ∧ e.range.interleaved = false) := fun hp =>
      hnone e he (intersects_of_plain hover hp.1 hp.2)
    have hmerge := (hc.2 e he hover).resolve_left hplain
    refine ⟨hmerge, ?_⟩
    cases hi : r.interleaved with
    | true => rfl
    | false => exact absurd ⟨hi, (interleaved_of_mergesWith hmerge).symm.trans hi⟩ hplain

/-- The condition of a lookup. -/
def lookupCond : Call V → Option (AddrRange → Except Fault Bool)
  | .contains r => some r.isSubset
  | .intersects r => some r.intersects
  | _ => none

/-- Every call keeps the invariant, and a lookup answers as a scan of all entries would. -/
theorem code_ensures (h : Inv m) (hc : Fine m c) :
    Ensures (code n c) m fun res m' =>
      Inv m' ∧ ∀ cond, lookupCond c = some cond → Answers m.tree cond res := by
  -- a call that is no lookup
  have hvoid : ∀ {p : MapM V Unit}, Ensures p m (fun _ m' => Inv m') →
      Ensures (p >>= fun _ => pure none) m fun (_ : Option Iter) m' => Inv m' := by
    intro p hp
    rw [ensures_bind]
    refine hp.mono fun _ m' h' => ?_
    rw [ensures_pure]
    exact h'
  have hlookup : ∀ {r : AddrRange} {cond}, Searchable r cond m.tree →
      Ensures (find n r cond) m fun res m' =>
        Inv m' ∧ ∀ cond', some cond = some cond' → Answers m.tree cond' res := by
    intro r cond hs
    refine (find_ensures h hs).mono ?_
    rintro res m' ⟨h', _, _, hanswers⟩
    refine ⟨h', fun cond' hcond => ?_⟩
    cases hcond
    exact hanswers
  cases c with
  | insert r d => exact (insert_ensures h hc d).mono fun _ m' h' => ⟨h', nofun⟩
  | erase p => exact (hvoid (erase_ensures h p)).mono fun _ m' h' => ⟨h', nofun⟩
  | eraseRange p q => exact (hvoid (eraseRange_ensures h p q hc)).mono fun _ m' h' => ⟨h', nofun⟩
  | clear =>
    refine (hvoid (p := clear) ?_).mono fun _ m' h' => ⟨h', nofun⟩
    rw [clear, ensures_modify]
    exact h.restrict (nil_sublist _) (nil_sublist _) (by simp)
  | contains => exact hlookup (searchable_isSubset hc h.proper)
  | intersects => exact hlookup (searchable_intersects h.proper hc)

/-- One call. -/
theorem step_inv {m' : AddrRangeMap V} (h : Inv m) (hc : Fine m c) (hstep : step n m c = some m') :
    Inv m' := by
  unfold step at hstep
  cases hcode : code n c m with
  | error =>
    rw [hcode] at hstep
    cases hstep
  | ok x =>
    rw [hcode] at hstep
    cases hstep
    exact (code_ensures h hc x.1 x.2 hcode).1

/-- The cache of the map is transparent in every run of fine calls: the entries share no address,
the cache names entries of the map, none of them twice, and the next lookup returns no iterator
exactly when no entry satisfies its condition, and otherwise one that satisfies it. -/
theorem cache_transparent_of_fine (n : BitVec 32) (calls : List (Call V)) (m : AddrRangeMap V)
    (hfine : RunMeets (step n) Fine new calls) (hrun : run (step n) new calls = some m) :
    (m.tree.Pairwise fun a b => ∀ x, ¬ (a.range.contains x = true ∧ b.range.contains x = true)) ∧
    (∀ it ∈ m.cache, ∃ e ∈ m.tree, e.it = it) ∧ m.cache.Nodup ∧
    ∀ c cond res m', Fine m c → lookupCond c = some cond → code n c m = .ok (res, m') →
      (res = none ↔ ∀ e ∈ m.tree, cond e.range ≠ .ok true) ∧
        ∀ it, res = some it → ∃ e ∈ m.tree, e.it = it ∧ cond e.range = .ok true := by
  have h : Inv m := run_invariant_of_meets (fun s c s' hs hc => step_inv hs hc) inv_new hfine hrun
  refine ⟨h.ordered.imp fun hb x => hb.not_contains x, h.cached, h.once, ?_⟩
  intro c cond res m' hc hcond hcode
  exact (code_ensures h hc res m' hcode).2 cond hcond

instance (m : AddrRangeMap V) (r : AddrRange) : Decidable (Compatible m r) :=
  inferInstanceAs (Decidable (_ ∧ _))

instance (m : AddrRangeMap V) : (c : Call V) → Decidable (Fine m c)
  | .insert r _ => inferInstanceAs (Decidable (Compatible m r))
  | .erase _ => inferInstanceAs (Decidable True)
  | .eraseRange p q =>
    inferInstanceAs (Decidable (∀ e ∈ (cutRange p q m.tree).2.1.tail, e.it ∉ m.cache))
  | .clear => inferInstanceAs (Decidable True)
  | .contains r => inferInstanceAs (Decidable r.Proper)
  | .intersects r => inferInstanceAs (Decidable (Compatible m r))

/-- Two parts of one chunk and a plain range, a lookup, and one of them erased. -/
theorem cache_transparent_of_fine_chunk :
    ∃ m : AddrRangeMap Nat, run (step 2) new [.insert ⟨0, 64, [8], 0⟩ 0, .insert ⟨0, 64, [8], 1⟩ 1,
        .insert (.plain 64 80) 2, .contains (.rangeSize 12 4), .contains (.rangeSize 70 1),
        .eraseRange (some 2) none] = some m ∧
      m.cache = [1] ∧ m.cache.Nodup ∧ ∀ it ∈ m.cache, ∃ e ∈ m.tree, e.it = it := by
  obtain ⟨m, hrun, hcache⟩ : ∃ m ∈ run (step 2) (new : AddrRangeMap Nat)
      [.insert ⟨0, 64, [8], 0⟩ 0, .insert ⟨0, 64, [8], 1⟩ 1, .insert (.plain 64 80) 2,
        .contains (.rangeSize 12 4), .contains (.rangeSize 70 1), .eraseRange (some 2) none],
      m.cache = [1] := by
    decide
  obtain ⟨_, hcached, hnodup, _⟩ := cache_transparent_of_fine 2 _ m (by decide) hrun
  exact ⟨m, hrun, hcache, hnodup, hcached⟩

/-- Three runs without a panic. In the first one two entries are erased and the second one stays
in the cache. In the second one a lookup of the address 4 misses the interleaved entry that holds
it, behind a plain entry of size one. In the third one two entries hold the address 1. -/
theorem cache_dangles_or_lookup_misses_or_entries_overlap :
    (∃ m : AddrRangeMap Nat, run (step 3) new [.insert (.plain 0 10) 0, .insert (.plain 20 30) 1,
        .contains (.rangeSize 25 1), .eraseRange (some 0) none] = some m ∧
      m.tree = [] ∧ m.cache = [1]) ∧
    (∃ m : AddrRangeMap Nat, run (step 3) new [.insert (.plain 3 4) 0, .insert ⟨0, 100, [1], 0⟩ 1]
        = some m ∧
      contains 3 (.rangeSize 4 1) m = .ok (none, m) ∧
      ∃ e ∈ m.tree, (AddrRange.rangeSize 4 1).isSubset e.range = .ok true) ∧
    ∃ m : AddrRangeMap Nat, run (step 3) new [.insert ⟨0, 2, [1], 1⟩ 0, .insert (.plain 1 2) 1]
        = some m ∧
      m.tree.map (fun e => e.range.contains 1) = [true, true] := by
  refine ⟨⟨_, rfl, rfl, rfl⟩, ⟨_, rfl, rfl, ?_⟩, ⟨_, rfl, ?_⟩⟩
  · exact ⟨_, mem_cons_self, by decide⟩
  · decide

end AddrRangeMap

end Gem5.Base
