import Gem5.Proofs.Base.AddrRangeMap

/-!
# `Gem5.Proofs.Base.AddrRange`: ranges without other ranges

`exclude` sweeps over the exclusions in the order of their starts. `Pieces` says what it adds from
a point on: the addresses behind this point that no exclusion spans, in ranges that follow each
other. `excludeList_eq_difference` is the result for lists of ranges in any order, which may
overlap or be empty.
-/

namespace Gem5.Base.AddrRange

open List
open BitVec (not_lt le_trans le_refl)

open Gem5.Lib

variable (r : AddrRange)

/-- The address lies between the ends of the range. -/
def Spans (a : BitVec 64) : Prop := r.start ≤ a ∧ a < r.end_

/-- A range without masks contains the addresses between its ends. -/
theorem contains_iff_spans {r : AddrRange} (hmasks : r.masks = []) (hmatch : r.intlvMatch = 0)
    (a : BitVec 64) : r.contains a = true ↔ r.Spans a := by
  have hsel : sel r.masks a == r.intlvMatch.toNat := by
    rw [hmasks, hmatch]
    rfl
  simp [contains, hsel, Spans]

/-- A range without interleaving whose ends are in order. -/
def Plain : Prop := r.interleaved = false ∧ r.start ≤ r.end_

instance (r : AddrRange) : Decidable r.Plain := inferInstanceAs (Decidable (_ ∧ _))

/-- The pieces of a range from `nextStart` on, without the exclusions `es`. -/
structure Pieces (this : AddrRange) (es : List AddrRange) (nextStart : BitVec 64)
    (pieces : List AddrRange) : Prop where
  spans : ∀ a, (∃ p ∈ pieces, p.Spans a) ↔
    (nextStart ≤ a ∧ a < this.end_) ∧ ∀ e ∈ es, ¬ e.Spans a
  proper : ∀ p ∈ pieces, p.Proper
  increasing : pieces.Pairwise fun p q => p.end_ ≤ q.start

section
variable {this e : AddrRange} {es pieces ranges : List AddrRange} {nextStart next : BitVec 64}

/-- No address is left. -/
theorem Pieces.nil (h : this.end_ ≤ nextStart) : Pieces this es nextStart [] := by
  refine ⟨fun a => ?_, by simp, .nil⟩
  grind

/-- An exclusion that spans no address from `nextStart` to `next`. -/
theorem Pieces.skip (h : Pieces this es next pieces) (hle : nextStart ≤ next)
    (hgap : ∀ a, nextStart ≤ a → a < this.end_ → (e.Spans a ↔ a < next)) :
    Pieces this (e :: es) nextStart pieces := by
  refine ⟨fun a => (h.spans a).trans ?_, h.proper, h.increasing⟩
  grind

/-- The part before the next exclusion. -/
theorem Pieces.cons (h : Pieces this es e.end_ pieces) (hlt : nextStart < e.start)
    (hvalid : e.start ≤ e.end_) (hend : e.start < this.end_)
    (hsorted : ∀ e' ∈ es, e.start ≤ e'.start) :
    Pieces this (e :: es) nextStart (plain nextStart e.start :: pieces) := by
  refine ⟨fun a => ?_, ?_, ?_⟩
  · simp only [mem_cons, exists_eq_or_imp, h.spans a]
    grind [Spans, plain]
  · rw [forall_mem_cons]
    exact ⟨hlt, h.proper⟩
  · refine pairwise_cons.mpr ⟨fun p hp => ?_, h.increasing⟩
    -- A piece spans its start, which is behind the exclusion.
    have hstart := ((h.spans p.start).mp ⟨p, hp, le_refl _, h.proper p hp⟩).1.1
    exact le_trans hvalid hstart

/-- The loop of `exclude`. -/
theorem sweep_spec (hthis : this.Plain) (hplain : ∀ e ∈ es, e.Plain)
    (hsorted : es.Pairwise fun e e' => e.start ≤ e'.start) (hstart : this.start ≤ nextStart) :
    ∃ pieces, this.sweep es nextStart ranges = .ok (ranges ++ pieces) ∧
      Pieces this es nextStart pieces := by
  induction es generalizing nextStart ranges with
  | nil =>
    rw [sweep]
    split
    · next hlt =>
      refine ⟨[plain nextStart this.end_], rfl, fun a => ?_, ?_, pairwise_singleton _ _⟩ <;>
        simp [Spans, plain, Proper, hlt]
    · next hle => exact ⟨[], by simp, .nil (not_lt.mp hle)⟩
  | cons e es ih =>
    have he := hplain e mem_cons_self
    rw [pairwise_cons] at hsorted
    replace hplain : ∀ e' ∈ es, e'.Plain := fun e' he' => hplain e' (mem_cons_of_mem e he')
    -- What follows the exclusion: the rest of the loop or an early return.
    have hrest : ∀ {next ranges}, this.start ≤ next → e.end_ ≤ next →
        ∃ pieces, (if e.end_ < this.end_ then this.sweep es next ranges else .ok ranges)
          = .ok (ranges ++ pieces) ∧ Pieces this es next pieces := by
      intro next ranges hstart hle
      split
      · exact ih hplain hsorted.2 hstart
      · next hend => exact ⟨[], by simp, .nil (le_trans (not_lt.mp hend) hle)⟩
    rw [sweep, if_neg (by simp [he.1])]
    by_cases hmeets : this.Overlaps e
    · rw [intersects_of_plain hmeets hthis.1 he.1]
      show ∃ pieces, (if e.start ≤ nextStart then _ else _) = _ ∧ _
      split
      · obtain ⟨pieces, hrun, h⟩ := @hrest (if nextStart < e.end_ then e.end_ else nextStart)
          ranges (by grind) (by grind)
        exact ⟨pieces, hrun, h.skip (by grind) (by grind [Spans])⟩
      · obtain ⟨pieces, hrun, h⟩ := @hrest e.end_ (ranges ++ [plain nextStart e.start])
          (BitVec.le_of_lt hmeets.1) (le_refl _)
        rw [append_assoc] at hrun
        exact ⟨_, hrun, h.cons (by grind) he.2 hmeets.2 hsorted.1⟩
    · rw [intersects_of_not_overlaps hmeets]
      show ∃ pieces, this.sweep es nextStart ranges = _ ∧ _
      obtain ⟨pieces, hrun, h⟩ := ih hplain hsorted.2 hstart
      exact ⟨pieces, hrun, h.skip (le_refl _) (by grind [Spans, Overlaps])⟩

theorem mem_sort : e ∈ sort es ↔ e ∈ es := (mergeSort_perm es _).mem_iff

/-- `exclude` cuts a plain range into pieces in order. -/
theorem exclude_spec (hthis : this.Plain) (hplain : ∀ e ∈ es, e.Plain) :
    ∃ pieces, this.exclude es = .ok pieces ∧ Pieces this es this.start pieces := by
  have hsorted : (sort es).Pairwise fun e e' => e.start ≤ e'.start := by
    refine (pairwise_mergeSort (fun a b c hab hbc => ?_) (fun a b => ?_) es).imp fun h => ?_
    all_goals simp only [Bool.not_eq_true', Bool.or_eq_true] at *
    · unfold lt at *
      grind
    · unfold lt at *
      grind
    · exact start_le_of_not_lt h
  obtain ⟨pieces, hrun, h⟩ := @sweep_spec this (sort es) [] this.start hthis
    (fun e he => hplain e (mem_sort.mp he)) hsorted (le_refl _)
  refine ⟨pieces, ?_, ?_, h.proper, h.increasing⟩
  · rw [exclude, if_neg (by simp [hthis.1])]
    exact hrun
  · simpa only [mem_sort] using h.spans

end

/-- An address lies in a range that `exclude` returns if and only if it lies in a range of `base`
and in no exclusion. The pieces of each range are not empty and in increasing order. -/
theorem excludeList_eq_difference (base toExclude : List AddrRange)
    (hbase : ∀ r ∈ base, r.Plain) (hexclude : ∀ e ∈ toExclude, e.Plain) :
    ∃ pieces : AddrRange → List AddrRange, excludeList base toExclude = .ok (base.flatMap pieces) ∧
      (∀ a, (∃ p ∈ base.flatMap pieces, p.Spans a) ↔
        (∃ r ∈ base, r.Spans a) ∧ ∀ e ∈ toExclude, ¬ e.Spans a) ∧
      ∀ r ∈ base, r.exclude (sort toExclude) = .ok (pieces r) ∧ (∀ p ∈ pieces r, p.Proper) ∧
        (pieces r).Pairwise fun p q => p.end_ ≤ q.start := by
  have hspec : ∀ r ∈ base, ∃ pieces, r.exclude (sort toExclude) = .ok pieces ∧
      Pieces r (sort toExclude) r.start pieces := fun r hr =>
    exclude_spec (hbase r hr) fun e he => hexclude e (mem_sort.mp he)
  choose! pieces hrun hpieces using hspec
  refine ⟨pieces, ?_, fun a => ?_, fun r hr => ⟨hrun r hr, (hpieces r hr).proper,
    (hpieces r hr).increasing⟩⟩
  · rw [excludeList, mapM_eq_ok hrun]
    rfl
  · have hspans : ∀ r ∈ base, (∃ p ∈ pieces r, p.Spans a) ↔
        r.Spans a ∧ ∀ e ∈ toExclude, ¬ e.Spans a := by
      intro r hr
      rw [(hpieces r hr).spans a]
      simp only [mem_sort, Spans]
    grind

/-- Two exclusions that overlap, an empty one and one past the end. -/
theorem excludeList_eq_difference_overlap :
    ∃ ranges, excludeList [plain 0 10] [plain 8 20, plain 3 5, plain 2 4, plain 6 6] = .ok ranges ∧
      (∃ p ∈ ranges, p.Spans 7) ∧ ¬ ∃ p ∈ ranges, p.Spans 4 := by
  obtain ⟨pieces, hrun, hspans, _⟩ := excludeList_eq_difference [plain 0 10]
    [plain 8 20, plain 3 5, plain 2 4, plain 6 6] (by decide) (by decide)
  refine ⟨_, hrun, (hspans 7).mpr ?_, fun h => ?_⟩
  · simp [Spans, plain]
  · have hno := (hspans 4).mp h
    simp [Spans, plain] at hno

end Gem5.Base.AddrRange
