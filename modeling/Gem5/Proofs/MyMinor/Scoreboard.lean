import Gem5.MyMinor.Scoreboard
import Mathlib.Data.List.Induction

/-!
# `Gem5.Proofs.MyMinor.Scoreboard`: when the scoreboard counts what is in flight

`Exact` says what the scoreboard is for: its counters and its writers are those of the instructions
in flight. The loops over the destinations have a closed form (`markIndices`, `clearIndices`), and
with it a step from an exact state leads to an exact state exactly under the condition `Meets`.

`markupInstDests` is told to count an instruction as unpredictable if it is a memory reference
without assumed latency, and `clearInstDests` if it is a memory reference. So a memory reference
with an assumed latency takes away the count of a younger one (`count_lost`).
-/

namespace Gem5.MyMinor

open Function List Scoreboard Option

open Lib (run RunMeets run_invariant run_invariant_of_meets)

namespace Scoreboard
variable (sb : Scoreboard) (ds : List (BitVec 16))

/-- A markup of the destinations `ds`. -/
theorem markIndices (execSeqNum fuIndex retireTime : Nat) (mark : Bool) (r : BitVec 16) :
    (ds.foldl (markIndex execSeqNum fuIndex retireTime mark) sb).numResults r
        = sb.numResults r + BitVec.ofNat 16 (ds.count r) ∧
      (ds.foldl (markIndex execSeqNum fuIndex retireTime mark) sb).numUnpredictableResults r
        = sb.numUnpredictableResults r + (if mark then BitVec.ofNat 16 (ds.count r) else 0) ∧
      (ds.foldl (markIndex execSeqNum fuIndex retireTime mark) sb).writingInst r
        = if r ∈ ds then max (sb.writingInst r) execSeqNum else sb.writingInst r := by
  induction ds generalizing sb with
  | nil => simp
  | cons d ds ih =>
    rw [foldl_cons]
    obtain ⟨hresults, hunpredictable, hwriting⟩ := ih (markIndex _ _ _ _ sb d)
    rw [hresults, hunpredictable, hwriting]
    by_cases hr : r = d
    · subst hr
      have hone : (1 : BitVec 16) + BitVec.ofNat 16 (ds.count r)
          = BitVec.ofNat 16 (ds.count r + 1) := by
        rw [BitVec.ofNat_add, BitVec.add_comm]
        rfl
      refine ⟨?_, ?_, ?_⟩
      · simp only [markIndex, update_self, count_cons_self, BitVec.add_assoc, hone]
      · cases mark with
        | false => rfl
        | true =>
          simp only [markIndex, if_true, update_self, count_cons_self, BitVec.add_assoc, hone]
      · simp only [markIndex]
        split <;> split <;> simp_all <;> omega
    · have hcount : (d :: ds).count r = ds.count r := count_cons_of_ne (Ne.symm hr)
      refine ⟨by simp [markIndex, hr, hcount], ?_, ?_⟩
      · cases mark <;> simp [markIndex, hr, hcount]
      · simp only [markIndex, mem_cons]
        by_cases hnewer : sb.writingInst d < execSeqNum <;> simp [hnewer, hr]

/-- A counted destination is cleared. -/
theorem clearIndex_self (clear : Bool) (r : BitVec 16) (h : 0 < (sb.numResults r).toNat) :
    ((clearIndex clear sb r).numResults r).toNat = (sb.numResults r).toNat - 1 ∧
      ((clearIndex clear sb r).numUnpredictableResults r).toNat
        = (sb.numUnpredictableResults r).toNat - (if clear then 1 else 0) ∧
      (clearIndex clear sb r).writingInst r
        = if (sb.numResults r).toNat = 1 then 0 else sb.writingInst r := by
  have hminus : ∀ x : BitVec 16, 0 < x.toNat → (x - 1).toNat = x.toNat - 1 := by
    intro x hx
    rw [BitVec.toNat_sub, show (1 : BitVec 16).toNat = 1 from rfl]
    omega
  refine ⟨by simp only [clearIndex, update_self, hminus _ h], ?_, ?_⟩
  · by_cases hz : sb.numUnpredictableResults r = 0
    · simp [clearIndex, hz]
    · have hpos : 0 < (sb.numUnpredictableResults r).toNat :=
        Nat.pos_of_ne_zero fun h => hz (BitVec.eq_of_toNat_eq h)
      cases clear with
      | false => rfl
      | true =>
        simp only [clearIndex, Bool.true_and, bne_iff_ne, ne_eq, hz, not_false_eq_true, if_true,
          update_self, hminus _ hpos]
  · have hlast : sb.numResults r - 1 = 0 ↔ (sb.numResults r).toNat = 1 := by
      rw [← BitVec.toNat_inj, hminus _ h, show (0 : BitVec 16).toNat = 0 from rfl]
      omega
    simp only [clearIndex, hlast]
    split <;> simp

/-- The destinations `ds` are cleared, while each is counted. -/
theorem clearIndices (clear : Bool) (r : BitVec 16) (h : ds.count r ≤ (sb.numResults r).toNat) :
    ((ds.foldl (clearIndex clear) sb).numResults r).toNat = (sb.numResults r).toNat - ds.count r ∧
      ((ds.foldl (clearIndex clear) sb).numUnpredictableResults r).toNat
        = (sb.numUnpredictableResults r).toNat - (if clear then ds.count r else 0) ∧
      (ds.foldl (clearIndex clear) sb).writingInst r
        = if r ∈ ds ∧ (sb.numResults r).toNat = ds.count r then 0 else sb.writingInst r := by
  induction ds generalizing sb with
  | nil => simp
  | cons d ds ih =>
    rw [foldl_cons]
    by_cases hr : r = d
    · subst hr
      rw [count_cons_self] at h ⊢
      obtain ⟨hresult, hcounted, hwritten⟩ := clearIndex_self sb clear r (by omega)
      obtain ⟨hresults, hunpredictable, hwriting⟩ := ih (clearIndex clear sb r) (by omega)
      have hmem : r ∈ ds ↔ 0 < ds.count r := count_pos_iff.symm
      rw [hresults, hunpredictable, hwriting, hcounted, hwritten]
      refine ⟨by omega, ?_, ?_⟩
      · cases clear with
        | false => rfl
        | true => rw [if_pos rfl, if_pos rfl, if_pos rfl, Nat.sub_sub, Nat.add_comm]
      simp only [mem_cons_self, true_and, hmem]
      split
      · rw [if_pos (by omega)]
      · split <;> split <;> first | rfl | omega
    · have hcount : (d :: ds).count r = ds.count r := count_cons_of_ne (Ne.symm hr)
      have hsame : (clearIndex clear sb d).numResults r = sb.numResults r ∧
          (clearIndex clear sb d).numUnpredictableResults r = sb.numUnpredictableResults r ∧
          (clearIndex clear sb d).writingInst r = sb.writingInst r := by
        refine ⟨by simp [clearIndex, hr], ?_, ?_⟩ <;> simp only [clearIndex] <;> split <;> simp [hr]
      have hclear := ih (clearIndex clear sb d) (by rw [hsame.1, ← hcount]; exact h)
      rw [hsame.1, hsame.2.1, hsame.2.2] at hclear
      simpa only [hcount, mem_cons, hr, false_or] using hclear

end Scoreboard

variable (o : RegOffsets)

/-- The indices that the scoreboard tracks for an instruction in flight. -/
def InFlightInst.dests (f : InFlightInst) : List (BitVec 16) :=
  if f.inst.isFault then [] else f.flatDestRegIdx.filterMap o.findIndex

/-- The indices that a markup of an instruction counts. -/
def IssuedInst.dests (flatten : RegId → RegId) (inst : IssuedInst) : List (BitVec 16) :=
  if inst.isFault then [] else (inst.destRegIdx.map flatten).filterMap o.findIndex

variable (fs : List InFlightInst) (r : BitVec 16)

/-- How often `r` is a destination of the instructions `fs`. -/
def occurrences : Nat :=
  (fs.flatMap (·.dests o)).count r

/-- The number of the youngest of the instructions `fs` that writes `r`. -/
def youngest : Nat :=
  fs.foldl (fun n f => if r ∈ f.dests o then f.inst.execSeqNum else n) 0

section
variable {o : RegOffsets} {fs : List InFlightInst} {r : BitVec 16} (f : InFlightInst)

theorem occurrences_cons :
    occurrences o (f :: fs) r = (f.dests o).count r + occurrences o fs r := by
  rw [occurrences, flatMap_cons, count_append]
  rfl

theorem occurrences_append :
    occurrences o (fs ++ [f]) r = occurrences o fs r + (f.dests o).count r := by
  simp [occurrences]

theorem occurrences_filter_le (p : InFlightInst → Bool) :
    occurrences o (fs.filter p) r ≤ occurrences o fs r := by
  induction fs with
  | nil => exact Nat.le_refl _
  | cons =>
    rw [filter_cons]
    split <;> simp only [occurrences_cons] <;> omega

theorem youngest_append :
    youngest o (fs ++ [f]) r = if r ∈ f.dests o then f.inst.execSeqNum else youngest o fs r := by
  rw [youngest, foldl_append]
  rfl

theorem youngest_le {n : Nat} (h : ∀ f ∈ fs, f.inst.execSeqNum ≤ n) : youngest o fs r ≤ n := by
  induction fs using reverseRecOn with
  | nil => exact Nat.zero_le n
  | append_singleton fs f ih =>
    simp only [mem_append, mem_singleton] at h
    rw [youngest_append]
    split
    · exact h f (.inr rfl)
    · exact ih fun g hg => h g (.inl hg)

theorem youngest_of_occurrences (h : occurrences o fs r = 0) : youngest o fs r = 0 := by
  induction fs using reverseRecOn with
  | nil => rfl
  | append_singleton fs f ih =>
    rw [occurrences_append] at h
    have hf : r ∉ f.dests o := count_eq_zero.1 (by omega)
    rw [youngest_append, if_neg hf, ih (by omega)]

/-- The oldest instruction is the youngest writer only while it is alone. -/
theorem youngest_cons :
    youngest o (f :: fs) r = if r ∈ f.dests o ∧ occurrences o fs r = 0 then f.inst.execSeqNum
        else youngest o fs r := by
  induction fs using reverseRecOn with
  | nil => simp [youngest, occurrences]
  | append_singleton fs g ih =>
    rw [← cons_append, youngest_append, youngest_append, occurrences_append, ih]
    by_cases hg : r ∈ g.dests o
    · have hcount := count_pos_iff.2 hg
      rw [if_pos hg, if_neg (by omega), if_pos hg]
    · simp [hg, count_eq_zero.2 hg]

end

namespace IssueState
variable {o : RegOffsets} {s s' : IssueState}

/-- The counters and the writers of the scoreboard are those of the instructions in flight. -/
structure Exact (o : RegOffsets) (s : IssueState) : Prop where
  results : ∀ r, (s.scoreboard.numResults r).toNat = occurrences o s.inFlightInsts r
  unpredictable : ∀ r, (s.scoreboard.numUnpredictableResults r).toNat
    = occurrences o (s.inFlightInsts.filter (·.unpredictable)) r
  writing : ∀ r, s.scoreboard.writingInst r = youngest o s.inFlightInsts r

/-- A 16 bit counter has room for the destinations of an instruction that issues. A memory reference
that was not marked unpredictable commits only when no instruction in flight that was marked
unpredictable writes one of its destinations. -/
def Meets (o : RegOffsets) (s : IssueState) : Event → Prop
  | .issue inst flatten _ _ _ _ =>
    ∀ r, occurrences o s.inFlightInsts r + (inst.dests o flatten).count r < 0x10000
  | .commit => ∀ head ∈ s.inFlightInsts.head?, head.inst.isMemRef = true →
    head.unpredictable = false → ∀ r ∈ head.dests o,
      occurrences o (s.inFlightInsts.filter (·.unpredictable)) r = 0

/-- What holds in every run: the numbers of the instructions in flight are not above the last one,
and only memory references are marked unpredictable. -/
structure Ordered (s : IssueState) : Prop where
  le_last : ∀ f ∈ s.inFlightInsts, f.inst.execSeqNum ≤ s.lastExecSeqNum
  memRef : ∀ f ∈ s.inFlightInsts, f.unpredictable = true → f.inst.isMemRef = true

/-- Instructions issue in order. -/
theorem ordered_step (h : Ordered s) {e : Event} (hstep : step o s e = some s') : Ordered s' := by
  cases e with
  | issue =>
    simp only [step, ite_none_right_eq_some, some.injEq] at hstep
    obtain ⟨hlast, rfl⟩ := hstep
    constructor <;> intro f hf <;> rcases mem_append.1 hf with hf | hf
    · exact Nat.le_trans (h.le_last f hf) (Nat.le_of_lt hlast)
    · rw [mem_singleton.1 hf]
      exact Nat.le_refl _
    · exact h.memRef f hf
    · rw [mem_singleton.1 hf]
      intro hmark
      simp only [markArguments] at hmark
      split at hmark
      · cases hmark
      · exact (Bool.and_eq_true _ _ ▸ hmark).1
  | commit =>
    simp only [step] at hstep
    split at hstep
    · cases hstep
    · next head rest hfs =>
      cases hstep
      have hmem : ∀ f ∈ rest, f ∈ s.inFlightInsts := fun f hf => hfs ▸ mem_cons_of_mem _ hf
      exact ⟨fun f hf => h.le_last f (hmem f hf), fun f hf => h.memRef f (hmem f hf)⟩

/-- Marking keeps the destinations. -/
theorem dests_marked (inst : IssuedInst) (flatten : RegId → RegId) (unpredictable : Bool) :
    (marked o inst flatten unpredictable).dests o = inst.dests o flatten := by
  simp only [marked, InFlightInst.dests, IssuedInst.dests, filterMap_map]
  congr 2
  funext reg
  simp only [comp]
  -- a register that the markup leaves out has no index
  cases h : o.findIndex (flatten reg) with
  | none => rfl
  | some => exact h

/-- An issue counts exactly while no counter overflows. -/
theorem exact_issue (h : Exact o s) (hordered : Ordered s) {inst : IssuedInst}
    {flatten : RegId → RegId} {fuIndex opLat : Nat} {timing : Option FUTiming} {now : Nat}
    (hlast : s.lastExecSeqNum < inst.execSeqNum) :
    Exact o (s.issue o inst flatten fuIndex opLat timing now)
      ↔ Meets o s (.issue inst flatten fuIndex opLat timing now) := by
  have hscoreboard : (s.issue o inst flatten fuIndex opLat timing now).scoreboard
      = (inst.dests o flatten).foldl (markIndex inst.execSeqNum
          (if inst.isNoCostInst then 0 else fuIndex) (markArguments inst opLat timing now).2
          (markArguments inst opLat timing now).1) s.scoreboard := by
    simp only [issue, IssuedInst.dests]
    split <;> rfl
  have hfs : (s.issue o inst flatten fuIndex opLat timing now).inFlightInsts
      = s.inFlightInsts ++ [marked o inst flatten (markArguments inst opLat timing now).1] := rfl
  generalize markArguments inst opLat timing now = call at hscoreboard hfs
  have hmark := fun r => hscoreboard ▸ markIndices s.scoreboard (inst.dests o flatten)
    inst.execSeqNum (if inst.isNoCostInst then 0 else fuIndex) call.2 call.1 r
  constructor
  · intro hexact r
    have hresults := hexact.results r
    rw [hfs, occurrences_append, dests_marked] at hresults
    omega
  · intro hmeets
    constructor <;> intro r <;> have hroom := hmeets r
    · rw [(hmark r).1, BitVec.toNat_add, BitVec.toNat_ofNat, h.results, hfs, occurrences_append,
        dests_marked]
      omega
    · have hle : occurrences o (s.inFlightInsts.filter (·.unpredictable)) r
          ≤ occurrences o s.inFlightInsts r := occurrences_filter_le _
      rw [(hmark r).2.1, BitVec.toNat_add, h.unpredictable, hfs, filter_append]
      cases hcall : call.1 with
      | false =>
        simp [marked]
        omega
      | true =>
        show _ = occurrences o (_ ++ [marked o inst flatten true]) r
        rw [occurrences_append, dests_marked, if_pos rfl, BitVec.toNat_ofNat]
        omega
    · have hle : youngest o s.inFlightInsts r ≤ s.lastExecSeqNum := youngest_le hordered.le_last
      rw [(hmark r).2.2, h.writing, hfs, youngest_append, dests_marked]
      split
      · exact Nat.max_eq_right (Nat.le_trans hle (Nat.le_of_lt hlast))
      · rfl

/-- A commit takes back what its issue counted, unless it takes the count of another. -/
theorem exact_commit (h : Exact o s) (hordered : Ordered s) {head : InFlightInst}
    {rest : List InFlightInst} (hfs : s.inFlightInsts = head :: rest) :
    Exact o (s.commit o head rest) ↔ Meets o s .commit := by
  have hhead := hordered.memRef head (by rw [hfs]; exact mem_cons_self)
  have hscoreboard : (s.commit o head rest).scoreboard
      = (head.dests o).foldl (clearIndex head.inst.isMemRef) s.scoreboard := by
    simp only [commit, InFlightInst.dests]
    split <;> rfl
  have hclear := fun r => clearIndices s.scoreboard (head.dests o)
    head.inst.isMemRef r (by rw [h.results r, hfs, occurrences_cons]; omega)
  simp only [← hscoreboard, h.results, h.unpredictable, h.writing, hfs, occurrences_cons,
    youngest_cons] at hclear
  have hmeets : Meets o s .commit ↔ ∀ r,
      ((s.commit o head rest).scoreboard.numUnpredictableResults r).toNat
        = occurrences o (rest.filter (·.unpredictable)) r := by
    simp only [Meets, hfs, head?_cons, mem_some_iff, forall_eq', (hclear _).2.1]
    cases hmark : head.unpredictable with
    | true => simp [hmark, hhead hmark, occurrences_cons]
    | false =>
      cases hmem : head.inst.isMemRef with
      | false => simp [hmark]
      | true =>
        simp only [hmark, filter_cons, Bool.false_eq_true, if_false, if_true, forall_const]
        refine forall_congr' fun r => ?_
        rw [← count_pos_iff]
        omega
  rw [hmeets]
  refine ⟨fun hexact => hexact.unpredictable, fun hunpredictable => ⟨?_, hunpredictable, ?_⟩⟩
  · intro r
    rw [(hclear r).1, Nat.add_sub_cancel_left]
    rfl
  · intro r
    rw [(hclear r).2.2]
    show _ = youngest o rest r
    by_cases halone : r ∈ head.dests o ∧ occurrences o rest r = 0
    · rw [if_pos ⟨halone.1, by omega⟩, youngest_of_occurrences halone.2]
    · rw [if_neg (fun hlast => halone ⟨hlast.1, by omega⟩), if_neg halone]

/-- One step from an exact state. -/
theorem exact_step (h : Exact o s) (hordered : Ordered s) {e : Event}
    (hstep : step o s e = some s') : Exact o s' ↔ Meets o s e := by
  cases e with
  | issue =>
    simp only [step, ite_none_right_eq_some, some.injEq] at hstep
    obtain ⟨hlast, rfl⟩ := hstep
    exact exact_issue h hordered hlast
  | commit =>
    simp only [step] at hstep
    split at hstep
    · cases hstep
    · next hfs =>
      cases hstep
      exact exact_commit h hordered hfs

theorem exact_new : Exact o .new := ⟨fun _ => rfl, fun _ => rfl, fun _ => rfl⟩

theorem ordered_new : Ordered .new :=
  ⟨fun _ hf => (not_mem_nil hf).elim, fun _ hf => (not_mem_nil hf).elim⟩

/-- A run whose steps meet the condition is exact in every state, and a step that does not meet it
is the end of exactness. -/
theorem scoreboard_exact (o : RegOffsets) :
    (∀ events s, RunMeets (step o) (Meets o) new events → run (step o) new events = some s →
      Exact o s) ∧
    ∀ events s e s', run (step o) new events = some s → Exact o s → step o s e = some s' →
      (Exact o s' ↔ Meets o s e) := by
  constructor
  · intro events s hmeets hrun
    have hboth := run_invariant_of_meets (P := fun s => Exact o s ∧ Ordered s)
      (fun s e s' hs hok hstep =>
        ⟨(exact_step hs.1 hs.2 hstep).2 hok, ordered_step hs.2 hstep⟩)
      ⟨exact_new, ordered_new⟩ hmeets hrun
    exact hboth.1
  · intro events s e s' hrun hexact hstep
    have hordered := run_invariant (fun s e s' hs hstep => ordered_step hs hstep) ordered_new hrun
    exact exact_step hexact hordered hstep

/-- A load to the register 5. -/
def load (execSeqNum : Nat) : IssuedInst :=
  { execSeqNum := execSeqNum, isFault := false, memRef := true, noOpClass := false
    destRegIdx := [{ classValue := .int, index := 5 }] }

def loadOffsets : RegOffsets :=
  { floatRegOffset := 32, ccRegOffset := 64, vecRegOffset := 64, vecPredRegOffset := 96 }

/-- The load `execSeqNum` issues with an assumed latency. -/
def issueLoad (execSeqNum extraAssumedLat : Nat) : Event :=
  .issue (load execSeqNum) id 6 1 (some { extraCommitLat := 0, extraAssumedLat }) 10

/-- Two loads to one register are in flight, and the older one commits. -/
theorem scoreboard_exact_load : ∃ s,
    run (step loadOffsets) new [issueLoad 1 0, issueLoad 2 0, .commit] = some s ∧
      s.inFlightInsts.length = 1 ∧ Exact loadOffsets s := by
  refine ⟨_, rfl, rfl, (scoreboard_exact loadOffsets).1
    [issueLoad 1 0, issueLoad 2 0, .commit] _ ⟨fun r => ?_, fun s hs => ?_⟩ rfl⟩
  · exact Nat.lt_of_le_of_lt (Nat.add_le_add count_le_length count_le_length) (by decide)
  · cases hs
    refine ⟨fun r => ?_, fun s hs => ⟨?_, fun _ _ => trivial⟩⟩
    · exact Nat.lt_of_le_of_lt (Nat.add_le_add count_le_length count_le_length) (by decide)
    · -- the older load is marked unpredictable, so nothing is asked of its commit
      cases hs
      intro head hhead _ hmark
      cases hhead
      cases hmark

/-- Two loads to one register are in flight, the older one with an assumed latency. Its commit takes
away the count of the younger one. -/
theorem count_lost : ∃ s,
    run (step loadOffsets) new [issueLoad 1 2, issueLoad 2 0, .commit] = some s ∧
      s.inFlightInsts.map (·.unpredictable) = [true] ∧
      occurrences loadOffsets s.inFlightInsts 5 = 1 ∧
      s.scoreboard.numUnpredictableResults 5 = 0 ∧ ¬ Exact loadOffsets s := by
  refine ⟨_, rfl, rfl, by decide, by decide, fun hexact => ?_⟩
  exact absurd (hexact.unpredictable 5) (by decide)

end IssueState

/-! ### The forwarding mask -/

/-- The `resize` for the index `j` keeps the bit `i`. -/
def ResizeKeeps (i j : Nat) : Prop := i < (j + 1) % 2 ^ 32

/-- Some occurrence of `i` sets a bit that stays. -/
def LastsIn (indices : List Nat) (i : Nat) : Prop :=
  ∃ after, i :: after <:+ indices ∧ ∀ j ∈ i :: after, ResizeKeeps i j

theorem getD_markFUIndex (v : List Bool) (i j : Nat) : (markFUIndex v j).getD i false = true ↔
    ResizeKeeps i j ∧ (i = j ∨ v.getD i false = true) := by
  unfold markFUIndex ResizeKeeps
  grind

theorem lastsIn_cons (i j : Nat) (indices : List Nat) : LastsIn (j :: indices) i ↔
    (i = j ∧ ∀ k ∈ j :: indices, ResizeKeeps i k) ∨ LastsIn indices i := by
  unfold LastsIn
  simp only [suffix_cons_iff, cons.injEq]
  grind

/-- A bit is set at the start, or by an index, and no later `resize` cuts it off. -/
theorem getD_foldl_markFUIndex (indices : List Nat) (v : List Bool) (i : Nat) :
    (indices.foldl markFUIndex v).getD i false = true ↔
      (v.getD i false = true ∧ ∀ j ∈ indices, ResizeKeeps i j) ∨ LastsIn indices i := by
  induction indices generalizing v with
  | nil => simp [LastsIn]
  | cons j indices ih =>
    rw [foldl_cons, ih, getD_markFUIndex, lastsIn_cons, forall_mem_cons]
    tauto

/-- The mask, and with it `canInstIssue`, has exactly the listed units if and only if each of them
is listed at some place with no smaller one after it (and is not `2 ^ 32 - 1`). -/
theorem cantForward_faithful_iff (indices : List Nat) :
    ((∀ i, (cantForwardFromFUIndices indices).getD i false = true ↔ i ∈ indices) ∧
        ∀ fu, cantForward (some (cantForwardFromFUIndices indices)) fu = true ↔
          ∃ i ∈ indices, (i : Int) = fu) ↔ ∀ i ∈ indices, LastsIn indices i := by
  have hbit : ∀ i, (cantForwardFromFUIndices indices).getD i false = true ↔ LastsIn indices i := by
    intro i
    rw [cantForwardFromFUIndices, getD_foldl_markFUIndex]
    simp
  constructor
  · intro ⟨hmask, _⟩ i hi
    exact (hbit i).mp ((hmask i).mpr hi)
  · intro h
    have hmask : ∀ i, (cantForwardFromFUIndices indices).getD i false = true ↔ i ∈ indices := by
      intro i
      refine ⟨fun hset => ?_, fun hi => (hbit i).mpr (h i hi)⟩
      obtain ⟨after, hsuffix, -⟩ := (hbit i).mp hset
      exact hsuffix.subset mem_cons_self
    refine ⟨hmask, fun fu => ?_⟩
    simp only [cantForward, getD_some, Bool.and_eq_true, hmask]
    grind

/-- The index 0 cuts off the bit of unit 2, and a result of unit 2 is forwarded. -/
theorem forwards_from_listed :
    (cantForwardFromFUIndices [2, 0]).getD 2 false = false ∧
      let sb := { Scoreboard.new with fuIndices := fun _ => 2, returnCycle := fun _ => 5 }
      let issues := fun mask => canInstIssue ⟨32, 64, 64, 96⟩ sb false [⟨.int, 1⟩] (some [2])
        (some mask) 3
      issues (cantForwardFromFUIndices [2, 0]) = true ∧ issues [true, false, true] = false := by
  decide +kernel

end Gem5.MyMinor
