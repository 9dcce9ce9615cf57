import Gem5.O3.StoreSet

/-!
# `Gem5.Proofs.O3.StoreSet`: when a squash ends, and which stores a prediction names

The loop of `squash` makes progress when the last store of the set is above the squashed number. It
does not look at the number of the entry itself. `Bounded` is what it relies on: no entry of
`storeList` is above the last store of its set. A store that is inserted behind a younger one of the
same set breaks it (`squash_never_ends`). In runs without such a call every squash returns
(`squash_returns`).

`issued` invalidates the LFST through the set that the PC has now. If a violation has moved the PC
since, the entry stays (`issued_store_predicted`). In runs where `issued` finds the entry, a
prediction names a live store (`checkInst_live`).
-/

namespace Gem5.O3.StoreSet

open Function List Option StoreSet

open MyMinor (Addr InstSeqNum)

variable {S L : Nat} {s s' : StoreSet S L} {n : InstSeqNum}

/-- The list is ordered, and no entry is above the last store of its set. -/
structure Bounded (s : StoreSet S L) : Prop where
  sorted : s.storeList.Pairwise fun e f => f.1 ≤ e.1
  last : ∀ e ∈ s.storeList, e.1 ≤ s.LFST e.2

/-- Fewer entries and the same last stores. -/
theorem Bounded.sublist (h : s.Bounded) (hsub : s'.storeList.Sublist s.storeList)
    (hlfst : s'.LFST = s.LFST) : s'.Bounded :=
  ⟨h.sorted.sublist hsub, fun e he => hlfst ▸ h.last e (hsub.subset he)⟩

/-- The loop erases the entries above the number, and invalidates their sets. -/
theorem Bounded.squashLoop (h : s.Bounded) {fuel : Nat} (hfuel : s.storeList.length < fuel) :
    ∃ s', s.squashLoop n fuel = some s' ∧ s'.LFST = s.LFST ∧
      s'.storeList = s.storeList.filter (fun e => e.1 ≤ n) ∧
      ∀ set, s'.validLFST set = true → s.validLFST set = true ∧
        ∀ e ∈ s.storeList, n < e.1 → e.2 ≠ set := by
  induction fuel generalizing s with
  | zero => cases hfuel
  | succ fuel ih =>
    rw [squashLoop]
    split
    · next hl => exact ⟨s, rfl, rfl, by simp [hl], by simp [hl]⟩
    · next seqNum idx rest hl =>
      have hsorted := h.sorted
      have hlast := h.last (seqNum, idx)
      rw [hl] at hsorted hlast hfuel ⊢
      have hrest : ∀ valid, Bounded { s with validLFST := valid, storeList := rest } := fun _ =>
        h.sublist (hl ▸ sublist_cons_self _ _) rfl
      split
      · -- the entries behind are not above the number either
        next hn =>
        have hall : ∀ e ∈ (seqNum, idx) :: rest, e.1 ≤ n := forall_mem_cons.mpr
          ⟨hn, fun e he => ((pairwise_cons.mp hsorted).1 e he).trans hn⟩
        refine ⟨s, rfl, rfl, ?_, fun set hset => ⟨hset, fun e he hlt => ?_⟩⟩
        · rw [hl, filter_eq_self.mpr (by simpa using hall)]
        · exact absurd (hall e he) (Nat.not_le.mpr hlt)
      · next hn =>
        have hyounger : n < s.LFST idx := (Nat.not_le.mp hn).trans_le (hlast mem_cons_self)
        simp only [hyounger, decide_true, Bool.and_true]
        -- the turn erases the entry, and its set is not valid after it
        obtain ⟨valid, hturn, hvalid⟩ : ∃ valid, (if s.validLFST idx = true then
            squashLoop n fuel { s with validLFST := update s.validLFST idx false, storeList := rest }
          else if (!s.validLFST idx) = true then squashLoop n fuel { s with storeList := rest }
          else squashLoop n fuel s)
            = squashLoop n fuel { s with validLFST := valid, storeList := rest } ∧
          ∀ set, valid set = true → s.validLFST set = true ∧ idx ≠ set := by
          cases hidx : s.validLFST idx
          · exact ⟨s.validLFST, rfl, by grind⟩
          · exact ⟨_, rfl, by grind⟩
        obtain ⟨s', hrun, hlfst, hlist, hsets⟩ := ih (hrest valid) (Nat.succ_lt_succ_iff.mp hfuel)
        refine ⟨s', hturn.trans hrun, hlfst, ?_, fun set hset => ?_⟩
        · rw [hlist, filter_cons_of_neg (by simpa using hn)]
        · have hset := hsets set hset
          exact ⟨(hvalid set hset.1).1, forall_mem_cons.mpr ⟨fun _ => (hvalid set hset.1).2, hset.2⟩⟩

theorem checkClear_frame (s : StoreSet S L) : s.checkClear.LFST = s.LFST ∧
    (s.checkClear.storeList = [] ∧ s.checkClear.validLFST = (fun _ => false) ∨
      s.checkClear.storeList = s.storeList ∧ s.checkClear.validLFST = s.validLFST) := by
  unfold checkClear
  dsimp only
  split
  · exact ⟨rfl, .inl ⟨rfl, rfl⟩⟩
  · exact ⟨rfl, .inr ⟨rfl, rfl⟩⟩

theorem Bounded.checkClear (h : s.Bounded) : s.checkClear.Bounded := by
  obtain ⟨hlfst, ⟨hlist, -⟩ | ⟨hlist, -⟩⟩ := s.checkClear_frame
  · exact h.sublist (hlist ▸ nil_sublist _) hlfst
  · exact h.sublist (hlist ▸ Sublist.refl _) hlfst

/-- An entry above the number stops the loop if the last store of its set is not above it. -/
theorem squashLoop_stuck {e : InstSeqNum × Fin L} {rest : List (InstSeqNum × Fin L)}
    (hl : s.storeList = e :: rest) (hn : n < e.1) (hlast : s.LFST e.2 ≤ n) (fuel : Nat) :
    s.squashLoop n fuel = none := by
  induction fuel with
  | zero => rfl
  | succ fuel ih =>
    rw [squashLoop, hl]
    simp [Nat.not_le.mpr hn, Nat.not_lt.mpr hlast, ih]

variable [NeZero S] [NeZero L]

theorem violation_frame (s : StoreSet S L) (storePC loadPC : Addr) :
    (s.violation storePC loadPC).LFST = s.LFST ∧
      (s.violation storePC loadPC).storeList = s.storeList ∧
      (s.violation storePC loadPC).validLFST = s.validLFST := by
  unfold violation
  dsimp only
  repeat' split
  all_goals exact ⟨rfl, rfl, rfl⟩

omit [NeZero L] in
theorem issued_frame (s : StoreSet S L) (pc : Addr) (seqNum : InstSeqNum) :
    (s.issued pc seqNum true).LFST = s.LFST ∧
      (s.issued pc seqNum true).storeList = s.storeList.filter (fun e => e.1 ≠ seqNum) ∧
      ∀ set, (s.issued pc seqNum true).validLFST set = true → s.validLFST set = true ∧
        ¬ (s.validSSIT (calcIndex pc) = true ∧ s.SSIT (calcIndex pc) = set ∧
          s.LFST set = seqNum) := by
  unfold issued
  simp only [Bool.not_true, Bool.false_eq_true, if_false]
  repeat' split
  all_goals exact ⟨rfl, rfl, by grind⟩

/-- No store of the same set is in front of the one that is inserted. -/
def InOrder (s : StoreSet S L) : Event → Prop
  | .insertStore storePC seqNum _ => s.checkClear.validSSIT (calcIndex storePC) = true →
      ∀ e ∈ s.checkClear.storeList, e.2 = s.checkClear.SSIT (calcIndex storePC) → e.1 ≤ seqNum
  | _ => True

/-- Each call keeps the tables bounded. -/
theorem Bounded.step {e : Event} (h : s.Bounded) (hin : s.InOrder e) (hs : s.step e = some s') :
    s'.Bounded := by
  cases e with
  | insertStore storePC seqNum tid =>
    cases hs
    unfold insertStore
    dsimp only
    split
    · exact h.checkClear
    · next hvalid =>
      refine ⟨(h.checkClear.sorted.filter _).orderedInsert _ _, fun e he => ?_⟩
      rw [mem_orderedInsert] at he
      have hset := hin (by simpa using hvalid) e
      have hlast := h.checkClear.last e
      grind
  | violation storePC loadPC =>
    cases hs
    obtain ⟨hlfst, hlist, -⟩ := s.violation_frame storePC loadPC
    exact h.sublist (hlist ▸ Sublist.refl _) hlfst
  | issued pc seqNum isStore =>
    cases hs
    cases isStore with
    | false => exact h
    | true =>
      obtain ⟨hlfst, hlist, -⟩ := s.issued_frame pc seqNum
      exact h.sublist (hlist ▸ filter_sublist) hlfst
  | checkClear =>
    cases hs
    exact h.checkClear
  | squash n =>
    obtain ⟨s', hrun, hlfst, hlist, -⟩ := h.squashLoop (n := n) (Nat.lt_succ_self _)
    cases hs.symm.trans hrun
    exact h.sublist (hlist ▸ filter_sublist) hlfst

omit [NeZero S] in
theorem bounded_init (clearPeriod : BitVec 64) : (init clearPeriod : StoreSet S L).Bounded :=
  ⟨.nil, by simp [init]⟩

/-- Take a run in which no store is inserted behind a younger one of its set. After it, every squash
returns and leaves no entry above its number. -/
theorem squash_returns (clearPeriod : BitVec 64) (es : List Event) (s : StoreSet S L)
    (hes : Lib.RunMeets step InOrder (init clearPeriod : StoreSet S L) es)
    (hrun : Lib.run step (init clearPeriod) es = some s) (n tid : Nat) :
    ∃ s', s.squash n tid = some s' ∧ ∀ e ∈ s'.storeList, e.1 ≤ n := by
  have h := Lib.run_invariant_of_meets (fun _ _ _ h hin hs => h.step hin hs)
    (bounded_init clearPeriod) hes hrun
  obtain ⟨s', hsquash, -, hlist, -⟩ := h.squashLoop (n := n) (Nat.lt_succ_self _)
  exact ⟨s', hsquash, by simp [hlist]⟩

instance : ∀ e, Decidable (s.InOrder e)
  | .insertStore _ _ _ => inferInstanceAs (Decidable (_ → ∀ e ∈ _, _))
  | .issued _ _ _ | .violation _ _ | .checkClear | .squash _ _ => isTrue trivial

/-- Two threads insert a store of the same set. -/
def crossed (first second : InstSeqNum) : List Event :=
  [.violation 0x4 0x8, .insertStore 0x4 first 0, .insertStore 0x4 second 1]

/-- The older store comes first, and the squash removes the younger one. -/
theorem squash_returns_crossed :
    ∃ s s' : StoreSet 4 4, Lib.run step (init 100) (crossed 5 10) = some s ∧
      s.squash 7 0 = some s' ∧ ∀ e ∈ s'.storeList, e.1 ≤ 7 := by
  have hmeets : Lib.RunMeets step InOrder (init 100 : StoreSet 4 4) (crossed 5 10) := by
    decide +kernel
  obtain ⟨s', hs', hle⟩ := squash_returns 100 (crossed 5 10) _ hmeets rfl 7 0
  exact ⟨_, s', rfl, hs', hle⟩

/-- The store 10 comes before the older store 5 of another thread, and the squash of what is above 7
never ends. -/
theorem squash_never_ends :
    ∃ s : StoreSet 4 4, Lib.run step (init 100) (crossed 10 5) = some s ∧
      ∀ fuel, s.squashLoop 7 fuel = none :=
  ⟨_, rfl, squashLoop_stuck (e := (10, 0)) rfl (by decide) (by decide)⟩

/-! ### Predictions of one thread -/

/-- The PC of a store that is issued has the sets in which the store is the last one. -/
def Finds (s : StoreSet S L) : Event → Prop
  | .issued pc seqNum true => ∀ set, s.validLFST set = true → s.LFST set = seqNum →
      s.validSSIT (calcIndex pc) = true ∧ s.SSIT (calcIndex pc) = set
  | _ => True

/-- The last store of a set is in the list, and the stores of the list are live. -/
structure Tracks (t : Thread S L) : Prop where
  bounded : t.unit.Bounded
  listed : ∀ set, t.unit.validLFST set = true → (t.unit.LFST set, set) ∈ t.unit.storeList
  live : ∀ e ∈ t.unit.storeList, e.1 ∈ t.live ∧ e.1 ≤ t.newest

variable {t t' : Thread S L}

omit [NeZero S] [NeZero L] in
/-- A clear leaves no entry valid. -/
theorem Tracks.checkClear (h : Tracks t) : Tracks { t with unit := t.unit.checkClear } := by
  refine ⟨h.bounded.checkClear, ?_, ?_⟩ <;> dsimp only
  all_goals obtain ⟨hlfst, ⟨hlist, hvalid⟩ | ⟨hlist, hvalid⟩⟩ := t.unit.checkClear_frame
  · simp [hvalid]
  · rw [hlfst, hlist, hvalid]
    exact h.listed
  · simp [hlist]
  · rw [hlist]
    exact h.live

/-- Each call of the thread keeps it. -/
theorem Tracks.step {e : Event} (h : Tracks t) (hfinds : t.unit.Finds e)
    (ht : t.step e = some t') : Tracks t' := by
  obtain ⟨newest, hnewest, ht⟩ := bind_eq_some_iff.mp ht
  obtain ⟨unit, hunit, rfl⟩ := map_eq_some_iff.mp ht
  have hbounded : t.unit.InOrder e → unit.Bounded := fun hin => h.bounded.step hin hunit
  cases e with
  | insertStore storePC seqNum tid =>
    simp only [Thread.newestAfter, ite_none_right_eq_some, some.injEq] at hnewest
    obtain ⟨hnew, rfl⟩ := hnewest
    cases hunit
    -- the store is above all entries, so it is in order and replaces none
    have hclear := h.checkClear
    have hlt : ∀ e ∈ t.unit.checkClear.storeList, e.1 < seqNum := fun e he =>
      (hclear.live e he).2.trans_lt hnew
    refine ⟨hbounded fun _ e he _ => (hlt e he).le, fun set => ?_, fun e => ?_⟩ <;>
      unfold insertStore <;> dsimp only [Thread.liveAfter] <;> split
    · exact hclear.listed set
    · have hlisted := hclear.listed set
      grind [mem_orderedInsert]
    · exact fun he => ⟨mem_cons_of_mem _ (hclear.live e he).1, (hlt e he).le⟩
    · have hlive := hclear.live e
      grind [mem_orderedInsert]
  | violation storePC loadPC =>
    cases hnewest
    cases hunit
    obtain ⟨hlfst, hlist, hvalid⟩ := t.unit.violation_frame storePC loadPC
    refine ⟨hbounded trivial, ?_, ?_⟩ <;> dsimp only
    · rw [hlist, hlfst, hvalid]
      exact h.listed
    · rw [hlist]
      exact h.live
  | issued pc seqNum isStore =>
    cases hnewest
    cases hunit
    cases isStore with
    | false => exact h
    | true =>
      obtain ⟨hlfst, hlist, hvalid⟩ := t.unit.issued_frame pc seqNum
      refine ⟨hbounded trivial, ?_, ?_⟩ <;> dsimp only [Thread.liveAfter] <;> rw [hlist]
      · -- the entry of the store itself is not valid any more
        intro set hset
        obtain ⟨hold, hnot⟩ := hvalid set hset
        have hfound := hfinds set hold
        exact mem_filter.mpr ⟨hlfst ▸ h.listed set hold, by grind⟩
      · intro e he
        have hlive := h.live e (mem_filter.mp he).1
        grind
  | checkClear =>
    cases hunit
    cases hnewest
    exact h.checkClear
  | squash n tid =>
    cases hnewest
    obtain ⟨s', hrun, hlfst, hlist, hsets⟩ := h.bounded.squashLoop (Nat.lt_succ_self _)
    cases hunit.symm.trans hrun
    refine ⟨hbounded trivial, ?_, ?_⟩ <;> dsimp only [Thread.liveAfter] <;> rw [hlist]
    · -- an entry above the number would have invalidated its set
      intro set hset
      obtain ⟨hold, hnot⟩ := hsets set hset
      have hlisted := h.listed set hold
      have hle : t.unit.LFST set ≤ n := Nat.not_lt.mp fun hlt => hnot _ hlisted hlt rfl
      rw [hlfst]
      exact mem_filter.mpr ⟨hlisted, by simpa using hle⟩
    · intro e he
      have hlive := h.live e (mem_filter.mp he).1
      grind

/-- Take the calls of one thread, with increasing sequence numbers, in which each store that is
issued is found in the LFST. A prediction names a store that was inserted and since then neither
issued nor squashed. -/
theorem checkInst_live (clearPeriod : BitVec 64) (es : List Event) (t : Thread S L)
    (hes : Lib.RunMeets Thread.step (fun t => Finds t.unit) (.init clearPeriod : Thread S L) es)
    (hrun : Lib.run Thread.step (.init clearPeriod) es = some t) (pc : Addr) :
    t.unit.checkInst pc ≠ 0 → t.unit.checkInst pc ∈ t.live := by
  have hinit : Tracks (.init clearPeriod : Thread S L) :=
    ⟨bounded_init clearPeriod, by simp [Thread.init, init], by simp [Thread.init, init]⟩
  have h := Lib.run_invariant_of_meets (fun _ _ _ h hfinds hs => h.step hfinds hs) hinit hes hrun
  intro hne
  unfold checkInst at hne ⊢
  dsimp only at hne ⊢
  split at hne
  · exact absurd rfl hne
  · split at hne
    · exact absurd rfl hne
    · next hssit hlfst =>
      rw [if_neg hssit, if_neg hlfst]
      exact (h.live _ (h.listed _ (by simpa using hlfst))).1

instance : ∀ e, Decidable (s.Finds e)
  | .issued _ _ true => inferInstanceAs (Decidable (∀ _, _))
  | .issued _ _ false | .insertStore _ _ _ | .violation _ _ | .checkClear | .squash _ _ =>
    isTrue trivial

/-- The store 1 at `0x4` is inserted in the set of the load at `0x408`, and something else happens
before it is issued. The load at `0xc` has a set with a lower number. -/
def issuedAfter (between : List Event) : List Event :=
  [.violation 0x0 0xc, .violation 0x4 0x408, .insertStore 0x4 1 0] ++ between ++
    [.issued 0x4 1 true]

/-- A younger store of the same set is live when the first one is issued. -/
theorem checkInst_live_younger :
    ∃ t : Thread 4 4, Lib.run Thread.step (.init 100) (issuedAfter [.insertStore 0x4 2 0]) = some t ∧
      t.unit.checkInst 0x408 = 2 ∧ 2 ∈ t.live := by
  have hmeets : Lib.RunMeets Thread.step (fun t => Finds t.unit) (.init 100 : Thread 4 4)
      (issuedAfter [.insertStore 0x4 2 0]) := by decide +kernel
  exact ⟨_, rfl, rfl, checkInst_live 100 _ _ hmeets rfl 0x408 (by decide)⟩

/-- A violation moves the store to the set of the load at `0xc`. When it is issued, its entry in the
LFST stays, and the load at `0x408` is predicted to depend on it. -/
theorem issued_store_predicted :
    ∃ t : Thread 4 4, Lib.run Thread.step (.init 100) (issuedAfter [.violation 0x4 0xc]) = some t ∧
      t.unit.checkInst 0x408 = 1 ∧ 1 ∉ t.live :=
  ⟨_, rfl, rfl, by decide⟩

end Gem5.O3.StoreSet
