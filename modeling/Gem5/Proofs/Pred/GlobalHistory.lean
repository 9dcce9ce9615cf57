import Gem5.Lib.ShiftRegister
import Gem5.Pred.Branches
import Gem5.Proofs.Pred.BPredUnit

/-!
# `Gem5.Proofs.Pred.GlobalHistory`: the global history register and the committed outcomes

Both predictors with a global history shift a direction into the register at the prediction,
keep the register from before with the branch, and go back to it on a squash.
`HistoryRegister` lists these facts, and `HistoryPredictor.register` proves them for the
tournament and the bi-mode predictor.

`Shifted` is the invariant. The register of a thread holds one bit for each branch in flight,
above the outcomes of the committed branches. The bit of a branch is the direction in its
record, or the record disagrees with the outcome, so that the branch will be corrected. When
no branch is in flight, the register holds the committed outcomes
(`globalHistory_holds_outcomes`).

The poison lines and the enable line change the direction after `lookup` has shifted its own
one. If the branch then resolves as the changed direction says, nothing corrects the bit
(`poisoned_bit_stays`).
-/

namespace Gem5.Pred

open Function List HistoryPredictor Lib Option
open Session (adjust step_other)

open MyMinor (Addr ThreadID InstSeqNum)
open Lib (Holds)

/-! ### History registers -/

/-- A direction predictor that keeps a shift register of directions for each thread. `saved`
is the register from before a branch, as kept in the history of the branch. -/
structure HistoryRegister {PC : Type} (P : DirectionPredictor PC) where
  bits : Nat
  reg : P.State → ThreadID → Unsigned
  saved : P.History → Unsigned
  lookup : ∀ s tid addr, saved (P.lookup s tid addr).2.1 = reg s tid ∧
    ∃ v, reg (P.lookup s tid addr).2.2 = update (reg s) tid v ∧
      ∀ bs, Holds bits (reg s tid) bs → Holds bits v ((P.lookup s tid addr).1 :: bs)
  uncondBranch : ∀ s tid addr, saved (P.uncondBranch s tid addr).1 = reg s tid ∧
    ∃ v, reg (P.uncondBranch s tid addr).2 = update (reg s) tid v ∧
      ∀ bs, Holds bits (reg s tid) bs → Holds bits v (true :: bs)
  btbUpdate : ∀ s tid addr h, saved (P.btbUpdate s tid addr h).1 = saved h ∧
    ∃ v, reg (P.btbUpdate s tid addr h).2 = update (reg s) tid v ∧
      ∀ b bs, Holds bits (reg s tid) (b :: bs) → Holds bits v (false :: bs)
  correct : ∀ s tid addr taken h inst target,
    saved (P.update s tid addr taken h true inst target).1 = saved h ∧
    ∃ v, reg (P.update s tid addr taken h true inst target).2
        = update (reg s) tid v ∧
      ∀ bs, Holds bits (saved h) bs → Holds bits v (taken :: bs)
  commit : ∀ s tid addr taken h inst target,
    reg (P.update s tid addr taken h false inst target).2 = reg s
  squash : ∀ s tid h, reg (P.squash s tid h) = update (reg s) tid (saved h)

/-- `ceilLog2` of a table size. -/
theorem ceilLog2_two_pow (k : Nat) : ceilLog2 (2 ^ k) = k := by
  cases k with
  | zero => rfl
  | succ k =>
    have hpos := Nat.two_pow_pos k
    have hlog : Nat.log2 (2 ^ (k + 1) - 1) = k :=
      (Nat.log2_eq_iff (by omega)).mpr ⟨by omega, by omega⟩
    rw [ceilLog2, if_neg (by omega), hlog]

theorem IsTableSize.ceilLog2_le {n : Nat} (h : IsTableSize n) : ceilLog2 n ≤ 32 := by
  obtain ⟨⟨k, rfl⟩, hlt⟩ := h
  rw [ceilLog2_two_pow]
  exact ((Nat.pow_lt_pow_iff_right (by decide)).mp hlt).le

theorem TournamentParams.globalHistoryBits_le (p : TournamentParams) :
    p.globalHistoryBits ≤ 32 := by
  unfold globalHistoryBits
  split
  · exact p.isTableSize_global.ceilLog2_le
  · exact p.isTableSize_choice.ceilLog2_le

/-- The tournament predictor keeps a history register. -/
def TournamentBP.register (PC : Type) (p : TournamentParams) :
    HistoryRegister (TournamentBP.predictor PC p) where
  bits := p.globalHistoryBits
  reg := TournamentBP.globalHistory
  saved := TournamentBP.BPHistory.globalHistory
  lookup := fun _ _ _ =>
    ⟨rfl, _, rfl, fun _ h => (h.shift p.globalHistoryBits_le _).mask p.globalHistoryBits_le⟩
  uncondBranch := fun _ _ _ =>
    ⟨rfl, _, rfl, fun _ h => (h.shift p.globalHistoryBits_le _).mask p.globalHistoryBits_le⟩
  btbUpdate := fun _ _ _ _ =>
    ⟨rfl, _, rfl, fun _ _ h => h.clear p.globalHistoryBits_le⟩
  correct := fun _ _ _ _ _ _ _ =>
    ⟨rfl, _, rfl, fun _ h => (h.shift p.globalHistoryBits_le _).mask p.globalHistoryBits_le⟩
  commit := fun _ _ _ _ _ _ _ => rfl
  squash := fun _ _ _ => rfl

/-- The bi-mode predictor keeps a history register. A correction leaves bits above the mask,
and no lookup reads them. -/
def BiModeBP.register (PC : Type) (p : BiModeParams) :
    HistoryRegister (BiModeBP.predictor PC p) where
  bits := p.globalHistoryBits
  reg := BiModeBP.globalHistoryReg
  saved := BiModeBP.BPHistory.globalHistoryReg
  lookup := fun _ _ _ =>
    ⟨rfl, _, rfl, fun _ h =>
      (h.shift p.isTableSize_global.ceilLog2_le _).mask p.isTableSize_global.ceilLog2_le⟩
  uncondBranch := fun _ _ _ =>
    ⟨rfl, _, rfl, fun _ h =>
      (h.shift p.isTableSize_global.ceilLog2_le _).mask p.isTableSize_global.ceilLog2_le⟩
  btbUpdate := fun _ _ _ _ =>
    ⟨rfl, _, rfl, fun _ _ h => h.clear p.isTableSize_global.ceilLog2_le⟩
  correct := fun _ _ _ _ _ _ _ =>
    ⟨rfl, _, rfl, fun _ hbs => hbs.shift p.isTableSize_global.ceilLog2_le _⟩
  commit := fun _ _ _ _ _ _ _ => rfl
  squash := fun _ _ _ => rfl

/-- The register of either predictor. -/
def HistoryPredictor.register (PC : Type) :
    (d : HistoryPredictor) → HistoryRegister (d.predictor PC)
  | .tournament p => TournamentBP.register PC p
  | .biMode p => BiModeBP.register PC p

/-! ### The invariant -/

namespace Branches

open BPredUnit

variable {PC : Type} [PCStateBase PC] {P : DirectionPredictor PC} {I : IndirectPredictor PC}
  {N : Nat} [NeZero N] (H : HistoryRegister P) (outcome : Outcomes PC)

/-- One bit for each branch in flight, youngest first. The register that a branch has saved
holds the bits of the older branches above the outcomes `done`. -/
inductive InFlight (tid : ThreadID) (done : List Bool) :
    List (PredictorHistory P I N) → List Bool → Prop where
  | nil : InFlight tid done [] []
  | cons {r : PredictorHistory P I N} {rs : List (PredictorHistory P I N)} {b : Bool}
      {bs : List Bool} (saved : Holds H.bits (H.saved r.bpHistory) (bs ++ done))
      (bit : b = r.predTaken ∨ ¬Agrees outcome tid r) (older : InFlight tid done rs bs) :
      InFlight tid done (r :: rs) (b :: bs)

/-- The register of the thread holds the bits of the branches in flight above the committed
outcomes. -/
def Shifted (bp : P.State) (hist : List (PredictorHistory P I N)) (done : List Bool)
    (tid : ThreadID) : Prop :=
  ∃ bs, Holds H.bits (H.reg bp tid) (bs ++ done) ∧ InFlight H outcome tid done hist bs

variable {H outcome} {done : List Bool} {tid : ThreadID} {u : BPredUnit P I N} {p : BPredParams}
variable {bp : P.State} {bs : List Bool} {rs ys : List (PredictorHistory P I N)}
  {seqNum : InstSeqNum}

/-- A squash goes back to the register of the oldest branch that it removes. -/
theorem Shifted.squash (h : Shifted H outcome bp (ys ++ rs) done tid) :
    Shifted H outcome (ys.foldl (fun bp r => P.squash bp tid r.bpHistory) bp) rs done tid := by
  induction ys generalizing bp with
  | nil => exact h
  | cons r ys ih =>
    obtain ⟨_, -, hflight⟩ := h
    cases hflight with
    | cons saved _ older =>
      refine ih ⟨_, ?_, older⟩
      rw [H.squash, update_self]
      exact saved

omit [PCStateBase PC] in
/-- A squash for one thread leaves the registers of the others. -/
theorem reg_squash_other {tid' : ThreadID} (htid : tid' ≠ tid) (ys : List (PredictorHistory P I N))
    (bp : P.State) :
    H.reg (ys.foldl (fun bp r => P.squash bp tid r.bpHistory) bp) tid' = H.reg bp tid' := by
  induction ys generalizing bp with
  | nil => rfl
  | cons r ys ih => rw [foldl_cons, ih, H.squash, update_of_ne htid]

omit [PCStateBase PC] in
/-- The training at the commit leaves the registers. -/
theorem reg_commit (tid : ThreadID) (ys : List (PredictorHistory P I N)) (bp : P.State) :
    H.reg (ys.foldl (fun bp r =>
      (P.update bp tid r.pc r.predTaken r.bpHistory false r.inst r.target).2) bp)
      = H.reg bp := by
  induction ys generalizing bp with
  | nil => rfl
  | cons r ys ih => rw [foldl_cons, ih, H.commit]

/-- The bits of branches that agree with their outcomes are these outcomes. -/
theorem InFlight.eq_map (h : InFlight H outcome tid done rs bs)
    (hrs : ∀ r ∈ rs, Agrees outcome tid r) : bs = rs.map fun r => (outcome tid r.seqNum).1 := by
  induction h with
  | nil => rfl
  | @cons r rs b bs _ bit _ ih =>
    have hr := hrs r mem_cons_self
    rw [map_cons, bit.resolve_right (not_not_intro hr), hr.1,
      ← ih fun r' hr' => hrs r' (mem_cons_of_mem _ hr')]

/-- The oldest branches move from the branches in flight to the committed ones. -/
theorem InFlight.commit {xs : List (PredictorHistory P I N)}
    (h : InFlight H outcome tid done (xs ++ ys) bs) (hys : ∀ r ∈ ys, Agrees outcome tid r) :
    ∃ bs', bs = bs' ++ ys.map (fun r => (outcome tid r.seqNum).1) ∧
      InFlight H outcome tid (ys.map (fun r => (outcome tid r.seqNum).1) ++ done) xs bs' := by
  induction xs generalizing bs with
  | nil => exact ⟨[], h.eq_map hys, .nil⟩
  | cons x xs ih =>
    cases h with
    | cons saved bit older =>
      obtain ⟨bs', rfl, hflight⟩ := ih older
      exact ⟨_ :: bs', rfl, .cons (by simpa using saved) bit hflight⟩

/-- The direction of a conditional branch after the poison lines and the enable line. -/
def switched (p : BPredParams) (u : BPredUnit P I N) (pc : PC) (tid : ThreadID)
    (draw : Fin 101) : Bool :=
  p.enable (p.poison draw (P.lookup u.bp tid (instAddr pc)).1)

/-- The switches leave the direction of `lookup`, or the BTB takes a changed direction back,
or the branch resolves against the changed direction. -/
def SwitchesHarmless (p : BPredParams) (outcome : Outcomes PC) (u : BPredUnit P I N) :
    BranchEvent PC → Prop
  | .predict inst seqNum pc tid draw =>
    inst.isUncondCtrl = true ∨
      switched p u pc tid draw = (P.lookup u.bp tid (instAddr pc)).1 ∨
      (switched p u pc tid draw = true ∧ u.BTB.valid (instAddr pc) tid = false) ∨
      (outcome tid seqNum).1 ≠ switched p u pc tid draw
  | _ => True

/-- What `lookup` or `uncondBranch` shifts into the register, and the direction after the
switches. -/
theorem direction_shifts (H : HistoryRegister P) (p : BPredParams) (u : BPredUnit P I N)
    (inst : StaticInst PC) (pc : PC) (tid : ThreadID) (draw : Fin 101) :
    ∃ taken history bp v shifted, u.direction inst pc tid (adjust p draw) = (taken, history, bp) ∧
      H.saved history = H.reg u.bp tid ∧ H.reg bp = update (H.reg u.bp) tid v ∧
      (∀ bs, Holds H.bits (H.reg u.bp tid) bs → Holds H.bits v (shifted :: bs)) ∧
      (inst.isUncondCtrl = true ∧ taken = shifted ∨
        inst.isUncondCtrl ≠ true ∧ shifted = (P.lookup u.bp tid (instAddr pc)).1 ∧
          taken = switched p u pc tid draw) := by
  unfold BPredUnit.direction
  split
  · next huncond =>
      obtain ⟨hsaved, v, hreg, hholds⟩ := H.uncondBranch u.bp tid (instAddr pc)
      exact ⟨_, _, _, v, true, rfl, hsaved, hreg, hholds, .inl ⟨huncond, rfl⟩⟩
  · next hcond =>
      obtain ⟨hsaved, v, hreg, hholds⟩ := H.lookup u.bp tid (instAddr pc)
      exact ⟨_, _, _, v, _, rfl, hsaved, hreg, hholds, .inr ⟨hcond, rfl, rfl⟩⟩

/-- A prediction shifts one bit into the register of its thread. -/
theorem Shifted.predict {inst : StaticInst PC} {pc : PC} {draw : Fin 101}
    (hdom : InDomain outcome u (.predict inst seqNum pc tid draw))
    (hok : SwitchesHarmless p outcome u (.predict inst seqNum pc tid draw))
    (h : Shifted H outcome u.bp (u.predHist tid) done tid) :
    let u' := (u.predictWith p (adjust p draw) inst seqNum pc tid).2.2
    Shifted H outcome u'.bp (u'.predHist tid) done tid ∧
      ∃ v, H.reg u'.bp = update (H.reg u.bp) tid v := by
  intro u'
  obtain ⟨bs, hreg, hflight⟩ := h
  obtain ⟨taken, history, bp, v, shifted, hd, hsaved, hv, hshift, hswitch⟩ :=
    direction_shifts H p u inst pc tid draw
  obtain ⟨r, hhist, hseq, hcase⟩ :=
    predictWith_direct p tid _ u seqNum pc hdom.1 hdom.2.1 hdom.2.2.1 hd
  rw [hhist, update_self]
  rcases hcase with ⟨hhit, htaken, hbits, hbp⟩ | ⟨-, htaken, hbits, hbp⟩
  · rw [hbp]
    refine ⟨⟨shifted :: bs, ?_, .cons ?_ ?_ hflight⟩, v, hv⟩
    · rw [hv, update_self]
      exact hshift _ hreg
    · rw [hbits, hsaved]
      exact hreg
    · rw [htaken]
      rcases hswitch with ⟨-, heq⟩ | ⟨hcond, hlookup, hchanged⟩
      · exact .inl heq.symm
      · rcases hok.resolve_left hcond with hsame | ⟨htrue, hmiss⟩ | hwrong
        · exact .inl (by rw [hlookup, hchanged, hsame])
        · rw [hchanged, htrue, hmiss] at hhit
          cases hhit
        · refine .inr fun hagrees => hwrong ?_
          rw [← hseq, ← hagrees.1, htaken, hchanged]
  · rw [hbp]
    obtain ⟨hsaved', v', hv', hclear⟩ := H.btbUpdate bp tid (instAddr pc) history
    refine ⟨⟨false :: bs, ?_, .cons ?_ (.inl htaken.symm) hflight⟩, v', ?_⟩
    · rw [hv', update_self]
      refine hclear shifted _ ?_
      rw [hv, update_self]
      exact hshift _ hreg
    · rw [hbits, hsaved', hsaved]
      exact hreg
    · rw [hv', hv, update_idem]

/-- A correction puts the actual direction into bit 0 of the register from before the
branch. -/
theorem Shifted.correct {u' : BPredUnit P I N}
    (h : Shifted H outcome u.bp (u.predHist tid) done tid)
    (hu : u.squashMispredicted p seqNum (outcome tid seqNum).2 (outcome tid seqNum).1 tid
      = some u') :
    Shifted H outcome u'.bp (u'.predHist tid) done tid ∧
      ∀ tid', tid' ≠ tid → H.reg u'.bp tid' = H.reg u.bp tid' := by
  rw [← younger_append_rest seqNum (u.predHist tid)] at h
  have hsq := h.squash
  rw [← bp_squash p] at hsq
  have hother : ∀ tid', tid' ≠ tid → H.reg (u.squash p seqNum tid).bp tid' = H.reg u.bp tid' :=
    fun tid' htid => by rw [bp_squash, reg_squash_other htid]
  rcases squashMispredicted_cases p tid hu with ⟨hnil, rfl⟩ | ⟨r, rs, hcons, -, rfl⟩
  · rw [predHist_squash, update_self]
    exact ⟨hsq, hother⟩
  · rw [hcons] at hsq
    obtain ⟨-, -, -, -, -, hbp, hbits, htaken⟩ := correctRecord_spec p tid
      (u.squash p seqNum tid) (outcome tid seqNum).2 (outcome tid seqNum).1 r
    obtain ⟨hsaved, v, hv, hholds⟩ := H.correct (u.squash p seqNum tid).bp tid r.pc
      (outcome tid seqNum).1 r.bpHistory r.inst (instAddr (outcome tid seqNum).2)
    rw [← hbp] at hv
    rw [← hbits] at hsaved
    obtain ⟨_, -, hflight⟩ := hsq
    cases hflight with
    | @cons _ _ _ bs saved _ older =>
      refine ⟨⟨(outcome tid seqNum).1 :: bs, ?_, ?_⟩, fun tid' htid => ?_⟩
      · rw [bp_setHist, hv, update_self]
        exact hholds _ saved
      · rw [predHist_setHist, update_self]
        exact .cons (by rw [hsaved]; exact saved) (.inl htaken.symm) older
      · rw [bp_setHist, hv, update_of_ne htid, hother tid' htid]

/-- A commit moves the outcomes of the committed branches below the bits in flight. -/
theorem Shifted.commit {doneSn : InstSeqNum} (hdom : InDomain outcome u (.commit doneSn tid))
    (h : Shifted H outcome u.bp (u.predHist tid) done tid) :
    Shifted H outcome (u.update p doneSn tid).bp ((u.update p doneSn tid).predHist tid)
      ((BPredUnit.committed doneSn (u.predHist tid)).reverse.map (fun r => (outcome tid r.seqNum).1)
        ++ done) tid := by
  obtain ⟨bs, hreg, hflight⟩ := h
  rw [← uncommitted_append_committed doneSn (u.predHist tid)] at hflight
  obtain ⟨bs', rfl, hflight'⟩ := hflight.commit fun r hr => hdom r (mem_reverse.mp hr)
  refine ⟨bs', ?_, ?_⟩
  · rw [bp_update, reg_commit, ← append_assoc]
    exact hreg
  · rw [predHist_update, update_self]
    exact hflight'

/-- A thread whose register and history an event leaves. -/
theorem Shifted.of_eq {bp' : P.State} {hist hist' : List (PredictorHistory P I N)}
    (h : Shifted H outcome bp hist done tid) (hreg : H.reg bp' tid = H.reg bp tid)
    (hhist : hist' = hist) : Shifted H outcome bp' hist' done tid := by
  obtain ⟨bs, hholds, hflight⟩ := h
  exact ⟨bs, hreg ▸ hholds, hhist ▸ hflight⟩

/-- Every event keeps the registers of all threads shifted. -/
theorem shifted_step {b b' : Branches P I N} {e : BranchEvent PC}
    (h : ∀ tid, Shifted H outcome b.session.unit.bp (b.session.unit.predHist tid)
      (b.committed tid) tid) (hok : SwitchesHarmless p outcome b.session.unit e)
    (hb' : step p outcome b e = some b') (tid : ThreadID) :
    Shifted H outcome b'.session.unit.bp (b'.session.unit.predHist tid) (b'.committed tid)
      tid := by
  rw [step] at hb'
  split at hb'
  case isFalse => cases hb'
  case isTrue hdom =>
      obtain ⟨s, hs, rfl⟩ := map_eq_some_iff.mp hb'
      cases e with
      | predict inst seqNum pc t =>
        obtain ⟨hnew, v, hv⟩ := (h t).predict hdom hok
        by_cases htid : tid = t
        · subst htid
          rw [BranchEvent.call, Session.step_predict, some.injEq] at hs
          subst hs
          exact hnew
        · refine (h tid).of_eq ?_ (step_other htid hs).1
          rw [BranchEvent.call, Session.step_predict, some.injEq] at hs
          subst hs
          rw [hv, update_of_ne htid]
      | correct seqNum t =>
        obtain ⟨u, hu, rfl⟩ := map_eq_some_iff.mp hs
        obtain ⟨hnew, hother⟩ := (h t).correct hu
        by_cases htid : tid = t
        · subst htid
          exact hnew
        · exact (h tid).of_eq (hother tid htid) (step_other htid hs).1
      | squash squashedSn t =>
        by_cases htid : tid = t
        · subst htid
          cases hs
          have hsq := h tid
          rw [← younger_append_rest squashedSn (b.session.unit.predHist tid)] at hsq
          rw [bp_squash, predHist_squash, update_self]
          exact hsq.squash
        · refine (h tid).of_eq ?_ (step_other htid hs).1
          cases hs
          rw [bp_squash, reg_squash_other htid]
      | commit doneSn t =>
        by_cases htid : tid = t
        · subst htid
          cases hs
          simp only [commitOutcomes, update_self]
          exact (h tid).commit hdom
        · simp only [commitOutcomes, update_of_ne htid]
          refine (h tid).of_eq ?_ (step_other htid hs).1
          cases hs
          rw [bp_update, reg_commit]

end Branches

/-- Take the tournament or the bi-mode predictor, and a run of direct branches in which the
switches are harmless. When a thread has no branch in flight, the bits of its global history
register that a lookup reads are the outcomes of its last committed branches, newest
lowest. -/
theorem Branches.globalHistory_holds_outcomes {PC : Type} [PCStateBase PC]
    {I : IndirectPredictor PC} {N : Nat} [NeZero N] (d : HistoryPredictor) (p : BPredParams)
    (outcome : Outcomes PC) (iPred : I.State) (es : List (BranchEvent PC))
    (b : Branches (d.predictor PC) I N)
    (hes : Lib.RunMeets (step p outcome) (fun (b : Branches (d.predictor PC) I N) e =>
        SwitchesHarmless p outcome b.session.unit e) (new p (d.init PC) iPred) es)
    (hrun : Lib.run (step p outcome) (new p (d.init PC) iPred) es = some b) (tid : ThreadID)
    (hidle : b.session.unit.predHist tid = []) (i : Nat) (hi : i < d.historyBits) :
    (d.globalHistory PC b.session.unit.bp tid).getLsbD i = (b.committed tid).getD i false := by
  have hbits : (d.register PC).bits = d.historyBits := by cases d <;> rfl
  have hreg : ∀ s, (d.register PC).reg s tid = d.globalHistory PC s tid := by
    cases d <;> exact fun _ => rfl
  have hinit : ∀ tid, (d.register PC).reg (d.init PC) tid = 0#32 := by
    cases d <;> exact fun _ => rfl
  have hstart : ∀ tid, Shifted (d.register PC) outcome (d.init PC)
      ([] : List (PredictorHistory (d.predictor PC) I N)) [] tid :=
    fun tid => ⟨[], by rw [hinit]; exact holds_zero, .nil⟩
  have hend := run_invariant_of_meets
    (P := fun b : Branches (d.predictor PC) I N => ∀ tid, Shifted (d.register PC) outcome
      b.session.unit.bp (b.session.unit.predHist tid) (b.committed tid) tid)
    (fun _ _ _ h hok hs => shifted_step h hok hs) hstart hes hrun tid
  rw [hidle] at hend
  obtain ⟨bs, hholds, hflight⟩ := hend
  cases hflight
  rw [← hreg]
  exact hholds i (by rw [hbits]; exact hi)

namespace Branches

instance SwitchesHarmless.decidable {PC : Type} [PCStateBase PC] {P : DirectionPredictor PC}
    {I : IndirectPredictor PC} {N : Nat} [NeZero N] (p : BPredParams) (outcome : Outcomes PC)
    (u : BPredUnit P I N) : ∀ e, Decidable (SwitchesHarmless p outcome u e)
  | .predict _ _ _ _ _ => inferInstanceAs (Decidable (_ ∨ _))
  | .correct _ _ => isTrue trivial
  | .squash _ _ => isTrue trivial
  | .commit _ _ => isTrue trivial

/-- The small unit after construction. -/
abbrev small : Branches ((tournament smallTournament).predictor FlatPC)
    noIndirect 2 :=
  new smallUnit ((tournament smallTournament).init FlatPC) ()

/-- Every branch is taken, to `0x200`. -/
def alwaysTaken : Outcomes FlatPC := fun _ _ => (true, ⟨0x200⟩)

/-- The branch at `0x100` is predicted not taken, corrected and committed, which fills the
BTB. -/
def firstBranch : List (BranchEvent FlatPC) :=
  [.predict condBranch 1 ⟨0x100⟩ 0 0, .correct 1 0, .commit 1 0]

/-- Then the branch is predicted with a draw of 99, corrected and committed. -/
def correctedBranch : List (BranchEvent FlatPC) :=
  firstBranch ++ [.predict condBranch 2 ⟨0x100⟩ 0 99, .correct 2 0, .commit 2 0]

/-- Then the branch is predicted with a draw of 100, and committed. -/
def poisonedBranch : List (BranchEvent FlatPC) :=
  firstBranch ++ [.predict condBranch 2 ⟨0x100⟩ 0 100, .commit 2 0]

/-- With a draw of 99 the second run of the branch is corrected too, and bit 0 is its
outcome. -/
theorem globalHistory_holds_outcomes_corrected :
    ∃ b, Lib.run (step smallUnit alwaysTaken) small correctedBranch = some b ∧
      ((HistoryPredictor.tournament smallTournament).globalHistory FlatPC
        b.session.unit.bp 0).getLsbD 0 = (b.committed 0).getD 0 false := by
  obtain ⟨b, hb, hidle⟩ : ∃ b ∈ run (step smallUnit alwaysTaken) small correctedBranch,
      (b.session.unit.predHist 0).isEmpty := by
    decide +kernel
  have hmeets : RunMeets (step smallUnit alwaysTaken)
      (fun b e => SwitchesHarmless smallUnit alwaysTaken b.session.unit e) small
      correctedBranch := by
    decide +kernel
  rw [List.isEmpty_iff] at hidle
  have hbits : 0 < (tournament smallTournament).historyBits := by decide +kernel
  exact ⟨b, hb, globalHistory_holds_outcomes (I := noIndirect)
    (tournament smallTournament) smallUnit alwaysTaken () correctedBranch b
    hmeets hb 0 hidle 0 hbits⟩

/-- With a draw of 100 the second run of the branch is inverted to taken, which is right, so
nothing corrects it. Two taken branches are committed, and bit 0 of the register is 0. -/
theorem poisoned_bit_stays :
    ∃ b, Lib.run (step smallUnit alwaysTaken) small poisonedBranch = some b ∧
      b.session.unit.predHist 0 = [] ∧
      0 < (HistoryPredictor.tournament smallTournament).historyBits ∧
      b.committed 0 = [true, true] ∧
      ((HistoryPredictor.tournament smallTournament).globalHistory FlatPC
        b.session.unit.bp 0).getLsbD 0 = false := by
  obtain ⟨b, hb, hidle, hcommitted, hbit⟩ :
      ∃ b ∈ run (step smallUnit alwaysTaken) small poisonedBranch,
        (b.session.unit.predHist 0).isEmpty ∧ b.committed 0 = [true, true] ∧
          ((tournament smallTournament).globalHistory FlatPC
            b.session.unit.bp 0).getLsbD 0 = false := by
    decide +kernel
  exact ⟨b, hb, List.isEmpty_iff.mp hidle, by decide +kernel, hcommitted, hbit⟩

end Branches

end Gem5.Pred
