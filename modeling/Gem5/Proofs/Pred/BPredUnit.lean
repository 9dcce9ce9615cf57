import Gem5.Pred.Tournament

/-!
# `Gem5.Proofs.Pred.BPredUnit`: what one call of the prediction unit changes

Each call works on one thread. `squash` takes the records younger than the given number off
the front of the history, and undoes them one by one (`predHist_squash`, `RAS_squash`,
`bp_squash`). `predict` puts one record on the front. Its effect on the return address stack
is one of the four moves of `RASMove` (`predictWith_moves`).
-/

namespace Gem5.Pred

open Function List

open MyMinor (Addr ThreadID InstSeqNum)

namespace BPredUnit

variable {PC : Type} {P : DirectionPredictor PC} {I : IndirectPredictor PC} {N : Nat}
  [NeZero N]

section
variable (u : BPredUnit P I N) (tid : ThreadID) (ras : ReturnAddrStack PC N)

@[simp] theorem RAS_setRAS : (u.setRAS tid ras).RAS = Function.update u.RAS tid ras := rfl

@[simp] theorem predHist_setRAS : (u.setRAS tid ras).predHist = u.predHist := rfl

@[simp] theorem bp_setRAS : (u.setRAS tid ras).bp = u.bp := rfl

@[simp] theorem BTB_setRAS : (u.setRAS tid ras).BTB = u.BTB := rfl

@[simp] theorem RAS_setHist (hist : List (PredictorHistory P I N)) :
    (u.setHist tid hist).RAS = u.RAS := rfl

@[simp] theorem predHist_setHist (hist : List (PredictorHistory P I N)) :
    (u.setHist tid hist).predHist = Function.update u.predHist tid hist := rfl

@[simp] theorem bp_setHist (hist : List (PredictorHistory P I N)) :
    (u.setHist tid hist).bp = u.bp := rfl

end

section Squash
variable (p : BPredParams) (sn : InstSeqNum) (tid : ThreadID)

/-- The records that a squash takes off the front of a history. -/
def younger (sn : InstSeqNum) (hist : List (PredictorHistory P I N)) :
    List (PredictorHistory P I N) :=
  hist.takeWhile fun r => decide (sn < r.seqNum)

/-- The records that a squash leaves. -/
def rest (sn : InstSeqNum) (hist : List (PredictorHistory P I N)) :
    List (PredictorHistory P I N) :=
  hist.dropWhile fun r => decide (sn < r.seqNum)

theorem younger_append_rest (hist : List (PredictorHistory P I N)) :
    younger sn hist ++ rest sn hist = hist := List.takeWhile_append_dropWhile

/-- The return address stack after the undo of a list of records, youngest first. -/
def undoAll (ras : ReturnAddrStack PC N) (recs : List (PredictorHistory P I N)) :
    ReturnAddrStack PC N :=
  recs.foldl undoRAS ras

/-- The loop of `squash`: it undoes the younger records and leaves the others. -/
theorem squashFrom_spec (u : BPredUnit P I N) (hist : List (PredictorHistory P I N)) :
    let c := squashFrom p sn tid u hist
    c.2 = rest sn hist ∧ c.1.predHist = u.predHist ∧
      c.1.RAS = Function.update u.RAS tid (undoAll (u.RAS tid) (younger sn hist)) ∧
      c.1.bp = (younger sn hist).foldl (fun bp r => P.squash bp tid r.bpHistory) u.bp := by
  induction hist generalizing u with
  | nil => simp [squashFrom, younger, rest, undoAll]
  | cons r rs ih =>
    by_cases hr : sn < r.seqNum
    · obtain ⟨hrest, hhist, hras, hbp⟩ := ih (u.squashRecord p tid r)
      simp only [squashFrom, hr, younger, rest, undoAll, takeWhile_cons,
        dropWhile_cons, if_true] at *
      refine ⟨hrest, hhist, ?_, hbp⟩
      rw [hras]
      simp [squashRecord]
    · simp [squashFrom, hr, younger, rest, undoAll]

variable (u : BPredUnit P I N)

theorem predHist_squash : (u.squash p sn tid).predHist
      = Function.update u.predHist tid (rest sn (u.predHist tid)) := by
  cases hi : p.hasIPred <;> simp [squash, hi, squashFrom_spec]

theorem RAS_squash : (u.squash p sn tid).RAS
      = Function.update u.RAS tid (undoAll (u.RAS tid) (younger sn (u.predHist tid))) := by
  cases hi : p.hasIPred <;> simp [squash, hi, squashFrom_spec]

theorem bp_squash : (u.squash p sn tid).bp
      = (younger sn (u.predHist tid)).foldl (fun bp r => P.squash bp tid r.bpHistory)
          u.bp := by
  cases hi : p.hasIPred <;> simp [squash, hi, squashFrom_spec]

end Squash

section Update
variable (p : BPredParams) (doneSn : InstSeqNum) (tid : ThreadID)

/-- The records that `update` leaves, youngest first. -/
def uncommitted (doneSn : InstSeqNum) (hist : List (PredictorHistory P I N)) :
    List (PredictorHistory P I N) :=
  (hist.reverse.dropWhile fun r => decide (r.seqNum ≤ doneSn)).reverse

theorem uncommitted_append_committed (hist : List (PredictorHistory P I N)) :
    uncommitted doneSn hist ++ (committed doneSn hist).reverse = hist := by
  rw [uncommitted, committed, ← reverse_append, takeWhile_append_dropWhile, reverse_reverse]

/-- The loop of `update`: it trains the predictor with each record that it commits. -/
theorem commitFrom_spec (u : BPredUnit P I N) (oldest : List (PredictorHistory P I N)) :
    let c := commitFrom p doneSn tid u oldest
    c.2 = oldest.dropWhile (fun r => decide (r.seqNum ≤ doneSn)) ∧
      c.1.predHist = u.predHist ∧ c.1.RAS = u.RAS ∧
      c.1.bp = (oldest.takeWhile fun r => decide (r.seqNum ≤ doneSn)).foldl
            (fun bp r => (P.update bp tid r.pc r.predTaken r.bpHistory false r.inst r.target).2)
            u.bp := by
  induction oldest generalizing u with
  | nil => simp [commitFrom]
  | cons r rs ih =>
    by_cases hr : r.seqNum ≤ doneSn
    · simpa [commitFrom, hr, commitRecord] using ih (u.commitRecord p doneSn tid r)
    · simp [commitFrom, hr]

variable (u : BPredUnit P I N)

theorem predHist_update : (u.update p doneSn tid).predHist
      = Function.update u.predHist tid (uncommitted doneSn (u.predHist tid)) := by
  simp [update, commitFrom_spec, uncommitted]

theorem bp_update : (u.update p doneSn tid).bp = (committed doneSn (u.predHist tid)).foldl
          (fun bp r => (P.update bp tid r.pc r.predTaken r.bpHistory false r.inst r.target).2)
          u.bp := by
  simp [update, commitFrom_spec, committed]

end Update

section Uses

/-- What a record says about the return address stack: `predict` did not touch it, `predict`
popped it and kept the old top, or `predict` pushed a call. -/
inductive RASUse (PC : Type) (N : Nat) where
  | untouched
  | popped (index : Fin N) (target : Option PC)
  | pushed

/-- The part of a record that a squash reads to undo the return address stack. -/
def rasUse (r : PredictorHistory P I N) : RASUse PC N :=
  if r.usedRAS then .popped r.RASIndex r.RASTarget
  else if r.wasCall && r.pushedRAS then .pushed
  else .untouched

variable (ras : ReturnAddrStack PC N)

/-- The undo of one use. -/
def RASUse.undo : RASUse PC N → ReturnAddrStack PC N
  | .untouched => ras
  | .popped index target => ras.restore index target
  | .pushed => ras.pop

/-- What `predict` does to the return address stack, the use it records, and how many calls
it pushes. A conditional call without a target pushes and pops at once. -/
inductive RASMove (ras : ReturnAddrStack PC N) :
    RASUse PC N → ReturnAddrStack PC N → Nat → Prop where
  | keep : RASMove ras .untouched ras 0
  | pop : RASMove ras (.popped ras.tos ras.top) ras.pop 0
  | push (pc : PC) : RASMove ras .pushed (ras.push pc) 1
  | pushPop (pc : PC) : RASMove ras .untouched (ras.push pc).pop 1

/-- A record is of a return or of a call, not of both, and only a return uses the stack. -/
structure RecordOk (r : PredictorHistory P I N) : Prop where
  used : r.usedRAS = true → r.wasReturn = true
  call : r.wasReturn = true → r.wasCall = false

/-- The fields that a correction writes before it looks at the stack do not decide what it
does to the stack. -/
theorem correctRAS_with (taken : Bool) (r : PredictorHistory P I N) (predTaken : Bool)
    (target : Addr) (bpHistory : P.History) (indirectHistory : I.History) :
    correctRAS ras taken
        { r with
          predTaken := predTaken, target := target, bpHistory := bpHistory
          indirectHistory := indirectHistory }
      = ((correctRAS ras taken r).1, { (correctRAS ras taken r).2 with
          predTaken := predTaken, target := target, bpHistory := bpHistory
          indirectHistory := indirectHistory }) := by
  unfold correctRAS
  split <;> [split; (split <;> [skip; split])] <;> rfl

/-- A correction keeps the kind of a record. -/
theorem RecordOk.correctRAS {r : PredictorHistory P I N} (hr : RecordOk r)
    (ras : ReturnAddrStack PC N) (taken : Bool) : RecordOk (correctRAS ras taken r).2 := by
  unfold BPredUnit.correctRAS
  split
  · split
    · next hret => exact ⟨fun _ => (Bool.and_eq_true _ _ ▸ hret).1, hr.call⟩
    · exact hr
  · split
    · exact ⟨by simp, hr.call⟩
    · split
      · exact ⟨hr.used, hr.call⟩
      · exact hr

end Uses

section Calls
variable [PCStateBase PC] (p : BPredParams) (tid : ThreadID) {u : BPredUnit P I N} {taken : Bool}

/-- A correction first squashes. Then either no record is left and nothing else happens, or
the record of the branch is at the front and is corrected. -/
theorem squashMispredicted_cases {u' : BPredUnit P I N} {sn : InstSeqNum} {corrTarget : PC}
    (h : u.squashMispredicted p sn corrTarget taken tid = some u') :
    (rest sn (u.predHist tid) = [] ∧ u' = u.squash p sn tid) ∨
    ∃ r rs, rest sn (u.predHist tid) = r :: rs ∧ r.seqNum = sn ∧
      u' = ((u.squash p sn tid).correctRecord p corrTarget taken tid r).2.setHist tid
        (((u.squash p sn tid).correctRecord p corrTarget taken tid r).1 :: rs) := by
  have hhist : (u.squash p sn tid).predHist tid = rest sn (u.predHist tid) := by
    rw [predHist_squash, update_self]
  simp only [squashMispredicted, hhist] at h
  split at h
  · next hnil =>
      cases h
      exact .inl ⟨hnil, rfl⟩
  · next r rs hcons =>
      split at h
      · next hsn =>
          cases h
          exact .inr ⟨r, rs, hcons, hsn, rfl⟩
      · cases h

/-- A correction leaves the stack and the stack use of the record as `correctRAS` does. The
record keeps its number and its kind. The direction predictor is rebuilt from the record, and
the outcome goes into the record. -/
theorem correctRecord_spec (u : BPredUnit P I N) (corrTarget : PC) (taken : Bool)
    (r : PredictorHistory P I N) :
    let c := u.correctRecord p corrTarget taken tid r
    let ras := correctRAS (u.RAS tid) taken r
    let bp := P.update u.bp tid r.pc taken r.bpHistory true r.inst (instAddr corrTarget)
    c.2.predHist = u.predHist ∧ c.2.RAS = Function.update u.RAS tid ras.1 ∧
      c.1.seqNum = r.seqNum ∧ rasUse c.1 = rasUse ras.2 ∧ (RecordOk r → RecordOk c.1) ∧
      c.2.bp = bp.2 ∧ c.1.bpHistory = bp.1 ∧ c.1.predTaken = taken := by
  have hseq : (correctRAS (u.RAS tid) taken r).2.seqNum = r.seqNum := by
    unfold correctRAS
    split <;> [split; (split <;> [skip; split])] <;> rfl
  have hok : RecordOk r → RecordOk (correctRAS (u.RAS tid) taken r).2 :=
    fun hr => hr.correctRAS (u.RAS tid) taken
  unfold correctRecord
  simp only [correctRAS_with]
  cases p.hasIPred <;> simp only [Bool.false_eq_true] <;> split <;>
    [split; skip; split; skip] <;>
    exact ⟨rfl, rfl, hseq, rfl, fun hr => ⟨(hok hr).used, (hok hr).call⟩, rfl, rfl, rfl⟩

/-- The fields of a record that `predict` sets with the target, before it does. -/
structure Fresh (r : PredictorHistory P I N) : Prop where
  used : r.usedRAS = false
  pushed : r.pushedRAS = false
  call : r.wasCall = false
  ret : r.wasReturn = false

/-- What the target lookup does to the stack, the histories and the record. -/
structure Moved (u : BPredUnit P I N) (r : PredictorHistory P I N) (n : Nat)
    (c : Choice P I N) : Prop where
  predHist : c.unit.predHist = u.predHist
  seqNum : c.record.seqNum = r.seqNum
  ok : RecordOk c.record
  move : ∃ ras, c.unit.RAS = Function.update u.RAS tid ras ∧
    RASMove (u.RAS tid) (rasUse c.record) ras n

section
omit [PCStateBase PC]
variable {u : BPredUnit P I N} {r : PredictorHistory P I N} {c : Choice P I N}

/-- A branch that is neither a call nor a return leaves the stack. -/
theorem Moved.keep (hused : c.record.usedRAS = false) (hcall : c.record.wasCall = false)
    (hseq : c.record.seqNum = r.seqNum) (hhist : c.unit.predHist = u.predHist)
    (hras : c.unit.RAS = u.RAS) : Moved tid u r 0 c := by
  refine ⟨hhist, hseq, ⟨fun h => ?_, fun _ => hcall⟩, u.RAS tid, ?_, ?_⟩
  · rw [hused] at h
    cases h
  · rw [hras, update_eq_self]
  · simpa [rasUse, hused, hcall] using RASMove.keep

/-- A call is pushed, and a call without a target is popped at once. It does not use the stack, and
it is not a return. -/
theorem Moved.of_call (pc : PC) (hr : c.record.usedRAS = false)
    (hret : c.record.wasReturn = false) (hcall : c.record.wasCall = true)
    (hseq : c.record.seqNum = r.seqNum) (hhist : c.unit.predHist = u.predHist)
    (hras : c.unit.RAS = Function.update u.RAS tid
      (if c.record.pushedRAS then (u.RAS tid).push pc else ((u.RAS tid).push pc).pop)) :
    Moved tid u r 1 c := by
  refine ⟨hhist, hseq, ⟨fun h => ?_, fun h => ?_⟩, _, hras, ?_⟩
  · rw [hr] at h
    cases h
  · rw [hret] at h
    cases h
  · cases hpushed : c.record.pushedRAS with
    | false => simpa [rasUse, hr, hpushed] using .pushPop pc
    | true => simpa [rasUse, hr, hcall, hpushed] using .push pc

end

variable {r : PredictorHistory P I N}

/-- The target from the BTB. -/
theorem predictDirect_moved (u : BPredUnit P I N) (inst : StaticInst PC) (pc : PC) (hr : Fresh r)
    (hret : inst.isReturn = false) :
    Moved tid u r (if inst.isCall then 1 else 0)
      ((u.pushCall inst pc tid r).2.predictDirect inst pc tid (u.pushCall inst pc tid r).1) := by
  unfold predictDirect
  cases hcall : inst.isCall
  · simp only [pushCall, hcall, hret, Bool.false_eq_true, if_false]
    split <;> exact Moved.keep tid hr.used hr.call rfl rfl rfl
  · simp only [pushCall, dropCall, hcall, if_true, Bool.not_true, Bool.false_and,
      Bool.false_eq_true, if_false, Bool.true_and]
    split_ifs <;> exact Moved.of_call tid pc hr.used hr.ret rfl rfl rfl (by simp)

/-- The target from the indirect predictor. -/
theorem predictIndirect_moved (u : BPredUnit P I N) (inst : StaticInst PC) (seqNum : InstSeqNum)
    (pc : PC) (hr : Fresh r) :
    Moved tid u r (if inst.isCall then 1 else 0)
      ((u.pushCall inst pc tid r).2.predictIndirect inst seqNum pc tid
        (u.pushCall inst pc tid r).1) := by
  unfold predictIndirect
  cases hcall : inst.isCall
  · simp only [pushCall, dropCall, hcall, Bool.false_eq_true, if_false]
    split <;> exact Moved.keep tid hr.used hr.call rfl rfl rfl
  · simp only [pushCall, dropCall, hcall, if_true, Bool.true_and]
    split_ifs <;> exact Moved.of_call tid pc hr.used hr.ret rfl rfl rfl (by simp)

/-- The target of a return is the top of the stack. -/
theorem chooseTarget_moved (u : BPredUnit P I N) (inst : StaticInst PC) (seqNum : InstSeqNum)
    (pc : PC) (hr : Fresh r) :
    Moved tid u r (if r.predTaken && !inst.isReturn && inst.isCall then 1 else 0)
      (chooseTarget p u inst seqNum pc tid r) := by
  unfold chooseTarget
  cases htaken : r.predTaken
  · exact Moved.keep tid hr.used hr.call rfl rfl rfl
  · cases hret : inst.isReturn
    · simp only [if_true]
      by_cases hdirect : (inst.isDirectCtrl || !p.hasIPred) = true
      · rw [if_pos hdirect]
        exact predictDirect_moved tid u inst pc hr hret
      · rw [if_neg hdirect]
        exact predictIndirect_moved tid u inst seqNum pc hr
    · exact ⟨rfl, rfl, ⟨fun _ => rfl, fun _ => hr.call⟩, (u.RAS tid).pop, rfl, .pop⟩

/-- The end of `predict` puts the record on the front of the history of the thread. -/
theorem finishPredict_moves {n : Nat} {c : Choice P I N} (hc : Moved tid u r n c)
    (origPredTaken : Bool) :
    ∃ r' ras, (finishPredict p tid origPredTaken c).2.2.predHist
        = Function.update u.predHist tid (r' :: u.predHist tid) ∧
      (finishPredict p tid origPredTaken c).2.2.RAS = Function.update u.RAS tid ras ∧
      r'.seqNum = r.seqNum ∧ RecordOk r' ∧ RASMove (u.RAS tid) (rasUse r') ras n := by
  obtain ⟨ras, hras, hmove⟩ := hc.move
  refine ⟨{ c.record with target := instAddr c.target }, ras, ?_, hras, hc.seqNum,
    ⟨hc.ok.used, hc.ok.call⟩, hmove⟩
  simp only [finishPredict, predHist_setHist, hc.predHist]

/-- `predict` puts one record on the front of the history of the thread, and moves its return
address stack as the record says. -/
theorem predictWith_moves (adjust : Bool → Bool) (u : BPredUnit P I N)
    (inst : StaticInst PC) (seqNum : InstSeqNum) (pc : PC) :
    ∃ r ras, (u.predictWith p adjust inst seqNum pc tid).2.2.predHist
        = Function.update u.predHist tid (r :: u.predHist tid) ∧
      (u.predictWith p adjust inst seqNum pc tid).2.2.RAS = Function.update u.RAS tid ras ∧
      r.seqNum = seqNum ∧ RecordOk r ∧
      RASMove (u.RAS tid) (rasUse r) ras
        (if Session.pushesCall u inst pc tid adjust then 1 else 0) :=
  finishPredict_moves p tid (chooseTarget_moved p tid _ inst seqNum pc ⟨rfl, rfl, rfl, rfl⟩) _

/-- What `predict` returns for a direct branch that is neither a call nor a return, and what
it does to the direction predictor. Without a BTB entry, a branch predicted taken becomes
not taken, and the predictor is told. -/
theorem predictWith_direct (adjust : Bool → Bool) (u : BPredUnit P I N) {inst : StaticInst PC}
    (seqNum : InstSeqNum) (pc : PC) (hdirect : inst.isDirectCtrl = true)
    (hcall : inst.isCall = false) (hret : inst.isReturn = false) {history : P.History}
    {bp : P.State} (hd : u.direction inst pc tid adjust = (taken, history, bp)) :
    ∃ r, (u.predictWith p adjust inst seqNum pc tid).2.2.predHist
        = Function.update u.predHist tid (r :: u.predHist tid) ∧ r.seqNum = seqNum ∧
      ((taken && !u.BTB.valid (instAddr pc) tid) = false ∧ r.predTaken = taken ∧
          r.bpHistory = history ∧
          (u.predictWith p adjust inst seqNum pc tid).2.2.bp = bp ∨
        (taken && !u.BTB.valid (instAddr pc) tid) = true ∧ r.predTaken = false ∧
          r.bpHistory = (P.btbUpdate bp tid (instAddr pc) history).1 ∧
          (u.predictWith p adjust inst seqNum pc tid).2.2.bp
            = (P.btbUpdate bp tid (instAddr pc) history).2) := by
  have hor : (inst.isDirectCtrl || !p.hasIPred) = true := by rw [hdirect, Bool.true_or]
  cases taken with
  | false =>
    simp only [predictWith, hd]
    exact ⟨_, rfl, rfl, .inl ⟨rfl, rfl, rfl, rfl⟩⟩
  | true =>
    simp only [predictWith, hd, predictFrom, chooseTarget, hret, hor, if_true,
      Bool.false_eq_true, if_false, pushCall, hcall, finishPredict, predictDirect,
      Bool.not_false]
    cases hvalid : u.BTB.valid (instAddr pc) tid with
    | true =>
      simp only [if_true]
      exact ⟨_, rfl, rfl, .inl ⟨rfl, rfl, rfl, rfl⟩⟩
    | false =>
      exact ⟨_, rfl, rfl, .inr ⟨rfl, rfl, rfl, rfl⟩⟩

end Calls

end BPredUnit

/-- The thread of a call. -/
def Event.tid {PC : Type} : Event PC → ThreadID
  | .predict _ _ _ tid _ => tid
  | .update _ tid => tid
  | .squash _ tid => tid
  | .squashMispredicted _ _ _ tid => tid

namespace Session

open BPredUnit

variable {PC : Type} [PCStateBase PC] {P : DirectionPredictor PC} {I : IndirectPredictor PC}
  {N : Nat} [NeZero N] (p : BPredParams)

/-- The direction of a conditional branch after the poison lines and the enable line. -/
def adjust (draw : Fin 101) (predTaken : Bool) : Bool :=
  p.enable (p.poison draw predTaken)

theorem step_predict (s : Session P I N) (inst : StaticInst PC) (seqNum : InstSeqNum) (pc : PC)
    (tid : ThreadID) (draw : Fin 101) :
    let c := s.unit.predictWith p (adjust p draw) inst seqNum pc tid
    step p s (.predict inst seqNum pc tid draw) = some
      { unit := c.2.2
        predictions := (c.1, c.2.1) :: s.predictions
        pushes := if pushesCall s.unit inst pc tid (adjust p draw) then
            update s.pushes tid (s.pushes tid + 1)
          else s.pushes } := rfl

/-- A call for one thread leaves the history and the return address stack of the others. -/
theorem step_other {p : BPredParams} {s s' : Session P I N} {e : Event PC} {tid : ThreadID}
    (htid : tid ≠ e.tid) (h : step p s e = some s') :
    s'.unit.predHist tid = s.unit.predHist tid ∧ s'.unit.RAS tid = s.unit.RAS tid ∧
      s'.pushes tid = s.pushes tid := by
  cases e with
  | predict inst seqNum pc t draw =>
    change tid ≠ t at htid
    rw [step_predict, Option.some.injEq] at h
    subst h
    obtain ⟨r, ras, hhist, hras, -⟩ := predictWith_moves p t (adjust p draw) s.unit inst seqNum pc
    refine ⟨?_, ?_, ?_⟩
    · rw [hhist, update_of_ne htid]
    · rw [hras, update_of_ne htid]
    · split <;> simp [htid]
  | update doneSn t =>
    change tid ≠ t at htid
    cases h
    exact ⟨by rw [predHist_update, update_of_ne htid],
      by simp [BPredUnit.update, commitFrom_spec], rfl⟩
  | squash squashedSn t =>
    change tid ≠ t at htid
    cases h
    exact ⟨by rw [predHist_squash, update_of_ne htid], by rw [RAS_squash, update_of_ne htid], rfl⟩
  | squashMispredicted squashedSn corrTarget taken t =>
    change tid ≠ t at htid
    obtain ⟨u, hu, rfl⟩ := Option.map_eq_some_iff.mp h
    rcases squashMispredicted_cases p t hu with ⟨-, rfl⟩ | ⟨r, rs, -, -, rfl⟩
    · exact ⟨by rw [predHist_squash, update_of_ne htid], by rw [RAS_squash, update_of_ne htid], rfl⟩
    · obtain ⟨hhist, hras, -⟩ := correctRecord_spec p t
        (s.unit.squash p squashedSn t) corrTarget taken r
      refine ⟨?_, ?_, rfl⟩
      · rw [predHist_setHist, update_of_ne htid, hhist, predHist_squash, update_of_ne htid]
      · rw [RAS_setHist, hras, update_of_ne htid, RAS_squash, update_of_ne htid]

end Session

/-! ### A small unit

The unit on which the concrete runs are evaluated: two-entry tables, one thread and no
indirect predictor. -/

/-- A PC that is only an address. -/
structure FlatPC where
  addr : Addr
deriving DecidableEq

instance : PCStateBase FlatPC := ⟨FlatPC.addr⟩

/-- The indirect predictor of a unit that has none. -/
def noIndirect : IndirectPredictor FlatPC :=
  { State := Unit
    History := Unit
    null := ()
    lookup := fun _ _ target _ => (false, target, ())
    recordIndirect := fun _ _ _ _ _ => ()
    commit := fun _ _ _ _ => ()
    squash := fun _ _ _ => ()
    recordTarget := fun _ _ _ _ _ => ((), ())
    genIndirectInfo := fun _ _ => ((), ())
    updateDirectionInfo := fun _ _ _ => ()
    deleteIndirectInfo := fun _ _ _ => ()
    changeDirectionPrediction := fun _ _ _ _ => ((), ()) }

theorem isTableSize_two : IsTableSize 2 := ⟨⟨1, rfl⟩, by decide⟩

/-- A tournament predictor with two entries in each table. -/
def smallTournament : TournamentParams :=
  { localPredictorSize := 2
    localCtrBits := 2
    localHistoryTableSize := 2
    globalPredictorSize := 2
    globalCtrBits := 2
    choicePredictorSize := 2
    choiceCtrBits := 2
    instShiftAmt := 2
    isTableSize_local := isTableSize_two
    isTableSize_localHistory := isTableSize_two
    isTableSize_global := isTableSize_two
    isTableSize_choice := isTableSize_two }

/-- The default switches: `predictPoison` is 100 and the predictor is enabled. -/
def smallUnit : BPredParams :=
  { numThreads := 1
    BTBEntries := 2
    BTBTagSize := 16
    instShiftAmt := 2
    predictPoison := 100
    branchPredEn := true
    hasIPred := false }

-- the sizes of the return address stack of the small unit and of the poison draws
instance neZero_two : NeZero 2 := ⟨by decide⟩
instance neZero_draws : NeZero 101 := ⟨by decide⟩

/-- The small unit after construction. -/
def Session.small : Session (TournamentBP.predictor FlatPC smallTournament) noIndirect 2 :=
  Session.new smallUnit (TournamentBP.new smallTournament) ()

/-- A direct conditional branch. -/
def condBranch : StaticInst FlatPC :=
  { isUncondCtrl := false
    isDirectCtrl := true
    isCall := false
    isReturn := false
    advancePC := fun pc => ⟨pc.addr + 4⟩
    buildRetPC := fun _ ret => ⟨ret.addr + 4⟩ }

/-- A direct unconditional call. -/
def directCall : StaticInst FlatPC := { condBranch with isUncondCtrl := true, isCall := true }

/-- A direct conditional call. -/
def condCall : StaticInst FlatPC := { condBranch with isCall := true }

/-- A conditional return. -/
def condReturn : StaticInst FlatPC := { condBranch with isDirectCtrl := false, isReturn := true }

end Gem5.Pred
