import Gem5.Pred.BiMode
import Gem5.Pred.Tournament

/-!
# `Gem5.Pred.Branches`: direct branches from prediction to commit

A run of the prediction unit on direct branches that are neither calls nor returns. Each
branch has an actual outcome, a direction and a target, given by its sequence number. A
branch that resolves against its prediction is corrected with its outcome. A branch whose
record agrees with its outcome is committed. `InDomain` is this protocol between the
pipeline and the unit.

`committed` collects the outcomes of the committed branches of each thread, newest first.
It does not exist in the source.
-/

namespace Gem5.Pred

open MyMinor (Addr ThreadID InstSeqNum)

/-- The direction predictors that keep a global history register. -/
inductive HistoryPredictor where
  | tournament (p : TournamentParams)
  | biMode (p : BiModeParams)

namespace HistoryPredictor

/-- The direction predictor. -/
def predictor (PC : Type) : HistoryPredictor → DirectionPredictor PC
  | .tournament p => TournamentBP.predictor PC p
  | .biMode p => BiModeBP.predictor PC p

/-- The predictor after construction. -/
def init (PC : Type) : (d : HistoryPredictor) → (d.predictor PC).State
  | .tournament p => TournamentBP.new p
  | .biMode p => BiModeBP.new p

/-- The global history register of a thread. -/
def globalHistory (PC : Type) :
    (d : HistoryPredictor) → (d.predictor PC).State → ThreadID → Unsigned
  | .tournament _, t, tid => TournamentBP.globalHistory t tid
  | .biMode _, t, tid => BiModeBP.globalHistoryReg t tid

/-- How many bits of the register a lookup reads. -/
def historyBits : HistoryPredictor → Nat
  | .tournament p => p.globalHistoryBits
  | .biMode p => p.globalHistoryBits

end HistoryPredictor

/-- What happens to the branches. The targets and directions of a correction come from the
outcome of the branch. -/
inductive BranchEvent (PC : Type) where
  | predict (inst : StaticInst PC) (seqNum : InstSeqNum) (pc : PC) (tid : ThreadID)
      (branchPoisonRng : Fin 101)
  | correct (seqNum : InstSeqNum) (tid : ThreadID)
  | squash (squashedSn : InstSeqNum) (tid : ThreadID)
  | commit (doneSn : InstSeqNum) (tid : ThreadID)

/-- The actual direction and target of each branch. -/
abbrev Outcomes (PC : Type) := ThreadID → InstSeqNum → Bool × PC

/-- The call of the unit that an event makes. -/
def BranchEvent.call {PC : Type} (outcome : Outcomes PC) : BranchEvent PC → Event PC
  | .predict inst seqNum pc tid branchPoisonRng => .predict inst seqNum pc tid branchPoisonRng
  | .correct seqNum tid =>
    .squashMispredicted seqNum (outcome tid seqNum).2 (outcome tid seqNum).1 tid
  | .squash squashedSn tid => .squash squashedSn tid
  | .commit doneSn tid => .update doneSn tid

/-- The unit and the outcomes of the committed branches of each thread, newest first. -/
structure Branches {PC : Type} (P : DirectionPredictor PC) (I : IndirectPredictor PC)
    (N : Nat) [NeZero N] where
  session : Session P I N
  committed : ThreadID → List Bool

namespace Branches

variable {PC : Type} [PCStateBase PC] {P : DirectionPredictor PC} {I : IndirectPredictor PC}
  {N : Nat} [NeZero N] (outcome : Outcomes PC)

/-- The record of a branch agrees with the outcome of the branch. -/
def Agrees (tid : ThreadID) (r : PredictorHistory P I N) : Prop :=
  r.predTaken = (outcome tid r.seqNum).1 ∧ r.target = instAddr (outcome tid r.seqNum).2

instance (outcome : Outcomes PC) (tid : ThreadID) (r : PredictorHistory P I N) :
    Decidable (Agrees outcome tid r) :=
  inferInstanceAs (Decidable (_ ∧ _))

/-- The events that the pipeline can bring. Only direct branches that are neither calls nor
returns are predicted, and an unconditional one is taken. A branch is corrected if its record
disagrees with its outcome, and is committed if it agrees. -/
def InDomain (u : BPredUnit P I N) : BranchEvent PC → Prop
  | .predict inst seqNum _ tid _ =>
    inst.isDirectCtrl = true ∧ inst.isCall = false ∧ inst.isReturn = false ∧
      (inst.isUncondCtrl = true → (outcome tid seqNum).1 = true)
  | .correct seqNum tid =>
    ∀ r ∈ u.predHist tid, r.seqNum = seqNum → ¬Agrees outcome tid r
  | .squash _ _ => True
  | .commit doneSn tid =>
    ∀ r ∈ BPredUnit.committed doneSn (u.predHist tid), Agrees outcome tid r

instance InDomain.decidable (outcome : Outcomes PC) (u : BPredUnit P I N) :
    ∀ e, Decidable (InDomain outcome u e)
  | .predict _ _ _ _ _ => inferInstanceAs (Decidable (_ ∧ _))
  | .correct seqNum tid =>
    inferInstanceAs (Decidable (∀ r ∈ u.predHist tid, r.seqNum = seqNum →
      ¬Agrees outcome tid r))
  | .squash _ _ => isTrue trivial
  | .commit doneSn tid =>
    inferInstanceAs (Decidable (∀ r ∈ BPredUnit.committed doneSn (u.predHist tid),
      Agrees outcome tid r))

/-- The unit after construction, with nothing committed. -/
def new (p : BPredParams) (bp : P.State) (iPred : I.State) : Branches P I N :=
  { session := Session.new p bp iPred, committed := fun _ => [] }

/-- The committed outcomes after an event. -/
def commitOutcomes (b : Branches P I N) :
    BranchEvent PC → ThreadID → List Bool
  | .commit doneSn tid =>
    Function.update b.committed tid
      ((BPredUnit.committed doneSn (b.session.unit.predHist tid)).reverse.map
        (fun r => (outcome tid r.seqNum).1) ++ b.committed tid)
  | _ => b.committed

/-- One event. -/
def step (p : BPredParams) (outcome : Outcomes PC) (b : Branches P I N) (e : BranchEvent PC) :
    Option (Branches P I N) :=
  if InDomain outcome b.session.unit e then
    (b.session.step p (e.call outcome)).map fun s =>
      { session := s, committed := b.commitOutcomes outcome e }
  else none

end Branches

end Gem5.Pred
