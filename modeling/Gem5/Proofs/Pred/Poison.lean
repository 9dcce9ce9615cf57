import Gem5.Proofs.Pred.BPredUnit

/-!
# `Gem5.Proofs.Pred.Poison`: a unit whose draws stay below the threshold

The poison lines of `predict` compare a draw between 0 and 100 with `predictPoison`, cast to
eight bits. A draw below the threshold leaves the direction. So a run with such draws gives
the predictions and the state of a unit without the poison lines
(`run_eq_unpoisoned`). The comparison is `>=`, so a draw of 100 still inverts the direction
when `predictPoison` is 100, its default (`poison_at_default`).
-/

namespace Gem5.Pred

open MyMinor (ThreadID InstSeqNum)

namespace Session

variable {PC : Type} [PCStateBase PC] {P : DirectionPredictor PC} {I : IndirectPredictor PC}
  {N : Nat} [NeZero N] (p : BPredParams)

/-- The draw of a conditional prediction is below the threshold. -/
def DrawBelow : Event PC → Prop
  | .predict inst _ _ _ draw => inst.isUncondCtrl = true ∨ draw.val < p.poisonThreshold
  | _ => True

/-- A call whose draw is below the threshold is the same without the poison lines. -/
theorem step_eq_unpoisoned (s : Session P I N) {e : Event PC} (h : DrawBelow p e) :
    step p s e = stepUnpoisoned p s e := by
  cases e with
  | predict inst seqNum pc tid draw =>
    have hdir : s.unit.direction inst pc tid (adjust p draw)
        = s.unit.direction inst pc tid p.enable := by
      -- the draw does not matter for an unconditional branch
      unfold BPredUnit.direction
      split
      · rfl
      · next hcond => simp [adjust, BPredParams.poison, Nat.not_le.mpr (h.resolve_left hcond)]
    have hpredict : s.unit.predictWith p (adjust p draw) inst seqNum pc tid
        = s.unit.predictWith p p.enable inst seqNum pc tid := by
      simp only [BPredUnit.predictWith, hdir]
    have hpushes : pushesCall s.unit inst pc tid (adjust p draw)
        = pushesCall s.unit inst pc tid p.enable := by
      simp only [pushesCall, hdir]
    rw [step_predict, hpredict, hpushes]
    rfl
  | update | squash | squashMispredicted => rfl

/-- Take a run in which each draw of a conditional prediction is below the threshold. The
unit returns the predictions of a unit without the poison lines and reaches its state: the
same stacks, targets, histories and indirect predictor. -/
theorem run_eq_unpoisoned (p : BPredParams) (s : Session P I N) (es : List (Event PC))
    (hes : ∀ e ∈ es, DrawBelow p e) : Lib.run (step p) s es = Lib.run (stepUnpoisoned p) s es := by
  induction es generalizing s with
  | nil => rfl
  | cons e es ih =>
    rw [Lib.run_cons, step_eq_unpoisoned p s (hes e List.mem_cons_self)]
    congr 1
    funext s'
    exact ih s' fun e he => hes e (List.mem_cons_of_mem _ he)

instance DrawBelow.decidable (p : BPredParams) : ∀ e : Event PC, Decidable (DrawBelow p e)
  | .predict _ _ _ _ _ => inferInstanceAs (Decidable (_ ∨ _))
  | .update _ _ => isTrue trivial
  | .squash _ _ => isTrue trivial
  | .squashMispredicted _ _ _ _ => isTrue trivial

/-- A branch at `0x100` is predicted not taken, corrected to taken and committed. Then it is
predicted again, with the given draw. -/
def branchTwice (draw : Fin 101) : List (Event FlatPC) :=
  [.predict condBranch 1 ⟨0x100⟩ 0 0, .squashMispredicted 1 ⟨0x200⟩ true 0, .update 1 0,
    .predict condBranch 2 ⟨0x100⟩ 0 draw]

/-- With draws of at most 99, the default unit predicts as without the poison lines. -/
theorem run_eq_unpoisoned_branchTwice :
    Lib.run (step smallUnit) small (branchTwice 99)
      = Lib.run (stepUnpoisoned smallUnit) small (branchTwice 99) :=
  run_eq_unpoisoned smallUnit small (branchTwice 99) (by decide +kernel)

/-- A draw of 100 inverts the direction although `predictPoison` is 100: the second branch is
predicted taken, and without the poison lines it is not. -/
theorem poison_at_default :
    smallUnit.predictPoison = 100 ∧ smallUnit.branchPredEn = true ∧
      (Lib.run (step smallUnit) small (branchTwice 100)).map predictions
        = some [(true, ⟨0x200⟩), (false, ⟨0x104⟩)] ∧
      (Lib.run (stepUnpoisoned smallUnit) small (branchTwice 100)).map predictions
        = some [(false, ⟨0x104⟩), (false, ⟨0x104⟩)] := by
  refine ⟨rfl, rfl, ?_, ?_⟩ <;> decide +kernel

end Session

end Gem5.Pred
