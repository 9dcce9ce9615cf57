import Gem5.Pred.BPredUnit
import Gem5.Pred.SatCounter

/-!
# `Gem5.Pred.BiMode`: the bi-mode predictor

`BiModeBP` of `cpu/pred/bi_mode.cc`. The global history register is kept as in the
tournament predictor, with one difference: `update` with `squashed` set does not mask the
register that it rebuilds.
-/

namespace Gem5.Pred

open MyMinor (Addr ThreadID)

/-- The parameters of `BiModeBP`. -/
structure BiModeParams where
  globalPredictorSize : Nat
  globalCtrBits : Nat
  choicePredictorSize : Nat
  choiceCtrBits : Nat
  instShiftAmt : Nat
  isTableSize_global : IsTableSize globalPredictorSize
  isTableSize_choice : IsTableSize choicePredictorSize

namespace BiModeParams

variable (p : BiModeParams)

/-- `globalHistoryBits`. -/
def globalHistoryBits : Nat := ceilLog2 p.globalPredictorSize

/-- `historyRegisterMask`. -/
def historyRegisterMask : Unsigned := mask p.globalHistoryBits

/-- `choiceHistoryIdx`. -/
def choiceHistoryIdx (branchAddr : Addr) : Unsigned :=
  BitVec.ofNat 32 ((branchAddr >>> p.instShiftAmt) &&& (p.choicePredictorSize - 1))

/-- `globalHistoryIdx`, for a value of the history register. -/
def globalHistoryIdx (branchAddr : Addr) (history : Unsigned) : Unsigned :=
  (BitVec.ofNat 32 (branchAddr >>> p.instShiftAmt) ^^^ history)
    &&& BitVec.ofNat 32 (p.globalPredictorSize - 1)

end BiModeParams

/-- The state of `BiModeBP`. -/
structure BiModeBP where
  globalHistoryReg : ThreadID → Unsigned
  choiceCounters : Unsigned → SatCounter8
  takenCounters : Unsigned → SatCounter8
  notTakenCounters : Unsigned → SatCounter8

namespace BiModeBP

/-- `BiModeBP::BPHistory`. -/
structure BPHistory where
  globalHistoryReg : Unsigned
  takenUsed : Bool
  takenPred : Bool
  notTakenPred : Bool
  finalPred : Bool

/-- The constructor. -/
def new (p : BiModeParams) : BiModeBP :=
  { globalHistoryReg := fun _ => 0#32
    choiceCounters := fun _ => SatCounter8.new p.choiceCtrBits
    takenCounters := fun _ => SatCounter8.new p.globalCtrBits
    notTakenCounters := fun _ => SatCounter8.new p.globalCtrBits }

variable (p : BiModeParams) (t : BiModeBP) (tid : ThreadID)

/-- `BiModeBP::updateGlobalHistReg`. -/
def updateGlobalHistReg (taken : Bool) : BiModeBP :=
  { t with
    globalHistoryReg := Function.update t.globalHistoryReg tid
      (shiftIn (t.globalHistoryReg tid) taken &&& p.historyRegisterMask) }

/-- `BiModeBP::uncondBranch`. -/
def uncondBranch : BPHistory × BiModeBP :=
  ({ globalHistoryReg := t.globalHistoryReg tid
     takenUsed := true
     takenPred := true
     notTakenPred := true
     finalPred := true },
    t.updateGlobalHistReg p tid true)

/-- `BiModeBP::lookup`. -/
def lookup (branchAddr : Addr) : Bool × BPHistory × BiModeBP :=
  let choiceHistoryIdx := p.choiceHistoryIdx branchAddr
  let globalHistoryIdx := p.globalHistoryIdx branchAddr (t.globalHistoryReg tid)
  let choicePrediction :=
    decide (2 ^ (p.choiceCtrBits - 1) - 1 < (t.choiceCounters choiceHistoryIdx).counter)
  let takenGHBPrediction :=
    decide (2 ^ (p.globalCtrBits - 1) - 1 < (t.takenCounters globalHistoryIdx).counter)
  let notTakenGHBPrediction :=
    decide (2 ^ (p.globalCtrBits - 1) - 1 < (t.notTakenCounters globalHistoryIdx).counter)
  let finalPrediction := if choicePrediction then takenGHBPrediction else notTakenGHBPrediction
  let history : BPHistory :=
    { globalHistoryReg := t.globalHistoryReg tid
      takenUsed := choicePrediction
      takenPred := takenGHBPrediction
      notTakenPred := notTakenGHBPrediction
      finalPred := finalPrediction }
  (finalPrediction, history, t.updateGlobalHistReg p tid finalPrediction)

/-- `BiModeBP::btbUpdate`. -/
def btbUpdate : BiModeBP :=
  { t with
    globalHistoryReg := Function.update t.globalHistoryReg tid
      (t.globalHistoryReg tid &&& (p.historyRegisterMask &&& ~~~1#32)) }

/-- The counters that `BiModeBP::update` trains when the branch commits. -/
def train (p : BiModeParams) (t : BiModeBP) (branchAddr : Addr) (taken : Bool)
    (history : BPHistory) : BiModeBP :=
  let choiceHistoryIdx := p.choiceHistoryIdx branchAddr
  let globalHistoryIdx := p.globalHistoryIdx branchAddr history.globalHistoryReg
  { t with
    takenCounters :=
      if history.takenUsed then
        Function.update t.takenCounters globalHistoryIdx
          ((t.takenCounters globalHistoryIdx).train taken)
      else t.takenCounters
    notTakenCounters :=
      if history.takenUsed then t.notTakenCounters
      else
        Function.update t.notTakenCounters globalHistoryIdx
          ((t.notTakenCounters globalHistoryIdx).train taken)
    choiceCounters :=
      -- A right final prediction trains the choice only if the choice agrees with it.
      if history.finalPred != taken || history.finalPred == history.takenUsed then
        Function.update t.choiceCounters choiceHistoryIdx
          ((t.choiceCounters choiceHistoryIdx).train taken)
      else t.choiceCounters }

/-- `BiModeBP::update`. -/
def update (p : BiModeParams) (t : BiModeBP) (tid : ThreadID) (branchAddr : Addr)
    (taken : Bool) (history : BPHistory) (squashed : Bool) : BiModeBP :=
  if squashed then
    { t with
      globalHistoryReg := Function.update t.globalHistoryReg tid
        (shiftIn history.globalHistoryReg taken) }
  else t.train p branchAddr taken history

/-- `BiModeBP::squash`. -/
def squash (history : BPHistory) : BiModeBP :=
  { t with
    globalHistoryReg := Function.update t.globalHistoryReg tid history.globalHistoryReg }

/-- `BiModeBP` as a direction predictor. -/
def predictor (PC : Type) (p : BiModeParams) : DirectionPredictor PC :=
  { State := BiModeBP
    History := BPHistory
    lookup := fun t tid branchAddr => t.lookup p tid branchAddr
    uncondBranch := fun t tid _ => t.uncondBranch p tid
    btbUpdate := fun t tid _ history => (history, t.btbUpdate p tid)
    update := fun t tid branchAddr taken history squashed _ _ =>
      (history, t.update p tid branchAddr taken history squashed)
    squash := fun t tid history => t.squash tid history }

end BiModeBP

end Gem5.Pred
