import Gem5.Pred.BPredUnit
import Gem5.Pred.SatCounter

/-!
# `Gem5.Pred.Tournament`: the tournament predictor

`TournamentBP` of `cpu/pred/tournament.cc`. `lookup` and `uncondBranch` shift the predicted
direction into the global history register of the thread at once, and keep the register
from before in the history of the branch. `squash` puts it back. `update` with `squashed`
set rebuilds the register with the right direction, and otherwise trains the counters only.
-/

namespace Gem5.Pred

open MyMinor (Addr ThreadID)

/-- The parameters of `TournamentBP`. The constructor stops on a size that is not a power of
two. -/
structure TournamentParams where
  localPredictorSize : Nat
  localCtrBits : Nat
  localHistoryTableSize : Nat
  globalPredictorSize : Nat
  globalCtrBits : Nat
  choicePredictorSize : Nat
  choiceCtrBits : Nat
  instShiftAmt : Nat
  isTableSize_local : IsTableSize localPredictorSize
  isTableSize_localHistory : IsTableSize localHistoryTableSize
  isTableSize_global : IsTableSize globalPredictorSize
  isTableSize_choice : IsTableSize choicePredictorSize

namespace TournamentParams

variable (p : TournamentParams)

/-- `globalHistoryBits`. -/
def globalHistoryBits : Nat :=
  if ceilLog2 p.globalPredictorSize > ceilLog2 p.choicePredictorSize then
    ceilLog2 p.globalPredictorSize
  else ceilLog2 p.choicePredictorSize

/-- `historyRegisterMask`. -/
def historyRegisterMask : Unsigned := mask p.globalHistoryBits

/-- `localPredictorMask`. -/
def localPredictorMask : Unsigned :=
  mask (ceilLog2 p.localPredictorSize)

/-- `globalHistoryMask`. -/
def globalHistoryMask : Unsigned :=
  BitVec.ofNat 32 (p.globalPredictorSize - 1)

/-- `choiceHistoryMask`. -/
def choiceHistoryMask : Unsigned :=
  BitVec.ofNat 32 (p.choicePredictorSize - 1)

/-- `TournamentBP::calcLocHistIdx`. -/
def calcLocHistIdx (branchAddr : Addr) : Unsigned :=
  BitVec.ofNat 32 ((branchAddr >>> p.instShiftAmt) &&& (p.localHistoryTableSize - 1))

end TournamentParams

/-- The state of `TournamentBP`. -/
structure TournamentBP where
  localCtrs : Unsigned → SatCounter8
  localHistoryTable : Unsigned → Unsigned
  globalCtrs : Unsigned → SatCounter8
  globalHistory : ThreadID → Unsigned
  choiceCtrs : Unsigned → SatCounter8

namespace TournamentBP

/-- `TournamentBP::BPHistory`. -/
structure BPHistory where
  globalHistory : Unsigned
  localHistoryIdx : Unsigned
  localHistory : Unsigned
  localPredTaken : Bool
  globalPredTaken : Bool
  globalUsed : Bool

/-- `invalidPredictorIndex`, converted to `unsigned`. -/
def invalidPredictorIndex : Unsigned := BitVec.allOnes 32

/-- The constructor. -/
def new (p : TournamentParams) : TournamentBP :=
  { localCtrs := fun _ => SatCounter8.new p.localCtrBits
    localHistoryTable := fun _ => 0#32
    globalCtrs := fun _ => SatCounter8.new p.globalCtrBits
    globalHistory := fun _ => 0#32
    choiceCtrs := fun _ => SatCounter8.new p.choiceCtrBits }

variable (p : TournamentParams) (t : TournamentBP) (tid : ThreadID)

/-- `updateGlobalHistTaken` and `updateGlobalHistNotTaken`. -/
def updateGlobalHist (taken : Bool) : TournamentBP :=
  { t with
    globalHistory := Function.update t.globalHistory tid
      (shiftIn (t.globalHistory tid) taken &&& p.historyRegisterMask) }

/-- `updateLocalHistTaken` and `updateLocalHistNotTaken`. -/
def updateLocalHist (localHistoryIdx : Unsigned) (taken : Bool) : TournamentBP :=
  { t with
    localHistoryTable := Function.update t.localHistoryTable localHistoryIdx
      (shiftIn (t.localHistoryTable localHistoryIdx) taken) }

/-- `TournamentBP::btbUpdate`. -/
def btbUpdate (branchAddr : Addr) : TournamentBP :=
  let localHistoryIdx := p.calcLocHistIdx branchAddr
  { t with
    globalHistory := Function.update t.globalHistory tid
      (t.globalHistory tid &&& (p.historyRegisterMask &&& ~~~1#32))
    localHistoryTable := Function.update t.localHistoryTable localHistoryIdx
      (t.localHistoryTable localHistoryIdx &&& (p.localPredictorMask &&& ~~~1#32)) }

/-- `TournamentBP::lookup`. -/
def lookup (branchAddr : Addr) : Bool × BPHistory × TournamentBP :=
  let localHistoryIdx := p.calcLocHistIdx branchAddr
  let localPredictorIdx := t.localHistoryTable localHistoryIdx &&& p.localPredictorMask
  let localPrediction :=
    decide (2 ^ (p.localCtrBits - 1) - 1 < (t.localCtrs localPredictorIdx).counter)
  let globalPrediction :=
    decide (2 ^ (p.globalCtrBits - 1) - 1 <
      (t.globalCtrs (t.globalHistory tid &&& p.globalHistoryMask)).counter)
  let choicePrediction :=
    decide (2 ^ (p.choiceCtrBits - 1) - 1 <
      (t.choiceCtrs (t.globalHistory tid &&& p.choiceHistoryMask)).counter)
  let history : BPHistory :=
    { globalHistory := t.globalHistory tid
      localHistoryIdx := localHistoryIdx
      localHistory := localPredictorIdx
      localPredTaken := localPrediction
      globalPredTaken := globalPrediction
      globalUsed := choicePrediction }
  let taken := if choicePrediction then globalPrediction else localPrediction
  (taken, history, (t.updateGlobalHist p tid taken).updateLocalHist localHistoryIdx taken)

/-- `TournamentBP::uncondBranch`. -/
def uncondBranch : BPHistory × TournamentBP :=
  ({ globalHistory := t.globalHistory tid
     localHistoryIdx := invalidPredictorIndex
     localHistory := invalidPredictorIndex
     localPredTaken := true
     globalPredTaken := true
     globalUsed := true },
    t.updateGlobalHist p tid true)

/-- The counters that `TournamentBP::update` trains when the branch commits. -/
def train (p : TournamentParams) (t : TournamentBP) (taken : Bool) (history : BPHistory) :
    TournamentBP :=
  let oldLocalPredValid := history.localHistory != invalidPredictorIndex
  let oldLocalPredIndex := history.localHistory &&& p.localPredictorMask
  let choicePredictorIdx := history.globalHistory &&& p.choiceHistoryMask
  let globalPredictorIdx := history.globalHistory &&& p.globalHistoryMask
  { t with
    choiceCtrs :=
      if history.localPredTaken != history.globalPredTaken && oldLocalPredValid then
        Function.update t.choiceCtrs choicePredictorIdx
          ((t.choiceCtrs choicePredictorIdx).train (history.localPredTaken != taken))
      else t.choiceCtrs
    globalCtrs := Function.update t.globalCtrs globalPredictorIdx
      ((t.globalCtrs globalPredictorIdx).train taken)
    localCtrs :=
      if oldLocalPredValid then
        Function.update t.localCtrs oldLocalPredIndex
          ((t.localCtrs oldLocalPredIndex).train taken)
      else t.localCtrs }

/-- `TournamentBP::update`. -/
def update (p : TournamentParams) (t : TournamentBP) (tid : ThreadID) (branchAddr : Addr)
    (taken : Bool) (history : BPHistory) (squashed : Bool) : TournamentBP :=
  if squashed then
    { t with
      globalHistory := Function.update t.globalHistory tid
        (shiftIn history.globalHistory taken &&& p.historyRegisterMask)
      localHistoryTable :=
        if history.localHistory != invalidPredictorIndex then
          Function.update t.localHistoryTable (p.calcLocHistIdx branchAddr)
            (shiftIn history.localHistory taken)
        else t.localHistoryTable }
  else t.train p taken history

/-- `TournamentBP::squash`. -/
def squash (history : BPHistory) : TournamentBP :=
  { t with
    globalHistory := Function.update t.globalHistory tid history.globalHistory
    localHistoryTable :=
      if history.localHistoryIdx != invalidPredictorIndex then
        Function.update t.localHistoryTable history.localHistoryIdx history.localHistory
      else t.localHistoryTable }

/-- `TournamentBP` as a direction predictor. -/
def predictor (PC : Type) (p : TournamentParams) : DirectionPredictor PC :=
  { State := TournamentBP
    History := BPHistory
    lookup := fun t tid branchAddr => t.lookup p tid branchAddr
    uncondBranch := fun t tid _ => t.uncondBranch p tid
    btbUpdate := fun t tid branchAddr history => (history, t.btbUpdate p tid branchAddr)
    update := fun t tid branchAddr taken history squashed _ _ =>
      (history, t.update p tid branchAddr taken history squashed)
    squash := fun t tid history => t.squash tid history }

end TournamentBP

end Gem5.Pred
