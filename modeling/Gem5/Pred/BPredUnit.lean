import Gem5.Lib.Run
import Gem5.Pred.BTB
import Gem5.Pred.RAS

/-!
# `Gem5.Pred.BPredUnit`: the branch prediction unit

`BPredUnit` of `cpu/pred/bpred_unit.cc`. The direction predictor and the indirect predictor
are subclasses that the unit calls through virtual methods. `DirectionPredictor` and
`IndirectPredictor` are these interfaces, and the unit is generic in both. A method that
receives a history by pointer can write it, so it returns the history.

`predict` draws a random number for each conditional branch and can invert the direction.
`predictUnpoisoned` is `predict` without these lines. Both are `predictWith`, which takes
what happens to the direction that `lookup` returned.

`Session` is the unit with what a caller sees: the predictions returned so far. It also
counts the calls pushed on each return address stack.
-/

namespace Gem5.Pred

open Function

open MyMinor (Addr ThreadID InstSeqNum)

/-- `PCStateBase`, as far as the unit reads it. -/
class PCStateBase (PC : Type) where
  instAddr : PC → Addr

export PCStateBase (instAddr)

/-- `StaticInst`, as far as the unit reads it. `advancePC` and `buildRetPC` belong to the
instruction set. -/
structure StaticInst (PC : Type) where
  isUncondCtrl : Bool
  isDirectCtrl : Bool
  isCall : Bool
  isReturn : Bool
  advancePC : PC → PC
  buildRetPC : PC → PC → PC

/-- The virtual methods of `BPredUnit`: a direction predictor. -/
structure DirectionPredictor (PC : Type) where
  State : Type
  History : Type
  lookup : State → ThreadID → Addr → Bool × History × State
  uncondBranch : State → ThreadID → Addr → History × State
  btbUpdate : State → ThreadID → Addr → History → History × State
  update : State → ThreadID → Addr → Bool → History → Bool → StaticInst PC → Addr →
    History × State
  squash : State → ThreadID → History → State

/-- `IndirectPredictor`. `null` is the null history pointer. -/
structure IndirectPredictor (PC : Type) where
  State : Type
  History : Type
  null : History
  lookup : State → Addr → PC → ThreadID → Bool × PC × State
  recordIndirect : State → Addr → Addr → InstSeqNum → ThreadID → State
  commit : State → InstSeqNum → ThreadID → History → State
  squash : State → InstSeqNum → ThreadID → State
  recordTarget : State → InstSeqNum → History → PC → ThreadID → History × State
  genIndirectInfo : State → ThreadID → History × State
  updateDirectionInfo : State → ThreadID → Bool → State
  deleteIndirectInfo : State → ThreadID → History → State
  changeDirectionPrediction : State → ThreadID → History → Bool → History × State

/-- The parameters of the unit. `hasIPred` says whether `iPred` is not null. -/
structure BPredParams where
  numThreads : Nat
  BTBEntries : Nat
  BTBTagSize : Nat
  instShiftAmt : Nat
  predictPoison : Int
  branchPredEn : Bool
  hasIPred : Bool

/-- `MaxAddr`. -/
def maxAddr : Addr := 2 ^ 64 - 1

section
variable {PC : Type} [PCStateBase PC] (P : DirectionPredictor PC) (I : IndirectPredictor PC)
  (N : Nat)

/-- `BPredUnit::PredictorHistory`. -/
structure PredictorHistory [NeZero N] where
  seqNum : InstSeqNum
  pc : Addr
  bpHistory : P.History
  indirectHistory : I.History
  RASTarget : Option PC := none
  RASIndex : Fin N := 0
  tid : ThreadID
  predTaken : Bool
  usedRAS : Bool := false
  pushedRAS : Bool := false
  wasCall : Bool := false
  wasReturn : Bool := false
  wasIndirect : Bool := false
  target : Addr := maxAddr
  inst : StaticInst PC

/-- `BPredUnit`. `RAS` has `N` entries for each thread. The front of a history is the head
of its list. -/
structure BPredUnit [NeZero N] where
  bp : P.State
  iPred : I.State
  BTB : DefaultBTB PC
  RAS : ThreadID → ReturnAddrStack PC N
  predHist : ThreadID → List (PredictorHistory P I N)

end

variable (p : BPredParams)

/-- `(uint8_t) predictPoison`. -/
def BPredParams.poisonThreshold : Nat := (p.predictPoison % 256).toNat

/-- The poison lines of `predict`: the direction that `lookup` returned is inverted when the
draw, between 0 and 100, reaches the threshold. -/
def BPredParams.poison (branchPoisonRng : Fin 101) (predTaken : Bool) : Bool :=
  let oppositeEffect := decide (p.poisonThreshold ≤ branchPoisonRng.val)
  if oppositeEffect then !predTaken else predTaken

/-- The next line of `predict`: a disabled predictor predicts not taken. -/
def BPredParams.enable (predTaken : Bool) : Bool :=
  if p.branchPredEn == false then false else predTaken

namespace BPredUnit

variable {PC : Type} [PCStateBase PC] {P : DirectionPredictor PC} {I : IndirectPredictor PC}
  {N : Nat} [NeZero N]

/-- The unit after construction, given the two predictors after construction. -/
def new (p : BPredParams) (bp : P.State) (iPred : I.State) : BPredUnit P I N :=
  { bp := bp
    iPred := iPred
    BTB := DefaultBTB.new p.BTBEntries p.BTBTagSize p.instShiftAmt p.numThreads
    RAS := fun _ => ReturnAddrStack.init
    predHist := fun _ => [] }

variable (u : BPredUnit P I N)

/-- Assignment to `RAS[tid]`. -/
def setRAS (tid : ThreadID) (ras : ReturnAddrStack PC N) : BPredUnit P I N :=
  { u with RAS := update u.RAS tid ras }

/-- Assignment to `predHist[tid]`. -/
def setHist (tid : ThreadID) (hist : List (PredictorHistory P I N)) : BPredUnit P I N :=
  { u with predHist := update u.predHist tid hist }

/-- What `predict` has worked out when it reaches `predict_record.target = ...`. -/
structure Choice (P : DirectionPredictor PC) (I : IndirectPredictor PC) (N : Nat)
    [NeZero N] where
  predTaken : Bool
  target : PC
  record : PredictorHistory P I N
  unit : BPredUnit P I N

variable (inst : StaticInst PC) (pc : PC)

/-- The branch of `predict` for a return that is predicted taken. -/
def predictReturn (tid : ThreadID) (record : PredictorHistory P I N) : Choice P I N :=
  let ras := u.RAS tid
  { predTaken := true
    target :=
      match ras.top with
      | some rasTop => inst.buildRetPC pc rasTop
      | none => pc
    record :=
      { record with
        wasReturn := true
        usedRAS := true
        RASIndex := ras.topIdx
        RASTarget := ras.top }
    unit := u.setRAS tid ras.pop }

/-- A call that is predicted taken pushes its PC. -/
def pushCall (tid : ThreadID) (record : PredictorHistory P I N) :
    PredictorHistory P I N × BPredUnit P I N :=
  if inst.isCall then
    ({ record with pushedRAS := true, wasCall := true },
      u.setRAS tid ((u.RAS tid).push pc))
  else (record, u)

/-- The lines after a miss of the BTB or of the indirect predictor that take back the push
of a conditional call. -/
def dropCall (tid : ThreadID) (record : PredictorHistory P I N) :
    PredictorHistory P I N × BPredUnit P I N :=
  if inst.isCall && !inst.isUncondCtrl then
    ({ record with pushedRAS := false }, u.setRAS tid (u.RAS tid).pop)
  else (record, u)

/-- The lookup of a direct target in the BTB. -/
def predictDirect (tid : ThreadID) (record : PredictorHistory P I N) : Choice P I N :=
  if u.BTB.valid (instAddr pc) tid then
    { predTaken := true
      target := (u.BTB.lookup (instAddr pc) tid).getD pc
      record := record
      unit := u }
  else
    let record := { record with predTaken := false }
    let (record, u) :=
      if !inst.isCall && !inst.isReturn then
        let (bpHistory, bp) := P.btbUpdate u.bp tid (instAddr pc) record.bpHistory
        ({ record with bpHistory := bpHistory }, { u with bp := bp })
      else u.dropCall inst tid record
    { predTaken := false, target := inst.advancePC pc, record := record, unit := u }

/-- The lookup of an indirect target in `iPred`. -/
def predictIndirect (seqNum : InstSeqNum) (pc : PC) (tid : ThreadID)
    (record : PredictorHistory P I N) : Choice P I N :=
  let record := { record with wasIndirect := true }
  let (hit, target, iPred) := I.lookup u.iPred (instAddr pc) pc tid
  let u := { u with iPred := iPred }
  let choice : Choice P I N :=
    if hit then { predTaken := true, target := target, record := record, unit := u }
    else
      let (record, u) := u.dropCall inst tid { record with predTaken := false }
      { predTaken := false, target := inst.advancePC target, record := record, unit := u }
  { choice with
    unit :=
      { choice.unit with
        iPred := I.recordIndirect choice.unit.iPred (instAddr pc) (instAddr choice.target)
          seqNum tid } }

variable (p : BPredParams)

/-- The part of `predict` that looks up the target of a branch predicted taken, and the
`else` branch for one predicted not taken. -/
def chooseTarget (u : BPredUnit P I N) (inst : StaticInst PC) (seqNum : InstSeqNum) (pc : PC)
    (tid : ThreadID) (record : PredictorHistory P I N) : Choice P I N :=
  if record.predTaken then
    if inst.isReturn then u.predictReturn inst pc tid record
    else
      let (record, u) := u.pushCall inst pc tid record
      if inst.isDirectCtrl || !p.hasIPred then u.predictDirect inst pc tid record
      else u.predictIndirect inst seqNum pc tid record
  else
    { predTaken := false
      target := inst.advancePC pc
      record := { record with wasReturn := inst.isReturn }
      unit := u }

/-- The direction of a branch: taken for an unconditional one, and the answer of `lookup`
after `adjust` for a conditional one. -/
def direction (tid : ThreadID) (adjust : Bool → Bool) : Bool × P.History × P.State :=
  if inst.isUncondCtrl then (true, P.uncondBranch u.bp tid (instAddr pc))
  else
    let (predTaken, bpHistory, bp) := P.lookup u.bp tid (instAddr pc)
    (adjust predTaken, bpHistory, bp)

/-- The end of `predict`: the record goes to the front of the history. -/
def finishPredict (tid : ThreadID) (origPredTaken : Bool) (choice : Choice P I N) :
    Bool × PC × BPredUnit P I N :=
  let u := choice.unit
  let record := { choice.record with target := instAddr choice.target }
  let u :=
    { u with
      iPred :=
        if p.hasIPred then I.updateDirectionInfo u.iPred tid origPredTaken else u.iPred }
  (choice.predTaken, choice.target, u.setHist tid (record :: u.predHist tid))

/-- `BPredUnit::predict` after the direction is known. -/
def predictFrom (u : BPredUnit P I N) (inst : StaticInst PC) (seqNum : InstSeqNum) (pc : PC)
    (tid : ThreadID) (predTaken : Bool) (bpHistory : P.History) : Bool × PC × BPredUnit P I N :=
  let (indirectHistory, iPred) :=
    if p.hasIPred then I.genIndirectInfo u.iPred tid else (I.null, u.iPred)
  let record : PredictorHistory P I N :=
    { seqNum := seqNum
      pc := instAddr pc
      bpHistory := bpHistory
      indirectHistory := indirectHistory
      tid := tid
      predTaken := predTaken
      inst := inst }
  finishPredict p tid predTaken
    (chooseTarget p { u with iPred := iPred } inst seqNum pc tid record)

/-- `BPredUnit::predict`, given what happens to the direction of a conditional branch
between `lookup` and the target lookup. -/
def predictWith (adjust : Bool → Bool) (u : BPredUnit P I N) (inst : StaticInst PC)
    (seqNum : InstSeqNum) (pc : PC) (tid : ThreadID) : Bool × PC × BPredUnit P I N :=
  let (predTaken, bpHistory, bp) := u.direction inst pc tid adjust
  predictFrom p { u with bp := bp } inst seqNum pc tid predTaken bpHistory

/-- `BPredUnit::predict`. The results are the return value, the PC after the call and the
unit. -/
def predict (u : BPredUnit P I N) (inst : StaticInst PC) (seqNum : InstSeqNum) (pc : PC)
    (tid : ThreadID) (branchPoisonRng : Fin 101) : Bool × PC × BPredUnit P I N :=
  predictWith p (fun predTaken => p.enable (p.poison branchPoisonRng predTaken)) u inst
    seqNum pc tid

/-- `predict` with the poison lines removed: the reference. -/
def predictUnpoisoned (u : BPredUnit P I N) (inst : StaticInst PC) (seqNum : InstSeqNum) (pc : PC)
    (tid : ThreadID) : Bool × PC × BPredUnit P I N :=
  predictWith p p.enable u inst seqNum pc tid

/-- One round of the loop of `BPredUnit::update`. -/
def commitRecord (u : BPredUnit P I N) (doneSn : InstSeqNum) (tid : ThreadID)
    (r : PredictorHistory P I N) : BPredUnit P I N :=
  { u with
    bp := (P.update u.bp tid r.pc r.predTaken r.bpHistory false r.inst r.target).2
    iPred := if p.hasIPred then I.commit u.iPred doneSn tid r.indirectHistory else u.iPred }

/-- The loop of `BPredUnit::update`, from the back of the history: the unit and the records
that stay, oldest first. -/
def commitFrom (p : BPredParams) (doneSn : InstSeqNum) (tid : ThreadID) :
    BPredUnit P I N → List (PredictorHistory P I N) →
      BPredUnit P I N × List (PredictorHistory P I N)
  | u, [] => (u, [])
  | u, r :: rs =>
    if r.seqNum ≤ doneSn then commitFrom p doneSn tid (u.commitRecord p doneSn tid r) rs
    else (u, r :: rs)

/-- The records that `update` commits, oldest first. -/
def committed (doneSn : InstSeqNum) (hist : List (PredictorHistory P I N)) :
    List (PredictorHistory P I N) :=
  hist.reverse.takeWhile fun r => decide (r.seqNum ≤ doneSn)

/-- `BPredUnit::update(done_sn, tid)`. -/
def update (u : BPredUnit P I N) (doneSn : InstSeqNum) (tid : ThreadID) : BPredUnit P I N :=
  let (u, rest) := commitFrom p doneSn tid u (u.predHist tid).reverse
  u.setHist tid rest.reverse

variable (ras : ReturnAddrStack PC N)

/-- What a squash does to the return address stack for one record. -/
def undoRAS (r : PredictorHistory P I N) : ReturnAddrStack PC N :=
  if r.usedRAS then ras.restore r.RASIndex r.RASTarget
  else if r.wasCall && r.pushedRAS then ras.pop
  else ras

/-- One round of the loop of `BPredUnit::squash`. -/
def squashRecord (u : BPredUnit P I N) (tid : ThreadID) (r : PredictorHistory P I N) :
    BPredUnit P I N :=
  let u := u.setRAS tid (undoRAS (u.RAS tid) r)
  { u with
    bp := P.squash u.bp tid r.bpHistory
    iPred := if p.hasIPred then I.deleteIndirectInfo u.iPred tid r.indirectHistory
      else u.iPred }

/-- The loop of `BPredUnit::squash`, from the front of the history. -/
def squashFrom (p : BPredParams) (squashedSn : InstSeqNum) (tid : ThreadID) :
    BPredUnit P I N → List (PredictorHistory P I N) →
      BPredUnit P I N × List (PredictorHistory P I N)
  | u, [] => (u, [])
  | u, r :: rs =>
    if squashedSn < r.seqNum then squashFrom p squashedSn tid (u.squashRecord p tid r) rs
    else (u, r :: rs)

/-- `BPredUnit::squash(squashed_sn, tid)`. -/
def squash (p : BPredParams) (u : BPredUnit P I N) (squashedSn : InstSeqNum)
    (tid : ThreadID) : BPredUnit P I N :=
  let u :=
    if p.hasIPred then { u with iPred := I.squash u.iPred squashedSn tid } else u
  let (u, rest) := squashFrom p squashedSn tid u (u.predHist tid)
  u.setHist tid rest

/-- What a correction does to the return address stack and to the record of the branch. -/
def correctRAS (actuallyTaken : Bool) (r : PredictorHistory P I N) :
    ReturnAddrStack PC N × PredictorHistory P I N :=
  if actuallyTaken then
    if r.wasReturn && !r.usedRAS then (ras.pop, { r with usedRAS := true }) else (ras, r)
  else if r.usedRAS then (ras.restore r.RASIndex r.RASTarget, { r with usedRAS := false })
  else if r.wasCall && r.pushedRAS then (ras.pop, { r with pushedRAS := false })
  else (ras, r)

/-- What a correction does to the record at the front of the history. -/
def correctRecord (u : BPredUnit P I N) (corrTarget : PC) (actuallyTaken : Bool) (tid : ThreadID)
    (r : PredictorHistory P I N) : PredictorHistory P I N × BPredUnit P I N :=
  let r := { r with predTaken := actuallyTaken, target := instAddr corrTarget }
  let (bpHistory, bp) :=
    P.update u.bp tid r.pc actuallyTaken r.bpHistory true r.inst (instAddr corrTarget)
  let r := { r with bpHistory := bpHistory }
  let (indirectHistory, iPred) :=
    if p.hasIPred then I.changeDirectionPrediction u.iPred tid r.indirectHistory actuallyTaken
    else (r.indirectHistory, u.iPred)
  let r := { r with indirectHistory := indirectHistory }
  let (ras, r) := correctRAS (u.RAS tid) actuallyTaken r
  let u := { u with bp := bp, iPred := iPred }.setRAS tid ras
  if actuallyTaken then
    if r.wasIndirect then
      if p.hasIPred then
        let (indirectHistory, iPred) :=
          I.recordTarget u.iPred r.seqNum r.indirectHistory corrTarget tid
        ({ r with indirectHistory := indirectHistory }, { u with iPred := iPred })
      else (r, u)
    else (r, { u with BTB := u.BTB.update r.pc corrTarget tid })
  else (r, u)

/-- `BPredUnit::squash(squashed_sn, corr_target, actually_taken, tid)`. The source asserts
that the record at the front is the one of the corrected branch. -/
def squashMispredicted (u : BPredUnit P I N) (squashedSn : InstSeqNum) (corrTarget : PC)
    (actuallyTaken : Bool) (tid : ThreadID) : Option (BPredUnit P I N) :=
  let u := u.squash p squashedSn tid
  match u.predHist tid with
  | [] => some u
  | r :: rs =>
    if r.seqNum = squashedSn then
      let (r, u) := u.correctRecord p corrTarget actuallyTaken tid r
      some (u.setHist tid (r :: rs))
    else none

end BPredUnit

/-- A call of the unit. The draw of `predict` is part of the event. -/
inductive Event (PC : Type) where
  | predict (inst : StaticInst PC) (seqNum : InstSeqNum) (pc : PC) (tid : ThreadID)
      (branchPoisonRng : Fin 101)
  | update (doneSn : InstSeqNum) (tid : ThreadID)
  | squash (squashedSn : InstSeqNum) (tid : ThreadID)
  | squashMispredicted (squashedSn : InstSeqNum) (corrTarget : PC) (actuallyTaken : Bool)
      (tid : ThreadID)

/-- The unit, the predictions it returned, newest first, and how many calls `predict` has
pushed on the return address stack of each thread. -/
structure Session {PC : Type} (P : DirectionPredictor PC) (I : IndirectPredictor PC)
    (N : Nat) [NeZero N] where
  unit : BPredUnit P I N
  predictions : List (Bool × PC)
  pushes : ThreadID → Nat

namespace Session

variable {PC : Type} [PCStateBase PC] {P : DirectionPredictor PC} {I : IndirectPredictor PC}
  {N : Nat} [NeZero N]

/-- The session after construction. -/
def new (p : BPredParams) (bp : P.State) (iPred : I.State) : Session P I N :=
  { unit := BPredUnit.new p bp iPred, predictions := [], pushes := fun _ => 0 }

/-- `predict` pushes when it predicts a call taken before the target lookup. -/
def pushesCall (u : BPredUnit P I N) (inst : StaticInst PC) (pc : PC) (tid : ThreadID)
    (adjust : Bool → Bool) : Bool :=
  (u.direction inst pc tid adjust).1 && !inst.isReturn && inst.isCall

/-- One call, given `predict` for each draw, and what it does to the direction of a conditional
branch. -/
def stepWith (p : BPredParams)
    (predict : Fin 101 → BPredUnit P I N → StaticInst PC → InstSeqNum → PC → ThreadID →
      Bool × PC × BPredUnit P I N)
    (adjust : Fin 101 → Bool → Bool) (s : Session P I N) : Event PC → Option (Session P I N)
  | .predict inst seqNum pc tid branchPoisonRng =>
    let (predTaken, target, unit) := predict branchPoisonRng s.unit inst seqNum pc tid
    some
      { unit := unit
        predictions := (predTaken, target) :: s.predictions
        pushes :=
          if pushesCall s.unit inst pc tid (adjust branchPoisonRng) then
            update s.pushes tid (s.pushes tid + 1)
          else s.pushes }
  | .update doneSn tid => some { s with unit := s.unit.update p doneSn tid }
  | .squash squashedSn tid => some { s with unit := s.unit.squash p squashedSn tid }
  | .squashMispredicted squashedSn corrTarget actuallyTaken tid =>
    (s.unit.squashMispredicted p squashedSn corrTarget actuallyTaken tid).map fun unit =>
      { s with unit := unit }

/-- One call of the unit as the source has it. -/
def step (p : BPredParams) : Session P I N → Event PC → Option (Session P I N) :=
  stepWith p
    (fun branchPoisonRng u inst seqNum pc tid => u.predict p inst seqNum pc tid branchPoisonRng)
    fun branchPoisonRng predTaken => p.enable (p.poison branchPoisonRng predTaken)

/-- One call of the unit with the poison lines of `predict` removed. -/
def stepUnpoisoned (p : BPredParams) : Session P I N → Event PC → Option (Session P I N) :=
  stepWith p (fun _ u inst seqNum pc tid => u.predictUnpoisoned p inst seqNum pc tid)
    fun _ => p.enable

end Session

end Gem5.Pred
