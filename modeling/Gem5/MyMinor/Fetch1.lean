import Gem5.MyMinor.LVPT
import Gem5.MyMinor.PipeData

/-!
# `Gem5.MyMinor.Fetch1`: the line fetch stage

The model of `src/cpu/myminor/fetch1.cc`. Fetch1 follows the stream changes of Execute and
the predictions of Fetch2, requests lines, moves the requests through the ITLB and the
icache, hands a finished line to Fetch2 with the LVPT answer for its fetch address, and
trains the LVPT with the message of Execute.

What comes from outside is an argument: the ITLB and icache answers, the priority list of
the thread policy, the active threads, and whether the next stage has room. The ITLB may
answer a translation inside the call that submits it or in a callback later. Trace output,
statistics, the wakeup of idle stages and the counters that only feed them are left out.
-/

namespace Gem5.MyMinor

/-- `Fetch1::FetchState`. -/
inductive FetchState where
  | halted
  | waitingForPC
  | running
  deriving Repr, DecidableEq

/-- `FetchRequest::FetchRequestState`. -/
inductive FetchRequestState where
  | inTranslation
  | translated
  | requestIssuing
  | complete
  deriving Repr, DecidableEq

/-- `Fetch1::FetchRequest`. `pc` is the fetch address it was made with, `vaddr` and `size`
are those of its memory request. -/
structure FetchRequest where
  id : InstId
  pc : Addr
  vaddr : Addr
  size : Nat
  fault : Fault
  hasPacket : Bool
  state : FetchRequestState
  deriving Repr, DecidableEq

/-- `Fetch1::Fetch1ThreadInfo`. -/
structure Fetch1ThreadInfo where
  state : FetchState
  pc : PCState
  fetchAddr : Addr
  streamSeqNum : InstSeqNum
  predictionSeqNum : InstSeqNum
  blocked : Bool
  wakeupGuard : Bool
  deriving Repr, DecidableEq

/-- The state of the stage. -/
structure Fetch1 where
  lineSnap : Nat
  maxLineWidth : Nat
  fetchLimit : Nat
  fetchInfo : ThreadID → Fetch1ThreadInfo
  requests : List FetchRequest
  transfers : List FetchRequest
  icacheNeedsRetry : Bool
  lineSeqNum : InstSeqNum
  lvpt : LVPT

/-- An answer of the ITLB, and the answer of the icache if the request is sent on at once. -/
structure ItlbAnswer where
  fault : Fault
  icacheAccepts : Bool

/-- What one evaluation takes from outside. `canReserve` says which threads have room in
the next stage. `priorityList` is the order of the thread policy. `itlbAnswer` is the answer
that `translateTiming` gives before it returns. -/
structure Fetch1Input where
  executeBranch : BranchData
  fetch2Branch : BranchData
  canReserve : ThreadID → Bool
  priorityList : List ThreadID
  active : ThreadID → Bool
  itlbAnswer : Option ItlbAnswer
  icacheAccepts : Bool

namespace Fetch1

variable (f : Fetch1) (tid : ThreadID)

/-- Update the record of one thread. -/
def modifyThread (change : Fetch1ThreadInfo → Fetch1ThreadInfo) : Fetch1 :=
  { f with fetchInfo := fun t => if t = tid then change (f.fetchInfo t) else f.fetchInfo t }

variable (branch : BranchData)

/-- `changeStream` with `updateExpectedSeqNums`. A thread that was just woken ignores a
suspend. -/
def changeStream : Fetch1 :=
  f.modifyThread tid fun thread =>
    { thread with
      streamSeqNum := branch.newStreamSeqNum
      predictionSeqNum := branch.newPredictionSeqNum
      state :=
        match branch.reason with
        | .suspendThread => if thread.wakeupGuard then thread.state else .waitingForPC
        | .haltFetch => .halted
        | _ => .running
      pc := branch.target
      fetchAddr := branch.target.instAddr }

/-- A stream change from Execute. A halted thread ignores it. -/
def reactToExecute : Fetch1 :=
  if branch.isStreamChange && (f.fetchInfo tid).state != .halted then
    f.changeStream tid branch
  else f

/-- A prediction from Fetch2. It counts only in the stream it was made for. -/
def reactToFetch2 : Fetch1 :=
  if branch.isStreamChange && (f.fetchInfo tid).state != .halted &&
      branch.newStreamSeqNum == (f.fetchInfo tid).streamSeqNum then
    f.changeStream tid branch
  else f

/-- The branch part of `evaluate`. With both branches for one thread, a stream change of
Execute hides the prediction. -/
def reactToBranches (execute fetch2 : BranchData) : Fetch1 :=
  match execute.threadId, fetch2.threadId with
  | some te, some tp =>
    if te = tp then
      if execute.isStreamChange then f.reactToExecute te execute
      else f.reactToFetch2 tp fetch2
    else (f.reactToExecute te execute).reactToFetch2 tp fetch2
  | some te, none => f.reactToExecute te execute
  | none, some tp => f.reactToFetch2 tp fetch2
  | none, none => f

/-- `getScheduledThread`. -/
def getScheduledThread (priorityList : List ThreadID) (active : ThreadID → Bool) :
    Option ThreadID :=
  priorityList.find? fun tid =>
    active tid && !(f.fetchInfo tid).blocked && (f.fetchInfo tid).state == .running

/-- `isDiscardable`. -/
def isDiscardable (r : FetchRequest) : Bool :=
  r.state != .inTranslation && r.state != .requestIssuing &&
    (r.id.streamSeqNum != (f.fetchInfo r.id.threadId).streamSeqNum ||
      r.id.predictionSeqNum != (f.fetchInfo r.id.threadId).predictionSeqNum)

/-- `tryToSend` for the request `r` at the front of `requests`, `rest` behind it. -/
def tryToSend (r : FetchRequest) (rest : List FetchRequest) (icacheAccepts : Bool) : Fetch1 :=
  if icacheAccepts then
    { f with
      requests := rest
      transfers := f.transfers ++ [{ r with hasPacket := false, state := .requestIssuing }] }
  else
    { f with requests := { r with hasPacket := true } :: rest, icacheNeedsRetry := true }

variable (icacheAccepts : Bool)

/-- `tryToSendToTransfers` for the front of `requests`. A discardable or faulting request
moves on as complete without a packet. -/
def tryToSendToTransfers : Fetch1 :=
  match f.requests with
  | [] => f
  | r :: rest =>
    if r.state = .inTranslation then f
    else if f.isDiscardable r || r.fault.isSome then
      { f with requests := rest, transfers := f.transfers ++ [{ r with state := .complete }] }
    else if r.state = .translated then f.tryToSend r rest icacheAccepts
    else f

/-- `FetchRequest::finish` and `handleTLBResponse` for the request with line number
`lineSeqNum`. The request moves on when it is at the front. -/
def finishTranslation (lineSeqNum : InstSeqNum) (fault : Fault) (icacheAccepts : Bool) : Fetch1 :=
  let f : Fetch1 :=
    { f with requests := f.requests.map fun r =>
        if r.id.lineSeqNum = lineSeqNum ∧ r.state = .inTranslation then
          { r with fault := fault, state := .translated }
        else r }
  if (f.requests.head?.map fun r => r.id.lineSeqNum) = some lineSeqNum then
    f.tryToSendToTransfers icacheAccepts
  else f

/-- The request of `fetchLine`. The mask with `lineSnap - 1` is the rounding down to a multiple
of `lineSnap`, a power of two. -/
def lineRequest : FetchRequest :=
  let thread := f.fetchInfo tid
  let alignedPc := thread.fetchAddr - thread.fetchAddr % f.lineSnap
  { id := { threadId := tid, streamSeqNum := thread.streamSeqNum,
            predictionSeqNum := thread.predictionSeqNum, lineSeqNum := f.lineSeqNum,
            fetchSeqNum := 0, execSeqNum := 0 }
    pc := thread.fetchAddr, vaddr := alignedPc, size := f.maxLineWidth - alignedPc % f.lineSnap
    fault := noFault, hasPacket := false, state := .inTranslation }

/-- `fetchLine`. `answer` is there when the ITLB answers inside the call. -/
def fetchLine (answer : Option ItlbAnswer) : Fetch1 :=
  let request := f.lineRequest tid
  let pushed : Fetch1 := { f with requests := f.requests ++ [request] }
  let sent : Fetch1 :=
    match answer with
    | some a => pushed.finishTranslation f.lineSeqNum a.fault a.icacheAccepts
    | none => pushed
  { sent with
    lineSeqNum := f.lineSeqNum + 1
    fetchInfo := fun t =>
      if t = tid then { f.fetchInfo tid with fetchAddr := request.vaddr + request.size }
      else f.fetchInfo t }

/-- `stepQueues`. -/
def stepQueues : Fetch1 :=
  if f.icacheNeedsRetry then f else f.tryToSendToTransfers icacheAccepts

/-- `processResponse`: the line for Fetch2. The LVPT is read once, at the line's fetch
address. -/
def processResponse (response : FetchRequest) : ForwardLineData :=
  { lineBaseAddr := response.vaddr
    pc := (f.fetchInfo response.id.threadId).pc
    fetchAddr := response.pc
    lineWidth := if response.fault.isSome then 0 else response.size
    lvptOut := f.lvpt.read response.pc
    fault := response.fault
    id := response.id }

/-- The line part of `evaluate`: take the front of `transfers` when it is complete. A
faulting line stops the thread. -/
def takeLine : Fetch1 × Option ForwardLineData :=
  match f.transfers with
  | [] => (f, none)
  | response :: rest =>
    if response.state ≠ .complete then (f, none)
    else if f.isDiscardable response then ({ f with transfers := rest }, none)
    else
      let stopped :=
        if response.fault.isSome then
          f.modifyThread response.id.threadId fun t => { t with state := .waitingForPC }
        else f
      ({ stopped with transfers := rest }, some (f.processResponse response))

/-- The last part of `evaluate`: train the LVPT with the message of Execute, whatever the
reason of the branch, and clear the wakeup guards. -/
def train : Fetch1 :=
  { f with
    lvpt := f.lvpt.updateTable branch.lvptIn.value branch.lvptIn.addr branch.lvptIn.pc
      branch.lvptIn.predict branch.lvptIn.constant
    fetchInfo := fun t => { f.fetchInfo t with wakeupGuard := false } }

/-- The part of `evaluate` before a line is taken: branches, a new fetch and the queues. -/
def beforeLine (inp : Fetch1Input) : Fetch1 :=
  let f : Fetch1 :=
    { f with fetchInfo := fun t => { f.fetchInfo t with blocked := !inp.canReserve t } }
  let f := f.reactToBranches inp.executeBranch inp.fetch2Branch
  let f :=
    if f.requests.length + f.transfers.length < f.fetchLimit then
      match f.getScheduledThread inp.priorityList inp.active with
      | some tid => f.fetchLine tid inp.itlbAnswer
      | none => f
    else f
  f.stepQueues inp.icacheAccepts

/-- `evaluate`. -/
def evaluate (inp : Fetch1Input) : Fetch1 × Option ForwardLineData :=
  let (f, line) := (f.beforeLine inp).takeLine
  (f.train inp.executeBranch, line)

/-- `recvTimingResp` for the request with line number `lineSeqNum`. -/
def recvTimingResp (lineSeqNum : InstSeqNum) : Fetch1 :=
  { f with transfers := f.transfers.map fun r =>
      if r.id.lineSeqNum = lineSeqNum ∧ r.state = .requestIssuing then
        { r with hasPacket := true, state := .complete }
      else r }

/-- `recvReqRetry`. -/
def recvReqRetry : Fetch1 :=
  match f.requests with
  | [] => f
  | r :: rest => { f with icacheNeedsRetry := false }.tryToSend r rest icacheAccepts

/-- `wakeupFetch`. `pc` is the PC of the thread context. -/
def wakeupFetch (pc : PCState) : Fetch1 :=
  f.modifyThread tid fun thread =>
    { thread with pc := pc, fetchAddr := pc.instAddr, state := .running, wakeupGuard := true }

end Fetch1

end Gem5.MyMinor
