import Gem5.MyMinor.LSQSystem

/-!
# `Gem5.MyMinor.LSQErrors`: error responses and the panics of the LSQ

`LSQSystem` answers every packet with its data. The memory system may also answer with an error.
`retireResponse` of a split request then skips the request, and a skipped request is complete as
soon as none of its packets is in flight, even if some were never sent. `FaultyLSQ` is `LSQSystem`
with this event added. `handleMemResponse` stops the simulation when it meets an error. A store that
is already in the store buffer does not get there again, so its error has no other effect.

`LSQ` returns `none` for a panic, for a failed assertion and for a null pointer alike. The second
half has functions that follow the same paths, and are true exactly where a `panic` or `fatal`
statement of `lsq.cc` and `lsq.hh` is reached. Those whose names end in `Wraps` are true where a
counter that is zero is decremented: the counters of the source are unsigned, and `LSQ` subtracts
down to zero only.
-/

namespace Gem5.MyMinor

/-! ### Error responses -/

/-- `retireResponse` for a response with an error. The data is not used. -/
def LSQRequest.retireError (r : LSQRequest) (response : Packet) (fresh : Buffer) : LSQRequest :=
  match r.kind with
  | .singleData => r.retireSingle response
  | .splitData =>
    { r with
      numRetiredFragments := r.numRetiredFragments + 1
      skipped := true }.finishSplit fresh
  | _ => r

namespace LSQ

/-- `recvTimingResp` with the outcome of `retireResponse` as a parameter. -/
def recvRespWith (retire : LSQRequest → LSQRequest) (l : LSQ) (a : MemAccess) : Option LSQ :=
  let counted := { l with numAccessesInMemorySystem := l.numAccessesInMemorySystem - 1 }
  let retired := counted.modify a.ptr retire
  match (l.heap a.ptr).state with
  | .requestIssuing | .requestNeedsRetry => some retired
  | .storeBufferIssuing | .storeBufferNeedsRetry =>
    if (retired.heap a.ptr).isComplete && !(retired.heap a.ptr).isBarrier then
      some (retired.deleteRequest a.ptr)
    else some retired
  | _ => none

variable (env : LSQEnv) (l : LSQ)

/-- `recvTimingResp` for a packet that comes back with an error. -/
def recvErrorResp (a : MemAccess) : Option LSQ :=
  l.recvRespWith (fun r => r.retireError a.packet env.fresh) a

/-! ### Panics -/

/-- The states in which a request may receive a response. -/
def awaitsResponse : LSQRequestState → Bool
  | .requestIssuing | .requestNeedsRetry | .storeBufferIssuing | .storeBufferNeedsRetry => true
  | _ => false

/-- The states in which a request may be sent again. -/
def awaitsRetry : LSQRequestState → Bool
  | .requestNeedsRetry | .storeBufferNeedsRetry => true
  | _ => false

variable (p : Nat)

/-- `tryToSend` panics in an unknown state, and `getHeadPacket` of a request that never
visits the memory system is fatal. -/
def tryToSendPanics : Bool :=
  l.canSendToMemorySystem &&
    match (l.heap p).kind with
    | .singleData | .splitData =>
      !(l.heap p).request.localAccess && (issuingState (l.heap p).state).isNone
    | _ => true

/-- `tryToSendToTransfers`. -/
def transferPanics : Bool :=
  l.transferAction env p == .send && l.canSendToMemorySystem && (l.markIssued p).tryToSendPanics p

/-- The second loop of `StoreBuffer::step` sends a slot for which `bad` is true. -/
def issueStoresReach (bad : LSQ → Nat → Bool) (env : LSQEnv) : Nat → List Nat → LSQ → Bool
  | _, [], _ => false
  | limit, p :: rest, l =>
    if limit = 0 || !l.canSendToMemorySystem then false
    else if (l.heap p).isBarrier && (l.heap p).isComplete then false
    else if (l.heap p).state == .storeBufferIssuing && (l.heap p).sentAllPackets then
      issueStoresReach bad env limit rest l
    else
      bad l p ||
        match l.tryToSend env p with
        | some (sent, true) => issueStoresReach bad env (limit - 1) rest (sent.countIssuedStore p)
        | _ => false

/-- `StoreBuffer::step`. -/
def stepStoreBufferPanics : Bool :=
  if l.numUnissuedAccesses = 0 || l.state != .memoryRunning then false
  else
    let cleared := l.clearBarriers l.slots
    issueStoresReach tryToSendPanics env cleared.storeLimitPerCycle cleared.slots cleared

/-- `step`. -/
def stepPanics : Bool :=
  match l.requests with
  | [] => l.stepStoreBufferPanics env
  | p :: _ =>
    l.transferPanics env p ||
      match l.tryToSendToTransfers env p with
      | some l => l.stepStoreBufferPanics env
      | none => false

/-- The end of an address translation. -/
def finishTranslationPanics (t : Translation) : Bool :=
  let finished := l.modify p fun r => r.finish t env.fresh
  (finished.heap p).state != .inTranslation && finished.transferPanics env p

/-- `recvReqRetry`. -/
def recvReqRetryPanics : Bool :=
  match resendState (l.heap p).state with
  | none => true
  | some state =>
    let resent : LSQ := { (l.modify p fun r => r.setState state) with state := .memoryRunning }
    resent.tryToSendPanics p ||
      match resent.tryToSend env p with
      | some (sent, true) => (sent.finishRetry p).isNone
      | _ => false

/-! ### Counters below zero -/

/-- `countIssuedStore`. -/
def countIssuedStoreWraps : Bool :=
  !(l.heap p).isBarrier && l.numUnissuedAccesses == 0

/-- The first loop of `StoreBuffer::step`. -/
def clearBarriersWraps (l : LSQ) : List Nat → Bool
  | [] => false
  | p :: rest =>
    if (l.heap p).isComplete && (l.heap p).isBarrier then
      l.numUnissuedAccesses == 0 ||
        clearBarriersWraps
          { l.clearMemBarrier (l.heap p).inst with
            numUnissuedAccesses := l.numUnissuedAccesses - 1 } rest
    else false

/-- `countIssuedStore` after a slot has sent all its packets. -/
def sendWraps : Bool :=
  match l.tryToSend env p with
  | some (sent, true) => sent.countIssuedStoreWraps p
  | _ => false

/-- `StoreBuffer::step`. -/
def stepStoreBufferWraps : Bool :=
  if l.numUnissuedAccesses = 0 || l.state != .memoryRunning then false
  else
    let cleared := l.clearBarriers l.slots
    l.clearBarriersWraps l.slots ||
      issueStoresReach (sendWraps env) env cleared.storeLimitPerCycle cleared.slots cleared

/-- `step`. -/
def stepWraps : Bool :=
  match l.requests with
  | [] => l.stepStoreBufferWraps env
  | p :: _ =>
    match l.tryToSendToTransfers env p with
    | some l => l.stepStoreBufferWraps env
    | none => false

/-- `recvReqRetry`. Only a store of the store buffer is counted. -/
def recvReqRetryWraps : Bool :=
  match resendState (l.heap p).state with
  | some .storeInStoreBuffer =>
    ({ (l.modify p fun r => r.setState .storeInStoreBuffer) with
        state := .memoryRunning } : LSQ).sendWraps env p
  | _ => false

/-- `popResponse`. -/
def popResponseWraps : Bool :=
  (!(l.heap p).isLoad && l.numStoresInTransfers == 0) ||
    ((l.heap p).issuedToMemory && l.numAccessesIssuedToMemory == 0)

end LSQ

/-! ### The system -/

/-- The system, and which requests hold a packet with an error. -/
structure FaultyLSQ where
  sys : LSQSystem
  hasError : Nat → Bool

namespace FaultyLSQ

/-- The events: those of `LSQSystem`, and a response with an error to the packet `k`. -/
inductive Event where
  | call (e : LSQSystem.Event)
  | recvErrorResp (k : Nat) (call : LSQSystem.CallEnv)

/-- The system after construction. -/
def new (params : LSQParams) (mem : Addr → Byte) : FaultyLSQ :=
  { sys := LSQSystem.new params mem, hasError := fun _ => false }

variable (s : FaultyLSQ)

/-- `handleMemResponse` stops the simulation for the response that would be committed. -/
def stopsCommit : Bool :=
  s.sys.response.any fun p =>
    (s.sys.lsq.heap p).translationFault.isNone && s.hasError p

/-- One event. A packet that is answered with an error has not been performed. -/
def step (s : FaultyLSQ) : Event → Option FaultyLSQ
  | .call (.commit env) =>
    if s.stopsCommit then none
    else (s.sys.step (.commit env)).map fun sys => { s with sys := sys }
  | .call e => (s.sys.step e).map fun sys => { s with sys := sys }
  | .recvErrorResp k call =>
    match s.sys.lsq.dcachePort.inMemory[k]? with
    | none => none
    | some a =>
      if a.performed then none
      else
        ((LSQSystem.takeResponse (s.sys.entered call) k).recvErrorResp
            (s.sys.env call) a).map fun l =>
          { sys := { s.sys with lsq := l }
            hasError := Function.update s.hasError a.ptr true }

/-- An event reaches a panic of the LSQ. -/
def panics : Event → Bool
  | .call (.push args _) =>
    transferNeedsBurst args.addr args.size s.sys.lsq.lineWidth &&
      args.inst.staticInst.isAtomic
  | .call (.finishTranslation p t call) =>
    decide (p ∈ s.sys.lsq.requests) && (s.sys.lsq.heap p).state == .inTranslation &&
      (s.sys.entered call).finishTranslationPanics (s.sys.env call) p t
  | .call (.step call) => (s.sys.entered call).stepPanics (s.sys.env call)
  | .call (.recvTimingResp k _) | .recvErrorResp k _ =>
    s.sys.lsq.dcachePort.inMemory[k]?.any fun a =>
      !LSQ.awaitsResponse (s.sys.lsq.heap a.ptr).state
  | .call (.recvReqRetry call) =>
    s.sys.lsq.state == .memoryNeedsRetry && s.sys.lsq.retryRequest.any fun p =>
      (s.sys.entered call).recvReqRetryPanics (s.sys.env call) p
  | _ => false

/-- An event decrements a counter of the LSQ that is zero. -/
def wraps : Event → Bool
  | .call (.step call) => (s.sys.entered call).stepWraps (s.sys.env call)
  | .call (.recvTimingResp k _) | .recvErrorResp k _ =>
    s.sys.lsq.dcachePort.inMemory[k]?.isSome && s.sys.lsq.numAccessesInMemorySystem == 0
  | .call (.recvReqRetry call) =>
    s.sys.lsq.state == .memoryNeedsRetry && s.sys.lsq.retryRequest.any fun p =>
      (s.sys.entered call).recvReqRetryWraps (s.sys.env call) p
  | .call (.commit _) | .call .discard => s.sys.response.any s.sys.lsq.popResponseWraps
  | _ => false

end FaultyLSQ

end Gem5.MyMinor
