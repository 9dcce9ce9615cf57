import Gem5.MyMinor.MemResponse

/-!
# `Gem5.MyMinor.LSQ`: the load/store queue

The model of `src/cpu/myminor/lsq.cc`. A request goes from `requests` to `transfers`, and a
store goes on to the store buffer `slots`. Packets of the first request in `requests` and of
the store buffer go to the data cache port.

The queues hold pointers, and `heap` maps a pointer to its `LSQRequest`: the source shares
request objects between the queues, the packets in flight and `retryRequest` in the same way.
A pointer is used once. A function returns `none` where the source reads a null pointer, panics or
fails an assertion.

`DcachePort` stands for the memory system as the LSQ sees it: the packets that were sent and
not answered yet, in the order sent, and how many more packets the port accepts before it
refuses one. `LSQEnv` holds the answers of Execute, of the instruction set and of the allocator.

Statistics, traces, wakeups, address monitors and the DTLB counter are left out.
-/

namespace Gem5.MyMinor

open Function

/-- A packet inside the memory system. `performed` says that its access is done and only the
response is missing. -/
structure MemAccess where
  ptr : Nat
  packet : Packet
  performed : Bool

/-- The memory system behind the port. -/
structure DcachePort where
  accepts : Nat
  inMemory : List MemAccess

/-- `sendTimingReq`. -/
def DcachePort.sendTimingReq (d : DcachePort) (ptr : Nat) (packet : Packet) :
    Option DcachePort :=
  match d.accepts with
  | 0 => none
  | n + 1 =>
    some { accepts := n
           inMemory := d.inMemory ++ [{ ptr := ptr, packet := packet, performed := false }] }

/-- `MemoryState`. -/
inductive MemoryState where
  | memoryRunning
  | memoryNeedsRetry
  deriving Repr, DecidableEq

/-- What the LSQ asks of its surroundings in one call. `headInst` is the front of
`inFlightInsts` of a thread. `lockedWrite` is the answer of `handleLockedWrite`.
`localAccessor` gives the data that a local access leaves in its packet. `fresh` is the
content of newly allocated buffers. -/
structure LSQEnv where
  streamSeqNum : ThreadID → InstSeqNum
  headInst : ThreadID → Option InstId
  lockedWrite : Bool
  localAccessor : Packet → Buffer
  fresh : Buffer

/-- `Execute::instIsRightStream`. -/
def LSQEnv.instIsRightStream (env : LSQEnv) (inst : DynInst) : Bool :=
  inst.id.streamSeqNum == env.streamSeqNum inst.id.threadId

/-- `Execute::instIsHeadInst`. -/
def LSQEnv.instIsHeadInst (env : LSQEnv) (inst : DynInst) : Bool :=
  (env.headInst inst.id.threadId).any fun id => id.same inst.id

/-- `LSQ`. The first six fields are fixed at construction. -/
structure LSQ where
  lineWidth : Nat
  inMemorySystemLimit : Nat
  transfersQueueSize : Nat
  numSlots : Nat
  storeLimitPerCycle : Nat
  thresholdLCT : Nat
  cvu : CVU
  heap : Nat → LSQRequest
  nextPtr : Nat
  requests : List Nat
  transfers : List Nat
  slots : List Nat
  numUnissuedAccesses : Nat
  numStoresInTransfers : Nat
  numAccessesInMemorySystem : Nat
  numAccessesIssuedToMemory : Nat
  lastMemBarrier : ThreadID → InstSeqNum
  inStoreBuffer : InstId → Bool
  state : MemoryState
  retryRequest : Option Nat
  dcachePort : DcachePort

/-- The parameters of the LSQ. The constructor of the source replaces a line width of 0 by
the line size of the cache, and it refuses one that is not a power of two. -/
structure LSQParams where
  lineBits : Nat
  lineBits_lt : lineBits < 32 := by decide
  inMemorySystemLimit : Nat
  transfersQueueSize : Nat
  numSlots : Nat
  storeLimitPerCycle : Nat
  thresholdLCT : Nat
  tableSizeCVU : Nat
  deriving Repr, DecidableEq

/-- What a transfer attempt does with the first request. -/
inductive TransferAction where
  | wait
  | skip
  | toStoreBuffer
  | forward (slot : Nat)
  | failConditional
  | send
  deriving Repr, DecidableEq

namespace LSQ

variable (l : LSQ) (p : Nat)

/-- Change one request. -/
def modify (f : LSQRequest → LSQRequest) : LSQ :=
  { l with heap := update l.heap p (f (l.heap p)) }

/-- Allocate a request. -/
def alloc (r : LSQRequest) : LSQ :=
  { l with heap := update l.heap l.nextPtr r, nextPtr := l.nextPtr + 1 }

/-- `canSendToMemorySystem`. -/
def canSendToMemorySystem : Bool :=
  l.state == .memoryRunning && decide (l.numAccessesInMemorySystem < l.inMemorySystemLimit)

variable (inst : DynInst)

/-- `clearMemBarrier`. -/
def clearMemBarrier : LSQ :=
  if l.lastMemBarrier inst.id.threadId ≤ inst.id.execSeqNum then
    { l with lastMemBarrier := update l.lastMemBarrier inst.id.threadId 0 }
  else l

/-! ### The store buffer -/

/-- `StoreBuffer::canInsert`. -/
def canInsert : Bool :=
  decide (l.slots.length < l.numSlots)

/-- `StoreBuffer::insert`. -/
def insert : LSQ :=
  let marked := l.modify p fun r => if r.isComplete then r else r.setState .storeInStoreBuffer
  { marked with slots := l.slots ++ [p], numUnissuedAccesses := l.numUnissuedAccesses + 1 }

/-- `StoreBuffer::deleteRequest`. -/
def deleteRequest : LSQ :=
  { l with slots := l.slots.erase p }

/-- The coverage of a load by one slot. Slots without a packet, of another thread or of a
cache maintenance operation do not count. -/
def slotCoverage (slot load : LSQRequest) : AddrRangeCoverage :=
  if slot.packet.isSome && slot.inst.id.threadId == load.inst.id.threadId &&
      !slot.request.flags.cacheMaintenance then
    slot.containsAddrRangeOf load
  else .noCoverage

/-- The loop of `canForwardDataToLoad` over the slots, youngest first: the first slot that
overlaps the load. -/
def findCoverage (l : LSQ) (load : LSQRequest) : List Nat → AddrRangeCoverage × Nat
  | [] => (.noCoverage, 0)
  | q :: rest =>
    match slotCoverage (l.heap q) load with
    | .noCoverage => findCoverage l load rest
    | coverage => (coverage, q)

/-- `StoreBuffer::canForwardDataToLoad`. -/
def canForwardDataToLoad (load : LSQRequest) : AddrRangeCoverage × Nat :=
  l.findCoverage load l.slots.reverse

/-- `StoreBuffer::forwardStoreData` for a load with a packet. -/
def forwardStoreData (store load : LSQRequest) (packet : Packet) : LSQRequest :=
  let offset := load.request.paddr - store.request.paddr
  let data := (store.packet.map fun s => s.data).getD packet.data
  { load with
    packet := some { packet with
      data := LSQRequest.memcpy packet.data 0 (fun i => data (offset + i)) load.request.size } }

/-- `StoreBuffer::countIssuedStore`. -/
def countIssuedStore : LSQ :=
  if (l.heap p).isBarrier then l
  else { l with numUnissuedAccesses := l.numUnissuedAccesses - 1 }

/-! ### Sending packets -/

/-- The state of a request after a packet was sent. -/
def issuingState : LSQRequestState → Option LSQRequestState
  | .translated | .requestIssuing => some .requestIssuing
  | .storeInStoreBuffer | .storeBufferIssuing => some .storeBufferIssuing
  | _ => none

/-- The state of a request after a packet was refused. -/
def retryState : LSQRequestState → Option LSQRequestState
  | .translated | .requestIssuing => some .requestNeedsRetry
  | .storeInStoreBuffer | .storeBufferIssuing => some .storeBufferNeedsRetry
  | _ => none

/-- A local access to the head packet of a request. -/
def accessLocally (r : LSQRequest) (data : Buffer) : LSQRequest :=
  match r.kind with
  | .singleData => { r with packet := r.packet.map fun packet => { packet with data := data } }
  | .splitData =>
    { r with fragmentPackets :=
        r.fragmentPackets.modify r.numIssuedFragments fun packet => { packet with data := data } }
  | _ => r

variable (env : LSQEnv)

/-- The local branch of `tryToSend`. -/
def sendLocally (l : LSQ) (p : Nat) (packet : Packet) : LSQ × Bool :=
  let accessed := (accessLocally (l.heap p) (env.localAccessor packet)).stepToNextPacket
  let sent := accessed.sentAllPackets
  (l.modify p fun _ => accessed.setState (if sent then .complete else .requestIssuing), sent)

/-- `tryToSend`: send the head packet of a request. The result says whether all packets of
the request are sent now. -/
def tryToSend (l : LSQ) (p : Nat) : Option (LSQ × Bool) :=
  if !l.canSendToMemorySystem then some (l, false)
  else
    match (l.heap p).getHeadPacket with
    | none => none
    | some packet =>
      if (l.heap p).request.localAccess then some (l.sendLocally env p packet)
      else
        match l.dcachePort.sendTimingReq p packet with
        | some port =>
          (issuingState (l.heap p).state).map fun state =>
            ({ (l.modify p fun r => r.stepToNextPacket.setState state) with
                numAccessesInMemorySystem := l.numAccessesInMemorySystem + 1
                dcachePort := port },
              (l.heap p).stepToNextPacket.sentAllPackets)
        | none =>
          (retryState (l.heap p).state).map fun state =>
            ({ (l.modify p fun r => r.setState state) with
                state := .memoryNeedsRetry, retryRequest := some p },
              false)

/-- `moveFromRequestsToTransfers` for the front of `requests`. -/
def moveFromRequestsToTransfers : LSQ :=
  { l with
    requests := l.requests.tail
    transfers := l.transfers ++ [p]
    numStoresInTransfers :=
      if (l.heap p).isLoad then l.numStoresInTransfers else l.numStoresInTransfers + 1 }

/-! ### From `requests` to `transfers` -/

/-- The part of `tryToSendToTransfers` for a request that is not bufferable: it must be the
head instruction and must not overlap a slot. -/
def mustStall (l : LSQ) (r : LSQRequest) : Bool :=
  !r.request.bufferable &&
    (!env.instIsHeadInst r.inst || (l.canForwardDataToLoad r).1 != .noCoverage)

/-- The last part: forward from the store buffer, or go to memory. -/
def accessAction (l : LSQ) (r : LSQRequest) : TransferAction :=
  if r.request.flags.llsc then
    if !l.canSendToMemorySystem then .wait
    else if r.isLoad || env.lockedWrite then .send
    else .failConditional
  else if r.isLoad then
    match l.canForwardDataToLoad r with
    | (.fullCoverage, slot) => .forward slot
    | (.partialCoverage, _) => .wait
    | (.noCoverage, _) => .send
  else .send

/-- The checks of `tryToSendToTransfers`, in the order of the source. -/
def transferAction (l : LSQ) (p : Nat) : TransferAction :=
  let r := l.heap p
  if l.state = .memoryNeedsRetry then .wait
  else if r.state = .inTranslation then .wait
  else if l.requests.head? ≠ some p then .wait
  else if l.transfersQueueSize ≤ l.transfers.length then .wait
  else if r.isComplete || r.state == .failed then .skip
  else if !env.instIsRightStream r.inst then
    if r.hasPacketsInMemSystem then .wait else .skip
  else if r.translationFault.isSome then .skip
  else if r.isLoad && l.numStoresInTransfers != 0 then .wait
  else if !r.isLoad && r.request.bufferable && !r.request.localAccess then .toStoreBuffer
  else if ((!r.isLoad && r.request.flags.llsc) || r.request.flags.release) &&
      !l.slots.isEmpty then .wait
  else if l.mustStall env r then .wait
  else l.accessAction env r

/-- The accounting for an access that an interrupt must not discard. -/
def markIssued : LSQ :=
  if !(l.heap p).request.bufferable && !(l.heap p).issuedToMemory then
    { (l.modify p fun r => { r with issuedToMemory := true }) with
      numAccessesIssuedToMemory := l.numAccessesIssuedToMemory + 1 }
  else l

/-- What each action does. -/
def performAction (l : LSQ) (p : Nat) : TransferAction → Option LSQ
  | .wait => some l
  | .skip =>
    some ((l.modify p fun r => (r.setState .complete).setSkipped).moveFromRequestsToTransfers p)
  | .toStoreBuffer =>
    some ((l.modify p fun r => r.setState .storeToStoreBuffer).moveFromRequestsToTransfers p)
  | .forward slot =>
    (l.heap p).packet.map fun packet =>
      (l.modify p fun r => (forwardStoreData (l.heap slot) r packet).setState .complete)
        |>.moveFromRequestsToTransfers p
  | .failConditional =>
    some ((l.modify p fun r => r.setState .complete).moveFromRequestsToTransfers p)
  | .send =>
    if !l.canSendToMemorySystem then some l
    else
      ((l.markIssued p).tryToSend env p).map fun (sent : LSQ × Bool) =>
        if sent.2 then sent.1.moveFromRequestsToTransfers p else sent.1

/-- `tryToSendToTransfers`. -/
def tryToSendToTransfers (l : LSQ) (p : Nat) : Option LSQ :=
  l.performAction env p (l.transferAction env p)

/-- The end of an address translation: `finish`, then `tryToSendToTransfers`. A fault of the
first translation that comes back at once can still be suppressed by `initiateAcc`, and
`executeMemRefInst` then clears it. -/
def finishTranslation (l : LSQ) (p : Nat) (t : Translation) : Option LSQ :=
  let r := l.heap p
  if r.state ≠ .inTranslation then none
  else
    let finished := l.modify p fun r => r.finish t env.fresh
    if (finished.heap p).state = .inTranslation then some finished
    else
      (finished.tryToSendToTransfers env p).map fun l =>
        if t.suppressed && !r.isTranslationDelayed && r.numTranslatedFragments == 0 then
          l.modify p fun r => { r with translationFault := noFault }
        else l

/-- `markDelayed`. -/
def markDelayed : LSQ :=
  l.modify p fun r => { r with isTranslationDelayed := true }

/-! ### Stepping the queues -/

/-- The first loop of `StoreBuffer::step`: clear the leading barriers. -/
def clearBarriers (l : LSQ) : List Nat → LSQ
  | [] => { l with slots := [] }
  | p :: rest =>
    if (l.heap p).isComplete && (l.heap p).isBarrier then
      clearBarriers
        { l.clearMemBarrier (l.heap p).inst with
          numUnissuedAccesses := l.numUnissuedAccesses - 1 } rest
    else { l with slots := p :: rest }

/-- The second loop: issue stores in order. `limit` is the number of stores that may still
be issued in this cycle. -/
def issueStores (env : LSQEnv) : Nat → List Nat → LSQ → Option LSQ
  | _, [], l => some l
  | limit, p :: rest, l =>
    if limit = 0 || !l.canSendToMemorySystem then some l
    else if (l.heap p).isBarrier && (l.heap p).isComplete then some l
    else if (l.heap p).state == .storeBufferIssuing && (l.heap p).sentAllPackets then
      issueStores env limit rest l
    else
      (l.tryToSend env p).bind fun (sent : LSQ × Bool) =>
        if sent.2 then issueStores env (limit - 1) rest (sent.1.countIssuedStore p)
        else some sent.1

/-- `StoreBuffer::step`. -/
def stepStoreBuffer (l : LSQ) : Option LSQ :=
  if l.numUnissuedAccesses = 0 || l.state != .memoryRunning then some l
  else
    let cleared := l.clearBarriers l.slots
    issueStores env cleared.storeLimitPerCycle cleared.slots cleared

/-- `step`. -/
def step (l : LSQ) : Option LSQ :=
  match l.requests with
  | [] => l.stepStoreBuffer env
  | p :: _ => (l.tryToSendToTransfers env p).bind fun l => l.stepStoreBuffer env

/-! ### Responses and retries -/

/-- `recvTimingResp` for a packet that has left the memory system. -/
def recvTimingResp (l : LSQ) (a : MemAccess) : Option LSQ :=
  let counted := { l with numAccessesInMemorySystem := l.numAccessesInMemorySystem - 1 }
  let retired := counted.modify a.ptr fun r => r.retireResponse a.packet env.fresh
  match (l.heap a.ptr).state with
  | .requestIssuing | .requestNeedsRetry => some retired
  | .storeBufferIssuing | .storeBufferNeedsRetry =>
    if (retired.heap a.ptr).isComplete && !(retired.heap a.ptr).isBarrier then
      some (retired.deleteRequest a.ptr)
    else some retired
  | _ => none

/-- The state of a request before it is sent again. -/
def resendState : LSQRequestState → Option LSQRequestState
  | .requestNeedsRetry => some .translated
  | .storeBufferNeedsRetry => some .storeInStoreBuffer
  | _ => none

/-- The end of `recvReqRetry`, when all packets of the request are sent. -/
def finishRetry : Option LSQ :=
  match (l.heap p).state with
  | .requestIssuing => some { l.moveFromRequestsToTransfers p with retryRequest := none }
  | .storeBufferIssuing => some { l.countIssuedStore p with retryRequest := none }
  | _ => none

/-- `recvReqRetry`. -/
def recvReqRetry (l : LSQ) : Option LSQ :=
  match l.state, l.retryRequest with
  | .memoryNeedsRetry, some p =>
    (resendState (l.heap p).state).bind fun state =>
      (({ (l.modify p fun r => r.setState state) with
          state := .memoryRunning }).tryToSend env p).bind fun (sent : LSQ × Bool) =>
        if sent.2 then sent.1.finishRetry p else some sent.1
  | _, _ => none

/-! ### The interface to Execute -/

/-- The arguments of `pushRequest`. `data` are the bytes at the pointer that the caller
passes. An atomic or a store without data passes none. -/
structure PushArgs where
  inst : DynInst
  isLoad : Bool
  data : Buffer
  size : Nat
  addr : Nat
  flags : RequestFlags
  byteEnable : List Bool

namespace PushArgs

/-- The lookup in the CVU at push time. -/
def usesCVU (cvu : CVU) (a : PushArgs) : Bool :=
  a.isLoad && a.inst.lvptOut.constant &&
    cvu.verifyEntryInCVU a.addr a.inst.lvptOut.index a.inst.lvptOut.value
      a.inst.lvptOut.constant

/-- The bytes of a store: a copy, or zeros where the caller has no data. -/
def storeData (a : PushArgs) : Buffer :=
  if a.inst.staticInst.isAtomic || a.flags.storeNoData then fun _ => 0 else a.data

/-- The `Request`. `NO_ACCESS` installs a local accessor that does nothing. -/
def request (cvu : CVU) (a : PushArgs) : Request :=
  { vaddr := a.addr, size := a.size, paddr := 0, flags := a.flags
    localAccess := a.flags.noAccess, byteEnable := a.byteEnable
    useCVUValue := a.usesCVU cvu }

/-- The new `LSQRequest`. A load that the CVU holds gets a buffer with the predicted value,
which `makePacket` drops again. -/
def newRequest (cvu : CVU) (lineWidth : Nat) (fresh : Buffer) (a : PushArgs) : LSQRequest :=
  LSQRequest.new
    (if transferNeedsBurst a.addr a.size lineWidth then .splitData else .singleData)
    a.inst a.isLoad
    (if !a.isLoad then some a.storeData
      else if a.usesCVU cvu then some (MemResponse.valueBytes a.inst.lvptOut.value fresh)
      else none)
    (if a.isLoad then fun _ => 0 else a.storeData)
    (a.request cvu) .notIssued

end PushArgs

/-- `pushRequest` for an instruction that is not in the LSQ yet. It stops the simulation for
an atomic that crosses a line, and for a byte mask of the wrong length. -/
def pushRequest (l : LSQ) (a : PushArgs) : Option LSQ :=
  if transferNeedsBurst a.addr a.size l.lineWidth && a.inst.staticInst.isAtomic then none
  else if a.byteEnable.length ≠ a.size then none
  else
    let request := (a.newRequest l.cvu l.lineWidth env.fresh).startAddrTranslation l.lineWidth
    some { l.alloc request with requests := l.requests ++ [l.nextPtr] }

/-- A request of a class that never visits the memory system. It has no address. -/
def specialRequest (kind : RequestKind) (inst : DynInst) (state : LSQRequestState) :
    LSQRequest :=
  LSQRequest.new kind inst true none (fun _ => 0)
    { vaddr := 0, size := 0, paddr := 0, flags := noFlags
      localAccess := false, byteEnable := [], useCVUValue := false }
    state

/-- `pushFailedRequest`. -/
def pushFailedRequest : LSQ :=
  { l.alloc (specialRequest .failedData inst .failed) with
    requests := l.requests ++ [l.nextPtr] }

/-- `findResponse`: the front of `transfers`, when it belongs to the instruction and can
leave the queue. -/
def findResponse : Option Nat :=
  match l.transfers with
  | [] => none
  | p :: _ =>
    let r := l.heap p
    if r.inst.id.same inst.id &&
        ((r.isComplete && !(r.isBarrier && !l.canInsert)) ||
          (r.needsToBeSentToStoreBuffer && l.canInsert)) then
      some p
    else none

/-- `popResponse` for the front of `transfers`. -/
def popResponse : LSQ :=
  { l with
    transfers := l.transfers.tail
    numStoresInTransfers :=
      if (l.heap p).isLoad then l.numStoresInTransfers else l.numStoresInTransfers - 1
    numAccessesIssuedToMemory :=
      if (l.heap p).issuedToMemory then l.numAccessesIssuedToMemory - 1
      else l.numAccessesIssuedToMemory }

/-- `sendStoreToStoreBuffer`. -/
def sendStoreToStoreBuffer : LSQ :=
  { l.insert p with
    inStoreBuffer := update l.inStoreBuffer (l.heap p).inst.id true }

/-- What `handleMemResponse` does to the LSQ for the response `p`: the CVU, the packet, the
move to the store buffer and `popResponse`. -/
def commitResponse (env : ResponseEnv) (l : LSQ) (p : Nat) : LSQ :=
  let result := handleMemResponse l.thresholdLCT env l.cvu (l.heap p)
  let completed := { (l.modify p fun r => { r with packet := result.packet }) with cvu := result.cvu }
  if result.toStoreBuffer then (completed.sendStoreToStoreBuffer p).popResponse p
  else completed.popResponse p

/-- `issuedMemBarrierInst`. -/
def issuedMemBarrierInst : LSQ :=
  { l with
    lastMemBarrier := update l.lastMemBarrier inst.id.threadId inst.id.execSeqNum }

/-- `completeMemBarrierInst`. -/
def completeMemBarrierInst (committed : Bool) : LSQ :=
  if committed then
    if l.inStoreBuffer inst.id then l
    else (l.alloc (specialRequest .barrierData inst .complete)).insert l.nextPtr
  else l.clearMemBarrier inst

/-- The LSQ after construction. Nothing points into the heap. -/
def new (params : LSQParams) : LSQ :=
  let noInst : DynInst :=
    { staticInst := StaticInst.null, id := InstId.zero, pc := { instAddr := 0, microPC := 0 }
      fault := noFault, lvptOut := LvptOut.zero }
  { lineWidth := 2 ^ params.lineBits
    inMemorySystemLimit := params.inMemorySystemLimit
    transfersQueueSize := params.transfersQueueSize
    numSlots := params.numSlots
    storeLimitPerCycle := params.storeLimitPerCycle
    thresholdLCT := params.thresholdLCT
    cvu := CVU.new params.tableSizeCVU
    heap := fun _ => specialRequest .failedData noInst .failed
    nextPtr := 0
    requests := [], transfers := [], slots := []
    numUnissuedAccesses := 0
    numStoresInTransfers := 0
    numAccessesInMemorySystem := 0
    numAccessesIssuedToMemory := 0
    lastMemBarrier := fun _ => 0
    inStoreBuffer := fun _ => false
    state := .memoryRunning
    retryRequest := none
    dcachePort := { accepts := 0, inMemory := [] } }

end LSQ

end Gem5.MyMinor
