import Gem5.MyMinor.LSQSystem

/-!
# `Gem5.MyMinor.LSQStep`: the LSQ as a transition relation

One call into the LSQ can move a request, send several packets and clear several barriers.
This module says once what the single changes are. `LSQView` is the part of the system that
the properties of the LSQ speak about: the queues, the requests, the packets in flight, the
memory and the CVU, without the counters of the source. `LSQStep v l v'` is one change. Each
constructor has the checks that the code has made at that point.

A change that comes from a party outside the LSQ has a label: a new request, an address
translation, a response, a commit, or a write of another requestor. All other changes are
quiet. `Gem5.Proofs.MyMinor.LSQStep` proves that each event of `LSQSystem` is one change with its
label, followed by quiet ones.
-/

namespace Gem5.MyMinor

/-- The state of the system without the counters. `retry` is the request that waits for a
retry, while the memory system is busy. -/
structure LSQView where
  lineWidth : Nat
  thresholdLCT : Nat
  cvu : CVU
  heap : Nat → LSQRequest
  nextPtr : Nat
  requests : List Nat
  transfers : List Nat
  slots : List Nat
  numStoresInTransfers : Nat
  inMemory : List MemAccess
  retry : Option Nat
  streamSeqNum : ThreadID → InstSeqNum
  mem : Addr → Byte
  committed : List (Lib.Patch Addr Byte)

/-- The view of a state. -/
def LSQSystem.view (s : LSQSystem) : LSQView :=
  { lineWidth := s.lsq.lineWidth
    thresholdLCT := s.lsq.thresholdLCT
    cvu := s.lsq.cvu
    heap := s.lsq.heap
    nextPtr := s.lsq.nextPtr
    requests := s.lsq.requests
    transfers := s.lsq.transfers
    slots := s.lsq.slots
    numStoresInTransfers := s.lsq.numStoresInTransfers
    inMemory := s.lsq.dcachePort.inMemory
    retry := if s.lsq.state = .memoryNeedsRetry then s.lsq.retryRequest else none
    streamSeqNum := s.streamSeqNum
    mem := s.mem
    committed := s.committed }

/-- The parts of a change that other parties decide. -/
inductive LSQLabel where
  | quiet
  | push (args : LSQ.PushArgs)
  | finish (p : Nat) (t : Translation)
  | respond (k : Nat)
  | commit (env : ResponseEnv)
  | snoop (write : Lib.Patch Addr Byte)

/-- The label of an event. -/
def LSQSystem.label : LSQSystem.Event → LSQLabel
  | .push args _ => .push args
  | .finishTranslation p t _ => .finish p t
  | .recvTimingResp k _ => .respond k
  | .commit env => .commit env
  | .snoop write => .snoop write
  | _ => .quiet

namespace LSQView

variable (v : LSQView)

/-- The requests in program order, oldest first. -/
def queue : List Nat :=
  v.transfers ++ v.requests

variable (p : Nat)

/-- Replace one request. -/
def put (r : LSQRequest) : LSQView :=
  { v with heap := Function.update v.heap p r }

/-- A new request at the end of `requests`. -/
def alloc (r : LSQRequest) : LSQView :=
  { v.put v.nextPtr r with nextPtr := v.nextPtr + 1, requests := v.requests ++ [v.nextPtr] }

variable (rest : List Nat)

/-- The front of `requests` goes to `transfers`. -/
def move : LSQView :=
  { v with
    requests := rest
    transfers := v.transfers ++ [p]
    numStoresInTransfers :=
      if (v.heap p).isLoad then v.numStoresInTransfers else v.numStoresInTransfers + 1 }

/-- The front of `requests` goes to `transfers` when all its packets are sent. -/
def moveIf (sent : Bool) (p : Nat) (rest : List Nat) : LSQView :=
  if sent then v.move p rest else v

/-- A packet enters the memory system. -/
def sendPacket (packet : Packet) : LSQView :=
  { v with inMemory := v.inMemory ++ [{ ptr := p, packet := packet, performed := false }] }

/-- The front of `transfers` leaves it. -/
def pop : LSQView :=
  { v with
    transfers := rest
    numStoresInTransfers :=
      if (v.heap p).isLoad then v.numStoresInTransfers else v.numStoresInTransfers - 1 }

/-- The instruction belongs to the current stream of its thread. -/
def rightStream (inst : DynInst) : Bool :=
  inst.id.streamSeqNum == v.streamSeqNum inst.id.threadId

/-- The first slot, from the youngest to the oldest, that overlaps a load. -/
def findCoverage (v : LSQView) (load : LSQRequest) : List Nat → AddrRangeCoverage × Nat
  | [] => (.noCoverage, 0)
  | q :: rest =>
    match LSQ.slotCoverage (v.heap q) load with
    | .noCoverage => findCoverage v load rest
    | coverage => (coverage, q)

/-- What `tryToSendToTransfers` has checked when it neither waits nor skips. -/
structure CanTransfer (v : LSQView) (p : Nat) (rest : List Nat) : Prop where
  front : v.requests = p :: rest
  notBlocked : v.retry = none
  translated : (v.heap p).state ≠ .inTranslation
  notComplete : (v.heap p).state ≠ .complete
  notFailed : (v.heap p).state ≠ .failed
  rightStream : v.rightStream (v.heap p).inst = true
  noFault : (v.heap p).translationFault = none
  noStores : (v.heap p).isLoad = true → v.numStoresInTransfers = 0

/-- What `tryToSendToTransfers` has checked when it goes to memory: a store that goes to the
store buffer does not, and a load that the store buffer overlaps does not. -/
structure CanSend (v : LSQView) (p : Nat) (rest : List Nat) : Prop
    extends CanTransfer v p rest where
  store : (v.heap p).isLoad = false →
    (v.heap p).request.bufferable = false ∨ (v.heap p).request.localAccess = true
  load : (v.heap p).isLoad = true → (v.heap p).request.flags.llsc = false →
    (v.findCoverage (v.heap p) v.slots.reverse).1 = .noCoverage

/-- The front of `transfers` can leave the queue. -/
def CanRespond : Prop :=
  v.transfers = p :: rest ∧
    ((v.heap p).state = .complete ∨ (v.heap p).state = .storeToStoreBuffer)

/-- The view after a commit. -/
def commit (env : ResponseEnv) (p : Nat) (rest : List Nat) : LSQView :=
  let r := v.heap p
  let result := handleMemResponse v.thresholdLCT env v.cvu r
  let committed :=
    if !r.isLoad && r.packet.isSome && r.translationFault.isNone && result.fault.isNone then
      v.committed ++ [r.storePatch]
    else v.committed
  if result.toStoreBuffer then
    { (v.put p { r with packet := result.packet, state := .storeInStoreBuffer }).pop p rest with
      cvu := result.cvu, slots := v.slots ++ [p], committed := committed }
  else
    { (v.put p { r with packet := result.packet }).pop p rest with
      cvu := result.cvu, committed := committed }

end LSQView

open LSQView in
/-- One change. -/
inductive LSQStep : LSQView → LSQLabel → LSQView → Prop
  | idle (v : LSQView) : LSQStep v .quiet v
  | push (v : LSQView) (args : LSQ.PushArgs) (fresh : Buffer)
      (hstream : v.rightStream args.inst = true)
      (hatomic : transferNeedsBurst args.addr args.size v.lineWidth = true →
        args.inst.staticInst.isAtomic = false)
      (hmask : args.byteEnable.length = args.size) :
      LSQStep v (.push args)
        (v.alloc ((args.newRequest v.cvu v.lineWidth fresh).startAddrTranslation v.lineWidth))
  | pushFailed (v : LSQView) (inst : DynInst) (hstream : v.rightStream inst = true) :
      LSQStep v .quiet (v.alloc (LSQ.specialRequest .failedData inst .failed))
  | adjust (v : LSQView) (p : Nat) (delayed issued : Bool) (hp : p ∈ v.requests) :
      LSQStep v .quiet
        (v.put p { v.heap p with isTranslationDelayed := delayed, issuedToMemory := issued })
  | clearFault (v : LSQView) (p : Nat) (hp : p ∈ v.queue) :
      LSQStep v .quiet (v.put p { v.heap p with translationFault := noFault })
  | finish (v : LSQView) (p : Nat) (t : Translation) (fresh : Buffer) (hp : p ∈ v.requests)
      (hstate : (v.heap p).state = .inTranslation) :
      LSQStep v (.finish p t) (v.put p ((v.heap p).finish t fresh))
  | skip (v : LSQView) (p : Nat) (rest : List Nat) (hfront : v.requests = p :: rest)
      (hretry : v.retry = none)
      (hskip : (v.heap p).state = .complete ∨ (v.heap p).state = .failed ∨
        (v.rightStream (v.heap p).inst = false ∧ (v.heap p).hasPacketsInMemSystem = false) ∨
        (v.heap p).translationFault ≠ none) :
      LSQStep v .quiet
        ((v.put p { v.heap p with state := .complete, skipped := true }).move p rest)
  | toStoreBuffer (v : LSQView) (p : Nat) (rest : List Nat) (h : v.CanTransfer p rest)
      (hstore : (v.heap p).isLoad = false) (hbuf : (v.heap p).request.bufferable = true)
      (hlocal : (v.heap p).request.localAccess = false) :
      LSQStep v .quiet ((v.put p { v.heap p with state := .storeToStoreBuffer }).move p rest)
  | forward (v : LSQView) (p : Nat) (rest : List Nat) (slot : Nat) (packet : Packet)
      (h : v.CanTransfer p rest) (hload : (v.heap p).isLoad = true)
      (hcover : v.findCoverage (v.heap p) v.slots.reverse = (.fullCoverage, slot))
      (hpacket : (v.heap p).packet = some packet) :
      LSQStep v .quiet
        ((v.put p ((LSQ.forwardStoreData (v.heap slot) (v.heap p) packet).setState
          .complete)).move p rest)
  | failConditional (v : LSQView) (p : Nat) (rest : List Nat) (h : v.CanTransfer p rest)
      (hstore : (v.heap p).isLoad = false) (hllsc : (v.heap p).request.flags.llsc = true) :
      LSQStep v .quiet ((v.put p { v.heap p with state := .complete }).move p rest)
  | sendLocally (v : LSQView) (p : Nat) (rest : List Nat) (packet : Packet) (data : Buffer)
      (h : v.CanSend p rest) (hlocal : (v.heap p).request.localAccess = true)
      (hpacket : (v.heap p).getHeadPacket = some packet) :
      LSQStep v .quiet
        ((v.put p ((LSQ.accessLocally (v.heap p) data).stepToNextPacket.setState
            (if (LSQ.accessLocally (v.heap p) data).stepToNextPacket.sentAllPackets then
              .complete else .requestIssuing))).moveIf
          (LSQ.accessLocally (v.heap p) data).stepToNextPacket.sentAllPackets p rest)
  | send (v : LSQView) (p : Nat) (rest : List Nat) (packet : Packet) (h : v.CanSend p rest)
      (hlocal : (v.heap p).request.localAccess = false)
      (hpacket : (v.heap p).getHeadPacket = some packet) :
      LSQStep v .quiet
        (((v.put p ((v.heap p).stepToNextPacket.setState .requestIssuing)).sendPacket p
          packet).moveIf (v.heap p).stepToNextPacket.sentAllPackets p rest)
  | refuse (v : LSQView) (p : Nat) (rest : List Nat) (packet : Packet) (h : v.CanSend p rest)
      (hlocal : (v.heap p).request.localAccess = false)
      (hpacket : (v.heap p).getHeadPacket = some packet) :
      LSQStep v .quiet
        { v.put p ((v.heap p).setState .requestNeedsRetry) with retry := some p }
  | resend (v : LSQView) (p : Nat) (rest : List Nat) (packet : Packet)
      (hretry : v.retry = some p) (hstate : (v.heap p).state = .requestNeedsRetry)
      (hfront : v.requests = p :: rest) (hlocal : (v.heap p).request.localAccess = false)
      (hpacket : (v.heap p).getHeadPacket = some packet) :
      LSQStep v .quiet
        { ((v.put p ((v.heap p).stepToNextPacket.setState .requestIssuing)).sendPacket p
            packet).moveIf (v.heap p).stepToNextPacket.sentAllPackets p rest with
          retry := none }
  | unblock (v : LSQView) (p : Nat) (hretry : v.retry = some p)
      (hstate : (v.heap p).state = .requestNeedsRetry) :
      LSQStep v .quiet { v.put p ((v.heap p).setState .translated) with retry := none }
  | clearBarrier (v : LSQView) (p : Nat) (rest : List Nat) (hfront : v.slots = p :: rest)
      (hcomplete : (v.heap p).state = .complete) (hbarrier : (v.heap p).isBarrier = true) :
      LSQStep v .quiet { v with slots := rest }
  | slotSend (v : LSQView) (p : Nat) (older younger : List Nat) (packet : Packet)
      (hslots : v.slots = older ++ p :: younger) (hretry : v.retry = none)
      (holder : ∀ q ∈ older, (v.heap q).sentAllPackets = true)
      (hstate : (v.heap p).state = .storeInStoreBuffer ∨
        ((v.heap p).state = .storeBufferIssuing ∧ (v.heap p).sentAllPackets = false))
      (hpacket : (v.heap p).getHeadPacket = some packet) :
      LSQStep v .quiet
        ((v.put p ((v.heap p).stepToNextPacket.setState .storeBufferIssuing)).sendPacket p
          packet)
  | slotRefuse (v : LSQView) (p : Nat) (older younger : List Nat) (packet : Packet)
      (hslots : v.slots = older ++ p :: younger) (hretry : v.retry = none)
      (holder : ∀ q ∈ older, (v.heap q).sentAllPackets = true)
      (hstate : (v.heap p).state = .storeInStoreBuffer ∨
        ((v.heap p).state = .storeBufferIssuing ∧ (v.heap p).sentAllPackets = false))
      (hpacket : (v.heap p).getHeadPacket = some packet) :
      LSQStep v .quiet
        { v.put p ((v.heap p).setState .storeBufferNeedsRetry) with retry := some p }
  | slotResend (v : LSQView) (p : Nat) (packet : Packet)
      (hretry : v.retry = some p) (hstate : (v.heap p).state = .storeBufferNeedsRetry)
      (hpacket : (v.heap p).getHeadPacket = some packet) :
      LSQStep v .quiet
        { (v.put p ((v.heap p).stepToNextPacket.setState .storeBufferIssuing)).sendPacket p
            packet with
          retry := none }
  | slotUnblock (v : LSQView) (p : Nat) (hretry : v.retry = some p)
      (hstate : (v.heap p).state = .storeBufferNeedsRetry) :
      LSQStep v .quiet { v.put p ((v.heap p).setState .storeInStoreBuffer) with retry := none }
  | insertBarrier (v : LSQView) (inst : DynInst) :
      LSQStep v .quiet
        { v.put v.nextPtr (LSQ.specialRequest .barrierData inst .complete) with
          nextPtr := v.nextPtr + 1, slots := v.slots ++ [v.nextPtr] }
  | perform (v : LSQView) (k : Nat) (a : MemAccess) (newData : Buffer) (succeeds : Bool)
      (ha : v.inMemory[k]? = some a) (hperformed : a.performed = false)
      (horder : ∀ b ∈ v.inMemory.take k, b.performed = false →
        Packet.sharesLine v.lineWidth b.packet a.packet = false) :
      LSQStep v .quiet
        { v with
          mem := a.packet.effect v.mem newData succeeds
          inMemory := v.inMemory.set k
            { a with packet := a.packet.answer v.mem, performed := true } }
  | respond (v : LSQView) (k : Nat) (a : MemAccess) (fresh : Buffer)
      (ha : v.inMemory[k]? = some a) (hperformed : a.performed = true)
      (hstate : (v.heap a.ptr).state = .requestIssuing ∨
        (v.heap a.ptr).state = .requestNeedsRetry) :
      LSQStep v (.respond k)
        { v.put a.ptr ((v.heap a.ptr).retireResponse a.packet fresh) with
          inMemory := v.inMemory.eraseIdx k }
  | slotRespond (v : LSQView) (k : Nat) (a : MemAccess) (fresh : Buffer)
      (ha : v.inMemory[k]? = some a) (hperformed : a.performed = true)
      (hstate : (v.heap a.ptr).state = .storeBufferIssuing ∨
        (v.heap a.ptr).state = .storeBufferNeedsRetry) :
      LSQStep v (.respond k)
        { v.put a.ptr ((v.heap a.ptr).retireResponse a.packet fresh) with
          inMemory := v.inMemory.eraseIdx k
          slots :=
            if ((v.heap a.ptr).retireResponse a.packet fresh).isComplete &&
                !((v.heap a.ptr).retireResponse a.packet fresh).isBarrier then
              v.slots.erase a.ptr
            else v.slots }
  | commit (v : LSQView) (env : ResponseEnv) (p : Nat) (rest : List Nat)
      (h : v.CanRespond p rest) (hstream : v.rightStream (v.heap p).inst = true) :
      LSQStep v (.commit env) (v.commit env p rest)
  | discard (v : LSQView) (p : Nat) (rest : List Nat) (h : v.CanRespond p rest) :
      LSQStep v .quiet (v.pop p rest)
  | changeStream (v : LSQView) (tid : ThreadID) :
      LSQStep v .quiet
        { v with
          streamSeqNum := Function.update v.streamSeqNum tid (v.streamSeqNum tid + 1) }
  | snoop (v : LSQView) (write : Lib.Patch Addr Byte) :
      LSQStep v (.snoop write) { v with mem := write.apply v.mem }

end Gem5.MyMinor
