import Gem5.Lib.Patch
import Gem5.Lib.Run
import Gem5.MyMinor.LSQ

/-!
# `Gem5.MyMinor.LSQSystem`: the LSQ between Execute and memory

The LSQ with the two parties that drive it. Execute pushes requests, steps the LSQ, completes
or discards the response at the front of `transfers`, and changes the stream of a thread. The
memory system performs the packets it was sent, answers them, and writes for other
requestors.

The memory system may perform and answer packets in any order, with one exception: it
performs packets that share a cache line in the order sent. A packet with `use_CVU_value` is
answered without an access, as `BaseCache::recvTimingReq` in `src/mem/cache/base.cc` does.

`committed` collects the writes of the committed stores, in program order. It only serves
statements.
-/

namespace Gem5.MyMinor

/-! ### Packets and memory -/

namespace Packet

variable (packet : Packet)

/-- The bytes that a write packet leaves in memory: the enabled ones. -/
def patch (data : Buffer) : Lib.Patch Addr Byte := fun (a : Nat) =>
  if packet.paddr ≤ a ∧ a < packet.paddr + packet.size ∧
      packet.byteEnable.getD (a - packet.paddr) false = true then
    some (data (a - packet.paddr))
  else none

variable (lineWidth : Nat)

/-- The first line that a packet touches. -/
def firstLine : Nat :=
  packet.paddr / lineWidth

/-- The last line that a packet touches. -/
def lastLine : Nat :=
  (packet.paddr + (packet.size - 1)) / lineWidth

/-- Two packets touch a common line. -/
def sharesLine (p q : Packet) : Bool :=
  decide (p.firstLine lineWidth ≤ q.lastLine lineWidth) &&
    decide (q.firstLine lineWidth ≤ p.lastLine lineWidth)

/-- The packet after its access. A read returns the bytes of memory, and so does a swap. A
packet with `use_CVU_value` comes back as it was. -/
def answer (mem : Addr → Byte) : Packet :=
  if (packet.isLoad || packet.isSwap) && !packet.useCVUValue then
    { packet with
      data := fun i => if i < packet.size then mem (packet.paddr + i) else packet.data i }
  else packet

/-- The memory after the access. `newData` is what an atomic operation computes.
`succeeds` says whether a store-conditional is carried out. -/
def effect (mem : Addr → Byte) (newData : Buffer) (succeeds : Bool) : Addr → Byte :=
  if packet.isLoad || packet.isMaintenance || (packet.isLLSC && !succeeds) then mem
  else (packet.patch (if packet.isSwap then newData else packet.data)).apply mem

end Packet

namespace LSQRequest

/-- The physical address of byte `i` of an access: the one of its fragment. -/
def physAddr (r : LSQRequest) (i : Nat) : Option Nat :=
  match r.kind with
  | .singleData => some (r.request.paddr + i)
  | .splitData =>
    (r.fragmentRequests.take r.numTranslatedFragments).findSome? fun f =>
      if f.vaddr ≤ r.request.vaddr + i ∧ r.request.vaddr + i < f.vaddr + f.size then
        some (f.paddr + (r.request.vaddr + i - f.vaddr))
      else none
  | _ => none

/-- The write that a store makes in program order: the bytes of `writeMem` at the addresses
of the enabled bytes. -/
def storePatch (r : LSQRequest) : Lib.Patch Addr Byte := fun (a : Nat) =>
  (List.range r.request.size).reverse.findSome? fun i =>
    if r.request.enabled i = true ∧ r.physAddr i = some a then some (r.writeData i) else none

end LSQRequest

/-! ### The system -/

/-- The LSQ, the stream numbers of Execute, the memory, and the history of the stores. -/
structure LSQSystem where
  lsq : LSQ
  streamSeqNum : ThreadID → InstSeqNum
  mem : Addr → Byte
  committed : List (Lib.Patch Addr Byte)

namespace LSQSystem

/-- The surroundings of one call, and how many packets the port accepts during it. The stream
numbers of `env` are those of the state. -/
structure CallEnv where
  env : LSQEnv
  accepts : Nat

/-- The events. -/
inductive Event where
  | push (args : LSQ.PushArgs) (call : CallEnv)
  | pushFailed (inst : DynInst)
  | markDelayed (p : Nat)
  | finishTranslation (p : Nat) (t : Translation) (call : CallEnv)
  | step (call : CallEnv)
  | perform (k : Nat) (newData : Buffer) (succeeds : Bool)
  | recvTimingResp (k : Nat) (call : CallEnv)
  | recvReqRetry (call : CallEnv)
  | commit (env : ResponseEnv)
  | discard
  | changeStream (tid : ThreadID)
  | issuedMemBarrierInst (inst : DynInst)
  | completeMemBarrierInst (inst : DynInst) (committed : Bool)
  | snoop (write : Lib.Patch Addr Byte)

/-- The system after construction. -/
def new (params : LSQParams) (mem : Addr → Byte) : LSQSystem :=
  { lsq := LSQ.new params, streamSeqNum := fun _ => 1, mem := mem, committed := [] }

/-- The `LSQEnv` of a call. -/
def env (s : LSQSystem) (call : CallEnv) : LSQEnv :=
  { call.env with streamSeqNum := s.streamSeqNum }

variable (s : LSQSystem)

/-- The LSQ at the start of a call. -/
def entered (call : CallEnv) : LSQ :=
  { s.lsq with dcachePort := { s.lsq.dcachePort with accepts := call.accepts } }

/-- The instruction belongs to the current stream of its thread. -/
def rightStream (inst : DynInst) : Bool :=
  inst.id.streamSeqNum == s.streamSeqNum inst.id.threadId

/-- Execute may complete or discard the front of `transfers`. -/
def response : Option Nat :=
  s.lsq.transfers.head?.bind fun p => s.lsq.findResponse (s.lsq.heap p).inst

/-- The memory system may perform a packet when none of the packets sent before it that share
a line with it is still to be performed. -/
def canPerform (k : Nat) (a : MemAccess) : Bool :=
  !a.performed && (s.lsq.dcachePort.inMemory.take k).all fun b =>
    b.performed || !Packet.sharesLine s.lsq.lineWidth b.packet a.packet

/-- The memory system performs the packet `k`. -/
def perform (k : Nat) (a : MemAccess) (newData : Buffer) (succeeds : Bool) : LSQSystem :=
  { s with
    mem := a.packet.effect s.mem newData succeeds
    lsq := { s.lsq with
      dcachePort := { s.lsq.dcachePort with
        inMemory := s.lsq.dcachePort.inMemory.set k
          { a with packet := a.packet.answer s.mem, performed := true } } } }

/-- The packet `k` leaves the memory system. -/
def takeResponse (l : LSQ) (k : Nat) : LSQ :=
  { l with
    dcachePort := { l.dcachePort with inMemory := l.dcachePort.inMemory.eraseIdx k } }

/-- Execute completes the response `p`. A store with an access and without a fault enters the
history. -/
def commit (env : ResponseEnv) (p : Nat) : LSQSystem :=
  let r := s.lsq.heap p
  let result := handleMemResponse s.lsq.thresholdLCT env s.lsq.cvu r
  { s with
    lsq := s.lsq.commitResponse env p
    committed :=
      if !r.isLoad && r.packet.isSome && r.translationFault.isNone && result.fault.isNone then
        s.committed ++ [r.storePatch]
      else s.committed }

/-- One event. Execute pushes and commits instructions of the right stream only. -/
def step (s : LSQSystem) : Event → Option LSQSystem
  | .push args call =>
    if s.rightStream args.inst then
      ((s.entered call).pushRequest (s.env call) args).map fun l => { s with lsq := l }
    else none
  | .pushFailed inst =>
    if s.rightStream inst then some { s with lsq := s.lsq.pushFailedRequest inst } else none
  | .markDelayed p =>
    if p ∈ s.lsq.requests then some { s with lsq := s.lsq.markDelayed p } else none
  | .finishTranslation p t call =>
    if p ∈ s.lsq.requests then
      ((s.entered call).finishTranslation (s.env call) p t).map fun l => { s with lsq := l }
    else none
  | .step call => ((s.entered call).step (s.env call)).map fun l => { s with lsq := l }
  | .perform k newData succeeds =>
    match s.lsq.dcachePort.inMemory[k]? with
    | none => none
    | some a => if s.canPerform k a then some (s.perform k a newData succeeds) else none
  | .recvTimingResp k call =>
    match s.lsq.dcachePort.inMemory[k]? with
    | none => none
    | some a =>
      if a.performed then
        ((takeResponse (s.entered call) k).recvTimingResp (s.env call) a).map fun l =>
          { s with lsq := l }
      else none
  | .recvReqRetry call =>
    ((s.entered call).recvReqRetry (s.env call)).map fun l => { s with lsq := l }
  | .commit env =>
    match s.response with
    | none => none
    | some p => if s.rightStream (s.lsq.heap p).inst then some (s.commit env p) else none
  | .discard =>
    match s.response with
    | none => none
    | some p => some { s with lsq := s.lsq.popResponse p }
  | .changeStream tid =>
    some { s with streamSeqNum := Function.update s.streamSeqNum tid (s.streamSeqNum tid + 1) }
  | .issuedMemBarrierInst inst => some { s with lsq := s.lsq.issuedMemBarrierInst inst }
  | .completeMemBarrierInst inst committed =>
    some { s with lsq := s.lsq.completeMemBarrierInst inst committed }
  | .snoop write => some { s with mem := write.apply s.mem }

end LSQSystem

end Gem5.MyMinor
