import Gem5.Lib.Returns
import Mathlib.Algebra.Group.Nat.Defs

/-!
# `Gem5.Mem.PacketQueue`: packets that are sent later

The model of `src/mem/packet_queue.cc`. A `PacketQueue` holds packets with the tick at which
they may be sent, one event that sends the first of them, and a flag for a peer that refused a
packet and will ask for it again.

The peer of `sendTiming` is an `Answer`: it refuses the packet and does nothing else, or it
accepts the packet and calls `schedSendTiming` any number of times before it returns. The clock
and the event queue are the fields `curTick` and `sendEvent`. The event leaves the event queue
before it is processed.

Three fields only serve statements: the number of each call of `schedSendTiming`, how many
there were, and the packets that the peer has accepted. Draining is left out.
-/

namespace Gem5.Mem

open Gem5.Lib (Fault)

/-- `MaxTick`. -/
def maxTick : Nat := 2 ^ 64 - 1

/-- The fields of a `Packet` that the queue looks at. -/
structure Packet where
  addr : Nat
  isSecure : Bool
  isExpressSnoop : Bool
  deriving Repr, DecidableEq

/-- `Packet::matchAddr`. -/
def Packet.matchAddr (p pkt : Packet) : Bool :=
  p.addr == pkt.addr && p.isSecure == pkt.isSecure

/-- `DeferredPacket`. `order` is the number of the call that queued it. -/
structure DeferredPacket where
  tick : Nat
  pkt : Packet
  order : Nat
  deriving Repr, DecidableEq

/-- `PacketQueue`. `sendEvent` is the tick of the send event while it is scheduled. -/
structure PacketQueue where
  forceOrder : Bool
  disableSanityCheck : Bool
  curTick : Nat
  transmitList : List DeferredPacket
  sendEvent : Option Nat
  waitingOnRetry : Bool
  calls : Nat
  accepted : List (Nat × DeferredPacket)
  deriving Repr, DecidableEq

namespace PacketQueue

/-- What the peer does with a packet. -/
inductive Answer where
  | refuse
  | accept (calls : List (Packet × Nat))
  deriving Repr, DecidableEq

/-- The constructor. -/
def new (forceOrder disableSanityCheck : Bool) : PacketQueue :=
  { forceOrder := forceOrder, disableSanityCheck := disableSanityCheck, curTick := 0
    transmitList := [], sendEvent := none, waitingOnRetry := false, calls := 0, accepted := [] }

/-- `assert`. -/
def assert (condition : Bool) (text : String) : Except Fault Unit :=
  if condition then .ok () else .error (.assertion text)

/-- The panic of the sanity check. -/
def grownBeyond : Fault :=
  .panic "Packet queue %s has grown beyond 128 packets\n"

variable (q : PacketQueue)

/-- `EventManager::schedule` and `reschedule` for the send event. -/
def schedule (when : Nat) : Except Fault PacketQueue := do
  assert (decide (q.curTick ≤ when)) "when >= getCurTick()"
  pure { q with sendEvent := some when }

/-- `schedSendEvent`. -/
def schedSendEvent (when : Nat) : Except Fault PacketQueue :=
  if q.waitingOnRetry then do
    assert q.sendEvent.isNone "!sendEvent.scheduled()"
    pure q
  else if when ≠ maxTick then
    let soonest := max when ((q.curTick + 1) % 2 ^ 64)
    match q.sendEvent with
    | none => q.schedule soonest
    | some scheduled => if soonest < scheduled then q.schedule soonest else pure q
  else pure q

/-- The loop of `schedSendTiming`, over the list from its end: the packet goes behind the first
entry that must stay in front of it. `none` means that there is no such entry. -/
def emplaceBehind (stays : DeferredPacket → Bool) (dp : DeferredPacket) :
    List DeferredPacket → Option (List DeferredPacket)
  | [] => none
  | it :: rest =>
    if stays it then some (dp :: it :: rest)
    else (emplaceBehind stays dp rest).map fun l => it :: l

/-- `it` stays in front of a packet that is queued for `when`. -/
def staysInFront (pkt : Packet) (when : Nat) (it : DeferredPacket) : Bool :=
  (q.forceOrder && it.pkt.matchAddr pkt) || decide (it.tick ≤ when)

/-- `schedSendTiming`. -/
def schedSendTiming (pkt : Packet) (when : Nat) :
    Except Fault PacketQueue := do
  assert (decide (q.curTick ≤ when)) "when >= curTick()"
  assert (!pkt.isExpressSnoop) "!pkt->isExpressSnoop()"
  if !q.disableSanityCheck && decide (128 < q.transmitList.length) then
    throw grownBeyond
  let dp : DeferredPacket := { tick := when, pkt := pkt, order := q.calls }
  match emplaceBehind (q.staysInFront pkt when) dp q.transmitList.reverse with
  | some l => pure { q with transmitList := l.reverse, calls := q.calls + 1 }
  | none =>
    schedSendEvent { q with transmitList := dp :: q.transmitList, calls := q.calls + 1 } when

/-- The calls that the peer makes from inside `sendTiming`. -/
def callBack (calls : List (Packet × Nat)) : Except Fault PacketQueue :=
  calls.foldlM (fun q call => q.schedSendTiming call.1 call.2) q

/-- `deferredPacketReadyTime`. -/
def deferredPacketReadyTime : Nat :=
  match q.transmitList with
  | [] => maxTick
  | dp :: _ => dp.tick

variable (answer : Answer)

/-- `sendDeferredPacket`, with the answer of the peer. -/
def sendDeferredPacket : Except Fault PacketQueue := do
  assert (!q.waitingOnRetry) "!waitingOnRetry"
  match q.transmitList with
  | [] => throw (.assertion "deferredPacketReady()")
  | dp :: rest =>
    assert (decide (dp.tick ≤ q.curTick)) "deferredPacketReady()"
    match answer with
    | .refuse => pure { q with waitingOnRetry := true }
    | .accept calls =>
      let q ← callBack
        { q with transmitList := rest, accepted := q.accepted ++ [(q.curTick, dp)] } calls
      let q := { q with waitingOnRetry := false }
      q.schedSendEvent q.deferredPacketReadyTime

/-- `processSendEvent`. -/
def processSendEvent : Except Fault PacketQueue := do
  assert (!q.waitingOnRetry) "!waitingOnRetry"
  q.sendDeferredPacket answer

/-- `retry`. -/
def retry : Except Fault PacketQueue := do
  assert q.waitingOnRetry "waitingOnRetry"
  sendDeferredPacket { q with waitingOnRetry := false } answer

/-! ### Runs -/

/-- What happens to a queue. -/
inductive Event where
  | advance (tick : Nat)
  | schedSendTiming (pkt : Packet) (when : Nat)
  | sendEvent (answer : Answer)
  | retry (answer : Answer)
  deriving Repr, DecidableEq

/-- One event. -/
def handle : Event → Except Fault PacketQueue
  | .advance tick => .ok { q with curTick := tick }
  | .schedSendTiming pkt when => q.schedSendTiming pkt when
  | .sendEvent answer => processSendEvent { q with sendEvent := none } answer
  | .retry answer => q.retry answer

/-- One event as a step of a run: `none` is an event that does not return. -/
def step (e : Event) : Option PacketQueue :=
  (q.handle e).toOption

end PacketQueue

end Gem5.Mem
