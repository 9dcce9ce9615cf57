import Gem5.Lib.Returns
import Mathlib.Data.Prod.Lex
import Mathlib.Data.List.Basic

/-!
# `Gem5.Sim.EventQueue`: the event queue

The model of `src/sim/eventq.cc` and `eventq.hh` outside parallel mode. The queue is a list of
bins, linked by `nextBin`. A bin is a stack of the events with the same time and priority,
linked by `nextInBin`. Both links live in the events. Only the `nextBin` of the top event of a
bin is kept up to date.

The state holds the events by address. A read of an address without an event is a fault, and
so is a failed assertion or a panic. `followed` notes which events had their `nextBin` followed. The
code does not have this field.

`serviceOne` has two parts. The first one takes the event from the queue, and
`Event::process` starts after it. The second one is what is left to do when the handler has
returned. Between the two parts, handlers make calls of their own, but not `serviceOne`, which holds
the `service_mutex`.

The instance numbers, the names and the trace output of events are left out.
-/

namespace Gem5.Sim

open Gem5.Lib (Fault)

/-- The address of an event. -/
abbrev Ptr := Nat

/-- `Tick`. The queue compares ticks and does not compute with them. -/
abbrev Tick := Nat

/-- `EventBase::Flags`. -/
abbrev Flags := BitVec 16

namespace Flags

variable (f mask : Flags)

/-- `Flags::isSet`. -/
def isSet : Bool := f &&& mask != 0

/-- `Flags::noneSet`. -/
def noneSet : Bool := f &&& mask == 0

/-- `Flags::set`. -/
def set : Flags := f ||| mask

/-- `Flags::clear`. -/
def clear : Flags := f &&& ~~~mask

def publicWrite : Flags := 0x001d
def squashed : Flags := 0x0001
def scheduled : Flags := 0x0002
def managed : Flags := 0x0004
def isExitEvent : Flags := 0x0010
def isMainQueue : Flags := 0x0020
def initialized : Flags := 0x7a40
def initMask : Flags := 0xffc0

end Flags

/-- `Event`. `queue` says whether the `queue` field points to this queue. -/
structure Event where
  nextBin : Option Ptr
  nextInBin : Option Ptr
  when : Tick
  priority : Int
  flags : Flags
  queue : Bool
  deriving Repr, DecidableEq

namespace Event

/-- `Event::Event`. -/
def new (priority : Int) (flags : Flags) : Event :=
  { nextBin := none, nextInBin := none, when := 0, priority := priority
    flags := Flags.initialized ||| flags, queue := false }

/-- `scheduled`. -/
def scheduled (e : Event) : Bool := e.flags.isSet Flags.scheduled

/-- `squashed`. -/
def squashed (e : Event) : Bool := e.flags.isSet Flags.squashed

/-- `isExitEvent`. -/
def isExitEvent (e : Event) : Bool := e.flags.isSet Flags.isExitEvent

/-- `initialized`. -/
def initialized (e : Event) : Bool := e.flags &&& Flags.initMask == Flags.initialized

variable (l r : Event)

/-- `operator<`. -/
def lt : Bool :=
  l.when < r.when || l.when == r.when && l.priority < r.priority

/-- `operator<=`. -/
def le : Bool :=
  l.when < r.when || l.when == r.when && l.priority ≤ r.priority

/-- `operator==`. -/
def eq : Bool :=
  l.when == r.when && l.priority == r.priority

end Event

/-- `EventQueue`, with the events it can reach. Every event has an address below `addresses`.
`inService` is the event whose handler runs, while `serviceOne` holds the mutex. `followed`
lists the events whose `nextBin` the last call followed. -/
structure EventQueue where
  heap : Ptr → Option Event
  head : Option Ptr
  curTick : Tick
  addresses : Nat
  inService : Option Ptr
  followed : List Ptr

/-- A piece of code over the queue. -/
abbrev QueueM := StateT EventQueue (Except Fault)

namespace EventQueue

/-- `EventQueue::EventQueue`. No event exists yet. -/
def new : EventQueue :=
  { heap := fun _ => none, head := none, curTick := 0, addresses := 0, inService := none
    followed := [] }

/-- `*p`. -/
def deref (p : Ptr) : QueueM Event := do
  match (← get).heap p with
  | some e => return e
  | none => throw .badPointer

/-- Writes fields of `*p`. -/
def update (p : Ptr) (f : Event → Event) : QueueM Unit := do
  let e ← deref p
  modify fun q => { q with heap := Function.update q.heap p (some (f e)) }

/-- `delete p`. -/
def free (p : Ptr) : QueueM Unit :=
  modify fun q => { q with heap := Function.update q.heap p none }

/-- `p->nextBin`. -/
def followBin (p : Ptr) : QueueM (Option Ptr) := do
  let e ← deref p
  modify fun q => { q with followed := p :: q.followed }
  return e.nextBin

/-- `assert`. -/
def assert (condition : Bool) (text : String) : QueueM Unit :=
  if condition then pure () else throw (.assertion text)

variable (event : Ptr)

/-- `Event::insertBefore`. It returns `event`. -/
def insertBefore (curr : Option Ptr) : QueueM Ptr := do
  match curr with
  | none => update event fun e => { e with nextBin := none, nextInBin := none }
  | some c =>
    let e ← deref event
    let ec ← deref c
    if e.lt ec then
      update event fun e => { e with nextBin := some c, nextInBin := none }
    else
      let bin ← followBin c
      update event fun e => { e with nextBin := bin, nextInBin := some c }
  return event

/-- The loop of `insert` and of `remove`. It walks the bins while they are before `event`. The
result is `prev` and `curr`. -/
def findBin (event : Ptr) : Nat → Ptr → Option Ptr → QueueM (Ptr × Option Ptr)
  | _, prev, none => return (prev, none)
  | 0, _, some _ => throw .outOfFuel
  | n + 1, prev, some curr => do
      let ec ← deref curr
      let e ← deref event
      if ec.lt e then
        let bin ← followBin curr
        findBin event n curr bin
      else return (prev, some curr)

/-- `EventQueue::insert`. -/
def insert : QueueM Unit := do
  let q ← get
  match q.head with
  | none =>
    let top ← insertBefore event none
    modify fun q => { q with head := some top }
  | some h =>
    let e ← deref event
    let eh ← deref h
    if e.le eh then
      let top ← insertBefore event (some h)
      modify fun q => { q with head := some top }
    else
      let bin ← followBin h
      let (prev, curr) ← findBin event q.addresses h bin
      let top ← insertBefore event curr
      update prev fun e => { e with nextBin := some top }

/-- The loop of `removeItem`, from `curr` and its successor. -/
def removeInBin (event : Ptr) : Nat → Ptr → Option Ptr → QueueM Unit
  | _, _, none => throw (.panic "event not found!")
  | 0, _, some _ => throw .outOfFuel
  | n + 1, curr, some next => do
      let e ← deref next
      if event = next then
        update curr fun ec => { ec with nextInBin := e.nextInBin }
      else removeInBin event n next e.nextInBin

/-- `Event::removeItem`. It returns the new top of the bin, or the next bin. -/
def removeItem (event top : Ptr) : QueueM (Option Ptr) := do
  let q ← get
  let et ← deref top
  if event = top then
    let bin ← followBin top
    match et.nextInBin with
    | none => return bin
    | some next =>
      update next fun e => { e with nextBin := bin }
      return some next
  else
    removeInBin event q.addresses top et.nextInBin
    return some top

/-- `EventQueue::remove`. -/
def remove : QueueM Unit := do
  let q ← get
  match q.head with
  | none => throw (.panic "event not found!")
  | some h =>
    let e ← deref event
    assert e.queue "event->queue == this"
    let eh ← deref h
    if eh.eq e then
      let top ← removeItem event h
      modify fun q => { q with head := top }
    else
      let bin ← followBin h
      let (prev, curr) ← findBin event q.addresses h bin
      match curr with
      | none => throw (.panic "event not found!")
      | some c =>
        let ec ← deref c
        if ec.eq e then
          let top ← removeItem event c
          update prev fun e => { e with nextBin := top }
        else throw (.panic "event not found!")

/-- `Event::release`, with the `releaseImpl` of `Event`. -/
def release : QueueM Unit := do
  let e ← deref event
  if e.flags.isSet Flags.managed && !e.scheduled then free event else pure ()

variable (when : Tick)

/-- `Event::setWhen`. -/
def setWhen : QueueM Unit :=
  update event fun e => { e with when := when, queue := true }

/-- `EventQueue::schedule`. `acquire` does nothing for an `Event`. -/
def schedule : QueueM Unit := do
  assert (decide (when ≥ (← get).curTick)) "when >= getCurTick()"
  let e ← deref event
  assert (!e.scheduled) "!event->scheduled()"
  assert e.initialized "event->initialized()"
  setWhen event when
  insert event
  update event fun e => { e with flags := e.flags.set Flags.scheduled }

/-- `EventQueue::deschedule`. -/
def deschedule : QueueM Unit := do
  let e ← deref event
  assert e.scheduled "event->scheduled()"
  assert e.initialized "event->initialized()"
  remove event
  update event fun e =>
    { e with flags := (e.flags.clear Flags.squashed).clear Flags.scheduled }
  release event

/-- `EventQueue::reschedule`. -/
def reschedule (always : Bool) : QueueM Unit := do
  assert (decide (when ≥ (← get).curTick)) "when >= getCurTick()"
  let e ← deref event
  assert (always || e.scheduled) "always || event->scheduled()"
  assert e.initialized "event->initialized()"
  if e.scheduled then remove event else pure ()
  setWhen event when
  insert event
  update event fun e =>
    { e with flags := (e.flags.clear Flags.squashed).set Flags.scheduled }

/-- The part of `serviceOne` that takes the event at the head from the queue. `next` is the
event below it. -/
def popHead (next : Option Ptr) : QueueM Unit := do
  let bin ← followBin event
  match next with
  | some next =>
    update next fun en => { en with nextBin := bin }
    modify fun q => { q with head := some next }
  | none => modify fun q => { q with head := bin }

/-- `EventQueue::serviceOne`, up to the call of `process`. A squashed event has no handler, and
the call ends here. -/
def serviceOne : QueueM Unit := do
  match (← get).head with
  | none => throw .badPointer
  | some event =>
    let next := (← deref event).nextInBin
    update event fun e => { e with flags := e.flags.clear Flags.scheduled }
    popHead event next
    let e ← deref event
    if !e.squashed then
      modify fun q => { q with curTick := e.when, inService := some event }
    else
      update event fun e => { e with flags := e.flags.clear Flags.squashed }
      release event

/-- The end of `serviceOne`, when `process` has returned. -/
def endService : QueueM Unit := do
  let e ← deref event
  if e.isExitEvent then
    assert (!e.flags.isSet Flags.managed || !e.flags.isSet Flags.isMainQueue)
      "!event->flags.isSet(Event::Managed) || !event->flags.isSet(Event::IsMainQueue)"
  else release event
  modify fun q => { q with inService := none }

end EventQueue

/-- What the simulator does with events and with the queue. -/
inductive Call where
  | construct (event : Ptr) (priority : Int) (flags : Flags)
  | destroy (event : Ptr)
  | setFlags (event : Ptr) (flags : Flags)
  | clearFlags (event : Ptr) (flags : Flags)
  | schedule (event : Ptr) (when : Tick)
  | deschedule (event : Ptr)
  | reschedule (event : Ptr) (when : Tick) (always : Bool)
  | serviceOne
  | endService
  deriving Repr, DecidableEq

namespace EventQueue

variable (event : Ptr)

/-- A constructor runs on memory that holds no event. -/
def construct (priority : Int) (flags : Flags) : QueueM Unit := do
  assert (flags.noneSet (~~~Flags.publicWrite)) "f.noneSet(~PublicWrite)"
  match (← get).heap event with
  | some _ => throw .badPointer
  | none =>
    modify fun q =>
      { q with heap := Function.update q.heap event (some (Event.new priority flags))
               addresses := max q.addresses (event + 1) }

/-- `Event::~Event`. -/
def destroy : QueueM Unit := do
  let e ← deref event
  assert (!e.scheduled) "!scheduled()"
  free event

/-- `Event::setFlags`, and `Event::squash`, which sets `Squashed`. -/
def setFlags (flags : Flags) : QueueM Unit := do
  assert (flags.noneSet (~~~Flags.publicWrite)) "_flags.noneSet(~PublicWrite)"
  update event fun e => { e with flags := e.flags.set flags }

/-- `Event::clearFlags`. -/
def clearFlags (flags : Flags) : QueueM Unit := do
  assert (flags.noneSet (~~~Flags.publicWrite)) "_flags.noneSet(~PublicWrite)"
  update event fun e => { e with flags := e.flags.clear flags }

variable (q : EventQueue)

/-- The code of a call. -/
def code : Call → QueueM Unit
  | .construct event priority flags => construct event priority flags
  | .destroy event => destroy event
  | .setFlags event flags => setFlags event flags
  | .clearFlags event flags => clearFlags event flags
  | .schedule event when => schedule event when
  | .deschedule event => deschedule event
  | .reschedule event when always => reschedule event when always
  | .serviceOne => serviceOne
  | .endService =>
    match q.inService with
    | some event => endService event
    | none => pure ()

/-- What a call does: its faults, or the queue after it. -/
def call (c : Call) : Except Fault EventQueue :=
  (code q c { q with followed := [] }).map Prod.snd

/-- `serviceOne` waits for the mutex, and a handler can only return when one runs. -/
def blocked : Call → Bool
  | .serviceOne => q.inService.isSome
  | .endService => q.inService.isNone
  | _ => false

/-- One call of a run. A call that stops with a fault ends the run. -/
def step (c : Call) : Option EventQueue :=
  if q.blocked c then none else (call q c).toOption

/-- What `Event::serialize` writes. The flags are written as a `short`. -/
structure SavedEvent where
  when : Tick
  priority : Int
  flags : Int
  deriving Repr, DecidableEq

end EventQueue

/-- `Event::serialize`. -/
def Event.serialize (e : Event) : EventQueue.SavedEvent :=
  { when := e.when, priority := e.priority, flags := e.flags.toInt }

namespace EventQueue

/-- `Event::unserialize`. The flags are read as an `unsigned short`, and a negative number is
out of its range. -/
def unserialize (event : Ptr) (cp : SavedEvent) : QueueM Unit := do
  let e ← deref event
  assert (!e.scheduled) "!scheduled()"
  update event fun e => { e with when := cp.when, priority := cp.priority }
  if cp.flags < 0 then throw (.fatal "Can't unserialize '_flags'")
  else
    let e ← deref event
    assert e.initialized "initialized()"
    let flags := Flags.set (BitVec.ofInt 16 cp.flags) Flags.initialized
    let flags :=
      if flags.isSet Flags.scheduled && !flags.isSet Flags.squashed then
        flags.clear (Flags.squashed ||| Flags.scheduled)
      else flags
    update event fun e => { e with flags := flags }

/-- `EventQueue::checkpointReschedule`. -/
def checkpointReschedule (event : Ptr) : QueueM Unit := do
  let e ← deref event
  if e.flags.isSet Flags.scheduled then insert event else pure ()

/-- `UNSERIALIZE_EVENT` for the events that were saved, one after the other. The event at
address `i + k` gets the `k`-th saved state. -/
def unserializeEvents : Ptr → List SavedEvent → QueueM Unit
  | _, [] => pure ()
  | i, cp :: cps => do
      unserialize i cp
      checkpointReschedule i
      unserializeEvents (i + 1) cps

/-- An empty queue with fresh event objects at the addresses `0`, `1` and so on. -/
def fresh (objects : List Event) : EventQueue :=
  { new with heap := fun p => objects[p]?, addresses := objects.length }

end EventQueue

end Gem5.Sim
