import Mathlib.Data.Finset.Basic
import Gem5.Lib.Returns

/-!
# `Gem5.Sim.FutexMap`: the futexes of the emulated system calls

The model of `src/sim/futex_map.cc`. Waiting threads are kept twice: in one list per futex, and
in the set `waitingTcs` that `is_waiting` looks at.

An iterator of the map is its key, and `none` is `end()`. Nodes of the map do not move, so a
reference to a list is read and written through its key.

Two calls do what the language does not define, and take what happens then as an argument. `wakeup`
reads the thread of a waiter through a reference into a list node that it has just removed: `freed`
is what these reads give, in their order. `requeue` uses an iterator after an insertion: `rehashes`
says that the insertion has rehashed the table, which leaves the iterator without an element.

Calls of `activate` and `suspend` are collected in the reply. Counts are integers without a bound.
-/

namespace Gem5.Sim

open Gem5.Lib (Fault)

/-- A `ThreadContext *`. -/
abbrev ThreadContext := Nat

/-- `FutexKey`. -/
structure FutexKey where
  addr : Nat
  tgid : Nat
  deriving Repr, DecidableEq

/-- `WaiterState`. -/
structure WaiterState where
  tc : ThreadContext
  bitmask : BitVec 32
  deriving Repr, DecidableEq

/-- `WaiterState::checkMask`. -/
def WaiterState.checkMask (waiter : WaiterState) (wakeupBitmask : BitVec 32) : Bool :=
  waiter.bitmask &&& wakeupBitmask != 0

/-- `FutexMap`: the waiter lists and `waitingTcs`. -/
structure FutexMap where
  find : FutexKey → Option (List WaiterState)
  waitingTcs : Finset ThreadContext

/-- What a call returns, and the threads that it activates and suspends. -/
structure FutexReply where
  result : Option Int
  activated : List ThreadContext
  suspended : List ThreadContext
  deriving Repr, DecidableEq

namespace FutexMap

/-- A map without futexes. -/
def empty : FutexMap :=
  { find := fun _ => none, waitingTcs := ∅ }

variable (m : FutexMap) (key : FutexKey)

/-- The list of `key` is replaced. -/
def set (waiters : List WaiterState) : FutexMap :=
  { m with find := Function.update m.find key (some waiters) }

/-- `if (waiterList.empty()) erase(it)`. -/
def eraseIfEmpty : FutexMap :=
  match m.find key with
  | some [] => { m with find := Function.update m.find key none }
  | _ => m

/-- The loops that take waiters from the front of a list while a counter is below a limit. The
result is what was taken, what is left, and the counter. -/
def popLoop (limit : Int) : Int → List WaiterState → List WaiterState × List WaiterState × Int
  | counter, [] => ([], [], counter)
  | counter, waiter :: waiters =>
    if counter < limit then
      let (taken, left, counter) := popLoop limit (counter + 1) waiters
      (waiter :: taken, left, counter)
    else ([], waiter :: waiters, counter)

/-- The calls of `waitingTcs.erase`. -/
def eraseTcs (tcs : Finset ThreadContext) (gone : List ThreadContext) : Finset ThreadContext :=
  gone.foldl (fun tcs tc => tcs.erase tc) tcs

/-- The list of `key` is cut down to `left`, and the threads `gone` are no longer waiting. -/
def remove (left : List WaiterState) (gone : List ThreadContext) : FutexMap :=
  { find := (m.set key left).find
    waitingTcs := eraseTcs m.waitingTcs gone : FutexMap }.eraseIfEmpty key

variable (addr tgid : Nat) (tc : ThreadContext)

/-- `suspend_bitset`. -/
def suspendBitset (bitmask : BitVec 32) : FutexMap × FutexReply :=
  let key : FutexKey := { addr := addr, tgid := tgid }
  let waiter : WaiterState := { tc := tc, bitmask := bitmask }
  let m :=
    match m.find key with
    | none => m.set key [waiter]
    | some waiterList => m.set key (waiterList ++ [waiter])
  ({ m with waitingTcs := insert tc m.waitingTcs },
    { result := none, activated := [], suspended := [tc] })

/-- `suspend`. -/
def suspend : FutexMap × FutexReply :=
  m.suspendBitset addr tgid tc 0xffffffff

/-- The reply of a call that finds no list. -/
def noFutex : FutexReply :=
  { result := some 0, activated := [], suspended := [] }

/-- The first `n` reads of removed waiters. -/
def reads (freed : List ThreadContext) (n : Nat) : List ThreadContext :=
  (List.range n).map (freed.getD · 0)

/-- `wakeup`. The threads to take out of `waitingTcs` are read from removed waiters. -/
def wakeup (m : FutexMap) (addr tgid : Nat) (count : Int) (freed : List ThreadContext) :
    FutexMap × FutexReply :=
  let key : FutexKey := { addr := addr, tgid := tgid }
  match m.find key with
  | none => (m, noFutex)
  | some waiterList =>
    let (taken, left, wokenUp) := popLoop count 0 waiterList
    (m.remove key left (reads freed taken.length),
      { result := some wokenUp, activated := taken.map WaiterState.tc, suspended := [] })

/-- `wakeup_bitset`. The loop removes the waiters that match, and keeps the others. -/
def wakeupBitset (bitmask : BitVec 32) : FutexMap × FutexReply :=
  let key : FutexKey := { addr := addr, tgid := tgid }
  match m.find key with
  | none => (m, noFutex)
  | some waiterList =>
    let woken := waiterList.filter fun w => w.checkMask bitmask
    (m.remove key (waiterList.filter fun w => !w.checkMask bitmask)
        (woken.map WaiterState.tc),
      { result := some woken.length, activated := woken.map WaiterState.tc, suspended := [] })

/-- `requeue`. With no list at `addr2` and nothing to move, it writes through `end()`. An empty list
at `addr1` is erased through an iterator from before the insertion. -/
def requeue (addr1 tgid : Nat) (count count2 : Int) (addr2 : Nat) (rehashes : Bool) :
    Except Fault (FutexMap × FutexReply) :=
  let key1 : FutexKey := { addr := addr1, tgid := tgid }
  let key2 : FutexKey := { addr := addr2, tgid := tgid }
  match m.find key1 with
  | none => .ok (m, noFutex)
  | some waiterList1 =>
    let (woken, waiterList1, wokenUp) := popLoop count 0 waiterList1
    let (tmpList, waiterList1, requeued) := popLoop count2 0 waiterList1
    let m := m.set key1 waiterList1
    let reply : FutexReply :=
      { result := some (wokenUp + requeued), activated := woken.map WaiterState.tc
        suspended := [] }
    match m.find key2 with
    | none =>
      if requeued > 0 && !(rehashes && waiterList1.isEmpty) then
        .ok ((m.set key2 tmpList).eraseIfEmpty key1, reply)
      else .error .badPointer
    | some waiterList2 => .ok ((m.set key2 (waiterList2 ++ tmpList)).eraseIfEmpty key1, reply)

/-- `is_waiting`. -/
def isWaiting : Bool :=
  decide (tc ∈ m.waitingTcs)

/-! ### Calls -/

/-- The calls that change the map. -/
inductive Call where
  | suspend (addr tgid : Nat) (tc : ThreadContext)
  | suspendBitset (addr tgid : Nat) (tc : ThreadContext) (bitmask : BitVec 32)
  | wakeup (addr tgid : Nat) (count : Int) (freed : List ThreadContext)
  | wakeupBitset (addr tgid : Nat) (bitmask : BitVec 32)
  | requeue (addr1 tgid : Nat) (count count2 : Int) (addr2 : Nat) (rehashes : Bool)
  deriving Repr, DecidableEq

/-- One call. -/
def call (m : FutexMap) :
    Call → Except Fault (FutexMap × FutexReply)
  | .suspend addr tgid tc => .ok (m.suspend addr tgid tc)
  | .suspendBitset addr tgid tc bitmask => .ok (m.suspendBitset addr tgid tc bitmask)
  | .wakeup addr tgid count freed => .ok (m.wakeup addr tgid count freed)
  | .wakeupBitset addr tgid bitmask => .ok (m.wakeupBitset addr tgid bitmask)
  | .requeue addr1 tgid count count2 addr2 rehashes =>
    m.requeue addr1 tgid count count2 addr2 rehashes

/-- A call as a step of a run: `none` is a call that does not return. -/
def step (m : FutexMap) (c : Call) : Option FutexMap :=
  (m.call c).toOption.map Prod.fst

end FutexMap

end Gem5.Sim
