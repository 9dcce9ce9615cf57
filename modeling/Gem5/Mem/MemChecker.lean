import Gem5.Lib.Returns
import Mathlib.Data.List.Basic

/-!
# `Gem5.Mem.MemChecker`: the memory checker

The model of `src/mem/mem_checker.hh` and `src/mem/mem_checker.cc` for one byte. A `ByteTracker`
follows the reads and writes of the byte: the reads that are outstanding, what completed reads
have observed, and the writes, in clusters of writes that overlap. `completeRead` says whether the
value of a read is one of those that the writes and observations permit.

A tick is a number below `tickFuture`, and `tickFuture` stands for a completion in the future.
`outstandingReads` is the list of a map in the order of its keys, and `writes` that of an unordered
map. `curTick()` is the tick of the event, as `MemCheckerMonitor` calls the checker with it.
`lastExpectedData` is what the error message prints. The messages and the map from addresses to
trackers are left out.
-/

namespace Gem5.Mem.MemChecker

open Gem5.Lib (Fault)

abbrev Serial := Nat
abbrev Tick := Nat
abbrev Data := BitVec 8

/-- `TICK_INITIAL`. -/
def tickInitial : Tick := 0

/-- `TICK_FUTURE`, which is `MaxTick`. -/
def tickFuture : Tick := 0xffffffffffffffff

/-- `Transaction`. -/
structure Transaction where
  serial : Serial
  start : Tick
  complete : Tick
  data : Data
  deriving Repr, DecidableEq

/-- `WriteCluster`. -/
structure WriteCluster where
  start : Tick
  complete : Tick
  writes : List Transaction
  completeMax : Tick
  numIncomplete : Nat
  deriving Repr, DecidableEq

/-- `assert`. -/
def assert (condition : Bool) (text : String) : Except Fault Unit :=
  if condition then .ok () else .error (.assertion text)

namespace WriteCluster

/-- `WriteCluster::WriteCluster`. -/
def new : WriteCluster :=
  { start := tickFuture, complete := tickFuture, writes := [], completeMax := tickInitial
    numIncomplete := 0 }

variable (c : WriteCluster)

/-- `isComplete`. -/
def isComplete : Bool := c.complete ≠ tickFuture

/-- The insertion into an unordered map. -/
def insertWrite (writes : List Transaction) (x : Transaction) : List Transaction :=
  if writes.any fun w => w.serial == x.serial then writes else writes ++ [x]

variable (serial : Serial)

/-- `startWrite`. -/
def startWrite (start : Tick) (data : Data) :
    Except Fault WriteCluster := do
  assert (!c.isComplete) "!isComplete()"
  let first := if c.start = tickFuture then start else c.start
  assert (first ≤ start) "WriteClusters must filled in order!"
  assert (c.complete = tickFuture || start < c.complete) "_start < complete"
  return { start := first
           complete := tickFuture
           writes := insertWrite c.writes
             { serial := serial, start := start, complete := tickFuture, data := data }
           completeMax := c.completeMax
           numIncomplete := c.numIncomplete + 1 }

/-- `completeWrite`. A write that is not there is only warned about. -/
def completeWrite (complete : Tick) :
    Except Fault WriteCluster := do
  match c.writes.find? fun w => w.serial == serial with
  | none => return c
  | some x =>
    assert (x.complete = tickFuture) "it->second.complete == TICK_FUTURE"
    let completeMax := if c.completeMax < complete then complete else c.completeMax
    let numIncomplete := c.numIncomplete - 1
    return { c with
      writes := c.writes.map fun w =>
        if w.serial = serial then { w with complete := complete } else w
      completeMax := completeMax
      numIncomplete := numIncomplete
      complete := if numIncomplete = 0 then completeMax else c.complete }

/-- `abortWrite`. A write that is not there is only warned about. -/
def abortWrite : WriteCluster :=
  if c.writes.any fun w => w.serial == serial then
    let writes := c.writes.filter fun w => w.serial ≠ serial
    let numIncomplete := c.numIncomplete - 1
    { c with
      writes := writes
      numIncomplete := numIncomplete
      complete := if numIncomplete = 0 && !writes.isEmpty then c.completeMax else c.complete }
  else c

end WriteCluster

/-- `ByteTracker`. -/
structure ByteTracker where
  outstandingReads : List Transaction
  readObservations : List Transaction
  writeClusters : List WriteCluster
  lastExpectedData : List Data
  deriving Repr, DecidableEq

/-- A piece of code over the tracker. -/
abbrev TrackerM := StateT ByteTracker (Except Fault)

namespace ByteTracker

/-- The observation that a tracker starts with. -/
def initialObservation : Transaction :=
  { serial := 0, start := tickInitial, complete := tickInitial, data := 0 }

/-- `ByteTracker::ByteTracker`. -/
def new : ByteTracker :=
  { outstandingReads := [], readObservations := [initialObservation], writeClusters := []
    lastExpectedData := [] }

section
variable {α : Type} (complete : α → Tick) (before : Tick)

/-- The loop of `lastCompletedTransaction`, from the end of the list. `seen` is what the loop has
passed. -/
def scanBack : List α → List α → List α
  | seen, [] => seen
  | seen, [x] => x :: seen
  | seen, x :: y :: rest =>
    if before ≤ complete x then scanBack (x :: seen) (y :: rest) else x :: seen

/-- `lastCompletedTransaction`: the part of the list from the iterator on. -/
def lastCompletedTransaction (l : List α) : List α := scanBack complete before [] l.reverse

end

/-- The insertion into a map that is ordered by the serials. -/
def insertRead (x : Transaction) : List Transaction → List Transaction
  | [] => [x]
  | y :: rest =>
    if x.serial < y.serial then x :: y :: rest
    else if x.serial = y.serial then y :: rest
    else y :: insertRead x rest

/-- `startRead`. -/
def startRead (serial : Serial) (start : Tick) : TrackerM Unit :=
  modify fun t =>
    let x : Transaction := { serial := serial, start := start, complete := tickFuture, data := 0 }
    { t with outstandingReads := insertRead x t.outstandingReads }

/-- What the loops of `inExpectedData` compute: `wc_overlap`, `last_obs_valid` and the data that
was seen. -/
structure Scan where
  wcOverlap : Bool
  lastObsValid : Bool
  expected : List Data

section
variable (lastObs : Transaction) (start : Tick) (data : Data)

/-- The inner loop of `inExpectedData`. The first component says that the data was found. -/
def scanWrites : List Transaction → Scan → Bool × Scan
  | [], s => (false, s)
  | write :: rest, s =>
    if write.complete < lastObs.start then scanWrites rest s
    else if write.data = data then (true, s)
    else if start < write.complete then
      scanWrites rest { s with expected := s.expected ++ [write.data] }
    else
      scanWrites rest
        { wcOverlap := false
          lastObsValid := s.lastObsValid && !decide (lastObs.complete < write.start)
          expected := s.expected ++ [write.data] }

/-- The outer loop of `inExpectedData`, from the last cluster on. -/
def scanClusters : List WriteCluster → Scan → Bool × Scan
  | [], s => (false, s)
  | cluster :: rest, s =>
    if s.wcOverlap then
      match scanWrites lastObs start data cluster.writes s with
      | (true, s) => (true, s)
      | (false, s) => scanClusters rest s
    else (false, s)

end

/-- `inExpectedData`, with the data that it has seen. -/
def expectedData (t : ByteTracker) (start complete : Tick) (data : Data) :
    Except Fault (Bool × List Data) := do
  match lastCompletedTransaction Transaction.complete start t.readObservations with
  | [] => throw (.assertion "!l->empty()")
  | lastObs :: _ =>
    match scanClusters lastObs start data t.writeClusters.reverse
        { wcOverlap := true, lastObsValid := lastObs.complete ≠ tickInitial, expected := [] } with
    | (true, s) => return (true, s.expected)
    | (false, s) =>
      if s.lastObsValid then
        assert (lastObs.complete ≤ start) "last_obs.complete <= start"
        if lastObs.data = data then return (true, s.expected)
        else return (false, s.expected ++ [lastObs.data])
      else
        match t.writeClusters.head?, t.writeClusters.getLast?, s.wcOverlap with
        | some first, some last, true =>
          assert (first.start < complete && start < last.complete)
            "writeClusters.begin()->start < complete && writeClusters.rbegin()->complete > start"
          return (true, s.expected)
        | _, _, _ =>
          if s.expected = [] then
            assert (lastObs.complete = tickInitial) "last_obs.complete == TICK_INITIAL"
            return (true, [])
          else return (false, s.expected)

/-- `inExpectedData`. -/
def inExpectedData (start complete : Tick) (data : Data) : TrackerM Bool := do
  let (result, expected) ← StateT.lift (expectedData (← get) start complete data)
  modify fun t => { t with lastExpectedData := expected }
  return result

/-- The tick of the first outstanding read, or the current tick. -/
def firstOutstanding (t : ByteTracker) (curTick : Tick) : Tick :=
  match t.outstandingReads with
  | [] => curTick
  | first :: _ => first.start

/-- `pruneTransactions`. -/
def pruneTransactions (curTick : Tick) : TrackerM Unit :=
  modify fun t =>
    let before := t.firstOutstanding curTick
    { t with
      readObservations := lastCompletedTransaction Transaction.complete before t.readObservations
      writeClusters := lastCompletedTransaction WriteCluster.complete before t.writeClusters }

/-- `completeRead`. A read that is not there is only warned about. -/
def completeRead (serial : Serial) (complete : Tick) (data : Data) : TrackerM Bool := do
  match (← get).outstandingReads.find? fun r => r.serial == serial with
  | none => return true
  | some r =>
    modify fun t =>
      { t with outstandingReads := t.outstandingReads.filter fun r => r.serial ≠ serial }
    let result ← inExpectedData r.start complete data
    let x : Transaction := { serial := serial, start := r.start, complete := complete, data := data }
    modify fun t => { t with readObservations := t.readObservations ++ [x] }
    pruneTransactions complete
    return result

/-- `getIncompleteWriteCluster`: the clusters before it, and the cluster. -/
def getIncompleteWriteCluster (clusters : List WriteCluster) : List WriteCluster × WriteCluster :=
  match clusters.getLast? with
  | none => (clusters, .new)
  | some last => if last.isComplete then (clusters, .new) else (clusters.dropLast, last)

/-- `startWrite`. -/
def startWrite (serial : Serial) (start : Tick) (data : Data) : TrackerM Unit := do
  let (front, cluster) := getIncompleteWriteCluster (← get).writeClusters
  let cluster ← StateT.lift (cluster.startWrite serial start data)
  modify fun t => { t with writeClusters := front ++ [cluster] }

/-- `completeWrite`. -/
def completeWrite (serial : Serial) (complete : Tick) : TrackerM Unit := do
  let (front, cluster) := getIncompleteWriteCluster (← get).writeClusters
  let cluster ← StateT.lift (cluster.completeWrite serial complete)
  modify fun t => { t with writeClusters := front ++ [cluster] }
  pruneTransactions complete

/-- `abortWrite`. -/
def abortWrite (serial : Serial) : TrackerM Unit :=
  modify fun t =>
    let (front, cluster) := getIncompleteWriteCluster t.writeClusters
    { t with writeClusters := front ++ [cluster.abortWrite serial] }

end ByteTracker

/-- The calls for one byte, with the tick of each. -/
inductive Event
  | startRead (serial : Serial) (tick : Tick)
  | startWrite (serial : Serial) (tick : Tick) (data : Data)
  | completeRead (serial : Serial) (tick : Tick) (data : Data)
  | completeWrite (serial : Serial) (tick : Tick)
  | abortWrite (serial : Serial) (tick : Tick)
  deriving Repr, DecidableEq

/-- The code of a call. The result of a read is what `completeRead` returns. -/
def call : Event → TrackerM Bool
  | .startRead serial tick => do
      ByteTracker.startRead serial tick
      return true
  | .startWrite serial tick data => do
      ByteTracker.startWrite serial tick data
      return true
  | .completeRead serial tick data => ByteTracker.completeRead serial tick data
  | .completeWrite serial tick => do
      ByteTracker.completeWrite serial tick
      return true
  | .abortWrite serial _ => do
      ByteTracker.abortWrite serial
      return true

/-- A history of calls, and whether all reads were accepted. -/
def accepts : List Event → TrackerM Bool
  | [] => return true
  | e :: rest => do
      let result ← call e
      let results ← accepts rest
      return result && results

end Gem5.Mem.MemChecker
