import Gem5.MyMinor.Types

/-!
# `Gem5.MyMinor.Interrupts`: polling the threads for interrupts

The model of `Execute::checkInterrupts` in `src/cpu/myminor/execute.cc`. Its loop goes around the
threads from `interruptPriority` on. A thread whose interrupt turns out to be `NoFault` is not left:
the loop ends if it is the first one, and looks at it again if not.
-/

namespace Gem5.MyMinor

/-- What `checkInterrupts` reads. `getInterrupt` is the answer to a call in a round of its loop. -/
structure InterruptPoll where
  fullSystem : Bool
  numThreads : Nat
  interruptPriority : ThreadID
  hasInterruptController : ThreadID → Bool
  notDraining : ThreadID → Bool
  isInterrupted : ThreadID → Bool
  isInbetweenInsts : ThreadID → Bool
  getInterrupt : Nat → ThreadID → Fault

/-- What `checkInterrupts` returns and sets, and the threads it has looked at. -/
structure PollResult where
  looked : List ThreadID
  tid : Option ThreadID
  interruptPriority : ThreadID
  interrupted : Bool
  deriving Repr, DecidableEq

namespace InterruptPoll

variable (e : InterruptPoll)

/-- `hasInterrupt`. -/
def hasInterrupt (tid : ThreadID) : Bool :=
  e.fullSystem && e.hasInterruptController tid && e.notDraining tid && e.isInterrupted tid

/-- The loop acts on the interrupt of a thread. -/
def acts (tid : ThreadID) : Bool := e.hasInterrupt tid && e.isInbetweenInsts tid

/-- `takeInterrupt`. -/
def takeInterrupt (round : Nat) (tid : ThreadID) : Bool := (e.getInterrupt round tid).isSome

/-- The thread of the next round, if no interrupt was taken. -/
def next (tid : ThreadID) : ThreadID := if e.acts tid then tid else (tid + 1) % e.numThreads

/-- The `do` loop of `checkInterrupts` from a round on: the threads that it looks at, and the one
whose interrupt it takes. -/
def pollFrom : Nat → Nat → ThreadID → Option (List ThreadID × Option ThreadID)
  | 0, _, _ => none
  | fuel + 1, round, tid =>
    if e.acts tid && e.takeInterrupt round tid then some ([tid], some tid)
    else if e.next tid = e.interruptPriority then some ([tid], none)
    else (pollFrom fuel (round + 1) (e.next tid)).map fun r => (tid :: r.1, r.2)

/-- `checkInterrupts`, with a bound on the rounds. -/
def checkInterrupts (fuel : Nat) (interrupted : Bool) : Option PollResult :=
  (e.pollFrom fuel 0 e.interruptPriority).map fun r =>
    { looked := r.1, tid := r.2, interruptPriority := r.2.getD e.interruptPriority
      interrupted := interrupted || r.1.any e.hasInterrupt }

end InterruptPoll

end Gem5.MyMinor
