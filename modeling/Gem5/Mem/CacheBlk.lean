import Mathlib.Tactic.Ring

/-!
# `Gem5.Mem.CacheBlk`: load locks of a cache block

The model of the load-locked and store-conditional part of `src/mem/cache/cache_blk.hh`. A
load-locked puts a `Lock` on its byte range, and a store conditional succeeds if it finds a lock
of its context that contains its range. `checkWrite` returns what it writes to the extra data of
a store conditional's request.

The other fields of a block (tag, coherence bits, prefetch flag, times, statistics) are left out:
these functions do not read them.
-/

namespace Gem5.Mem

/-- The part of a `Request` that the locks read: its context and its bytes. A request has at least
one byte and ends inside the address space. -/
structure BlkRequest where
  contextId : Int
  paddr : BitVec 64
  size : Nat
  nonempty : 0 < size
  fits : paddr.toNat + size ≤ 2 ^ 64

/-- `req_high`: the address of the last byte. -/
def BlkRequest.high (req : BlkRequest) : BitVec 64 :=
  req.paddr + BitVec.ofNat 64 req.size - 1

/-- `CacheBlk::Lock`. -/
structure Lock where
  contextId : Int
  lowAddr : BitVec 64
  highAddr : BitVec 64
  deriving Repr, DecidableEq

namespace Lock

/-- `Lock::Lock`. -/
def new (req : BlkRequest) : Lock :=
  { contextId := req.contextId, lowAddr := req.paddr, highAddr := req.high }

/-- `Lock::matches`. -/
def «matches» (l : Lock) (req : BlkRequest) : Bool :=
  l.contextId == req.contextId && (l.lowAddr ≤ req.paddr && req.high ≤ l.highAddr)

/-- `Lock::intersects`. -/
def intersects (l : Lock) (req : BlkRequest) : Bool :=
  req.paddr ≤ l.highAddr && l.lowAddr ≤ req.high

end Lock

/-- `CacheBlk`. -/
structure CacheBlk where
  lockList : List Lock
  deriving Repr, DecidableEq

namespace CacheBlk

/-- `invalidate`, which the constructor calls. -/
def invalidate : CacheBlk :=
  { lockList := [] }

variable (blk : CacheBlk)

/-- `trackLoadLocked`: the new lock replaces all that it intersects, also those of other
contexts. -/
def trackLoadLocked (req : BlkRequest) : CacheBlk :=
  { lockList := Lock.new req :: blk.lockList.filter fun l => !l.intersects req }

/-- `clearLoadLocks`. -/
def clearLoadLocks (req : BlkRequest) : CacheBlk :=
  { lockList := blk.lockList.filter fun l =>
      !(l.intersects req && l.contextId != req.contextId) }

/-- `checkWrite`, with `isLLSC` set for a store conditional. The first lock that matches a store
conditional is erased. -/
def checkWrite (isLLSC : Bool) (req : BlkRequest) : Bool × CacheBlk :=
  if !isLLSC && blk.lockList.isEmpty then (true, blk)
  else if isLLSC then
    (blk.lockList.any fun l => l.matches req,
      clearLoadLocks { lockList := blk.lockList.eraseP fun l => l.matches req } req)
  else (true, blk.clearLoadLocks req)

/-- The calls on a block. -/
inductive Event where
  | trackLoadLocked (req : BlkRequest)
  | checkWrite (isLLSC : Bool) (req : BlkRequest)
  | invalidate

def step : Event → CacheBlk
  | .trackLoadLocked req => blk.trackLoadLocked req
  | .checkWrite isLLSC req => (blk.checkWrite isLLSC req).2
  | .invalidate => invalidate

/-- A new block after a history of calls. -/
def after (history : List Event) : CacheBlk :=
  history.foldl step invalidate

end CacheBlk

end Gem5.Mem
