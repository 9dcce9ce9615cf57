import Gem5.MyMinor.Types

/-!
# `Gem5.Pred.BTB`: the branch target buffer

`DefaultBTB` of `cpu/pred/btb.cc`: a direct-mapped table, indexed by the PC and the thread.
-/

namespace Gem5.Pred

open MyMinor (Addr ThreadID)

/-- `DefaultBTB::BTBEntry`. -/
structure BTBEntry (PC : Type) where
  tag : Addr
  target : Option PC
  tid : ThreadID
  valid : Bool

/-- `DefaultBTB`. -/
structure DefaultBTB (PC : Type) where
  btb : Nat → BTBEntry PC
  numEntries : Nat
  tagBits : Nat
  instShiftAmt : Nat
  log2NumThreads : Nat

namespace DefaultBTB

variable {PC : Type}

/-- The constructor: every entry is invalid. -/
def new (numEntries tagBits instShiftAmt numThreads : Nat) : DefaultBTB PC :=
  { btb := fun _ => { tag := 0, target := none, tid := 0, valid := false }
    numEntries := numEntries
    tagBits := tagBits
    instShiftAmt := instShiftAmt
    log2NumThreads := Nat.log2 numThreads }

variable (b : DefaultBTB PC) (instPC : Addr)

/-- `DefaultBTB::getIndex`. The source shifts the thread by
`tagShiftAmt - instShiftAmt - log2NumThreads`, and `tagShiftAmt` is `instShiftAmt` plus the
logarithm of the table size. -/
def getIndex (tid : ThreadID) : Nat :=
  ((instPC >>> b.instShiftAmt) ^^^ (tid <<< (Nat.log2 b.numEntries - b.log2NumThreads)))
    &&& (b.numEntries - 1)

/-- `DefaultBTB::getTag`. -/
def getTag : Addr :=
  (instPC >>> (b.instShiftAmt + Nat.log2 b.numEntries)) &&& (2 ^ b.tagBits - 1)

/-- `DefaultBTB::valid`. -/
def valid (b : DefaultBTB PC) (instPC : Addr) (tid : ThreadID) : Bool :=
  let entry := b.btb (b.getIndex instPC tid)
  entry.valid && b.getTag instPC == entry.tag && entry.tid == tid

/-- `DefaultBTB::lookup`. -/
def lookup (tid : ThreadID) : Option PC :=
  if b.valid instPC tid then (b.btb (b.getIndex instPC tid)).target else none

/-- `DefaultBTB::update`. -/
def update (b : DefaultBTB PC) (instPC : Addr) (target : PC) (tid : ThreadID) :
    DefaultBTB PC :=
  { b with
    btb := Function.update b.btb (b.getIndex instPC tid)
      { tag := b.getTag instPC, target := some target, tid := tid, valid := true } }

end DefaultBTB

end Gem5.Pred
