import Gem5.Lib.Run
import Gem5.MyMinor.Types
import Mathlib.Data.List.Sort

/-!
# `Gem5.O3.StoreSet`: the store set predictor of the O3 CPU

The model of `src/cpu/o3/store_set.{hh,cc}`. The SSIT maps the PC of a load or a store to its store
set, and the LFST holds the last fetched store of each set. Indices and sets are in range, as the
source asserts: the tables are functions on `Fin`. `storeList` is the map of the stores in the
tables that are neither issued nor squashed, youngest first.

`insertLoad` only calls `checkClear`. `dump` and the debug output are left out.
-/

namespace Gem5.O3

open Function

open MyMinor (Addr InstSeqNum ThreadID)

/-- `StoreSet`, with `S` entries in the SSIT and `L` entries in the LFST. -/
structure StoreSet (S L : Nat) where
  SSIT : Fin S → Fin L
  validSSIT : Fin S → Bool
  LFST : Fin L → InstSeqNum
  validLFST : Fin L → Bool
  storeList : List (InstSeqNum × Fin L)
  clearPeriod : BitVec 64
  memOpsPred : BitVec 32

namespace StoreSet

variable {S L : Nat} [NeZero S] [NeZero L]

/-- `init`, after the construction. -/
def init (clearPeriod : BitVec 64) : StoreSet S L :=
  { SSIT := fun _ => 0, validSSIT := fun _ => false
    LFST := fun _ => 0, validLFST := fun _ => false
    storeList := [], clearPeriod := clearPeriod, memOpsPred := 0 }

/-- `calcIndex`. -/
def calcIndex (pc : Addr) : Fin S :=
  ⟨(pc >>> 2) &&& (S - 1), Nat.lt_of_le_of_lt Nat.and_le_right (Nat.pred_lt (NeZero.ne S))⟩

/-- `calcSSID`. -/
def calcSSID (pc : Addr) : Fin L :=
  Fin.ofNat L (pc ^^^ (pc >>> 10))

section
variable (s : StoreSet S L)

/-- `violation`: the load and the store get one set. The set with the lower number wins. -/
def violation (storePC loadPC : Addr) : StoreSet S L :=
  let load : Fin S := calcIndex loadPC
  let store : Fin S := calcIndex storePC
  if !s.validSSIT load && !s.validSSIT store then
    { s with
      validSSIT := update (update s.validSSIT load true) store true
      SSIT := update (update s.SSIT load (calcSSID loadPC)) store (calcSSID loadPC) }
  else if s.validSSIT load && !s.validSSIT store then
    { s with
      validSSIT := update s.validSSIT store true
      SSIT := update s.SSIT store (s.SSIT load) }
  else if !s.validSSIT load && s.validSSIT store then
    { s with
      validSSIT := update s.validSSIT load true
      SSIT := update s.SSIT load (s.SSIT store) }
  else if s.SSIT load < s.SSIT store then { s with SSIT := update s.SSIT store (s.SSIT load) }
  else { s with SSIT := update s.SSIT load (s.SSIT store) }

/-- `clear`. -/
def clear : StoreSet S L :=
  { s with validSSIT := fun _ => false, validLFST := fun _ => false, storeList := [] }

/-- `checkClear`. The comparison converts the `int` to 64 bits. -/
def checkClear : StoreSet S L :=
  let memOpsPred := s.memOpsPred + 1
  if s.clearPeriod < memOpsPred.signExtend 64 then { s.clear with memOpsPred := 0 }
  else { s with memOpsPred := memOpsPred }

/-- `insertStore`. -/
def insertStore (storePC : Addr) (seqNum : InstSeqNum) (_ : ThreadID) : StoreSet S L :=
  let s := s.checkClear
  let index : Fin S := calcIndex storePC
  if !s.validSSIT index then s
  else
    { s with
      LFST := update s.LFST (s.SSIT index) seqNum
      validLFST := update s.validLFST (s.SSIT index) true
      storeList := (s.storeList.filter fun e => e.1 ≠ seqNum).orderedInsert
        (fun e f => f.1 ≤ e.1) (seqNum, s.SSIT index) }

/-- `checkInst`: the store on which the instruction depends, or 0. -/
def checkInst (pc : Addr) : InstSeqNum :=
  let index : Fin S := calcIndex pc
  if !s.validSSIT index then 0
  else if !s.validLFST (s.SSIT index) then 0
  else s.LFST (s.SSIT index)

/-- `issued`. It invalidates the last store of the set that the PC has now. -/
def issued (pc : Addr) (seqNum : InstSeqNum) (isStore : Bool) : StoreSet S L :=
  if !isStore then s
  else
    let s := { s with storeList := s.storeList.filter fun e => e.1 ≠ seqNum }
    let index : Fin S := calcIndex pc
    if !s.validSSIT index then s
    else if s.validLFST (s.SSIT index) && s.LFST (s.SSIT index) == seqNum then
      { s with validLFST := update s.validLFST (s.SSIT index) false }
    else s

omit [NeZero S] [NeZero L]

/-- The loop of `squash`. A turn erases the front of the list, ends the loop, or does nothing. -/
def squashLoop (squashedNum : InstSeqNum) : Nat → StoreSet S L → Option (StoreSet S L)
  | 0, _ => none
  | fuel + 1, s =>
    match s.storeList with
    | [] => some s
    | (seqNum, idx) :: rest =>
      if seqNum ≤ squashedNum then some s
      else
        let younger := decide (squashedNum < s.LFST idx)
        if s.validLFST idx && younger then
          squashLoop squashedNum fuel
            { s with validLFST := update s.validLFST idx false, storeList := rest }
        else if !s.validLFST idx && younger then
          squashLoop squashedNum fuel { s with storeList := rest }
        else squashLoop squashedNum fuel s

/-- `squash`. A turn that does nothing is followed by the same turn, so a loop that returns does
so after one turn for each entry and one more. -/
def squash (squashedNum : InstSeqNum) (_ : ThreadID) : Option (StoreSet S L) :=
  squashLoop squashedNum (s.storeList.length + 1) s

end

/-- The calls that change the tables. -/
inductive Event where
  | insertStore (storePC : Addr) (seqNum : InstSeqNum) (tid : ThreadID)
  | violation (storePC loadPC : Addr)
  | issued (pc : Addr) (seqNum : InstSeqNum) (isStore : Bool)
  | checkClear
  | squash (squashedNum : InstSeqNum) (tid : ThreadID)

/-- One call. A squash that does not end has no next state. -/
def step (s : StoreSet S L) : Event → Option (StoreSet S L)
  | .insertStore storePC seqNum tid => some (s.insertStore storePC seqNum tid)
  | .violation storePC loadPC => some (s.violation storePC loadPC)
  | .issued pc seqNum isStore => some (s.issued pc seqNum isStore)
  | .checkClear => some s.checkClear
  | .squash squashedNum tid => s.squash squashedNum tid

/-- The predictor under the calls of one thread. `live` are the stores that were inserted and since
then neither issued nor squashed, and `newest` is the last sequence number. -/
structure Thread (S L : Nat) where
  unit : StoreSet S L
  live : List InstSeqNum
  newest : InstSeqNum

namespace Thread

/-- The stores that are live after a call. -/
def liveAfter (live : List InstSeqNum) : Event → List InstSeqNum
  | .insertStore _ seqNum _ => seqNum :: live
  | .issued _ seqNum isStore => if isStore then live.filter (· ≠ seqNum) else live
  | .squash squashedNum _ => live.filter (· ≤ squashedNum)
  | _ => live

/-- The last sequence number after a call. One that does not increase cannot occur. -/
def newestAfter (newest : InstSeqNum) : Event → Option InstSeqNum
  | .insertStore _ seqNum _ => if newest < seqNum then some seqNum else none
  | _ => some newest

/-- One call of the thread. -/
def step (s : Thread S L) (e : Event) : Option (Thread S L) :=
  (newestAfter s.newest e).bind fun newest => (s.unit.step e).map fun unit =>
    { unit := unit, live := liveAfter s.live e, newest := newest }

/-- The thread before its first call. -/
def init (clearPeriod : BitVec 64) : Thread S L :=
  { unit := StoreSet.init clearPeriod, live := [], newest := 0 }

end Thread

end StoreSet

end Gem5.O3
