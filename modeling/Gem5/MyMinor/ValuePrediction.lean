import Gem5.Lib.Patch
import Gem5.Lib.Run
import Gem5.MyMinor.LVPT
import Gem5.MyMinor.MemResponse

/-!
# `Gem5.MyMinor.ValuePrediction`: the value predictor over committed memory accesses

A run of the value prediction machinery as the committed program sees it. Three kinds of
event drive it: Fetch1 reads the LVPT for a line (`LVPT::read`), Fetch1 trains the LVPT
(`LVPT::updateTable`), and Execute commits a memory access (`handleMemResponse`).

The LSQ, the caches and the other stages are represented by what they hand over. An access brings
the request with whatever data the memory system put into its packet. Its instruction carries the
answer of some earlier read of the LVPT, or the default fields. A training call carries any message,
because the fields of a `BranchData` are not initialised.

`mem` is the memory as the committed writes left it, in commit order: the reference for loads.
`guardSize` remembers, for each CVU slot, how many bytes the access that filled it has read. Neither
exists in the source.
-/

namespace Gem5.MyMinor.ValuePrediction

/-- A memory access at its commit. Byte `i` of the access is at the physical address
`physAddr i`. `effect` are the bytes that the access leaves in memory if it writes: the
packet bytes for a plain store, and the result of the operation for a swap, an atomic or a
store conditional. -/
structure Access where
  response : LSQRequest
  physAddr : Nat → Addr
  effect : Lib.Patch Addr Byte
  env : ResponseEnv

/-- The state of the predictor and the committed memory. -/
structure State where
  lvpt : LVPT
  cvu : CVU
  fetched : List LvptOut
  mem : Addr → Byte
  guardSize : Nat → Nat

/-- The events of a run. -/
inductive Event where
  | readLVPT (pc : Addr)
  | updateTable (lvptIn : LvptIn)
  | commit (access : Access)

namespace State

/-- The state after construction. The LVPT and Execute take the threshold from the same
parameter `thresholdLCT`. -/
def new (tableSizeLVPT thresholdLCT maxValueLCT tableSizeCVU : Nat) (mem : Addr → Byte) :
    State :=
  { lvpt := LVPT.new tableSizeLVPT thresholdLCT maxValueLCT
    cvu := CVU.new tableSizeCVU
    fetched := [LvptOut.zero]
    mem := mem
    guardSize := fun _ => 0 }

variable (s : State) (a : Access)

/-- The result of `handleMemResponse` on an access. -/
def result : MemResult :=
  handleMemResponse s.lvpt.threshold a.env s.cvu a.response

/-- Whether the access writes memory: it is no load, it has a packet, and it commits
without a fault. -/
def writes : Bool :=
  !a.response.isLoad && a.response.translationFault.isNone && a.response.packet.isSome &&
    (s.result a).fault.isNone

/-- The committed memory after the access. -/
def memAfter : Addr → Byte :=
  if s.writes a then a.effect.apply s.mem else s.mem

/-- Whether the access fills a CVU slot, with its packet. -/
def inserts (packet : Packet) : Bool :=
  let packet := MemResponse.substitute s.cvu a.response.inst packet a.env.pastValue
  MemResponse.insertsEntry s.lvpt.threshold s.cvu a.response.inst packet
    (MemResponse.packetData packet a.env.pastData)

/-- The sizes of the CVU slots after the access. -/
def guardSizeAfter : Nat → Nat :=
  match a.response.translationFault, a.response.packet with
  | none, some packet =>
    if s.inserts a packet then
      fun i =>
        if i = s.cvu.newEntryIndex a.env.rand then min packet.size 8 else s.guardSize i
    else s.guardSize
  | _, _ => s.guardSize

end State

/-- One event. An instruction commits with fields that some read of the LVPT returned. -/
def step (s : State) : Event → Option State
  | .readLVPT pc => some { s with fetched := s.lvpt.read pc :: s.fetched }
  | .updateTable m =>
    some { s with lvpt := s.lvpt.updateTable m.value m.addr m.pc m.predict m.constant }
  | .commit a =>
    if a.response.inst.lvptOut ∈ s.fetched then
      some { s with
        cvu := (s.result a).cvu
        mem := s.memAfter a
        guardSize := s.guardSizeAfter a }
    else none

end Gem5.MyMinor.ValuePrediction
