import Gem5.MyMinor.DynInst

/-!
# `Gem5.MyMinor.LSQRequest`: memory requests, packets and LSQ requests

The data that travels through the LSQ of `src/cpu/myminor/lsq.hh`, and the methods of
`LSQRequest` and its subclasses. The four subclasses are one record with a `kind`. Each
virtual method is one function that branches on the kind.

A buffer is a map from offsets to bytes. Only the offsets below the size of the access
belong to the buffer. A read past the end gives whatever the map says, so a caller that
quantifies over buffers quantifies over what lies behind them.

`translationFault` is a field of the instruction in the source. Each instruction makes at most one
request, so the request can hold it. `writeData` holds the bytes that the caller of `pushRequest`
passed. No function of the source changes or reads it. Theorems compare with it.

Error responses are left out: `Execute::handleMemResponse` stops the simulation on one.
-/

namespace Gem5.MyMinor

/-- A byte buffer, as a map from offsets. -/
abbrev Buffer := Nat → Byte

/-- `addrBlockOffset`. -/
def addrBlockOffset (addr blockSize : Nat) : Nat := addr &&& (blockSize - 1)

/-- `transferNeedsBurst`. -/
def transferNeedsBurst (addr size blockSize : Nat) : Bool :=
  decide (blockSize < addrBlockOffset addr blockSize + size)

/-- A subtraction of `w` bits. -/
def subWrap (w a b : Nat) : Nat := (a + (2 ^ w - b % 2 ^ w)) % 2 ^ w

/-- The `Request::Flags` that the LSQ looks at. -/
structure RequestFlags where
  strictlyOrdered : Bool
  llsc : Bool
  swap : Bool
  atomic : Bool
  release : Bool
  cacheMaintenance : Bool
  noAccess : Bool
  storeNoData : Bool
  deriving Repr, DecidableEq

/-- No flags. -/
def noFlags : RequestFlags :=
  { strictlyOrdered := false, llsc := false, swap := false, atomic := false, release := false
    cacheMaintenance := false, noAccess := false, storeNoData := false }

/-- `setFlags`: the flags of both. -/
def RequestFlags.union (a b : RequestFlags) : RequestFlags :=
  { strictlyOrdered := a.strictlyOrdered || b.strictlyOrdered
    llsc := a.llsc || b.llsc
    swap := a.swap || b.swap
    atomic := a.atomic || b.atomic
    release := a.release || b.release
    cacheMaintenance := a.cacheMaintenance || b.cacheMaintenance
    noAccess := a.noAccess || b.noAccess
    storeNoData := a.storeNoData || b.storeNoData }

/-- `Request`. `localAccess` says that a local accessor is installed. -/
structure Request where
  vaddr : Nat
  size : Nat
  paddr : Nat
  flags : RequestFlags
  localAccess : Bool
  byteEnable : List Bool
  useCVUValue : Bool
  deriving Repr, DecidableEq

namespace Request

variable (r : Request)

/-- `isMasked`: some byte is disabled. -/
def isMasked : Bool :=
  r.byteEnable.any (!·)

/-- The `bufferable` of `tryToSendToTransfers`. -/
def bufferable : Bool :=
  !(r.flags.strictlyOrdered || r.flags.llsc || r.flags.swap || r.flags.atomic ||
    r.flags.release)

/-- Byte `i` of the access takes part in it. -/
def enabled (i : Nat) : Bool :=
  r.byteEnable.getD i false

/-! ### The fragments of a split access

The arithmetic of `makeFragmentRequests`, in the widths of the source: addresses have 64 bits, sizes
and counts 32. -/

variable (lineWidth : Nat)

/-- `first_fragment_size`. -/
def firstFragmentSize : Nat :=
  subWrap 32 lineWidth (addrBlockOffset r.vaddr lineWidth)

/-- `end_addr`. -/
def endAddr : Nat := (r.vaddr + r.size) % 2 ^ 64

/-- `last_fragment_size`. -/
def lastFragmentSize : Nat := addrBlockOffset r.endAddr lineWidth

/-- `middle_fragments_total_size`. -/
def middleFragmentsTotalSize : Nat :=
  subWrap 32 r.size (r.firstFragmentSize lineWidth + r.lastFragmentSize lineWidth)

/-- `middle_fragment_count`. -/
def middleFragmentCount : Nat := r.middleFragmentsTotalSize lineWidth / lineWidth

/-- The two assertions before the loop. -/
def assertions : Bool :=
  addrBlockOffset (r.middleFragmentsTotalSize lineWidth) lineWidth == 0 &&
    (r.middleFragmentCount lineWidth * lineWidth + r.firstFragmentSize lineWidth +
      r.lastFragmentSize lineWidth) % 2 ^ 32 == r.size

/-- `numFragments` before the loop. -/
def allFragments : Nat :=
  (1 + r.middleFragmentCount lineWidth + if r.lastFragmentSize lineWidth = 0 then 0 else 1) % 2 ^ 32

/-- The choice of `fragment_size` in the loop. -/
def fragmentSize (fragmentAddr : Nat) : Nat :=
  if fragmentAddr = r.vaddr then r.firstFragmentSize lineWidth
  else if r.endAddr < (fragmentAddr + lineWidth) % 2 ^ 64 then
    subWrap 64 r.endAddr fragmentAddr % 2 ^ 32
  else lineWidth

/-- The loop: address and size of each fragment, with those that are dropped. -/
def loop (r : Request) (lineWidth : Nat) : Nat → Nat → List (Nat × Nat)
  | 0, _ => []
  | n + 1, fragmentAddr =>
    let size := r.fragmentSize lineWidth fragmentAddr
    (fragmentAddr, size) :: r.loop lineWidth n ((fragmentAddr + size) % 2 ^ 64)

/-- The fragments of the loop. -/
def pieces : List (Nat × Nat) := r.loop lineWidth (r.allFragments lineWidth) r.vaddr

/-- The `Request` of a fragment. It has the flags of the whole request, but not its
`use_CVU_value`. -/
def fragmentRequest (piece : Nat × Nat) : Request :=
  { vaddr := piece.1, size := piece.2, paddr := 0, flags := r.flags, localAccess := false
    byteEnable := (r.byteEnable.drop (piece.1 - r.vaddr)).take piece.2
    useCVUValue := false }

/-- `isAnyActiveElement` on the mask of a fragment. -/
def active (piece : Nat × Nat) : Bool :=
  (r.fragmentRequest piece).byteEnable.any id

/-- `fragmentRequests`. Fragments without an enabled byte are dropped. -/
def fragmentRequests : List Request :=
  ((r.pieces lineWidth).filter r.active).map r.fragmentRequest

/-- `numFragments` after the loop. -/
def numFragments : Nat :=
  subWrap 32 (r.allFragments lineWidth) ((r.pieces lineWidth).countP fun piece => !r.active piece)

end Request

/-- `Packet`: a copy of the fields of its request, the command and the data. The first four
fields are the command: a read or a write, with load-linked and store-conditional, swaps and
cache maintenance apart. -/
structure Packet where
  isLoad : Bool
  isLLSC : Bool
  isSwap : Bool
  isMaintenance : Bool
  vaddr : Nat
  paddr : Nat
  size : Nat
  byteEnable : List Bool
  useCVUValue : Bool
  data : Buffer

/-- `makePacketForRequest`. A read packet gets a fresh buffer, and a write packet takes
the data over. -/
def makePacketForRequest (request : Request) (isLoad : Bool) (data fresh : Buffer) :
    Packet :=
  { isLoad := isLoad
    isLLSC := request.flags.llsc
    isSwap := request.flags.swap || request.flags.atomic
    isMaintenance := request.flags.cacheMaintenance
    vaddr := request.vaddr
    paddr := request.paddr
    size := request.size
    byteEnable := request.byteEnable
    useCVUValue := request.useCVUValue
    data := if isLoad then fresh else data }

/-- What the MMU hands to `finish`, and what the instruction says about a fault when it is
asked again. `flags` and `localAccess` are what the translation adds to the request. -/
structure Translation where
  fault : Fault
  suppressed : Bool
  paddr : Nat
  flags : RequestFlags
  localAccess : Bool
  deriving Repr, DecidableEq

/-- The request after a translation without a fault. -/
def Request.translate (r : Request) (t : Translation) : Request :=
  { r with
    paddr := t.paddr, flags := r.flags.union t.flags
    localAccess := r.localAccess || t.localAccess }

/-- `LSQRequestState`. -/
inductive LSQRequestState where
  | notIssued
  | inTranslation
  | translated
  | failed
  | requestIssuing
  | storeToStoreBuffer
  | requestNeedsRetry
  | storeInStoreBuffer
  | storeBufferIssuing
  | storeBufferNeedsRetry
  | complete
  deriving Repr, DecidableEq

/-- The subclass of an `LSQRequest`. -/
inductive RequestKind where
  | failedData
  | barrierData
  | singleData
  | splitData
  deriving Repr, DecidableEq

/-- `AddrRangeCoverage`. -/
inductive AddrRangeCoverage where
  | partialCoverage
  | fullCoverage
  | noCoverage
  deriving Repr, DecidableEq

/-- `LSQRequest` with the fields of all its subclasses. -/
structure LSQRequest where
  kind : RequestKind
  inst : DynInst
  isLoad : Bool
  data : Option Buffer
  packet : Option Packet
  request : Request
  skipped : Bool
  issuedToMemory : Bool
  isTranslationDelayed : Bool
  state : LSQRequestState
  translationFault : Fault
  writeData : Buffer
  packetInFlight : Bool
  packetSent : Bool
  numFragments : Nat
  numTranslatedFragments : Nat
  numIssuedFragments : Nat
  numRetiredFragments : Nat
  fragmentRequests : List Request
  fragmentPackets : List Packet

namespace LSQRequest

/-- The constructors. `state` is `notIssued`, and the subclasses that never visit the
memory system overwrite it. -/
def new (kind : RequestKind) (inst : DynInst) (isLoad : Bool) (data : Option Buffer)
    (writeData : Buffer) (request : Request) (state : LSQRequestState) : LSQRequest :=
  { kind := kind, inst := inst, isLoad := isLoad, data := data,
    packet := none, request := request, skipped := false, issuedToMemory := false,
    isTranslationDelayed := false, state := state, translationFault := noFault,
    writeData := writeData, packetInFlight := false, packetSent := false,
    numFragments := 0, numTranslatedFragments := 0,
    numIssuedFragments := 0, numRetiredFragments := 0, fragmentRequests := [],
    fragmentPackets := [] }

variable (r : LSQRequest)

/-- `setState`. -/
def setState (state : LSQRequestState) : LSQRequest :=
  { r with state := state }

/-- `setSkipped`. -/
def setSkipped : LSQRequest :=
  { r with skipped := true }

/-- `isComplete`. -/
def isComplete : Bool :=
  r.state == .complete

/-- `isBarrier`. A `BarrierDataRequest` always is one. -/
def isBarrier : Bool :=
  match r.kind with
  | .barrierData => true
  | _ => r.inst.isInst && r.inst.staticInst.isFullMemBarrier

/-- `needsToBeSentToStoreBuffer`. -/
def needsToBeSentToStoreBuffer : Bool :=
  r.state == .storeToStoreBuffer

/-- `hasPacketsInMemSystem`. -/
def hasPacketsInMemSystem : Bool :=
  match r.kind with
  | .singleData => r.packetInFlight
  | .splitData => r.numIssuedFragments != r.numRetiredFragments
  | _ => false

/-- `sentAllPackets`. -/
def sentAllPackets : Bool :=
  match r.kind with
  | .singleData => r.packetSent
  | .splitData => r.numIssuedFragments == r.numTranslatedFragments
  | _ => true

/-- `getHeadPacket`. It is `none` where the source stops or reads a null pointer. -/
def getHeadPacket : Option Packet :=
  match r.kind with
  | .singleData => r.packet
  | .splitData => r.fragmentPackets[r.numIssuedFragments]?
  | _ => none

/-- `stepToNextPacket`. -/
def stepToNextPacket : LSQRequest :=
  match r.kind with
  | .singleData => { r with packetInFlight := true, packetSent := true }
  | .splitData => { r with numIssuedFragments := r.numIssuedFragments + 1 }
  | _ => r

variable (fresh : Buffer)

/-- `makePacket`. A second call does nothing. -/
def makePacket : LSQRequest :=
  match r.packet with
  | some _ => r
  | none =>
    { r with
      packet := some (makePacketForRequest r.request r.isLoad (r.data.getD fresh) fresh)
      data := none }

variable (lineWidth : Nat)

/-- `makeFragmentRequests`. -/
def makeFragmentRequests : LSQRequest :=
  { r with
    fragmentRequests := r.request.fragmentRequests lineWidth
    numFragments := r.request.numFragments lineWidth }

/-- The packet of a fragment. A store copies its part of the data into it. -/
def fragmentPacket (fragment : Request) : Packet :=
  let offset := fragment.vaddr - r.request.vaddr
  makePacketForRequest fragment r.isLoad (fun i => (r.data.getD fresh) (offset + i))
    (fun i => fresh (offset + i))

/-- `makeFragmentPackets`. The physical address of the whole request is the one of the first
fragment, and its flags are those of all fragments. -/
def makeFragmentPackets : LSQRequest :=
  let fragments := r.fragmentRequests.take r.numTranslatedFragments
  let request : Request :=
    { r.request with
      flags := fragments.foldl (fun flags f => flags.union f.flags) r.request.flags
      paddr := (r.fragmentRequests.head?.map fun f => f.paddr).getD 0 }
  { r with
    fragmentPackets := fragments.map (r.fragmentPacket fresh)
    request := request }.makePacket fresh

/-- `startAddrTranslation`. A request without an enabled byte is complete at once. -/
def startAddrTranslation : LSQRequest :=
  match r.kind with
  | .singleData =>
    if r.request.byteEnable.any id then r.setState .inTranslation else r.setState .complete
  | .splitData =>
    let r := r.makeFragmentRequests lineWidth
    if r.numFragments > 0 then r.setState .inTranslation else r.setState .complete
  | _ => r

variable (t : Translation)

/-- The fault that stays after `tryToSuppressFault`. -/
def faultAfter : Fault :=
  if t.suppressed then noFault else t.fault

/-- `SingleDataRequest::finish`. After a suppressed fault the state is set to `Complete` and
then overwritten by `Translated`. -/
def finishSingle (fresh : Buffer) : LSQRequest :=
  if t.fault.isSome then
    { r with
      translationFault := if r.isTranslationDelayed then faultAfter t else t.fault
      state := .translated }
  else { r with request := r.request.translate t, state := .translated }.makePacket fresh

/-- `SplitDataRequest::finish` for a fragment with a fault. -/
def finishFaultingFragment (fresh : Buffer) : LSQRequest :=
  let fault :=
    if r.numTranslatedFragments > 0 || r.isTranslationDelayed then faultAfter t else t.fault
  let counted := r.numTranslatedFragments + 1
  if r.numTranslatedFragments = 0 then
    let state :=
      if r.isTranslationDelayed && fault.isNone then LSQRequestState.complete else .translated
    { r with translationFault := fault, numTranslatedFragments := counted, state := state }
  else if fault.isNone then
    { r with translationFault := fault, state := .translated }.makeFragmentPackets fresh
  else
    { r with
      translationFault := fault, numTranslatedFragments := counted, state := .translated }

/-- `SplitDataRequest::finish` for the fragment `numTranslatedFragments`. The packets are
made when the last fragment is back. -/
def finishFragment (fresh : Buffer) : LSQRequest :=
  if t.fault.isSome then r.finishFaultingFragment t fresh
  else
    let r :=
      { r with
        fragmentRequests :=
          r.fragmentRequests.modify r.numTranslatedFragments fun f => f.translate t
        numTranslatedFragments := r.numTranslatedFragments + 1 }
    if r.numTranslatedFragments = r.numFragments then
      (r.makeFragmentPackets fresh).setState .translated
    else r

/-- `finish`. -/
def finish (fresh : Buffer) : LSQRequest :=
  match r.kind with
  | .singleData => r.finishSingle t fresh
  | .splitData => r.finishFragment t fresh
  | _ => r

/-- The address arithmetic of `containsAddrRangeOf`. Addresses wrap at 64 bits. -/
def addrRangeCoverage (addr1 size1 addr2 size2 : Nat) : AddrRangeCoverage :=
  let end2 := (addr2 + size2) % 2 ^ 64
  let end1 := (addr1 + size1) % 2 ^ 64
  if end2 ≤ addr1 || end1 ≤ addr2 then .noCoverage
  else if addr1 ≤ addr2 && end2 ≤ end1 then .fullCoverage
  else .partialCoverage

/-- `containsAddrRangeOf` on requests. A masked request covers another one at most
partially. -/
def containsAddrRangeOf (r other : LSQRequest) : AddrRangeCoverage :=
  match addrRangeCoverage r.request.paddr r.request.size other.request.paddr
      other.request.size with
  | .fullCoverage => if r.request.isMasked then .partialCoverage else .fullCoverage
  | coverage => coverage

/-- `memcpy(dst + offset, src, size)`. -/
def memcpy (dst : Buffer) (offset : Nat) (src : Buffer) (size : Nat) : Buffer :=
  fun i => if offset ≤ i ∧ i < offset + size then src (i - offset) else dst i

variable (response : Packet)

/-- `SingleDataRequest::retireResponse`. -/
def retireSingle : LSQRequest :=
  { r with packet := some response, packetInFlight := false, state := .complete }

/-- The first part of `SplitDataRequest::retireResponse`: count the fragment and, for a
load that is not skipped, paste its data. -/
def retireFragment (fresh : Buffer) : LSQRequest :=
  let counted := { r with numRetiredFragments := r.numRetiredFragments + 1 }
  if r.skipped || !r.isLoad then counted
  else
    { counted with
      data := some (memcpy (r.data.getD fresh) (response.vaddr - r.request.vaddr)
        response.data response.size) }

/-- The second part: a request whose last fragment is back is complete, and so is a
skipped one with nothing in flight. A complete load gets the collected data. -/
def finishSplit : LSQRequest :=
  let done := r.numRetiredFragments == r.numTranslatedFragments
  let r := if (r.skipped && !r.hasPacketsInMemSystem) || done then r.setState .complete else r
  if !r.skipped && r.isComplete then
    let data := r.data.getD fresh
    if r.isLoad then
      { r with
        data := some data
        packet := r.packet.map fun packet =>
          { packet with data := memcpy packet.data 0 data r.request.size } }
    else { r with data := some data }
  else r

/-- `retireResponse`. -/
def retireResponse (fresh : Buffer) : LSQRequest :=
  match r.kind with
  | .singleData => r.retireSingle response
  | .splitData => (r.retireFragment response fresh).finishSplit fresh
  | _ => r

end LSQRequest

end Gem5.MyMinor
