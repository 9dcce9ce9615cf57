import Gem5.MyMinor.LSQSystem
import Gem5.Proofs.MyMinor.LSQRequest

/-!
# `Gem5.Proofs.MyMinor.PlainRequest`: bufferable loads and stores and their packets

A plain request is a bufferable load or store of one thread, without a local accessor. The
module follows one such request through its life, apart from the queues it is in.

`packets` are the packets it sends, one for a single request and one per translated fragment
for a split one. `numSent` of them were sent and `numBack` came back. `ReqOk` says that each
packet carries its part of the access (`Part`), that the parts cover the translated bytes
(`Made`), and that the packets in flight are those sent and not back.

`LoadOk` is about the data of a load: the packets in flight that were performed, the fragments that
came back and the packet of a complete load all hold the bytes of a memory `arch`.
-/

namespace Gem5.MyMinor

open List Option Lib

/-- The flags of a bufferable access to memory. -/
def RequestFlags.plain (f : RequestFlags) : Bool :=
  !(f.strictlyOrdered || f.llsc || f.swap || f.atomic || f.release || f.cacheMaintenance ||
    f.noAccess)

theorem RequestFlags.plain_union {f g : RequestFlags} (hf : f.plain = true)
    (hg : g.plain = true) : (f.union g).plain = true := by
  simp only [plain, union, Bool.not_eq_true', Bool.or_eq_false_iff] at *
  simp [hf, hg]

/-- The write of a packet with its own data. -/
def Packet.write (packet : Packet) : Patch Addr Byte :=
  packet.patch packet.data

/-- A packet that differs from `f` in the data at most, and only when it is a read. -/
structure Packet.Like (k f : Packet) : Prop where
  shape : k = { f with data := k.data }
  data : f.isLoad = false → k.data = f.data

theorem Packet.Like.refl (k : Packet) : k.Like k := ⟨rfl, fun _ => rfl⟩

/-- The place of a packet. -/
theorem Packet.Like.place {k f : Packet} (h : k.Like f) :
    k.vaddr = f.vaddr ∧ k.paddr = f.paddr ∧ k.size = f.size := by
  rw [h.shape]
  exact ⟨rfl, rfl, rfl⟩

/-- The access of memory changes the data of a read only. -/
theorem Packet.Like.answer {k f : Packet} (h : k.Like f) (hswap : f.isSwap = false)
    (mem : Addr → Byte) : (k.answer mem).Like f := by
  have hload : k.isLoad = f.isLoad := by rw [h.shape]
  have hswap' : k.isSwap = false := by rw [h.shape, hswap]
  unfold Packet.answer
  split
  · rename_i hread
    rw [hload, hswap', Bool.and_eq_true] at hread
    refine ⟨?_, fun hstore => ?_⟩
    · rw [h.shape]
    · rw [hstore] at hread
      cases hread.1
  · exact h

namespace LSQRequest

variable (r : LSQRequest)

/-- The packets that a request sends. -/
def packets : List Packet :=
  match r.kind with
  | .singleData => r.packet.toList
  | .splitData => r.fragmentPackets
  | _ => []

/-- How many packets were sent. -/
def numSent : Nat :=
  match r.kind with
  | .singleData => r.packetSent.toNat
  | .splitData => r.numIssuedFragments
  | _ => 0

/-- How many packets came back. -/
def numBack : Nat :=
  match r.kind with
  | .singleData => (r.packetSent && !r.packetInFlight).toNat
  | .splitData => r.numRetiredFragments
  | _ => 0

/-- The write of a store, by its physical address. -/
def write : Patch Addr Byte := fun (a : Nat) =>
  if r.request.paddr ≤ a ∧ a < r.request.paddr + r.request.size ∧
      r.request.enabled (a - r.request.paddr) = true then
    some (r.writeData (a - r.request.paddr))
  else none

/-- A bufferable load or store of the thread `tid`. -/
structure Plain (tid : ThreadID) (r : LSQRequest) : Prop where
  thread : r.inst.id.threadId = tid
  flags : r.request.flags.plain = true
  localAccess : r.request.localAccess = false
  useCVUValue : r.request.useCVUValue = false
  constant : r.isLoad = true → r.inst.lvptOut.constant = false
  mask : r.request.byteEnable.length = r.request.size

/-- A packet that carries the bytes of the access from `offset` on. -/
structure Part (r : LSQRequest) (offset : Nat) (packet : Packet) : Prop where
  vaddr : packet.vaddr = r.request.vaddr + offset
  paddr : packet.paddr = r.request.paddr + offset
  size : offset + packet.size ≤ r.request.size
  mask : ∀ i < packet.size, packet.byteEnable.getD i false = r.request.enabled (offset + i)
  isLoad : packet.isLoad = r.isLoad
  isLLSC : packet.isLLSC = false
  isSwap : packet.isSwap = false
  isMaintenance : packet.isMaintenance = false
  useCVUValue : packet.useCVUValue = false
  data : r.isLoad = false → ∀ i < packet.size, packet.data i = r.writeData (offset + i)

/-- A request with its packets. -/
structure Made (r : LSQRequest) (k : Packet) : Prop where
  kind : r.kind = .singleData ∨ r.kind = .splitData
  whole : r.Part 0 k
  size : k.size = r.request.size
  bound : r.request.paddr + r.request.size < 2 ^ 64
  parts : ∀ f ∈ r.packets, ∃ offset, r.Part offset f
  pos : 0 < r.packets.length
  physAddr : ∀ i a, r.physAddr i = some a → a = r.request.paddr + i
  covered : ∀ i < r.request.size, ∀ a, r.physAddr i = some a →
    ∃ f ∈ r.packets, f.vaddr ≤ r.request.vaddr + i ∧ r.request.vaddr + i < f.vaddr + f.size
  translated : r.isLoad = false → ∀ i < r.request.size, r.request.enabled i = true →
    r.physAddr i ≠ none
  fragments : r.kind = .splitData → r.numTranslatedFragments = r.fragmentPackets.length

/-- The request, its packets and the packets `as` of it in flight. -/
structure ReqOk (tid : ThreadID) (r : LSQRequest) (as : List MemAccess) : Prop where
  plain : r.kind = .singleData ∨ r.kind = .splitData → Plain tid r
  made : ∀ k, r.packet = some k → r.Made k
  empty : r.packet = none → r.packets = [] ∧ r.numSent = 0
  count : as.length + r.numBack = r.numSent
  sent : r.numSent ≤ r.packets.length
  access : ∀ a ∈ as, ∃ f ∈ r.packets, a.packet.Like f

/-- What the packets of a request depend on. -/
structure SameBody (r r' : LSQRequest) : Prop extends SameAccess r r' where
  request : r'.request = r.request
  fragmentRequests : r'.fragmentRequests = r.fragmentRequests
  numTranslatedFragments : r'.numTranslatedFragments = r.numTranslatedFragments
  fragmentPackets : r'.fragmentPackets = r.fragmentPackets

/-- A change of the state and of the bookkeeping only. -/
structure SameTraffic (r r' : LSQRequest) : Prop extends SameBody r r' where
  packet : r'.packet = r.packet
  data : r'.data = r.data
  packetSent : r'.packetSent = r.packetSent
  packetInFlight : r'.packetInFlight = r.packetInFlight
  numIssuedFragments : r'.numIssuedFragments = r.numIssuedFragments
  numRetiredFragments : r'.numRetiredFragments = r.numRetiredFragments

/-- Nothing changes. -/
theorem SameTraffic.refl (r : LSQRequest) : SameTraffic r r :=
  ⟨⟨.refl r, rfl, rfl, rfl, rfl⟩, rfl, rfl, rfl, rfl, rfl, rfl⟩

section
variable {r r' : LSQRequest} {k : Packet} {offset : Nat} {tid : ThreadID}
  {as as' : List MemAccess}

/-! ### What stays when the state changes -/

theorem SameBody.physAddr (h : SameBody r r') : r'.physAddr = r.physAddr := by
  funext i
  simp only [LSQRequest.physAddr, h.kind, h.request, h.fragmentRequests, h.numTranslatedFragments]

theorem SameBody.write (h : SameBody r r') : r'.write = r.write := by
  funext a
  simp only [LSQRequest.write, h.request, h.writeData]

/-- A part stays one while the access stays. -/
theorem Part.congr (h : r.Part offset k) (hsame : SameBody r r') : r'.Part offset k where
  vaddr := hsame.request ▸ h.vaddr
  paddr := hsame.request ▸ h.paddr
  size := hsame.request ▸ h.size
  mask := hsame.request ▸ h.mask
  isLoad := hsame.isLoad ▸ h.isLoad
  isLLSC := h.isLLSC
  isSwap := h.isSwap
  isMaintenance := h.isMaintenance
  useCVUValue := h.useCVUValue
  data := by
    rw [hsame.isLoad, hsame.writeData]
    exact h.data

theorem Plain.congr (h : Plain tid r) (hsame : SameBody r r') : Plain tid r' where
  thread := hsame.inst ▸ h.thread
  flags := hsame.request ▸ h.flags
  localAccess := hsame.request ▸ h.localAccess
  useCVUValue := hsame.request ▸ h.useCVUValue
  constant := by
    rw [hsame.isLoad, hsame.inst]
    exact h.constant
  mask := hsame.request ▸ h.mask

/-- Other data in a part. -/
theorem Part.withData (h : r.Part offset k) {data : Buffer}
    (hdata : r.isLoad = false → ∀ i < k.size, data i = r.writeData (offset + i)) :
    r.Part offset { k with data := data } :=
  { h with data := hdata }

/-- The facts about the packets stay when the packets stay, up to the data of a load. -/
theorem Made.congr {k' : Packet} (h : r.Made k) (hsame : SameBody r r') (hwhole : r.Part 0 k')
    (hsize : k'.size = k.size) (hparts : ∀ f ∈ r'.packets, ∃ offset, r.Part offset f)
    (hpackets : r'.packets.length = r.packets.length)
    (hcovers : ∀ f ∈ r.packets, ∃ f' ∈ r'.packets, f'.vaddr = f.vaddr ∧ f'.size = f.size) :
    r'.Made k' where
  kind := hsame.kind ▸ h.kind
  whole := hwhole.congr hsame
  size := by rw [hsize, hsame.request, h.size]
  bound := hsame.request ▸ h.bound
  parts := by
    intro f hf
    obtain ⟨offset, hpart⟩ := hparts f hf
    exact ⟨offset, hpart.congr hsame⟩
  pos := hpackets ▸ h.pos
  physAddr := by
    rw [hsame.physAddr, hsame.request]
    exact h.physAddr
  covered := by
    rw [hsame.physAddr, hsame.request]
    intro i hi a ha
    obtain ⟨f, hf, hcover⟩ := h.covered i hi a ha
    obtain ⟨f', hf', hvaddr, hfsize⟩ := hcovers f hf
    exact ⟨f', hf', hvaddr ▸ hfsize ▸ hcover⟩
  translated := by
    rw [hsame.isLoad, hsame.physAddr, hsame.request]
    exact h.translated
  fragments := by
    rw [hsame.kind, hsame.numTranslatedFragments, hsame.fragmentPackets]
    exact h.fragments

/-- The same when the packets that are sent stay. -/
theorem Made.same {k' : Packet} (h : r.Made k) (hsame : SameBody r r')
    (hpackets : r'.packets = r.packets) (hwhole : r.Part 0 k') (hsize : k'.size = k.size) :
    r'.Made k' := by
  refine h.congr hsame hwhole hsize ?_ ?_ ?_ <;> rw [hpackets]
  · exact h.parts
  · exact fun f hf => ⟨f, hf, rfl, rfl⟩

/-- The packet of a single request is replaced by one for the same bytes. -/
theorem Made.single {k' : Packet} (h : r.Made k) (hsame : SameBody r r')
    (hold : r.packets = [k]) (hnew : r'.packets = [k']) (hwhole : r.Part 0 k')
    (hsize : k'.size = k.size) : r'.Made k' := by
  refine h.congr hsame hwhole hsize ?_ ?_ ?_ <;> rw [hnew]
  · intro f hf
    rw [mem_singleton.mp hf]
    exact ⟨0, hwhole⟩
  · rw [hold]
    rfl
  · rw [hold]
    intro f hf
    rw [mem_singleton.mp hf]
    exact ⟨k', mem_singleton_self _, hwhole.vaddr.trans h.whole.vaddr.symm, hsize⟩

theorem ReqOk.plain_congr (h : ReqOk tid r as) (hsame : SameBody r r')
    (hkind : r'.kind = .singleData ∨ r'.kind = .splitData) : Plain tid r' :=
  (h.plain (hsame.kind ▸ hkind)).congr hsame

/-- A step that keeps the packets to send: the packet stays, up to the data of a load, and what
is left are the counts and the packets in flight. -/
theorem ReqOk.keep (h : ReqOk tid r as) (hsame : SameBody r r')
    (hpackets : r'.packets = r.packets)
    (hpacket : ∀ k, r'.packet = some k → ∃ k', r.packet = some k' ∧ k.size = k'.size ∧ r.Part 0 k)
    (hempty : r'.packet = none → r.packet = none ∧ r'.numSent = r.numSent)
    (hcount : as'.length + r'.numBack = r'.numSent) (hsent : r'.numSent ≤ r.packets.length)
    (haccess : ∀ a ∈ as', ∃ f ∈ r.packets, a.packet.Like f) : ReqOk tid r' as' where
  plain := h.plain_congr hsame
  made := by
    intro k hk
    obtain ⟨k', hk', hsize, hwhole⟩ := hpacket k hk
    exact (h.made k' hk').same hsame hpackets hwhole hsize
  empty := by
    intro hnone
    obtain ⟨hnone', hnum⟩ := hempty hnone
    rw [hpackets, hnum]
    exact h.empty hnone'
  count := hcount
  sent := hpackets ▸ hsent
  access := hpackets ▸ haccess

/-- Nothing is in flight before a packet is sent. -/
theorem ReqOk.nil_of_unsent (h : ReqOk tid r as) (hsent : r.numSent = 0) : as = [] := by
  have hcount := h.count
  exact eq_nil_of_length_eq_zero (by omega)

section
variable (h : SameTraffic r r')
include h

theorem SameTraffic.packets : r'.packets = r.packets := by
  simp only [LSQRequest.packets, h.kind, h.packet, h.fragmentPackets]

theorem SameTraffic.numSent : r'.numSent = r.numSent := by
  simp only [LSQRequest.numSent, h.kind, h.packetSent, h.numIssuedFragments]

theorem SameTraffic.numBack : r'.numBack = r.numBack := by
  simp only [LSQRequest.numBack, h.kind, h.packetSent, h.packetInFlight, h.numRetiredFragments]

end

/-- A change of the state keeps the packets. -/
theorem ReqOk.congr (h : ReqOk tid r as) (hsame : SameTraffic r r') : ReqOk tid r' as := by
  refine h.keep hsame.toSameBody hsame.packets ?_ ?_ ?_ ?_ h.access
  · rw [hsame.packet]
    exact fun k hk => ⟨k, hk, rfl, (h.made k hk).whole⟩
  · rw [hsame.packet]
    exact fun hnone => ⟨hnone, hsame.numSent⟩
  · rw [hsame.numBack, hsame.numSent]
    exact h.count
  · rw [hsame.numSent]
    exact h.sent

/-! ### The write of a store -/

variable {f : Packet} {mem : Addr → Byte}

/-- A packet like a part is a part. -/
theorem Part.of_like (h : r.Part offset f) (hlike : k.Like f) : r.Part offset k := by
  rw [hlike.shape]
  refine h.withData fun hstore i hi => ?_
  rw [← h.data hstore i hi]
  exact congrFun (hlike.data (h.isLoad.trans hstore)) i

/-- The write of a part is a part of the write. -/
theorem Part.write_below (h : r.Part offset k) (hstore : r.isLoad = false) :
    Patch.Below k.write r.write := by
  intro (a : Nat) v hv
  simp only [Packet.write, Packet.patch] at hv
  split at hv
  · rename_i hin
    obtain ⟨hlow, hhigh, hmask⟩ := hin
    have hsize := h.size
    rw [h.paddr] at hlow hhigh hmask hv
    have hi : a - (r.request.paddr + offset) < k.size := by omega
    have hindex : offset + (a - (r.request.paddr + offset)) = a - r.request.paddr := by omega
    rw [h.mask _ hi, hindex] at hmask
    rw [h.data hstore _ hi, hindex] at hv
    simp only [write]
    rw [if_pos ⟨by omega, by omega, hmask⟩]
    exact hv
  · cases hv

/-- Each byte of the write of a store is in one of its packets. -/
theorem Made.exists_write (h : r.Made k) (hstore : r.isLoad = false) {a : Nat}
    (ha : r.write a ≠ none) : ∃ f ∈ r.packets, f.write a ≠ none := by
  simp only [write, ne_eq, ite_eq_right_iff, reduceCtorEq, imp_false, not_not] at ha
  obtain ⟨hlow, hhigh, henabled⟩ := ha
  have hi : a - r.request.paddr < r.request.size := by omega
  obtain ⟨b, hb⟩ := ne_none_iff_exists'.mp (h.translated hstore _ hi henabled)
  obtain ⟨f, hf, hstart, hend⟩ := h.covered _ hi b hb
  obtain ⟨offset, hpart⟩ := h.parts f hf
  rw [hpart.vaddr] at hstart hend
  refine ⟨f, hf, ?_⟩
  have hindex : a - f.paddr < f.size := by
    rw [hpart.paddr]
    omega
  have hmask : f.byteEnable.getD (a - f.paddr) false = true := by
    rw [hpart.mask _ hindex, hpart.paddr]
    have hoffset : offset + (a - (r.request.paddr + offset)) = a - r.request.paddr := by omega
    rw [hoffset]
    exact henabled
  simp only [Packet.write, Packet.patch]
  rw [if_pos ⟨by rw [hpart.paddr]; omega, by rw [hpart.paddr] at hindex ⊢; omega, hmask⟩]
  simp

/-- The packets of a store together have the effect of its write. -/
theorem Made.applyAll_packets (h : r.Made k) (hstore : r.isLoad = false) (m : Addr → Byte) :
    Patch.applyAll (r.packets.map Packet.write) m = r.write.apply m := by
  refine Patch.applyAll_eq_apply m ?_ ?_
  · intro q hq
    obtain ⟨f, hf, rfl⟩ := mem_map.mp hq
    obtain ⟨offset, hpart⟩ := h.parts f hf
    exact hpart.write_below hstore
  · intro a ha
    obtain ⟨f, hf, hne⟩ := h.exists_write hstore ha
    exact ⟨f.write, mem_map_of_mem hf, hne⟩

/-- The write that enters the history is the write of the store. -/
theorem Made.storePatch (h : r.Made k) (hstore : r.isLoad = false) : r.storePatch = r.write := by
  funext (a : Nat)
  -- The bytes of the access at `a` all have the index `a - paddr`.
  have hhit : ∀ i b, (if r.request.enabled i = true ∧ r.physAddr i = some a then
      some (r.writeData i) else none) = some b →
      a = r.request.paddr + i ∧ r.request.enabled i = true ∧ b = r.writeData i := by
    intro i b hb
    split at hb
    · rename_i hcond
      cases hb
      exact ⟨h.physAddr i a hcond.2, hcond.1, rfl⟩
    · cases hb
  cases hfind : r.storePatch a with
  | some b =>
    obtain ⟨i, hi, hb⟩ := exists_of_findSome?_eq_some hfind
    obtain ⟨rfl, henabled, rfl⟩ := hhit i b hb
    rw [mem_reverse, mem_range] at hi
    simp only [write, Nat.add_sub_cancel_left]
    rw [if_pos ⟨by omega, by omega, henabled⟩]
  | none =>
    simp only [LSQRequest.storePatch, findSome?_eq_none_iff, mem_reverse, mem_range] at hfind
    symm
    simp only [write, ite_eq_right_iff]
    rintro ⟨hlow, hhigh, henabled⟩
    have hi : a - r.request.paddr < r.request.size := by omega
    obtain ⟨b, hb⟩ := ne_none_iff_exists'.mp (h.translated hstore _ hi henabled)
    have hab : b = a := by
      rw [h.physAddr _ b hb]
      omega
    have hnone := hfind _ hi
    rw [if_pos ⟨henabled, hab ▸ hb⟩] at hnone
    cases hnone

/-! ### Sending a packet -/

/-- The step to the next packet keeps the access. -/
theorem sameBody_stepToNextPacket (r : LSQRequest) (state : LSQRequestState) :
    SameBody r (r.stepToNextPacket.setState state) := by
  unfold stepToNextPacket setState
  split <;> exact ⟨⟨rfl, rfl, rfl, rfl⟩, rfl, rfl, rfl, rfl⟩

theorem packets_stepToNextPacket (r : LSQRequest) (state : LSQRequestState) :
    (r.stepToNextPacket.setState state).packets = r.packets ∧
      (r.stepToNextPacket.setState state).packet = r.packet := by
  have hsame := sameBody_stepToNextPacket r state
  have hpacket : (r.stepToNextPacket.setState state).packet = r.packet :=
    r.stepToNextPacket_frame.2.2.1
  refine ⟨?_, hpacket⟩
  simp only [packets, hsame.kind, hsame.fragmentPackets, hpacket]

/-- The head packet is the first packet that was not sent. -/
theorem getElem?_of_getHeadPacket (hk : r.getHeadPacket = some k)
    (hunsent : r.numSent < r.packets.length) : r.packets[r.numSent]? = some k := by
  unfold getHeadPacket at hk
  unfold packets numSent at *
  split at hk
  · rename_i hkind
    simp only [hkind, hk, toList_some, length_singleton] at hunsent ⊢
    have hzero : r.packetSent.toNat = 0 := by omega
    rw [hzero]
    rfl
  · rename_i hkind
    simpa [hkind] using hk
  · cases hk

/-- The counts after a packet is sent. -/
theorem numSent_stepToNextPacket (hunsent : r.numSent < r.packets.length)
    (state : LSQRequestState) :
    (r.stepToNextPacket.setState state).numSent = r.numSent + 1 ∧
      (r.stepToNextPacket.setState state).numBack = r.numBack := by
  cases hkind : r.kind with
  | singleData =>
    have hpacket : r.packet.toList.length ≤ 1 := by
      cases r.packet <;> simp
    have hunsent' : r.packetSent = false := by
      simp only [numSent, packets, hkind] at hunsent
      cases hsent : r.packetSent with
      | false => rfl
      | true =>
        rw [hsent, Bool.toNat_true] at hunsent
        omega
    simp [numSent, numBack, stepToNextPacket, setState, hkind, hunsent']
  | splitData => simp [numSent, numBack, stepToNextPacket, setState, hkind]
  | failedData | barrierData => simp [numSent, packets, hkind] at hunsent

/-- The packets still to send, before and after one is sent. -/
theorem drop_numSent (hk : r.getHeadPacket = some k) (hunsent : r.numSent < r.packets.length)
    (state : LSQRequestState) :
    r.packets.drop r.numSent = k :: (r.stepToNextPacket.setState state).packets.drop
        (r.stepToNextPacket.setState state).numSent := by
  rw [(packets_stepToNextPacket r state).1, (numSent_stepToNextPacket hunsent state).1]
  have hget := getElem?_of_getHeadPacket hk hunsent
  rw [getElem?_eq_getElem hunsent, some.injEq] at hget
  rw [← hget, drop_eq_getElem_cons hunsent]

/-- A packet is sent. -/
theorem ReqOk.send (h : ReqOk tid r as) (hk : r.getHeadPacket = some k)
    (hunsent : r.numSent < r.packets.length) (state : LSQRequestState) (p : Nat) :
    ReqOk tid (r.stepToNextPacket.setState state)
      (as ++ [{ ptr := p, packet := k, performed := false }]) := by
  have hsame := sameBody_stepToNextPacket r state
  obtain ⟨hpackets, hpacket⟩ := packets_stepToNextPacket r state
  obtain ⟨hsent, hback⟩ := numSent_stepToNextPacket hunsent state
  refine h.keep hsame hpackets ?_ ?_ ?_ (hsent ▸ hunsent) ?_
  · rw [hpacket]
    exact fun k' hk' => ⟨k', hk', rfl, (h.made k' hk').whole⟩
  · intro hnone
    rw [hpacket] at hnone
    rw [(h.empty hnone).1] at hunsent
    exact absurd hunsent (Nat.not_lt_zero _)
  · rw [length_append, length_singleton, hsent, ← h.count]
    omega
  · intro a ha
    rcases mem_append.mp ha with ha | ha
    · exact h.access a ha
    · rw [mem_singleton.mp ha]
      exact ⟨k, mem_of_getElem? (getElem?_of_getHeadPacket hk hunsent), Packet.Like.refl k⟩

/-- Whether all packets were sent, for a request with packets. -/
theorem Made.sentAllPackets_iff (h : r.Made k) (hk : r.packet = some k) :
    r.sentAllPackets = true ↔ r.numSent = r.packets.length := by
  unfold sentAllPackets numSent packets at *
  rcases h.kind with hkind | hkind
  · simp only [hkind, hk, toList_some]
    cases r.packetSent <;> simp
  · simp only [hkind, beq_iff_eq, h.fragments hkind]

/-! ### A response -/

theorem sameBody_retireResponse (r : LSQRequest) (response : Packet) (fresh : Buffer) :
    SameBody r (r.retireResponse response fresh) := by
  by_cases hkind : r.kind = .splitData
  · rw [retireSplit_eq r hkind]
    exact ⟨⟨rfl, rfl, rfl, rfl⟩, rfl, rfl, rfl, rfl⟩
  · rcases r.retireResponse_of_not_split hkind response fresh with ⟨-, heq⟩ | heq <;> rw [heq] <;>
      exact ⟨⟨rfl, rfl, rfl, rfl⟩, rfl, rfl, rfl, rfl⟩

variable {a : MemAccess}

section
variable (h : ReqOk tid r as)
include h

/-- A response for a fragment in flight: the fragments stay, and one more is back. -/
theorem ReqOk.retire_split (hkind : r.kind = .splitData)
    (hlen : as'.length + 1 = as.length) (hsub : ∀ b ∈ as', b ∈ as) (fresh : Buffer) :
    ReqOk tid (r.retireResponse a.packet fresh) as' := by
  have hsame := sameBody_retireResponse r a.packet fresh
  have heq := retireSplit_eq r hkind a.packet fresh
  have hpackets : (r.retireResponse a.packet fresh).packets = r.packets := by
    simp only [packets, hsame.kind, hkind, hsame.fragmentPackets]
  have hnumSent : (r.retireResponse a.packet fresh).numSent = r.numSent := by
    rw [heq]
    rfl
  have hnumBack : (r.retireResponse a.packet fresh).numBack = r.numBack + 1 := by
    rw [heq]
    simp only [numBack, hkind]
  have hcount := h.count
  refine h.keep hsame hpackets ?_ ?_ (by omega) (hnumSent ▸ h.sent)
    fun b hb => h.access b (hsub b hb)
  · intro k hk
    rw [heq] at hk
    dsimp only at hk
    split at hk
    · -- The packet of a load gets the collected data.
      rename_i hcond
      obtain ⟨k', hk', rfl⟩ := map_eq_some_iff.mp hk
      refine ⟨k', hk', rfl, (h.made k' hk').whole.withData fun hstore => ?_⟩
      rw [hcond.2.1] at hstore
      cases hstore
    · exact ⟨k, hk, rfl, (h.made k hk).whole⟩
  · intro hnone
    refine ⟨?_, hnumSent⟩
    rw [heq] at hnone
    dsimp only at hnone
    split at hnone
    · exact map_eq_none_iff.mp hnone
    · exact hnone

/-- A response for a single request: it takes the place of the packet, and nothing is in
flight. -/
theorem ReqOk.retire_single (hkind : r.kind = .singleData) (ha : a ∈ as)
    (hlen : as'.length + 1 = as.length) (fresh : Buffer) :
    ReqOk tid (r.retireResponse a.packet fresh) as' := by
  have hsame := sameBody_retireResponse r a.packet fresh
  have heq : r.retireResponse a.packet fresh = r.retireSingle a.packet := by
    simp only [retireResponse, hkind]
  obtain ⟨f, hf, hlike⟩ := h.access a ha
  obtain ⟨hpacket, hpackets⟩ : r.packet = some f ∧ r.packets = [f] := by
    simp only [packets, hkind, mem_toList] at hf ⊢
    exact ⟨hf, by rw [hf]; rfl⟩
  have hmade := h.made f hpacket
  have hcount := h.count
  have hsent := h.sent
  rw [hpackets, length_singleton] at hsent
  have hnil : as' = [] := eq_nil_of_length_eq_zero (by omega)
  have hone : r.packetSent = true := by
    have hnum : r.numSent = 1 := by omega
    simp only [numSent, hkind] at hnum
    cases hp : r.packetSent with
    | false =>
      rw [hp] at hnum
      cases hnum
    | true => rfl
  have hnew : (r.retireSingle a.packet).packets = [a.packet] := by
    simp only [packets, retireSingle, hkind, toList_some]
  rw [heq] at hsame ⊢
  refine ⟨h.plain_congr hsame, ?_, ?_, ?_, ?_, ?_⟩
  · intro k' hk'
    cases hk'
    exact hmade.single hsame hpackets hnew (hmade.whole.of_like hlike) hlike.place.2.2
  · intro hnone
    cases hnone
  · rw [hnil]
    simp [numBack, numSent, retireSingle, hkind]
  · rw [hnew]
    simp [numSent, retireSingle, hkind, hone]
  · rw [hnil]
    intro b hb
    cases hb

/-- A request with a packet in flight is single or split. -/
theorem ReqOk.kind_of_access (ha : a ∈ as) :
    r.kind = .singleData ∨ r.kind = .splitData := by
  obtain ⟨f, hf, -⟩ := h.access a ha
  cases hkind : r.kind with
  | singleData => exact .inl rfl
  | splitData => exact .inr rfl
  | failedData | barrierData => simp [packets, hkind] at hf

/-- A response for a packet in flight. -/
theorem ReqOk.retire (ha : a ∈ as) (hlen : as'.length + 1 = as.length)
    (hsub : ∀ b ∈ as', b ∈ as) (fresh : Buffer) :
    ReqOk tid (r.retireResponse a.packet fresh) as' := by
  rcases h.kind_of_access ha with hkind | hkind
  · exact h.retire_single hkind ha hlen fresh
  · exact h.retire_split hkind hlen hsub fresh

end

/-! ### An access of memory -/

/-- The packets in flight after one of them was performed. -/
structure Performed (mem : Addr → Byte) (a : MemAccess) (as as' : List MemAccess) : Prop where
  access : a ∈ as
  length : as'.length = as.length
  sub : ∀ b ∈ as', b ∈ as ∨ b = { a with packet := a.packet.answer mem, performed := true }
  sup : ∀ b ∈ as, b ∈ as' ∨ b = a ∧
    { a with packet := a.packet.answer mem, performed := true } ∈ as'

theorem mem_packets (hkind : r.kind = .splitData) {j : Nat}
    (hf : r.fragmentPackets[j]? = some f) : f ∈ r.packets := by
  simp only [packets, hkind]
  exact mem_of_getElem? hf

section
variable (h : ReqOk tid r as)
include h

/-- A packet that was sent has the flags of a plain access. -/
theorem ReqOk.part_of_packets (hf : f ∈ r.packets) :
    ∃ offset, r.Part offset f := by
  cases hpacket : r.packet with
  | none =>
    rw [(h.empty hpacket).1] at hf
    cases hf
  | some k => exact (h.made k hpacket).parts f hf

/-- A packet in flight is a part of the access. -/
theorem ReqOk.part_of_access (ha : a ∈ as) :
    ∃ offset, r.Part offset a.packet := by
  obtain ⟨f, hf, hlike⟩ := h.access a ha
  obtain ⟨offset, hpart⟩ := h.part_of_packets hf
  exact ⟨offset, hpart.of_like hlike⟩

/-- The access of memory changes the data in flight only. -/
theorem ReqOk.perform (hperf : Performed mem a as as') : ReqOk tid r as' where
  plain := h.plain
  made := h.made
  empty := h.empty
  count := by
    rw [hperf.length]
    exact h.count
  sent := h.sent
  access := by
    intro b hb
    rcases hperf.sub b hb with hb | rfl
    · exact h.access b hb
    · obtain ⟨f, hf, hlike⟩ := h.access a hperf.access
      obtain ⟨offset, hpart⟩ := h.part_of_packets hf
      exact ⟨f, hf, hlike.answer hpart.isSwap mem⟩

end

/-! ### The data of a load -/

/-- The data of a load, where it has arrived, is that of `arch`. -/
structure LoadOk (arch : Addr → Byte) (r : LSQRequest) (as : List MemAccess) : Prop where
  performed : ∀ a ∈ as, a.performed = true → ∀ i < a.packet.size,
    a.packet.data i = arch (a.packet.paddr + i)
  collected : r.kind = .splitData → ∀ j < r.numIssuedFragments, ∀ f,
    r.fragmentPackets[j]? = some f →
    (∃ a ∈ as, a.packet.Like f) ∨
      ∃ d, r.data = some d ∧ ∀ i < f.size, d (f.vaddr - r.request.vaddr + i) = arch (f.paddr + i)
  complete : r.state = .complete → r.skipped = false → ∀ k, r.packet = some k →
    ∀ i < r.request.size, ∀ a, r.physAddr i = some a → k.data i = arch a

variable {arch : Addr → Byte}

/-- A change of the state that completes nothing. -/
theorem LoadOk.congr (h : LoadOk arch r as) (hsame : SameTraffic r r')
    (hcomplete : r'.state = .complete → r'.skipped = false →
      r.state = .complete ∧ r.skipped = false) : LoadOk arch r' as where
  performed := h.performed
  collected := by
    rw [hsame.kind, hsame.numIssuedFragments, hsame.fragmentPackets, hsame.data, hsame.request]
    exact h.collected
  complete := by
    intro hstate hskipped
    obtain ⟨hs, hk⟩ := hcomplete hstate hskipped
    rw [hsame.packet, hsame.request, hsame.toSameBody.physAddr]
    exact h.complete hs hk

/-- A load that has not started has no data. -/
theorem LoadOk.idle (h : ReqOk tid r as) (hsent : r.numSent = 0)
    (hcomplete : r.state = .complete → r.skipped = false → r.packet = none) (arch : Addr → Byte) :
    LoadOk arch r as where
  performed := by
    rw [h.nil_of_unsent hsent]
    intro a ha
    cases ha
  collected := by
    intro hkind j hj
    simp only [numSent, hkind] at hsent
    omega
  complete := by
    intro hstate hskipped k hk
    rw [hcomplete hstate hskipped] at hk
    cases hk

/-- When the data of all fragments is in place, each translated byte of the access is right. -/
theorem Made.byte_of_fragments (h : r.Made k) (hkind : r.kind = .splitData) {d : Buffer}
    (hbytes : ∀ f ∈ r.fragmentPackets, ∀ i < f.size,
      d (f.vaddr - r.request.vaddr + i) = arch (f.paddr + i))
    {i : Nat} (hi : i < r.request.size) {x : Addr} (hx : r.physAddr i = some x) : d i = arch x := by
  obtain ⟨f, hf, hstart, hend⟩ := h.covered i hi x hx
  obtain ⟨offset, hpart⟩ := h.parts f hf
  simp only [packets, hkind] at hf
  have hbyte := hbytes f hf (r.request.vaddr + i - f.vaddr) (by omega)
  rw [hpart.vaddr] at hstart hbyte
  have hleft : r.request.vaddr + offset - r.request.vaddr +
      (r.request.vaddr + i - (r.request.vaddr + offset)) = i := by omega
  have hright : f.paddr + (r.request.vaddr + i - (r.request.vaddr + offset))
      = r.request.paddr + i := by
    rw [hpart.paddr]
    omega
  rw [hleft, hright] at hbyte
  rw [hbyte, h.physAddr i x hx]

section
variable (h : LoadOk arch r as)
include h

/-- A packet is sent. -/
theorem LoadOk.send (hk : r.getHeadPacket = some k) (p : Nat)
    {state : LSQRequestState} (hstate : state ≠ .complete) :
    LoadOk arch (r.stepToNextPacket.setState state)
      (as ++ [{ ptr := p, packet := k, performed := false }]) where
  performed := by
    intro a ha hperf
    rcases mem_append.mp ha with ha | ha
    · exact h.performed a ha hperf
    · rw [mem_singleton] at ha
      subst ha
      cases hperf
  collected := by
    intro hkind j hj f hf
    have hkind' : r.kind = .splitData := (sameBody_stepToNextPacket r state).kind.symm.trans hkind
    simp only [stepToNextPacket, hkind', setState] at hj hf ⊢
    by_cases hlast : j = r.numIssuedFragments
    · -- The fragment was sent just now.
      simp only [getHeadPacket, hkind'] at hk
      rw [hlast, hk, some.injEq] at hf
      subst hf
      exact .inl ⟨_, mem_append_right _ (mem_singleton_self _), Packet.Like.refl k⟩
    · rcases h.collected hkind' j (by omega) f hf with ⟨a, ha, hlike⟩ | hdata
      · exact .inl ⟨a, mem_append_left _ ha, hlike⟩
      · exact .inr hdata
  complete := fun hs => absurd hs hstate

variable (hreq : ReqOk tid r as)
include hreq

/-- A packet is performed on a memory that agrees with `arch`. -/
theorem LoadOk.perform (hload : r.isLoad = true) (hperf : Performed mem a as as')
    (hmem : ∀ i < a.packet.size, mem (a.packet.paddr + i) = arch (a.packet.paddr + i)) :
    LoadOk arch r as' where
  performed := by
    intro b hb hbp i hi
    rcases hperf.sub b hb with hb | rfl
    · exact h.performed b hb hbp i hi
    · -- The answer reads memory, since the packet is a plain read.
      obtain ⟨offset, hpart⟩ := hreq.part_of_access hperf.access
      have hread : a.packet.isLoad = true := hpart.isLoad.trans hload
      have hanswer : a.packet.answer mem = { a.packet with
          data := fun i => if i < a.packet.size then mem (a.packet.paddr + i)
            else a.packet.data i } := by
        simp [Packet.answer, hread, hpart.useCVUValue]
      rw [hanswer] at hi ⊢
      dsimp only at hi ⊢
      rw [if_pos hi]
      exact hmem i hi
  collected := by
    intro hkind j hj f hf
    rcases h.collected hkind j hj f hf with ⟨b, hb, hlike⟩ | hdata
    · rcases hperf.sup b hb with hb' | ⟨rfl, hnew⟩
      · exact .inl ⟨b, hb', hlike⟩
      · obtain ⟨offset, hpart⟩ := hreq.part_of_packets (mem_packets hkind hf)
        exact .inl ⟨_, hnew, hlike.answer hpart.isSwap mem⟩
    · exact .inr hdata
  complete := h.complete

omit hreq in
/-- The pasted data is right where the response or the data collected before holds the byte. -/
theorem LoadOk.pasted_eq (ha : a ∈ as) (hperf : a.performed = true)
    (hpart : r.Part offset a.packet) (fresh : Buffer) {x : Nat}
    (hx : (offset ≤ x ∧ x < offset + a.packet.size) ∨
      ∃ d, r.data = some d ∧ d x = arch (r.request.paddr + x)) :
    r.pasted a.packet fresh x = arch (r.request.paddr + x) := by
  have hoffset : a.packet.vaddr - r.request.vaddr = offset := by
    rw [hpart.vaddr, Nat.add_sub_cancel_left]
  simp only [pasted, memcpy, hoffset]
  by_cases hin : offset ≤ x ∧ x < offset + a.packet.size
  · have hbyte := h.performed a ha hperf (x - offset) (by omega)
    rw [if_pos hin, hbyte, hpart.paddr, Nat.add_assoc, Nat.add_sub_cancel' hin.1]
  · obtain ⟨d, hd, hbyte⟩ := hx.resolve_left hin
    rw [if_neg hin, hd]
    exact hbyte

/-- After a response, a fragment that was sent is in flight or in the pasted data. -/
theorem LoadOk.collected_retire (hkind : r.kind = .splitData) (ha : a ∈ as)
    (hperf : a.performed = true) (hsup : ∀ b ∈ as, b = a ∨ b ∈ as') (fresh : Buffer) {j : Nat}
    (hj : j < r.numIssuedFragments) (hf : r.fragmentPackets[j]? = some f) :
    (∃ b ∈ as', b.packet.Like f) ∨ ∀ i < f.size,
      r.pasted a.packet fresh (f.vaddr - r.request.vaddr + i) = arch (f.paddr + i) := by
  obtain ⟨offset, hpart⟩ := hreq.part_of_access ha
  obtain ⟨offset', hpart'⟩ := hreq.part_of_packets (mem_packets hkind hf)
  have hindex : ∀ i, f.paddr + i = r.request.paddr + (f.vaddr - r.request.vaddr + i) := by
    intro i
    rw [hpart'.paddr, hpart'.vaddr]
    omega
  simp only [hindex]
  rcases h.collected hkind j hj f hf with ⟨b, hb, hlike⟩ | ⟨d, hd, hbytes⟩
  · rcases hsup b hb with rfl | hb'
    · refine .inr fun i hi => h.pasted_eq ha hperf hpart fresh (.inl ?_)
      obtain ⟨hvaddr, -, hsize⟩ := hlike.place
      rw [← hvaddr, hpart.vaddr]
      omega
    · exact .inl ⟨b, hb', hlike⟩
  · refine .inr fun i hi => h.pasted_eq ha hperf hpart fresh (.inr ⟨d, hd, ?_⟩)
    rw [← hindex i]
    exact hbytes i hi

/-- A response for a fragment: its data is pasted, and the last one completes the load. -/
theorem LoadOk.retire_split (hkind : r.kind = .splitData) (hload : r.isLoad = true)
    (hskipped : r.skipped = false)
    (hstate : r.state ≠ .complete) (ha : a ∈ as) (hperf : a.performed = true)
    (hlen : as'.length + 1 = as.length) (hsub : ∀ b ∈ as', b ∈ as)
    (hsup : ∀ b ∈ as, b = a ∨ b ∈ as') (fresh : Buffer) :
    LoadOk arch (r.retireResponse a.packet fresh) as' := by
  have hsame := sameBody_retireResponse r a.packet fresh
  have heq := retireSplit_eq r hkind a.packet fresh
  refine ⟨fun b hb => h.performed b (hsub b hb), ?_, ?_⟩
  · intro _ j hj f hf
    have hdata : (r.retireResponse a.packet fresh).data = some (r.pasted a.packet fresh) := by
      rw [heq]
      rw [if_pos ⟨hskipped, hload⟩]
    rw [heq] at hj
    rw [hsame.fragmentPackets] at hf
    rw [hdata, hsame.request]
    exact (h.collected_retire hreq hkind ha hperf hsup fresh hj hf).imp_right
      fun hbytes => ⟨_, rfl, hbytes⟩
  · intro hcomplete _ k' hk' i hi x hx
    -- Only the last response completes the load, and then nothing is in flight.
    have hdone : r.splitDone = true := by
      by_contra hnot
      rw [heq] at hcomplete
      rw [if_neg hnot] at hcomplete
      exact hstate hcomplete
    obtain ⟨k, hk, rfl⟩ : ∃ k, r.packet = some k ∧ k' = { k with
        data := memcpy k.data 0 (r.pasted a.packet fresh) r.request.size } := by
      rw [heq] at hk'
      dsimp only at hk'
      rw [if_pos ⟨hskipped, hload, .inl hdone⟩] at hk'
      obtain ⟨k, hk, rfl⟩ := map_eq_some_iff.mp hk'
      exact ⟨k, hk, rfl⟩
    have hmade := hreq.made k hk
    rw [hsame.request] at hi
    rw [hsame.physAddr] at hx
    have hall : r.numRetiredFragments + 1 = r.fragmentPackets.length := by
      rw [splitDone, hskipped, Bool.false_and, Bool.false_or, beq_iff_eq] at hdone
      rw [hdone, hmade.fragments hkind]
    have hcount := hreq.count
    have hsent := hreq.sent
    simp only [numBack, numSent, packets, hkind] at hcount hsent
    have hnil : as' = [] := eq_nil_of_length_eq_zero (by omega)
    simp only [memcpy, Nat.zero_le, Nat.zero_add, true_and, Nat.sub_zero]
    rw [if_pos hi]
    refine hmade.byte_of_fragments hkind (fun f hf => ?_) hi hx
    obtain ⟨j, hj⟩ := getElem?_of_mem hf
    have hjlen : j < r.fragmentPackets.length := (List.getElem?_eq_some_iff.mp hj).1
    refine (h.collected_retire hreq hkind ha hperf hsup fresh (by omega) hj).resolve_left ?_
    rintro ⟨b, hb, -⟩
    rw [hnil] at hb
    cases hb

/-- A response for a load in flight. -/
theorem LoadOk.retire (hload : r.isLoad = true)
    (hskipped : r.skipped = false) (hstate : r.state ≠ .complete) (ha : a ∈ as)
    (hperf : a.performed = true) (hlen : as'.length + 1 = as.length) (hsub : ∀ b ∈ as', b ∈ as)
    (hsup : ∀ b ∈ as, b = a ∨ b ∈ as') (fresh : Buffer) :
    LoadOk arch (r.retireResponse a.packet fresh) as' := by
  rcases hreq.kind_of_access ha with hkind | hkind
  · have hsame := sameBody_retireResponse r a.packet fresh
    have hpacket : (r.retireResponse a.packet fresh).packet = some a.packet := by
      simp only [retireResponse, hkind, retireSingle]
    refine ⟨fun b hb => h.performed b (hsub b hb), fun hsplit => ?_, ?_⟩
    · rw [hsame.kind, hkind] at hsplit
      cases hsplit
    · intro _ _ k hk i hi x hx
      rw [hpacket, some.injEq] at hk
      subst hk
      -- The packet in flight is the packet of the request, with the bytes of memory.
      obtain ⟨f, hf, hlike⟩ := hreq.access a ha
      simp only [packets, hkind, mem_toList] at hf
      have hmade := hreq.made f hf
      rw [hsame.request] at hi
      rw [hsame.physAddr] at hx
      obtain ⟨-, hpaddr, hsize⟩ := hlike.place
      have hbyte := h.performed a ha hperf i (by rw [hsize, hmade.size]; exact hi)
      rw [hpaddr, hmade.whole.paddr, Nat.add_zero] at hbyte
      rw [hbyte, hmade.physAddr i x hx]
  · exact h.retire_split hreq hkind hload hskipped hstate ha hperf hlen hsub hsup fresh

end

/-- The packet gets new data before anything is sent. A store keeps its bytes. -/
theorem ReqOk.setPacket (h : ReqOk tid r as) (hk : r.packet = some k) (hnone : r.numSent = 0)
    (data : Buffer) (hdata : r.isLoad = false → ∀ i < k.size, data i = r.writeData i)
    (state : LSQRequestState) :
    ReqOk tid { r with packet := some { k with data := data }, state := state } as := by
  have hmade := h.made k hk
  have hsame : SameBody r { r with packet := some { k with data := data }, state := state } :=
    ⟨⟨rfl, rfl, rfl, rfl⟩, rfl, rfl, rfl, rfl⟩
  have hwhole : r.Part 0 { k with data := data } := by
    refine hmade.whole.withData fun hstore i hi => ?_
    rw [Nat.zero_add]
    exact hdata hstore i hi
  -- A single request sends the packet itself, and a split one sends its fragments.
  rcases hmade.kind with hkind | hkind
  · refine ⟨h.plain_congr hsame, ?_, by simp, h.count, ?_, ?_⟩
    · intro k' hk'
      cases hk'
      exact hmade.single hsame (by simp [packets, hkind, hk]) (by simp [packets, hkind]) hwhole rfl
    · exact hnone.trans_le (Nat.zero_le _)
    · rw [h.nil_of_unsent hnone]
      intro a ha
      cases ha
  · refine h.keep hsame (by simp [packets, hkind]) ?_ (by simp) h.count h.sent h.access
    intro k' hk'
    cases hk'
    exact ⟨k, hk, rfl, hwhole⟩

/-- A load that takes its data from a store is complete. -/
theorem LoadOk.setPacket (h : ReqOk tid r as) (hk : r.packet = some k) (hnone : r.numSent = 0)
    {data : Buffer} (hdata : ∀ i < r.request.size, data i = arch (r.request.paddr + i))
    (state : LSQRequestState) :
    LoadOk arch { r with packet := some { k with data := data }, state := state } as where
  performed := by
    rw [h.nil_of_unsent hnone]
    intro a ha
    cases ha
  collected := by
    intro hkind j hj
    have hkind' : r.kind = .splitData := hkind
    simp only [numSent, hkind'] at hnone
    have hj' : j < r.numIssuedFragments := hj
    omega
  complete := by
    intro _ _ k' hk' i hi x hx
    cases hk'
    have hx' : r.physAddr i = some x := hx
    rw [(h.made k hk).physAddr i x hx']
    exact hdata i hi

/-- A request without a packet. -/
theorem ReqOk.of_none (hplain : r.kind = .singleData ∨ r.kind = .splitData → Plain tid r)
    (hpacket : r.packet = none) (hpackets : r.packets = []) (hsent : r.numSent = 0)
    (hback : r.numBack = 0) : ReqOk tid r [] where
  plain := hplain
  made := by
    intro k hk
    rw [hpacket] at hk
    cases hk
  empty := fun _ => ⟨hpackets, hsent⟩
  count := by rw [hsent, hback]; rfl
  sent := by
    rw [hsent]
    exact Nat.zero_le _
  access := by
    intro a ha
    cases ha

end

end LSQRequest

end Gem5.MyMinor
