import Gem5.Proofs.MyMinor.LSQLedger
import Gem5.Proofs.MyMinor.StoreCommit

/-!
# `Gem5.Proofs.MyMinor.LSQCounters`: the counters of the LSQ

`LSQ.Counters` says that the four counters of the LSQ are what they count. Three of them are
part of the account of `Gem5.Proofs.MyMinor.LSQLedger`. The fourth is `numUnissuedAccesses` of
the store buffer: the barriers, and the stores that have packets to send.

A store leaves the store buffer when it is complete, and `numUnissuedAccesses` goes down when
its last packet is sent. An error response ends a split store early, and the counter then stays one
too high (`split_store_error_leaves_count`). `counters_in_every_state` is for runs without it.
-/

namespace Gem5.MyMinor

open LSQRequest Lib List

open Function

/-- A slot that `numUnissuedAccesses` counts: a barrier, or a store with packets to send. -/
def LSQRequest.unissued (r : LSQRequest) : Bool :=
  r.isBarrier || !r.sentAllPackets

namespace LSQ

/-- The count of the store buffer. -/
def SlotsCounted (l : LSQ) : Prop :=
  l.numUnissuedAccesses = l.slots.countP fun p => (l.heap p).unissued

/-- The counters of the LSQ are what they count. -/
structure Counters (l : LSQ) : Prop where
  storesInTransfers : l.numStoresInTransfers = l.transfers.countP fun p => !(l.heap p).isLoad
  issuedToMemory : l.numAccessesIssuedToMemory
    = (l.requests ++ l.transfers).countP fun p => (l.heap p).issuedToMemory
  inMemorySystem : l.numAccessesInMemorySystem = l.dcachePort.inMemory.length
  limit : l.numAccessesInMemorySystem ≤ l.inMemorySystemLimit
  unissued : l.numUnissuedAccesses
    = l.slots.countP (fun p => (l.heap p).isBarrier) +
      l.slots.countP fun p => !(l.heap p).isBarrier && !(l.heap p).sentAllPackets

section
variable {l l' : LSQ} {p : Nat}

/-- Barriers and stores with packets to send, counted together and apart. -/
theorem countP_unissued (heap : Nat → LSQRequest) (slots : List Nat) :
    slots.countP (fun p => (heap p).unissued) = slots.countP (fun p => (heap p).isBarrier) +
        slots.countP fun p => !(heap p).isBarrier && !(heap p).sentAllPackets := by
  induction slots with
  | nil => rfl
  | cons q rest ih =>
    rw [countP_cons, ih, countP_cons, countP_cons, unissued]
    cases (heap q).isBarrier <;> cases (heap q).sentAllPackets <;> simp <;> omega

/-- A change outside the store buffer. -/
theorem SlotsCounted.frame (h : l.SlotsCounted) (hslots : l'.slots = l.slots)
    (hcount : l'.numUnissuedAccesses = l.numUnissuedAccesses)
    (hheap : ∀ q ∈ l.slots, (l'.heap q).unissued = (l.heap q).unissued) : l'.SlotsCounted := by
  unfold SlotsCounted
  rw [hcount, hslots, show l.numUnissuedAccesses = _ from h]
  exact countP_congr fun q hq => by rw [hheap q hq]

end

end LSQ

/-! ### Sending packets -/

variable {r : LSQRequest}

/-- A request with a packet to send has not sent all of them. -/
theorem LSQRequest.Counted.not_sentAllPackets (h : r.Counted) {packet : Packet}
    (hpacket : r.getHeadPacket = some packet)
    (hunsent : r.kind = .singleData → r.packetSent = false) : r.sentAllPackets = false := by
  unfold getHeadPacket at hpacket
  split at hpacket
  · rename_i hkind
    simp [sentAllPackets, hkind, hunsent hkind]
  · rename_i hkind
    have hlt := (List.getElem?_eq_some_iff.mp hpacket).1
    have hmade := h.made
    simp only [sentAllPackets, hkind, beq_eq_false_iff_ne]
    omega
  · cases hpacket

/-- A store that enters the store buffer has not sent its packets. -/
theorem LSQRequest.Counted.not_sentAllPackets_of_beforeSend (h : r.Counted)
    (hstate : beforeSend r.state = true) (htranslated : r.state ≠ .inTranslation) :
    r.sentAllPackets = false := by
  unfold sentAllPackets
  split
  · rename_i hkind
    refine h.not_sent (fun hs => ?_) hkind
    rcases hs with hs | hs | hs <;> simp [hs, beforeSend] at hstate
  · rename_i hkind
    have hzero := h.unsent hstate
    have hpos := h.translated hkind hstate htranslated
    simp only [beq_eq_false_iff_ne]
    omega
  · rename_i hsingle hsplit
    rcases h.special hsingle hsplit with hs | hs <;> simp [hs, beforeSend] at hstate

namespace LSQSystem

section
variable {s : LSQSystem} {l l' : LSQ} {env : LSQEnv} {p : Nat} {packet : Packet} {sent : Bool}

/-- A slot that is tried to be sent, and what that does to the count of the store buffer. -/
theorem slotsCounted_send (hacc : Accounts l) (h : l.SlotsCounted) (hnodup : l.slots.Nodup)
    (hp : p ∈ l.slots) {r : LSQRequest} (hpacket : (l.heap p).getHeadPacket = some packet)
    (hunsent : (l.heap p).kind = .singleData → (l.heap p).packetSent = false)
    (hsent : r.sentAllPackets = (l.heap p).stepToNextPacket.sentAllPackets)
    (hbarrier : r.isBarrier = (l.heap p).isBarrier) (hheap : l'.heap = update l.heap p r)
    (hslots : l'.slots = l.slots) (hcount : l'.numUnissuedAccesses = l.numUnissuedAccesses) :
    LSQ.SlotsCounted (if (l.heap p).stepToNextPacket.sentAllPackets then
        l'.countIssuedStore p else l') ∧
      ((l.heap p).stepToNextPacket.sentAllPackets = true → l'.countIssuedStoreWraps p = false) := by
  have hbefore := (hacc.request p).not_sentAllPackets hpacket hunsent
  have hself : l'.heap p = r := by rw [hheap, update_self]
  have hadd := countP_update_add l.heap (b := r) unissued hnodup hp
  rw [← hheap] at hadd
  have hold : (l.heap p).unissued = true := by simp [unissued, hbefore]
  rw [hold, ← show l.numUnissuedAccesses = _ from h] at hadd
  cases hall : (l.heap p).stepToNextPacket.sentAllPackets with
  | false =>
    refine ⟨?_, by simp⟩
    have hnew : r.unissued = true := by simp [unissued, hsent, hall]
    rw [hnew] at hadd
    show l'.numUnissuedAccesses = l'.slots.countP fun p => (l'.heap p).unissued
    rw [hcount, hslots]
    omega
  | true =>
    have hnew : r.unissued = (l.heap p).isBarrier := by
      simp [unissued, hsent, hall, hbarrier]
    rw [hnew] at hadd
    simp only [LSQ.countIssuedStore, LSQ.countIssuedStoreWraps, hself, hbarrier]
    cases hb : (l.heap p).isBarrier with
    | true =>
      rw [hb] at hadd
      refine ⟨?_, by simp⟩
      show l'.numUnissuedAccesses = l'.slots.countP fun p => (l'.heap p).unissued
      rw [hslots]
      omega
    | false =>
      rw [hb] at hadd
      simp only [Bool.toNat_false, Bool.toNat_true, Nat.add_zero] at hadd
      refine ⟨?_, fun _ => ?_⟩
      · show l'.numUnissuedAccesses - 1 = l'.slots.countP fun p => (l'.heap p).unissued
        rw [hslots]
        omega
      · simp
        omega

variable (hwf : (s.viewOf l).WF)
include hwf

/-- `tryToSendToTransfers` changes one request, which is not in the store buffer. -/
theorem transfer_frame (h : Transfer s env l p l') :
    l'.slots = l.slots ∧ l'.numUnissuedAccesses = l.numUnissuedAccesses ∧
      ∀ q ∈ l.slots, l'.heap q = l.heap q := by
  have hne : ∀ {rest : List Nat}, l.requests = p :: rest → ∀ q ∈ l.slots, q ≠ p := by
    intro rest hfront q hq hqp
    have hp : p ∈ l.requests := by rw [hfront]; exact mem_cons_self
    exact (hwf.not_mem_of_request hp).2 (hqp ▸ hq)
  cases h with
  | wait => exact ⟨rfl, rfl, fun _ _ => rfl⟩
  | skip rest hfront =>
    exact ⟨rfl, rfl, fun q hq => update_of_ne (hne hfront q hq) _ _⟩
  | toStoreBuffer rest hcan | forward rest slot packet hcan | failConditional rest hcan =>
    exact ⟨rfl, rfl, fun q hq => update_of_ne (hne hcan.front q hq) _ _⟩
  | send rest l₁ sent hsend hroom htry =>
    have hmark : (l.markIssued p).slots = l.slots ∧
        (l.markIssued p).numUnissuedAccesses = l.numUnissuedAccesses ∧
        ∀ q ≠ p, (l.markIssued p).heap q = l.heap q := by
      unfold LSQ.markIssued
      split
      · exact ⟨rfl, rfl, fun q hq => update_of_ne hq _ _⟩
      · exact ⟨rfl, rfl, fun _ _ => rfl⟩
    obtain ⟨⟨-, -, hslots⟩, hcount, hheap⟩ := tryToSend_frame htry
    cases sent <;>
      exact ⟨hslots.trans hmark.1, hcount.trans hmark.2.1, fun q hq =>
        (hheap q (hne hsend.front q hq)).trans (hmark.2.2 q (hne hsend.front q hq))⟩

/-- A slot is sent: the count of the store buffer stays right, and does not wrap. -/
theorem slotsCounted_tryToSend (hacc : Accounts l) (h : l.SlotsCounted) (hp : p ∈ l.slots)
    (hopen : ¬((l.heap p).state == .storeBufferIssuing && (l.heap p).sentAllPackets) = true)
    (htry : l.tryToSend env p = some (l', sent)) :
    LSQ.SlotsCounted (if sent then l'.countIssuedStore p else l') ∧
      (sent = true → l'.countIssuedStoreWraps p = false) := by
  have hslot : InSlots (l.heap p) := hwf.slots p hp
  have hcounted := hacc.request p
  have hnodup : l.slots.Nodup := (nodup_append.mp hwf.nodup).2.1
  rcases tryToSend_cases htry with ⟨rfl, rfl, -⟩ | ⟨-, packet, hpacket, hcases⟩
  · exact ⟨h, by simp⟩
  rcases hcases with ⟨hlocal, -⟩ | ⟨-, port, state, hport, hissue, rfl, rfl⟩ |
    ⟨-, state, hretry, rfl, rfl⟩
  · cases hslot.2.symm.trans hlocal
  · refine slotsCounted_send (r := (l.heap p).stepToNextPacket.setState state) hacc h hnodup hp
      hpacket (fun hkind => ?_) rfl
      (LSQRequest.SameAccess.isBarrier ((l.heap p).stepToNextPacket_frame.1.setState state))
      rfl rfl rfl
    rcases slot_state (.inl hissue) hslot hopen with hs | ⟨-, hs⟩
    · cases hsent : (l.heap p).packetSent with
      | false => rfl
      | true => rcases hcounted.sent hkind hsent with hs' | hs' | hs' <;> simp [hs] at hs'
    · simpa [sentAllPackets, hkind] using hs
  · refine ⟨LSQ.SlotsCounted.frame h rfl rfl fun q _ => ?_, by simp⟩
    by_cases hq : q = p
    · subst hq
      show ((l.modify q fun r => r.setState state).heap q).unissued = _
      rw [LSQ.modify_heap_self]
      rfl
    · exact congrArg unissued (update_of_ne hq _ _)

/-- `StoreBuffer::step` keeps the count. -/
theorem slotsCounted_drain (h : Accounts l ∧ l.SlotsCounted)
    (hd : Drain env l l') : Accounts l' ∧ l'.SlotsCounted := by
  refine ⟨h.1.drain hwf hd, ?_⟩
  cases hd with
  | clearBarrier p rest hslots hcomplete hbarrier =>
    show l.numUnissuedAccesses - 1 = rest.countP
      fun q => ((l.clearMemBarrier (l.heap p).inst).heap q).unissued
    have hcount : l.numUnissuedAccesses = _ := h.2
    obtain ⟨barrier, hclear⟩ := clearMemBarrier_eq l (l.heap p).inst
    rw [hclear, hcount, hslots]
    simp [unissued, hbarrier]
  | slotSend l₁ p older younger sent hslots holder hopen htry =>
    exact (slotsCounted_tryToSend hwf h.1 h.2 (by simp [hslots]) hopen htry).1

/-- A store of the store buffer is sent again. -/
theorem slotsCounted_resent (hacc : Accounts l) (h : l.SlotsCounted)
    (hstate : (l.heap p).state = .storeBufferNeedsRetry) (hp : p ∈ l.slots)
    (hpacket : (l.heap p).getHeadPacket = some packet) (port : DcachePort) :
    LSQ.SlotsCounted (if (l.heap p).stepToNextPacket.sentAllPackets then
        (resent l p .storeBufferIssuing port).countIssuedStore p
        else resent l p .storeBufferIssuing port) ∧
      ((l.heap p).stepToNextPacket.sentAllPackets = true →
        (resent l p .storeBufferIssuing port).countIssuedStoreWraps p = false) := by
  have hunsent := (hacc.request p).not_sent (by simp [hstate])
  exact slotsCounted_send (r := (l.heap p).stepToNextPacket.setState .storeBufferIssuing) hacc h
    (nodup_append.mp hwf.nodup).2.1 hp hpacket hunsent rfl
    (LSQRequest.SameAccess.isBarrier
      ((l.heap p).stepToNextPacket_frame.1.setState .storeBufferIssuing)) rfl rfl rfl

/-- A retry keeps the count. -/
theorem slotsCounted_retry (hacc : Accounts l) (h : l.SlotsCounted)
    (hr : Retry l l') : l'.SlotsCounted := by
  cases hr with
  | refused => exact h
  | request p rest packet port hwaiting hretry hstate hfront =>
    have hp : p ∈ l.requests := by rw [hfront]; exact mem_cons_self
    have hother : ∀ q ∈ l.slots, (resent l p .requestIssuing port).heap q = l.heap q := by
      intro q hq
      refine update_of_ne ?_ _ _
      rintro rfl
      exact (hwf.not_mem_of_request hp).2 hq
    split <;> exact h.frame rfl rfl fun q hq => congrArg unissued (hother q hq)
  | slot p packet port hwaiting hretry hstate hp hlocal hpacket =>
    have hsend := (slotsCounted_resent hwf hacc h hstate hp hpacket port).1
    split
    · rename_i hall
      rw [if_pos hall] at hsend
      exact hsend
    · rename_i hall
      rw [if_neg hall] at hsend
      exact hsend

end

end LSQSystem

/-! ### Responses -/

/-- The response to the last packet in flight of a split store in the store buffer ends the
store early: the store is skipped, and some of its packets are not sent yet. -/
def LSQRequest.endsEarly (r : LSQRequest) (skipped : Bool) : Bool :=
  (r.state == .storeBufferIssuing || r.state == .storeBufferNeedsRetry) && !r.isBarrier &&
    r.kind == .splitData && skipped && r.numIssuedFragments == r.numRetiredFragments + 1 &&
    !r.sentAllPackets

namespace LSQRequest

section
variable {r r' : LSQRequest} {skipped : Bool}

/-- A response changes neither what is sent nor what is counted. -/
theorem Retires.sentAllPackets (h : Retires skipped r r') :
    r'.sentAllPackets = r.sentAllPackets := by
  simp only [LSQRequest.sentAllPackets, h.same.kind, h.packetSent, h.numIssued, h.numTranslated]

theorem Retires.unissued (h : Retires skipped r r') : r'.unissued = r.unissued := by
  simp only [LSQRequest.unissued, h.sentAllPackets, h.same.isBarrier]

/-- A store of the store buffer that a response completes has sent all its packets, unless it
ends early. -/
theorem Counted.sentAllPackets_of_complete (h : r.Counted) (hpos : 0 < r.outstanding)
    (hretires : Retires skipped r r') (hcomplete : r'.state = .complete)
    (hstate : r.state = .storeBufferIssuing ∨ r.state = .storeBufferNeedsRetry)
    (hbarrier : r.isBarrier = false) (hearly : r.endsEarly skipped = false) :
    r.sentAllPackets = true := by
  obtain ⟨-, ⟨hkind, hflight, -⟩ | ⟨hkind, hlt, -⟩⟩ := Counted.of_outstanding hpos
  · simp [sentAllPackets, hkind, h.inFlight hflight]
  · have hissued := h.issued
    have hmade := h.made
    rw [(hretires.split hkind).2.2] at hcomplete
    split at hcomplete
    · rename_i hdone
      simp only [Bool.or_eq_true, Bool.and_eq_true, beq_iff_eq] at hdone
      rcases hdone with ⟨hskipped, hlast⟩ | hlast
      · -- The last packet in flight of a skipped store.
        by_contra hne
        rcases hstate with hs | hs <;>
          simp [endsEarly, hs, hbarrier, hkind, hskipped, hlast, hne] at hearly
      · simp only [sentAllPackets, hkind, beq_iff_eq]
        omega
    · rcases hstate with hs | hs <;> simp [hs] at hcomplete

end

end LSQRequest

namespace LSQSystem

section
variable {s : LSQSystem} {l : LSQ}

/-- A response keeps the count of the store buffer, unless it ends a store early. -/
theorem slotsCounted_respond (hacc : Accounts l) (h : l.SlotsCounted) {k : Nat} {a : MemAccess}
    {r : LSQRequest} {skipped : Bool} (ha : l.dcachePort.inMemory[k]? = some a)
    (hretires : LSQRequest.Retires skipped (l.heap a.ptr) r)
    (hearly : (l.heap a.ptr).endsEarly skipped = false) :
    (responded l k a r (slotsAfter l a.ptr r)).SlotsCounted := by
  have hpos := hacc.outstanding_pos (mem_of_getElem? ha)
  have hcount : ∀ slots : List Nat, slots.countP (fun q => ((update l.heap a.ptr r) q).unissued)
      = slots.countP fun q => (l.heap q).unissued :=
    countP_update_of_eq l.heap unissued hretires.unissued
  have herase : (l.heap a.ptr).state = .storeBufferIssuing ∨
      (l.heap a.ptr).state = .storeBufferNeedsRetry → r.isComplete && !r.isBarrier →
      (l.slots.erase a.ptr).countP (fun q => (l.heap q).unissued)
        = l.slots.countP fun q => (l.heap q).unissued := by
    intro hstate hdone
    simp only [Bool.and_eq_true, Bool.not_eq_true', isComplete, beq_iff_eq] at hdone
    have hbarrier : (l.heap a.ptr).isBarrier = false := hretires.same.isBarrier.symm.trans hdone.2
    have hsent := (hacc.request a.ptr).sentAllPackets_of_complete hpos hretires hdone.1
      hstate hbarrier hearly
    have hnot : (l.heap a.ptr).unissued = false := by
      simp [unissued, hbarrier, hsent]
    rw [countP_erase]
    simp [hnot]
  show l.numUnissuedAccesses = (slotsAfter l a.ptr r).countP
    fun q => (update l.heap a.ptr r q).unissued
  rw [hcount, show l.numUnissuedAccesses = _ from h]
  rcases slotsAfter_cases l a.ptr r with ⟨heq, -⟩ | ⟨heq, hstate, hdone⟩ <;> rw [heq]
  exact (herase hstate hdone).symm

/-- A commit keeps the count of the store buffer: a store that enters it has its packets to
send. -/
theorem slotsCounted_commit (hwf : (s.viewOf l).WF) (hacc : Accounts l) (h : l.SlotsCounted)
    {p : Nat} {rest : List Nat} (hfront : l.transfers = p :: rest) (env : ResponseEnv) :
    (l.commitResponse env p).SlotsCounted := by
  have hp : p ∈ l.transfers := by rw [hfront]; exact mem_cons_self
  have hnslot : p ∉ l.slots := (hwf.not_mem_of_transfer hp).2
  have hother : ∀ r : LSQRequest, l.slots.countP
      (fun q => ((update l.heap p r) q).unissued) = l.numUnissuedAccesses := fun r =>
    (countP_update_of_not_mem l.heap unissued hnslot).trans (Eq.symm h)
  unfold LSQ.commitResponse
  dsimp only
  split
  · rename_i hbuffer
    have hstate := state_of_toStoreBuffer hbuffer
    have hunsent := (hacc.request p).not_sentAllPackets_of_beforeSend
      (by rw [hstate]; rfl) (by rw [hstate]; simp)
    generalize (handleMemResponse l.thresholdLCT env l.cvu (l.heap p)).packet = packet
    simp only [LSQ.SlotsCounted, LSQ.popResponse, LSQ.sendStoreToStoreBuffer, LSQ.insert,
      LSQ.modify, update_self, update_idem, hstate]
    rw [countP_append, hother, countP_singleton, update_self]
    have hnew : (({ l.heap p with packet := packet } : LSQRequest).setState
        .storeInStoreBuffer).unissued = true := by
      have hsent : (({ l.heap p with packet := packet } : LSQRequest).setState
        .storeInStoreBuffer).sentAllPackets = false := hunsent
      rw [unissued, hsent]
      simp
    exact (congrArg (l.numUnissuedAccesses + ·) (if_pos hnew)).symm
  · exact (hother _).symm

end

end LSQSystem

/-! ### Runs -/

namespace FaultyLSQ

open LSQSystem

/-- The event is a response that ends a split store of the store buffer early. -/
def endsEarly (s : FaultyLSQ) : Event → Bool
  | .call (.recvTimingResp k _) => s.sys.lsq.dcachePort.inMemory[k]?.any fun a =>
    (s.sys.lsq.heap a.ptr).endsEarly (s.sys.lsq.heap a.ptr).skipped
  | .recvErrorResp k _ => s.sys.lsq.dcachePort.inMemory[k]?.any fun a =>
    (s.sys.lsq.heap a.ptr).endsEarly true
  | _ => false

section
variable {s s' : FaultyLSQ} {e : Event} {p : Nat} {l : LSQ} {env : LSQEnv}

section
variable (hwf : (s.sys.viewOf l).WF)
include hwf

variable (h : l.SlotsCounted)
include h

/-- A new request that is not in the store buffer. -/
theorem slotsCounted_alloc (r : LSQRequest)
    (requests : List Nat) : LSQ.SlotsCounted { l.alloc r with requests := requests } := by
  refine h.frame rfl rfl fun q hq => congrArg unissued (update_of_ne ?_ _ _)
  have hlt : q < l.nextPtr := hwf.fresh q (mem_append_right _ hq)
  omega

/-- A change of a request that is not in the store buffer. -/
theorem slotsCounted_modify (hp : p ∈ l.requests)
    (f : LSQRequest → LSQRequest) : (l.modify p f).SlotsCounted := by
  refine h.frame rfl rfl fun q hq => congrArg unissued (LSQ.modify_heap_of_ne f ?_)
  rintro rfl
  exact (hwf.not_mem_of_request hp).2 hq

/-- `tryToSendToTransfers` keeps the count. -/
theorem slotsCounted_transfer {l' : LSQ}
    (ht : Transfer s.sys env l p l') : l'.SlotsCounted := by
  obtain ⟨hslots, hcount, hheap⟩ := transfer_frame hwf ht
  exact h.frame hslots hcount fun q hq => congrArg unissued (hheap q hq)

end

/-- Each outcome keeps the count of the store buffer, unless a store ends early. -/
theorem slotsCounted_outcome (hs : s.Sound) (h : s.sys.lsq.SlotsCounted)
    (hearly : s.endsEarly e = false) (hout : Outcome s e l) : l.SlotsCounted := by
  have hwf := hs.wf
  have hacc := hs.accounts
  have hentered : ∀ call, (s.sys.entered call).SlotsCounted := fun _ => h
  have hdrains : ∀ {call : CallEnv} {l₁ l : LSQ}, (s.sys.viewOf l₁).WF → Accounts l₁ →
      l₁.SlotsCounted → Drains (s.sys.env call) l₁ l → l.SlotsCounted := fun hwf hacc h hd =>
    (drains_invariant (fun _ _ => slotsCounted_drain) hwf ⟨hacc, h⟩ hd).2.2
  cases hout with
  | push args call =>
    exact slotsCounted_alloc (l := s.sys.entered call) hwf (hentered call) _ _
  | pushFailed => exact slotsCounted_alloc hwf h _ _
  | markDelayed p hp => exact slotsCounted_modify hwf h hp _
  | finish p t call hp =>
    exact slotsCounted_modify (l := s.sys.entered call) hwf (hentered call) hp _
  | finishTransfer p t call l₁ clear hp hstate htransfer =>
    have hfinish := slotsCounted_modify hwf (hentered call) hp
      fun r => r.finish t call.env.fresh
    have hmoved := slotsCounted_transfer (wf_finish hs hp hstate t call) hfinish htransfer
    cases clear with
    | false => exact hmoved
    | true =>
      rw [if_pos rfl]
      refine hmoved.frame rfl rfl fun q _ => ?_
      by_cases hq : q = p
      · rw [hq, LSQ.modify_heap_self]
        rfl
      · rw [LSQ.modify_heap_of_ne _ hq]
  | drain call l hempty hdrain =>
    have hwf' : (s.sys.viewOf (s.sys.entered call)).WF := hwf
    exact hdrains hwf' (accounts_entered hacc call) (hentered call) hdrain
  | step call p rest l₁ l hfront htransfer hdrain =>
    exact hdrains (wf_transfer htransfer hwf) ((accounts_entered hacc call).transfer hwf htransfer)
      (slotsCounted_transfer (l := s.sys.entered call) hwf (hentered call) htransfer) hdrain
  | perform | discard | issuedMemBarrierInst | none => exact h
  | respond e k call a r skipped he ha hawaits hretires =>
    refine slotsCounted_respond (accounts_entered hacc call) (hentered call) ha hretires ?_
    show (s.sys.lsq.heap a.ptr).endsEarly skipped = false
    rcases he with ⟨rfl, rfl⟩ | ⟨rfl, rfl⟩ <;> simpa [endsEarly, ha] using hearly
  | retry call l hretry =>
    exact slotsCounted_retry (l := s.sys.entered call) hwf
      (accounts_entered hacc call) (hentered call) hretry
  | commit env p rest hrespond =>
    exact slotsCounted_commit hwf hacc h hrespond.1 env
  | clearMemBarrier =>
    unfold LSQ.clearMemBarrier
    split <;> exact h
  | insertBarrier inst =>
    have hnot : s.sys.lsq.nextPtr ∉ s.sys.lsq.slots := fun hmem =>
      Nat.lt_irrefl _ (hwf.fresh _ (mem_append_right _ hmem))
    have hbarrier : (LSQ.specialRequest .barrierData inst .complete).unissued = true := rfl
    rw [insert_barrier_eq]
    show s.sys.lsq.numUnissuedAccesses + 1 = (s.sys.lsq.slots ++ [s.sys.lsq.nextPtr]).countP
      fun q => (update s.sys.lsq.heap s.sys.lsq.nextPtr
        (LSQ.specialRequest .barrierData inst .complete) q).unissued
    rw [countP_append, countP_singleton, update_self, hbarrier, if_pos rfl,
      countP_update_of_not_mem _ unissued hnot,
      show s.sys.lsq.numUnissuedAccesses = _ from h]

/-! ### No counter goes below zero -/

/-- Clearing the leading barriers. -/
theorem clearBarriersWraps_eq_false (slots : List Nat) :
    ∀ {l : LSQ}, LSQ.SlotsCounted { l with slots := slots } →
      l.clearBarriersWraps slots = false := by
  induction slots with
  | nil => intros; rfl
  | cons p rest ih =>
    intro l h
    unfold LSQ.clearBarriersWraps
    split
    · rename_i hbarrier
      simp only [Bool.and_eq_true] at hbarrier
      have hcount : l.numUnissuedAccesses = rest.countP (fun q => (l.heap q).unissued) + 1 := by
        have hall : l.numUnissuedAccesses = (p :: rest).countP fun q => (l.heap q).unissued := h
        rw [hall]
        simp [unissued, hbarrier.2]
      have hrest : LSQ.SlotsCounted { ({ l.clearMemBarrier (l.heap p).inst with
          numUnissuedAccesses := l.numUnissuedAccesses - 1 } : LSQ) with slots := rest } := by
        show l.numUnissuedAccesses - 1
          = rest.countP fun q => ((l.clearMemBarrier (l.heap p).inst).heap q).unissued
        obtain ⟨barrier, hclear⟩ := clearMemBarrier_eq l (l.heap p).inst
        rw [hclear, hcount]
        simp
      rw [ih hrest, Bool.or_false, hcount]
      simp
    · rfl

/-- `StoreBuffer::step`. -/
theorem stepStoreBufferWraps_eq_false (hwf : (s.sys.viewOf l).WF) (hacc : Accounts l)
    (h : l.SlotsCounted) : l.stepStoreBufferWraps env = false := by
  unfold LSQ.stepStoreBufferWraps
  split
  · rfl
  · have hclear : Drains env l (l.clearBarriers l.slots) := clearBarriers_drains l.slots l
    obtain ⟨hwf₁, hP⟩ := drains_invariant (fun _ _ => slotsCounted_drain) hwf ⟨hacc, h⟩ hclear
    rw [clearBarriersWraps_eq_false l.slots h]
    refine issueStoresReach_eq_false (fun _ _ => slotsCounted_drain) ?_ _
      hwf₁ hP (nil_append _).symm (fun q hq => by simp at hq)
    intro l p hwf hP _ hp _ hopen
    unfold LSQ.sendWraps
    split
    · rename_i l' htry
      exact (slotsCounted_tryToSend hwf hP.1 hP.2 hp hopen htry).2 rfl
    · rfl

/-- A store of the store buffer that is sent again. -/
theorem recvReqRetryWraps_eq_false (hwf : (s.sys.viewOf l).WF) (hacc : Accounts l)
    (h : l.SlotsCounted) (hwaiting : l.state = .memoryNeedsRetry)
    (hretry : l.retryRequest = some p) : l.recvReqRetryWraps env p = false := by
  unfold LSQ.recvReqRetryWraps
  split
  · rename_i hresend
    have hstate : (l.heap p).state = .storeBufferNeedsRetry := by
      unfold LSQ.resendState at hresend
      split at hresend <;> simp_all
    have hview : (s.sys.viewOf l).retry = some p := by
      simp [view, hwaiting, hretry]
    have hp : p ∈ l.slots := (hwf.retry p hview).2 hstate
    have hlocal := (hwf.slots p hp).2
    unfold LSQ.sendWraps
    split
    · rename_i l' htry
      rcases resend_cases rfl (by rw [hstate]; rfl) hlocal htry with
        ⟨hsent, -⟩ | ⟨packet, port, hpacket, -, hall, rfl⟩ | ⟨hsent, -⟩
      · cases hsent
      · exact (slotsCounted_resent hwf hacc h hstate hp hpacket port).2
          hall.symm
      · cases hsent
    · rfl
  · rfl

/-- The front of `transfers` leaves it. -/
theorem popResponseWraps_eq_false {rest : List Nat} (hacc : Accounts l)
    (hfront : l.transfers = p :: rest) : l.popResponseWraps p = false := by
  unfold LSQ.popResponseWraps
  rw [hacc.stores, hacc.issued, hfront, countP_append, countP_cons, countP_cons]
  cases (l.heap p).isLoad <;> cases (l.heap p).issuedToMemory <;> simp

/-- No event decrements a counter that is zero. -/
theorem wraps_eq_false (hs : s.Sound) (h : s.sys.lsq.SlotsCounted) (e : Event) :
    s.wraps e = false := by
  have hwf := hs.wf
  have hacc := hs.accounts
  have hresponse : ∀ k : Nat, (s.sys.lsq.dcachePort.inMemory[k]?.isSome &&
      s.sys.lsq.numAccessesInMemorySystem == 0) = false := by
    intro k
    rw [hacc.inMemory]
    cases hk : s.sys.lsq.dcachePort.inMemory[k]? with
    | none => rfl
    | some =>
      have hlt := (List.getElem?_eq_some_iff.mp hk).1
      simp only [Option.isSome_some, Bool.true_and, beq_eq_false_iff_ne]
      omega
  have hpop : s.sys.response.any s.sys.lsq.popResponseWraps = false := by
    cases hp : s.sys.response with
    | none => rfl
    | some =>
      obtain ⟨rest, hrespond⟩ := canRespond_of_response hp
      exact popResponseWraps_eq_false hacc hrespond.1
  cases e with
  | recvErrorResp k => exact hresponse k
  | call e =>
    cases e with
    | step call =>
      show (s.sys.entered call).stepWraps (s.sys.env call) = false
      unfold LSQ.stepWraps
      split
      · exact stepStoreBufferWraps_eq_false hwf (accounts_entered hacc call) h
      · split
        · rename_i l₁ htry
          have htransfer := transfer_of_tryToSendToTransfers rfl htry
          exact stepStoreBufferWraps_eq_false (wf_transfer htransfer hwf)
            ((accounts_entered hacc call).transfer hwf htransfer)
            (slotsCounted_transfer (l := s.sys.entered call) hwf h htransfer)
        · rfl
    | recvTimingResp k => exact hresponse k
    | recvReqRetry call =>
      simp only [wraps]
      cases hstate : s.sys.lsq.state with
      | memoryRunning => rfl
      | memoryNeedsRetry =>
        cases hretry : s.sys.lsq.retryRequest with
        | none => rfl
        | some =>
          exact recvReqRetryWraps_eq_false hwf (accounts_entered hacc call) h hstate hretry
    | commit | discard => exact hpop
    | _ => rfl

end

/-- In every run in which no response ends a split store of the store buffer early, the
counters of the LSQ are what they count in every state, and no event takes one of them below
zero. -/
theorem counters_in_every_state (params : LSQParams) (mem : Addr → Byte) (es : List Event)
    {s : FaultyLSQ} (hrun : Lib.run step (new params mem) es = some s)
    (hok : Lib.RunMeets step (fun s e => s.endsEarly e = false) (new params mem) es) :
    s.sys.lsq.Counters ∧ ∀ e, s.wraps e = false := by
  obtain ⟨hs, hslots⟩ : s.Sound ∧ s.sys.lsq.SlotsCounted := by
    refine run_invariant_of_meets (P := fun s => s.Sound ∧ s.sys.lsq.SlotsCounted)
      (fun s e s' hs hearly h => ⟨sound_step hs.1 h, ?_⟩) ⟨sound_new params mem, rfl⟩ hok hrun
    exact slotsCounted_outcome hs.1 hs.2 hearly (outcome_of_step hs.1 h)
  have hledger := hs.accounts
  refine ⟨?_, wraps_eq_false hs hslots⟩
  exact
    { storesInTransfers := hledger.stores
      issuedToMemory := hledger.issued
      inMemorySystem := hledger.inMemory
      limit := hledger.limit
      unissued := (show s.sys.lsq.numUnissuedAccesses = _ from hslots).trans
        (LSQ.countP_unissued s.sys.lsq.heap s.sys.lsq.slots) }

/-! ### A split store with an error -/

/-- One packet at a time may be in the memory system. -/
def oneAccess : LSQParams :=
  { smallParams with inMemorySystemLimit := 1 }

/-- A store of 8 bytes across a line goes to the store buffer, and its first packet is sent. -/
def splitStore : List Event :=
  [.call (smallPush 1 false LvptOut.zero 0x10c 8 0xbb noFlags),
    .call (smallTranslation 1 0 0x10c), .call (smallTranslation 1 0 0x110),
    .call (.commit smallCommit), .call (.step (smallCall 1))]

/-- The memory system answers the packet, the second packet is sent, and both are counted. -/
theorem counters_in_every_state_splitStore :
    ∃ s, Lib.run step (new oneAccess fun _ => 1) (splitStore ++
        [.call (.perform 0 (fun _ => 0) true),
          .call (.recvTimingResp 0 (smallCall 1)),
          .call (.step (smallCall 1))]) = some s ∧
      s.sys.lsq.numAccessesInMemorySystem = 1 ∧ s.sys.lsq.Counters ∧
      ∀ e, s.wraps e = false := by
  obtain ⟨s, hrun, hone⟩ : ∃ s ∈ run step (new oneAccess fun _ => 1) (splitStore ++
      [.call (.perform 0 (fun _ => 0) true), .call (.recvTimingResp 0 (smallCall 1)),
        .call (.step (smallCall 1))]), s.sys.lsq.numAccessesInMemorySystem = 1 := by
    decide +kernel
  exact ⟨s, hrun, hone,
    counters_in_every_state oneAccess _ _ hrun (by decide +kernel)⟩

/-- The first packet comes back with an error. The store leaves the store buffer, and the
counter of the empty store buffer stays 1. -/
theorem split_store_error_leaves_count :
    ∃ s, Lib.run step (new oneAccess fun _ => 1)
        (splitStore ++ [.recvErrorResp 0 (smallCall 1)]) = some s ∧
      s.sys.lsq.slots = [] ∧ s.sys.lsq.numUnissuedAccesses = 1 ∧ ¬s.sys.lsq.Counters := by
  obtain ⟨s, hrun, hslots, hone⟩ : ∃ s ∈ run step (new oneAccess fun _ => 1)
      (splitStore ++ [.recvErrorResp 0 (smallCall 1)]),
      s.sys.lsq.slots = [] ∧ s.sys.lsq.numUnissuedAccesses = 1 := by
    decide +kernel
  refine ⟨s, hrun, hslots, hone, fun hcounters => ?_⟩
  have hcount := hcounters.unissued
  rw [hslots, hone] at hcount
  simp at hcount

end FaultyLSQ

end Gem5.MyMinor
