import Gem5.Proofs.MyMinor.LSQLedger
import Gem5.Proofs.MyMinor.StoreCommit

/-!
# `Gem5.Proofs.MyMinor.LSQPanics`: the states of the requests in flight

`LSQ.Held` says where the requests with packets in the memory system are and in which states.
Such a request is in one of the queues, and in a state in which it may receive a response. Only
the front of `requests` has packets there, and a load that has sent a packet is not overtaken:
no store gets between it and the memory. So the store buffer never has data for a load that is
half sent.

An event breaks this in three ways. A store-conditional that is half sent is given up when the
instruction set answers the second `handleLockedWrite` with no. A skipped request that waits
for a retry is ended by a response. An atomic access crosses a line. `mayPanic` names them, and
`no_panic_in_every_state` is the theorem for runs without them.
-/

namespace Gem5.MyMinor

open LSQRequest Option Lib LSQView Counted List

open Function

namespace LSQ

/-- The front of `requests` is a load that has been tried to be sent. -/
structure ActiveLoad (l : LSQ) (p : Nat) : Prop where
  front : l.requests.head? = some p
  isLoad : (l.heap p).isLoad = true
  tried : 0 < (l.heap p).outstanding ∨ awaitsRetry (l.heap p).state = true

/-- Where a request with packets in the memory system is. -/
structure HeldAt (l : LSQ) (p : Nat) : Prop where
  issuing : 0 < (l.heap p).outstanding → awaitsResponse (l.heap p).state = true
  alive : 0 < (l.heap p).outstanding → p ∈ l.requests ∨ p ∈ l.transfers ∨ p ∈ l.slots
  behind : p ∈ l.requests.tail → (l.heap p).outstanding = 0
  barrier : p ∈ l.slots → (l.heap p).state = .complete → (l.heap p).isBarrier = true
  packet : p ∈ l.slots → (l.heap p).kind = .singleData → (l.heap p).packetSent = true →
    (l.heap p).packet.isSome = true

/-- No store is between a load and the memory. -/
def Unovertaken (l : LSQ) (p : Nat) : Prop :=
  (∀ q ∈ l.transfers, (l.heap q).isLoad = true) ∧ ((l.heap p).request.flags.llsc = false →
    ∀ q ∈ l.slots, slotCoverage (l.heap q) (l.heap p) = .noCoverage)

/-- The LSQ waits for a retry just while one of its requests does. -/
structure Waits (l : LSQ) : Prop where
  waiting : ∀ q, q ∈ l.requests ∨ q ∈ l.slots → awaitsRetry (l.heap q).state = true →
    l.state = .memoryNeedsRetry ∧ l.retryRequest = some q
  retry : l.state = .memoryNeedsRetry → ∃ p, l.retryRequest = some p ∧
    awaitsRetry (l.heap p).state = true ∧ (p ∈ l.requests ∨ p ∈ l.slots)

/-- The states of the requests in flight. -/
structure Held (l : LSQ) : Prop where
  each : ∀ q, l.HeldAt q
  active : ∀ p, l.ActiveLoad p → l.Unovertaken p
  waits : l.Waits

section
variable {l l' : LSQ} {p : Nat} {rest : List Nat} {q : Nat} {f : LSQRequest → LSQRequest}

/-- A request that is not in one of the four states has no packet in the memory system. -/
theorem Held.outstanding_eq_zero (h : l.Held) (hstate : awaitsResponse (l.heap p).state = false) :
    (l.heap p).outstanding = 0 := by
  by_contra hne
  cases ((h.each p).issuing (Nat.pos_of_ne_zero hne)).symm.trans hstate

/-- In a running LSQ no request waits for a retry. -/
theorem Held.not_waiting (h : l.Held) (hrunning : l.state ≠ .memoryNeedsRetry)
    (hq : q ∈ l.requests ∨ q ∈ l.slots) : awaitsRetry (l.heap q).state = false := by
  cases hw : awaitsRetry (l.heap q).state with
  | false => rfl
  | true => exact absurd (h.waits.waiting q hq hw).1 hrunning

/-- Only `retryRequest` waits for a retry. -/
theorem Held.others (h : l.Held) (hptr : l.state = .memoryNeedsRetry → l.retryRequest = some p)
    (hqp : q ≠ p) (hq : q ∈ l.requests ∨ q ∈ l.slots) : awaitsRetry (l.heap q).state = false := by
  cases hw : awaitsRetry (l.heap q).state with
  | false => rfl
  | true =>
    obtain ⟨hs, hretry⟩ := h.waits.waiting q hq hw
    rw [hptr hs, some.injEq] at hretry
    exact absurd hretry.symm hqp

/-- A load behind the front is not active. -/
theorem not_activeLoad_of_zero (hzero : (l.heap p).outstanding = 0)
    (hstate : awaitsRetry (l.heap p).state = false) : ¬l.ActiveLoad p := by
  intro ha
  rcases ha.tried with ht | ht
  · omega
  · cases hstate.symm.trans ht

variable (h : l.Held)
include h

/-- Only these parts of the LSQ matter. -/
theorem Held.congr (hheap : l'.heap = l.heap) (hrequests : l'.requests = l.requests)
    (htransfers : l'.transfers = l.transfers) (hslots : l'.slots = l.slots)
    (hstate : l'.state = l.state) (hretry : l'.retryRequest = l.retryRequest) : l'.Held := by
  cases l
  cases l'
  subst hheap hrequests htransfers hslots hstate hretry
  exact ⟨fun q => { h.each q with }, fun p ha => h.active p { ha with },
    { h.waits with }⟩

section
variable (hheap : ∀ q ≠ p, l'.heap q = l.heap q)
include hheap

/-- The same request waits. -/
theorem Held.waits_of_same (hstate : l'.state = l.state) (hretry : l'.retryRequest = l.retryRequest)
    (hp : (p ∈ l'.requests ∨ p ∈ l'.slots) ∧ awaitsRetry (l'.heap p).state = true ↔
      (p ∈ l.requests ∨ p ∈ l.slots) ∧ awaitsRetry (l.heap p).state = true)
    (hmem : ∀ q ≠ p, q ∈ l'.requests ∨ q ∈ l'.slots ↔ q ∈ l.requests ∨ q ∈ l.slots) : l'.Waits := by
  have hsame : ∀ q, (q ∈ l'.requests ∨ q ∈ l'.slots) ∧ awaitsRetry (l'.heap q).state = true ↔
      (q ∈ l.requests ∨ q ∈ l.slots) ∧ awaitsRetry (l.heap q).state = true := by
    intro q
    by_cases hqp : q = p
    · exact hqp ▸ hp
    · rw [hheap q hqp, hmem q hqp]
  constructor
  · intro q hq hw
    obtain ⟨hq', hw'⟩ := (hsame q).mp ⟨hq, hw⟩
    rw [hstate, hretry]
    exact h.waits.waiting q hq' hw'
  · intro hs
    obtain ⟨q, hptr, hw, hq⟩ := h.waits.retry (hstate ▸ hs)
    obtain ⟨hq', hw'⟩ := (hsame q).mpr ⟨hq, hw⟩
    exact ⟨q, hretry.trans hptr, hw', hq'⟩

/-- One request changes, and no other request enters the store buffer or the place behind the
front. -/
theorem Held.change (hp : l'.HeldAt p)
    (hkept : ∀ q ≠ p, q ∈ l.requests ∨ q ∈ l.transfers ∨ q ∈ l.slots →
      q ∈ l'.requests ∨ q ∈ l'.transfers ∨ q ∈ l'.slots)
    (htail : ∀ q ≠ p, q ∈ l'.requests.tail → q ∈ l.requests.tail)
    (hslots : ∀ q ≠ p, q ∈ l'.slots → q ∈ l.slots)
    (hactive : ∀ q, l'.ActiveLoad q → l'.Unovertaken q) (hwaits : l'.Waits) : l'.Held := by
  refine ⟨fun q => ?_, hactive, hwaits⟩
  by_cases hqp : q = p
  · exact hqp ▸ hp
  · constructor <;> rw [hheap q hqp]
    · exact (h.each q).issuing
    · exact fun hpos => hkept q hqp ((h.each q).alive hpos)
    · exact fun hm => (h.each q).behind (htail q hqp hm)
    · exact fun hm => (h.each q).barrier (hslots q hqp hm)
    · exact fun hm => (h.each q).packet (hslots q hqp hm)

end

/-- A request that sends nothing changes in place. -/
theorem Held.modify (hout : (f (l.heap p)).outstanding = (l.heap p).outstanding)
    (hstate : (f (l.heap p)).state = (l.heap p).state)
    (hsame : LSQRequest.SameAccess (l.heap p) (f (l.heap p)))
    (hrequest : (f (l.heap p)).request = (l.heap p).request)
    (hpacket : p ∈ l.slots → (f (l.heap p)).packet = (l.heap p).packet ∧
      (f (l.heap p)).packetSent = (l.heap p).packetSent) : (l.modify p f).Held := by
  have hself : (l.modify p f).heap p = f (l.heap p) := modify_heap_self f
  have hother : ∀ q ≠ p, (l.modify p f).heap q = l.heap q := fun q hq => modify_heap_of_ne f hq
  have hheap : ∀ q, LSQRequest.SameAccess (l.heap q) ((l.modify p f).heap q) ∧
      ((l.modify p f).heap q).request = (l.heap q).request := by
    intro q
    by_cases hq : q = p
    · rw [hq, hself]
      exact ⟨hsame, hrequest⟩
    · rw [hother q hq]
      exact ⟨LSQRequest.SameAccess.refl _, rfl⟩
  have hslot : ∀ q ∈ l.slots, ((l.modify p f).heap q).packet = (l.heap q).packet := by
    intro q hq
    by_cases hqp : q = p
    · subst hqp
      rw [hself]
      exact (hpacket hq).1
    · rw [hother q hqp]
  refine h.change hother ?_ (fun _ _ hq => hq) (fun _ _ hq => hq) (fun _ _ hq => hq) ?_
    (h.waits_of_same hother rfl rfl (by rw [hself, hstate]; rfl) fun _ _ => Iff.rfl)
  · constructor <;> rw [hself]
    · rw [hout, hstate]
      exact (h.each p).issuing
    · rw [hout]
      exact (h.each p).alive
    · exact fun hq => hout.trans ((h.each p).behind hq)
    · rw [hstate, hsame.isBarrier]
      exact (h.each p).barrier
    · intro hq
      rw [hsame.kind, (hpacket hq).1, (hpacket hq).2]
      exact (h.each p).packet hq
  · intro q ha
    have hold : l.ActiveLoad q := by
      refine ⟨ha.front, (hheap q).1.isLoad ▸ ha.isLoad, ?_⟩
      by_cases hq : q = p
      · have htried := ha.tried
        rwa [hq, hself, hout, hstate, ← hq] at htried
      · exact hother q hq ▸ ha.tried
    refine ⟨fun q' hq' => (hheap q').1.isLoad.trans ((h.active q hold).1 q' hq'),
      fun hllsc q' hq' => ?_⟩
    rw [(hheap q).2] at hllsc
    rw [← (h.active q hold).2 hllsc q' hq']
    simp [slotCoverage, containsAddrRangeOf, (hheap q').1.inst, (hheap q).1.inst, (hheap q').2,
      (hheap q).2, hslot q' hq']

/-- A request of `requests` that has sent nothing changes in place. -/
theorem Held.modify_unsent (hp : p ∉ l.transfers) (hslot : p ∉ l.slots)
    (hold : awaitsRetry (l.heap p).state = false) (hout : (f (l.heap p)).outstanding = 0)
    (hstate : awaitsRetry (f (l.heap p)).state = false) : (l.modify p f).Held := by
  have hself : (l.modify p f).heap p = f (l.heap p) := modify_heap_self f
  have hother : ∀ q ≠ p, (l.modify p f).heap q = l.heap q := fun q hq => modify_heap_of_ne f hq
  have hzero : ((l.modify p f).heap p).outstanding = 0 := by rw [hself]; exact hout
  have hnot : awaitsRetry ((l.modify p f).heap p).state = false := by rw [hself]; exact hstate
  refine h.change hother ⟨fun hpos => by omega, fun hpos => by omega, fun _ => hzero,
    fun hq => absurd hq hslot, fun hq => absurd hq hslot⟩
    (fun _ _ hq => hq) (fun _ _ hq => hq) (fun _ _ hq => hq) ?_ ?_
  · intro q ha
    have hq : q ≠ p := fun hqp => not_activeLoad_of_zero hzero hnot (hqp ▸ ha)
    have hold : l.ActiveLoad q := ⟨ha.front, hother q hq ▸ ha.isLoad, hother q hq ▸ ha.tried⟩
    refine ⟨fun q' hq' => ?_, fun hllsc q' hq' => ?_⟩
    · rw [hother q' fun hqp => hp (hqp ▸ hq')]
      exact (h.active q hold).1 q' hq'
    · rw [hother q hq] at hllsc ⊢
      rw [hother q' fun hqp => hslot (hqp ▸ hq')]
      exact (h.active q hold).2 hllsc q' hq'
  · refine h.waits_of_same hother rfl rfl ?_ fun _ _ => Iff.rfl
    simp [hnot, hold]

end

end LSQ

namespace LSQRequest

/-- The response to the last packet in flight of a skipped request ends it, while its next
packet waits for a retry. -/
def endsWaiting (r : LSQRequest) (skipped : Bool) : Bool :=
  LSQ.awaitsRetry r.state && r.kind == .splitData && skipped &&
    r.numIssuedFragments == r.numRetiredFragments + 1

section
variable {r r' : LSQRequest} {skipped : Bool}

variable (h : r.Counted)
include h

/-- A single request with a packet in the memory system has sent it. -/
theorem Counted.packetSent (hpos : 0 < r.outstanding)
    (hkind : r.kind = .singleData) : r.packetSent = true := by
  obtain ⟨-, ⟨-, hflight, -⟩ | ⟨hsplit, -⟩⟩ := of_outstanding hpos
  · exact h.inFlight hflight
  · rw [hkind] at hsplit
    cases hsplit

/-- A request that waits for a retry goes on waiting. -/
theorem Counted.state_of_endsWaiting (hpos : 0 < r.outstanding)
    (hretires : Retires skipped r r') (hends : r.endsWaiting skipped = false)
    (hw : LSQ.awaitsRetry r.state = true) : r'.state = r.state := by
  obtain ⟨-, ⟨hkind, hflight, -⟩ | ⟨hkind, hlt, -⟩⟩ := of_outstanding hpos
  · rcases h.sent hkind (h.inFlight hflight) with hs | hs | hs <;> rw [hs] at hw <;> cases hw
  · have hmade := h.made
    have hrefused := h.refused hw hkind
    rw [(hretires.split hkind).2.2, if_neg]
    simp only [Bool.or_eq_true, Bool.and_eq_true, beq_iff_eq]
    rintro (⟨hskipped, hlast⟩ | hlast)
    · simp [endsWaiting, hw, hkind, hskipped, hlast] at hends
    · omega

/-- A request with more packets in the memory system keeps its state. -/
theorem Counted.state_of_outstanding (hpos : 0 < r.outstanding)
    (hretires : Retires skipped r r') (hmore : 0 < r'.outstanding) : r'.state = r.state := by
  have hone := (h.retire hpos hretires).2
  have hissued := h.issued
  have hmade := h.made
  obtain ⟨-, ⟨-, -, hout⟩ | ⟨hkind, hlt, hout⟩⟩ := of_outstanding hpos
  · omega
  · rw [(hretires.split hkind).2.2, if_neg]
    simp only [Bool.or_eq_true, Bool.and_eq_true, beq_iff_eq]
    omega

end

end LSQRequest

/-! ### Sending -/

namespace LSQSystem

open LSQ (Held)

section
variable {s : LSQSystem} {l l' : LSQ} {env : LSQEnv} {p : Nat} {rest : List Nat} {load : LSQRequest}

/-- The coverage of a load depends on its instruction and its `Request`. -/
theorem slotCoverage_congr {slot load' : LSQRequest} (hinst : load'.inst = load.inst)
    (hrequest : load'.request = load.request) :
    LSQ.slotCoverage slot load' = LSQ.slotCoverage slot load := by
  simp [LSQ.slotCoverage, containsAddrRangeOf, hinst, hrequest]

/-- The coverage by a slot depends on these too, and on whether it has a packet. -/
theorem slotCoverage_congr_slot {slot slot' : LSQRequest} (hinst : slot'.inst = slot.inst)
    (hrequest : slot'.request = slot.request) (hpacket : slot'.packet.isSome = slot.packet.isSome) :
    LSQ.slotCoverage slot' load = LSQ.slotCoverage slot load := by
  simp [LSQ.slotCoverage, containsAddrRangeOf, hinst, hrequest, hpacket]

/-- A view without a waiting request is the one of a running LSQ. -/
theorem running_of_retry (h : l.Held) (hretry : (s.viewOf l).retry = none) :
    l.state ≠ .memoryNeedsRetry := by
  intro hs
  obtain ⟨p, hptr, -⟩ := h.waits.retry hs
  simp [view, hs, hptr] at hretry

/-- The front of `requests` changes, and stays or goes to `transfers`. It is the only request that
may wait for a retry. -/
theorem held_front (h : l.Held) (hwf : (s.viewOf l).WF) (hfront : l.requests = p :: rest)
    (hptr : l.state = .memoryNeedsRetry → l.retryRequest = some p)
    (hheap : ∀ q ≠ p, l'.heap q = l.heap q) (hslots : l'.slots = l.slots)
    (hqueues : (l'.requests = l.requests ∧ l'.transfers = l.transfers) ∨
      (l'.requests = rest ∧ l'.transfers = l.transfers ++ [p]))
    (hissuing : 0 < (l'.heap p).outstanding → LSQ.awaitsResponse (l'.heap p).state = true)
    (hstays : l'.requests = l.requests → SameAccess (l.heap p) (l'.heap p) ∧
      (l'.heap p).request = (l.heap p).request ∧ ((l.heap p).isLoad = true → l.Unovertaken p))
    (hwaits : l'.state = .memoryNeedsRetry ↔
      LSQ.awaitsRetry (l'.heap p).state = true ∧ l'.requests = l.requests)
    (hretry : l'.state = .memoryNeedsRetry → l'.retryRequest = some p) : l'.Held := by
  have hp : p ∈ l.requests := by rw [hfront]; exact mem_cons_self
  obtain ⟨hntr, hnslot⟩ := hwf.not_mem_of_request hp
  have hnrest := not_mem_rest hwf hfront
  have hpslot : p ∉ l'.slots := by rw [hslots]; exact hnslot
  have hmem : ∀ q ∈ l'.requests, q ∈ l.requests := by
    intro q hq
    rcases hqueues with ⟨hreq, -⟩ | ⟨hreq, -⟩
    · exact hreq ▸ hq
    · rw [hfront]
      exact mem_cons_of_mem p (hreq ▸ hq)
  have hquiet : ∀ q ≠ p, q ∈ l'.requests ∨ q ∈ l'.slots →
      LSQ.awaitsRetry (l'.heap q).state = false := by
    intro q hqp hq
    rw [hheap q hqp]
    exact h.others hptr hqp (hq.imp (hmem q) (hslots ▸ ·))
  have htail : ∀ q ∈ l'.requests.tail, q ∈ rest := by
    intro q hq
    rcases hqueues with ⟨hreq, -⟩ | ⟨hreq, -⟩
    · rw [hreq, hfront] at hq
      exact hq
    · rw [hreq] at hq
      exact mem_of_mem_tail hq
  refine h.change hheap ⟨hissuing, fun _ => ?_, fun hq => absurd (htail p hq) hnrest,
    fun hq => absurd hq hpslot, fun hq => absurd hq hpslot⟩ ?_
    (fun q _ hq => by rw [hfront]; exact htail q hq) (fun q _ hq => hslots ▸ hq) ?_ ⟨?_, ?_⟩
  · rcases hqueues with ⟨hreq, -⟩ | ⟨-, htr⟩
    · exact .inl (hreq ▸ hp)
    · exact .inr (.inl (by rw [htr]; simp))
  · intro q hqp hq
    rw [hslots]
    rcases hqueues with ⟨hreq, htr⟩ | ⟨hreq, htr⟩
    · rw [hreq, htr]
      exact hq
    · rw [hfront] at hq
      rw [hreq, htr]
      exact hq.imp (fun hm => (mem_cons.mp hm).resolve_left hqp) (Or.imp (mem_append_left _) id)
  · intro q ha
    have hhead := ha.front
    rcases hqueues with ⟨hreq, htr⟩ | ⟨hreq, -⟩
    · -- An active load is the old front, which has stayed.
      rw [hreq, hfront, head?_cons, some.injEq] at hhead
      subst hhead
      obtain ⟨hsame, hrequest, hload⟩ := hstays hreq
      obtain ⟨hstores, hcover⟩ := hload (hsame.isLoad ▸ ha.isLoad)
      refine ⟨fun q hq => ?_, fun hllsc q hq => ?_⟩
      · rw [htr] at hq
        rw [hheap q fun hqp => hntr (hqp ▸ hq)]
        exact hstores q hq
      · rw [hslots] at hq
        rw [hheap q fun hqp => hnslot (hqp ▸ hq), slotCoverage_congr hsame.inst hrequest]
        exact hcover (hrequest ▸ hllsc) q hq
    · have hq : q ∈ rest := hreq ▸ mem_of_mem_head? hhead
      have hqp : q ≠ p := fun hqp => hnrest (hqp ▸ hq)
      refine absurd ha (LSQ.not_activeLoad_of_zero ?_ (hquiet q hqp (.inl (hreq ▸ hq))))
      rw [hheap q hqp]
      exact (h.each q).behind (by rw [hfront]; exact hq)
  · intro q hq hw
    by_cases hqp : q = p
    · subst hqp
      have hs := hwaits.mpr ⟨hw, ?_⟩
      · exact ⟨hs, hretry hs⟩
      · rcases hqueues with ⟨hreq, -⟩ | ⟨hreq, -⟩
        · exact hreq
        · exact absurd (hreq ▸ hq.resolve_right hpslot) hnrest
    · cases (hquiet q hqp hq).symm.trans hw
  · intro hs
    obtain ⟨hw, hreq⟩ := hwaits.mp hs
    exact ⟨p, hretry hs, hw, .inl (hreq ▸ hp)⟩

/-- The front of `requests` goes to `transfers`, with no packet in the memory system. -/
theorem held_leave (h : l.Held) (hwf : (s.viewOf l).WF) (hfront : l.requests = p :: rest)
    (hrunning : l.state ≠ .memoryNeedsRetry) {f : LSQRequest → LSQRequest}
    (hout : (f (l.heap p)).outstanding = 0) :
    ((l.modify p f).moveFromRequestsToTransfers p).Held := by
  have hrest : ((l.modify p f).moveFromRequestsToTransfers p).requests = rest :=
    requests_moveFromRequests hfront
  have hleft : ((l.modify p f).moveFromRequestsToTransfers p).requests ≠ l.requests := by
    rw [hrest, hfront]
    simp
  refine held_front h hwf hfront (fun hs => absurd hs hrunning)
    (fun q hq => LSQ.modify_heap_of_ne f hq) rfl (.inr ⟨hrest, rfl⟩) ?_ (fun hs => absurd hs hleft)
    ⟨fun hs => absurd hs hrunning, fun hw => absurd hw.2 hleft⟩ (fun hs => absurd hs hrunning)
  intro hpos
  have hself : ((l.modify p f).moveFromRequestsToTransfers p).heap p = f (l.heap p) :=
    LSQ.modify_heap_self f
  rw [hself, hout] at hpos
  omega

/-- What the checks before a packet is sent say about an active load: no store is in
`transfers`, and no slot covers it. -/
theorem uncovered_of_canSend (hacc : Accounts l) (hsend : (s.viewOf l).CanSend p rest)
    (hload : (l.heap p).isLoad = true) : l.Unovertaken p := by
  constructor
  · have hzero : l.numStoresInTransfers = 0 := hsend.noStores hload
    rw [hacc.stores, countP_eq_zero] at hzero
    intro q hq
    simpa using hzero q hq
  · intro hllsc q hq
    have hcover := hsend.load hload hllsc
    exact noCoverage_of_findCoverage hcover q (mem_reverse.mpr hq)

/-- Sending from the front of `requests`. -/
theorem held_send (h : l.Held) (hacc : Accounts l) (hwf : (s.viewOf l).WF)
    (hsend : (s.viewOf l).CanSend p rest) {sent : Bool}
    (htry : l.tryToSend env p = some (l', sent)) :
    (if sent then l'.moveFromRequestsToTransfers p else l').Held := by
  have hfront : l.requests = p :: rest := hsend.front
  have hrunning := running_of_retry h hsend.notBlocked
  obtain ⟨⟨hreq, htr, hslots⟩, -, hheap⟩ := tryToSend_frame htry
  -- What is left for the three outcomes: the request `r` that `p` becomes, and the state.
  have hdone : ∀ r, l'.heap p = r → (0 < r.outstanding → LSQ.awaitsResponse r.state = true) →
      SameAccess (l.heap p) r → r.request = (l.heap p).request →
      (l'.state = .memoryNeedsRetry ↔ LSQ.awaitsRetry r.state = true) →
      (l'.state = .memoryNeedsRetry → sent = false ∧ l'.retryRequest = some p) →
      (if sent then l'.moveFromRequestsToTransfers p else l').Held := by
    intro r hr hissuing hsame hrequest hwaits hretry
    subst hr
    have hstays := uncovered_of_canSend hacc hsend
    cases sent with
    | false =>
      exact held_front h hwf hfront (fun hs => absurd hs hrunning) hheap hslots
        (.inl ⟨hreq, htr⟩) hissuing (fun _ => ⟨hsame, hrequest, hstays⟩)
        (hwaits.trans (and_iff_left hreq).symm) fun hs => (hretry hs).2
    | true =>
      have hnot : l'.state ≠ .memoryNeedsRetry := fun hs => by cases (hretry hs).1
      exact held_front h hwf hfront (fun hs => absurd hs hrunning) hheap hslots
        (.inr ⟨requests_moveFromRequests (hreq.trans hfront), congrArg (· ++ [p]) htr⟩) hissuing
        (fun _ => ⟨hsame, hrequest, hstays⟩)
        ⟨fun hs => absurd hs hnot, fun hw => hwaits.mpr hw.1⟩ fun hs => absurd hs hnot
  have hinreq : InRequests (l.heap p).state := hwf.requests p hsend.mem
  rcases tryToSend_cases htry with ⟨rfl, rfl, -⟩ | ⟨-, packet, -, hcases⟩
  · exact h
  rcases hcases with ⟨hlocal, hl⟩ | ⟨-, port, state, hport, hissue, rfl, rfl⟩ |
    ⟨-, state, hretry, rfl, rfl⟩
  · simp only [LSQ.sendLocally] at hl
    obtain ⟨rfl, rfl⟩ := hl
    obtain ⟨hsame₁, hrequest₁, -⟩ := (l.heap p).accessLocally_frame (env.localAccessor packet)
    generalize haccessed : LSQ.accessLocally (l.heap p) (env.localAccessor packet) = accessed at *
    obtain ⟨hsame₂, hrequest₂, -⟩ := accessed.stepToNextPacket_frame
    refine hdone _ (LSQ.modify_heap_self _) ?_ ((hsame₁.trans hsame₂).setState _)
      (hrequest₂.trans hrequest₁) ⟨fun hs => absurd hs hrunning, fun hw => ?_⟩
      (fun hs => absurd hs hrunning)
    · intro hpos
      rw [outstanding_of_local] at hpos
      · omega
      · show accessed.stepToNextPacket.request.localAccess = true
        rw [hrequest₂, hrequest₁]
        exact hlocal
    · split at hw <;> cases hw
  · rw [issuingState_of_request hinreq hissue] at *
    obtain ⟨hsame₁, hrequest₁, -⟩ := (l.heap p).stepToNextPacket_frame
    exact hdone ((l.heap p).stepToNextPacket.setState .requestIssuing) (update_self _ _ _)
      (fun _ => rfl) (hsame₁.setState _) hrequest₁
      ⟨fun hs => absurd hs hrunning, fun hw => by cases hw⟩ fun hs => absurd hs hrunning
  · rw [retryState_of_request hinreq hretry] at *
    exact hdone ((l.heap p).setState .requestNeedsRetry) (update_self _ _ _) (fun _ => rfl)
      ⟨rfl, rfl, rfl, rfl⟩ rfl ⟨fun _ => rfl, fun _ => rfl⟩ fun _ => ⟨rfl, rfl⟩

/-- Marking an access changes nothing else. -/
theorem held_markIssued (h : l.Held) : (l.markIssued p).Held := by
  unfold LSQ.markIssued
  split
  · exact (h.modify (f := fun r => { r with issuedToMemory := true }) rfl rfl
      ⟨rfl, rfl, rfl, rfl⟩ rfl fun _ => ⟨rfl, rfl⟩).congr rfl rfl rfl rfl rfl rfl
  · exact h

variable {r : LSQRequest}

/-- `hasPacketsInMemSystem` is false when nothing is in flight. -/
theorem outstanding_of_noPackets (h : r.hasPacketsInMemSystem = false) : r.outstanding = 0 := by
  unfold hasPacketsInMemSystem at h
  unfold outstanding
  cases hkind : r.kind <;> simp_all

/-- `tryToSendToTransfers` keeps the states, unless it gives up a store-conditional that is half
sent. -/
theorem held_transfer (h : l.Held) (hacc : Accounts l) (hwf : (s.viewOf l).WF)
    (ht : Transfer s env l p l')
    (hlocked : env.lockedWrite = false → (l.heap p).isLoad = false →
      (l.heap p).request.flags.llsc = true → l.requests.head? = some p →
      (l.heap p).outstanding = 0) : l'.Held := by
  have hcounted := hacc.request p
  cases ht with
  | wait => exact h
  | skip rest hfront hrunning hreason =>
    refine held_leave h hwf hfront hrunning ?_
    show (l.heap p).outstanding = 0
    rcases hreason with hs | hs | ⟨-, hno⟩ | hfault
    · exact h.outstanding_eq_zero (by rw [hs]; rfl)
    · exact h.outstanding_eq_zero (by rw [hs]; rfl)
    · exact outstanding_of_noPackets hno
    · exact h.outstanding_eq_zero (by rcases hcounted.fault hfault with hs | hs <;> rw [hs] <;> rfl)
  | toStoreBuffer rest hcan hload hbuf hlocal =>
    refine held_leave h hwf hcan.front (running_of_retry h hcan.notBlocked) ?_
    refine h.outstanding_eq_zero ?_
    rw [translated_of_bufferable hcounted hwf hcan hload hbuf hlocal]
    rfl
  | forward rest slot packet hcan hload hllsc hcover =>
    refine held_leave h hwf hcan.front (running_of_retry h hcan.notBlocked) ?_
    show (l.heap p).outstanding = 0
    -- A load that is half sent is not covered.
    by_contra hne
    have hfront : l.requests = p :: rest := hcan.front
    have hactive : l.ActiveLoad p := ⟨by rw [hfront]; rfl, hload, .inl (Nat.pos_of_ne_zero hne)⟩
    obtain ⟨before, after, hslots, -, hfull⟩ :=
      exists_of_findCoverage ((findCoverage_view s l _ _).trans hcover)
    have hnone := (h.active p hactive).2 hllsc slot (mem_reverse.mp (by rw [hslots]; simp))
    cases hnone.symm.trans hfull
  | failConditional rest hcan hload hllsc hfails =>
    have hfront : l.requests = p :: rest := hcan.front
    refine held_leave h hwf hfront (running_of_retry h hcan.notBlocked) ?_
    exact hlocked hfails hload hllsc (by rw [hfront]; rfl)
  | send rest l₁ sent hsend hroom htry =>
    obtain ⟨hquiet, hsend'⟩ := markIssued_quiet hwf hsend
    exact held_send (held_markIssued h) (hacc.markIssued hwf hsend.mem) (hquiet.wf hwf) hsend' htry

/-! ### The store buffer and retries -/

section
variable (h : l.Held)
include h

/-- A slot changes, and the slots that are left are among the old ones. -/
theorem held_slot (hwf : (s.viewOf l).WF) (hp : p ∈ l.slots)
    (hheap : ∀ q ≠ p, l'.heap q = l.heap q) (hsub : ∀ q ∈ l'.slots, q ∈ l.slots)
    (hkept : ∀ q ∈ l.slots, q ≠ p → q ∈ l'.slots)
    (hrequests : l'.requests = l.requests) (htransfers : l'.transfers = l.transfers)
    (hissuing : 0 < (l'.heap p).outstanding →
      LSQ.awaitsResponse (l'.heap p).state = true ∧ p ∈ l'.slots)
    (hbarrier : (l'.heap p).state = .complete → (l'.heap p).isBarrier = true)
    (hpacket : (l'.heap p).kind = .singleData → (l'.heap p).packetSent = true →
      (l'.heap p).packet.isSome = true)
    (hcoverage : ∀ load, LSQ.slotCoverage (l.heap p) load = .noCoverage →
      LSQ.slotCoverage (l'.heap p) load = .noCoverage) (hwaits : l'.Waits) : l'.Held := by
  obtain ⟨hnreq, hntr⟩ : p ∉ l.requests ∧ p ∉ l.transfers := hwf.not_mem_of_slot hp
  refine h.change hheap ⟨fun hpos => (hissuing hpos).1, fun hpos => .inr (.inr (hissuing hpos).2),
    fun hq => absurd (mem_of_mem_tail hq) (hrequests ▸ hnreq), fun _ => hbarrier, fun _ => hpacket⟩
    (fun q hqp hq => ?_) (fun q _ hq => hrequests ▸ hq) (fun q _ => hsub q) ?_ hwaits
  · rw [hrequests, htransfers]
    exact hq.imp id (Or.imp id fun hm => hkept q hm hqp)
  · intro q ha
    have hq : l'.heap q = l.heap q := hheap q fun hqp =>
      hnreq (hqp ▸ hrequests ▸ mem_of_mem_head? ha.front)
    have hold : l.ActiveLoad q := ⟨hrequests ▸ ha.front, hq ▸ ha.isLoad, hq ▸ ha.tried⟩
    refine ⟨fun q' hq' => ?_, fun hllsc q' hq' => ?_⟩
    · rw [htransfers] at hq'
      rw [hheap q' fun hqp => hntr (hqp ▸ hq')]
      exact (h.active q hold).1 q' hq'
    · rw [hq] at hllsc ⊢
      have hcover := (h.active q hold).2 hllsc q' (hsub q' hq')
      by_cases hqp : q' = p
      · rw [hqp] at hcover ⊢
        exact hcoverage _ hcover
      · rw [hheap q' hqp]
        exact hcover

/-- A slot becomes `r`, which waits for a response. It is the only request that may wait for a
retry. -/
theorem held_slotPut (hwf : (s.viewOf l).WF) (hp : p ∈ l.slots)
    (hptr : l.state = .memoryNeedsRetry → l.retryRequest = some p)
    (hheap : l'.heap = update l.heap p r) (hrequests : l'.requests = l.requests)
    (htransfers : l'.transfers = l.transfers) (hslots : l'.slots = l.slots)
    (hsame : SameAccess (l.heap p) r) (hrequest : r.request = (l.heap p).request)
    (hpacket : r.packet = (l.heap p).packet) (hawaits : LSQ.awaitsResponse r.state = true)
    (hsome : r.kind = .singleData → r.packetSent = true → r.packet.isSome = true)
    (hwaits : l'.state = .memoryNeedsRetry ↔ LSQ.awaitsRetry r.state = true)
    (hretry : l'.state = .memoryNeedsRetry → l'.retryRequest = some p) : l'.Held := by
  have hself : l'.heap p = r := by rw [hheap, update_self]
  have hother : ∀ q ≠ p, l'.heap q = l.heap q := fun q hq => by
    rw [hheap, update_of_ne hq]
  refine held_slot h hwf hp hother (fun q hq => hslots ▸ hq) (fun q hq _ => hslots ▸ hq) hrequests
    htransfers (fun _ => ⟨hself ▸ hawaits, hslots ▸ hp⟩) (fun hs => ?_) (hself ▸ hsome)
    (fun load hnone => ?_) ⟨fun q hq hw => ?_, fun hs => ?_⟩
  · rw [hself] at hs
    rw [hs] at hawaits
    cases hawaits
  · rw [hself, ← hnone]
    exact slotCoverage_congr_slot hsame.inst hrequest (congrArg isSome hpacket)
  · by_cases hqp : q = p
    · rw [hqp, hself] at hw
      rw [hqp]
      exact ⟨hwaits.mpr hw, hretry (hwaits.mpr hw)⟩
    · rw [hother q hqp] at hw
      rw [hrequests, hslots] at hq
      cases (h.others hptr hqp hq).symm.trans hw
  · exact ⟨p, hretry hs, hself ▸ hwaits.mp hs, .inr (hslots ▸ hp)⟩

/-- A slot sends a packet. The LSQ runs, or `p` is what it waits for. -/
theorem held_slotSent (hwf : (s.viewOf l).WF) (hp : p ∈ l.slots)
    {packet : Packet} (hhead : (l.heap p).getHeadPacket = some packet)
    (hptr : l.state = .memoryNeedsRetry → l.retryRequest = some p)
    (hheap : l'.heap = update l.heap p ((l.heap p).stepToNextPacket.setState .storeBufferIssuing))
    (hrequests : l'.requests = l.requests) (htransfers : l'.transfers = l.transfers)
    (hslots : l'.slots = l.slots) (hrunning : l'.state ≠ .memoryNeedsRetry) : l'.Held := by
  obtain ⟨hsame, hrequest, hpacket, -⟩ := (l.heap p).stepToNextPacket_frame
  refine held_slotPut h hwf hp hptr hheap hrequests htransfers hslots (hsame.setState _) hrequest
    hpacket rfl (fun hkind _ => ?_) ⟨fun hs => absurd hs hrunning, fun hw => by cases hw⟩
    fun hs => absurd hs hrunning
  have hkind' : (l.heap p).kind = .singleData := hsame.kind.symm.trans hkind
  have hsome : (l.heap p).packet = some packet := by
    simpa [getHeadPacket, hkind'] using hhead
  show (l.heap p).stepToNextPacket.packet.isSome = true
  rw [hpacket, hsome]
  rfl

/-- A running LSQ does not use `retryRequest`. -/
theorem held_forgetRetry (hrunning : l.state ≠ .memoryNeedsRetry) :
    Held { l with retryRequest := none } :=
  ⟨fun q => { h.each q with }, fun p ha => h.active p { ha with },
    fun q hq hw => absurd (h.waits.waiting q hq hw).1 hrunning, fun hs => absurd hs hrunning⟩

end

/-- `StoreBuffer::step` keeps the states. -/
theorem held_drain (hwf : (s.viewOf l).WF) (h : Accounts l ∧ l.Held) (hd : Drain env l l') :
    Accounts l' ∧ l'.Held := by
  refine ⟨h.1.drain hwf hd, ?_⟩
  have h := h.2
  cases hd with
  | clearBarrier p rest hslots hcomplete hbarrier =>
    obtain ⟨barrier, hclear⟩ := clearMemBarrier_eq l (l.heap p).inst
    rw [hclear]
    have hp : p ∈ l.slots := by rw [hslots]; exact mem_cons_self
    have hzero := h.outstanding_eq_zero (p := p) (by rw [hcomplete]; rfl)
    have hrest : ∀ q ∈ rest, q ∈ l.slots := fun q hq => by
      rw [hslots]
      exact mem_cons_of_mem p hq
    have hmem : ∀ q ∈ l.slots, q ≠ p → q ∈ rest := by
      intro q hq hqp
      rw [hslots] at hq
      exact (mem_cons.mp hq).resolve_left hqp
    refine held_slot h hwf hp (fun q _ => rfl) hrest hmem rfl rfl (fun hpos => ?_)
      (fun _ => hbarrier) ((h.each p).packet hp) (fun load hnone => hnone)
      (h.waits_of_same (p := p) (fun q _ => rfl) rfl rfl ?_ fun q hqp => ?_)
    · exact absurd hzero (Nat.ne_of_gt hpos)
    · simp [hcomplete, LSQ.awaitsRetry]
    · exact or_congr Iff.rfl ⟨hrest q, fun hq => hmem q hq hqp⟩
  | slotSend l₁ p older younger sent hslots holder hopen htry =>
    have hp : p ∈ l.slots := by simp [hslots]
    have hslot : InSlots (l.heap p) := hwf.slots p hp
    have hl₁ : l₁.Held := by
      rcases tryToSend_cases htry with ⟨rfl, rfl, -⟩ | ⟨hcan, packet, hpacket, hcases⟩
      · exact h
      have hnot : l.state ≠ .memoryNeedsRetry := running_of_canSend hcan
      rcases hcases with ⟨hlocal, -⟩ | ⟨-, port, state, hport, hissue, -, rfl⟩ |
        ⟨-, state, hretry, -, rfl⟩
      · cases hslot.2.symm.trans hlocal
      · obtain rfl := issuingState_of_slot hslot hissue
        exact held_slotSent h hwf hp hpacket (fun hs => absurd hs hnot) rfl rfl rfl rfl hnot
      · obtain rfl := retryState_of_slot hslot hretry
        exact held_slotPut h hwf hp (fun hs => absurd hs hnot) rfl rfl rfl rfl ⟨rfl, rfl, rfl, rfl⟩
          rfl rfl rfl ((h.each p).packet hp) ⟨fun _ => rfl, fun _ => rfl⟩ fun _ => rfl
    cases sent with
    | false => exact hl₁
    | true =>
      obtain ⟨n, hcount⟩ := countIssuedStore_eq l₁ p
      rw [if_pos rfl, hcount]
      exact hl₁.congr rfl rfl rfl rfl rfl rfl

/-- `recvReqRetry` keeps the states. -/
theorem held_retry (h : l.Held) (hwf : (s.viewOf l).WF) (hr : Retry l l') : l'.Held := by
  cases hr with
  | refused => exact h
  | request p rest packet port hwaiting hretry hstate hfront =>
    obtain ⟨hsame, hrequest, -⟩ := (l.heap p).stepToNextPacket_frame
    -- The request stays in front or leaves `requests`; nothing else depends on that.
    have hdone : ∀ last : LSQ, last.heap = (resent l p .requestIssuing port).heap →
        last.slots = l.slots → last.state = .memoryRunning →
        ((last.requests = l.requests ∧ last.transfers = l.transfers) ∨
          (last.requests = rest ∧ last.transfers = l.transfers ++ [p])) → last.Held := by
      intro last hheap hslots hrunning hqueues
      have hself : last.heap p = (l.heap p).stepToNextPacket.setState .requestIssuing := by
        rw [hheap]
        exact update_self _ _ _
      have hnot : last.state ≠ .memoryNeedsRetry := by simp [hrunning]
      refine held_front h hwf hfront (fun _ => hretry) (fun q hq => ?_) hslots hqueues ?_
        (fun _ => ?_) ⟨fun hs => absurd hs hnot, fun hw => ?_⟩ fun hs => absurd hs hnot
      · rw [hheap]
        exact update_of_ne hq _ _
      · rw [hself]
        exact fun _ => rfl
      · rw [hself]
        refine ⟨hsame.setState _, hrequest, fun hload => ?_⟩
        have hactive : l.ActiveLoad p := ⟨by rw [hfront]; rfl, hload, .inr (by rw [hstate]; rfl)⟩
        exact h.active p hactive
      · rw [hself] at hw
        cases hw.1
    split
    · exact hdone _ rfl rfl rfl (.inr ⟨requests_moveFromRequests hfront, rfl⟩)
    · exact hdone _ rfl rfl rfl (.inl ⟨rfl, rfl⟩)
  | slot p packet port hwaiting hretry hstate hp hlocal hpacket =>
    have hrunning : (resent l p .storeBufferIssuing port).state ≠ .memoryNeedsRetry := by
      simp [resent]
    have hsent : (resent l p .storeBufferIssuing port).Held :=
      held_slotSent h hwf hp hpacket (fun _ => hretry) rfl rfl rfl rfl hrunning
    split
    · obtain ⟨n, hcount⟩ := countIssuedStore_eq (resent l p .storeBufferIssuing port) p
      rw [hcount]
      exact (held_forgetRetry hsent hrunning).congr rfl rfl rfl rfl rfl rfl
    · exact hsent

/-! ### Responses -/

/-- The slots after a response: a complete store leaves, and nothing else does. -/
theorem slotsAfter_mem (hwf : (s.viewOf l).WF) (hnodup : l.slots.Nodup)
    (hawaits : LSQ.awaitsResponse (l.heap p).state = true) :
    (∀ q ∈ slotsAfter l p r, q ∈ l.slots) ∧
      (∀ q ∈ l.slots, q ≠ p ∨ r.state ≠ .complete → q ∈ slotsAfter l p r) ∧
      (p ∈ slotsAfter l p r → r.state = .complete → r.isBarrier = true) := by
  have hslots : (slotsAfter l p r = l.slots ∧
        (p ∈ l.slots → r.state = .complete → r.isBarrier = true)) ∨
      (slotsAfter l p r = l.slots.erase p ∧ r.state = .complete) := by
    rcases slotsAfter_cases l p r with ⟨heq, hopen⟩ | ⟨heq, -, hdone⟩
    · refine .inl ⟨heq, fun hp hs => ?_⟩
      have hissued : (l.heap p).state = .storeBufferIssuing ∨
          (l.heap p).state = .storeBufferNeedsRetry := by
        have hslot : InSlots (l.heap p) := hwf.slots p hp
        rcases hslot.1 with hs | hs | hs | hs <;> simp [hs, LSQ.awaitsResponse] at hawaits ⊢
      simpa [isComplete, hs] using hopen hissued
    · simp only [Bool.and_eq_true, isComplete, beq_iff_eq] at hdone
      exact .inr ⟨heq, hdone.1⟩
  rcases hslots with ⟨heq, hbarrier⟩ | ⟨heq, hcomplete⟩ <;> rw [heq]
  · exact ⟨fun q hq => hq, fun q hq _ => hq, hbarrier⟩
  · refine ⟨fun q hq => mem_of_mem_erase hq, fun q hq hne => ?_, fun hp => ?_⟩
    · exact (mem_erase_of_ne (hne.resolve_right fun hs => hs hcomplete)).mpr hq
    · exact absurd hp (hnodup.not_mem_erase)

/-- A response keeps the states, unless it ends a request that waits for a retry. -/
theorem held_respond (h : l.Held) (hacc : Accounts l) (hwf : (s.viewOf l).WF) {k : Nat}
    {a : MemAccess} {skipped : Bool} (ha : l.dcachePort.inMemory[k]? = some a)
    (hretires : LSQRequest.Retires skipped (l.heap a.ptr) r)
    (hends : (l.heap a.ptr).endsWaiting skipped = false) :
    (responded l k a r (slotsAfter l a.ptr r)).Held := by
  have hcounted := hacc.request a.ptr
  have hpos := hacc.outstanding_pos (mem_of_getElem? ha)
  have hwaits := hcounted.state_of_endsWaiting hpos hretires hends
  have hmore := hcounted.state_of_outstanding hpos hretires
  have hnodup : l.slots.Nodup := (nodup_append.mp hwf.nodup).2.1
  obtain ⟨hsub, hkept, hleft⟩ := slotsAfter_mem hwf hnodup ((h.each a.ptr).issuing hpos)
  generalize hafter : responded l k a r (slotsAfter l a.ptr r) = after
  have hself : after.heap a.ptr = r := by
    rw [← hafter]
    exact update_self _ _ _
  have hother : ∀ q ≠ a.ptr, after.heap q = l.heap q := fun q hq => by
    rw [← hafter]
    exact update_of_ne hq _ _
  have hqueues : after.requests = l.requests ∧ after.transfers = l.transfers ∧
      after.slots = slotsAfter l a.ptr r ∧ after.state = l.state ∧
      after.retryRequest = l.retryRequest := by
    subst hafter
    exact ⟨rfl, rfl, rfl, rfl, rfl⟩
  obtain ⟨hreq, htr, hslots, hstate, hretry⟩ := hqueues
  have hsame : ∀ q, LSQRequest.SameAccess (l.heap q) (after.heap q) ∧
      (after.heap q).request = (l.heap q).request := by
    intro q
    by_cases hq : q = a.ptr
    · rw [hq, hself]
      exact ⟨hretires.same, hretires.request⟩
    · rw [hother q hq]
      exact ⟨LSQRequest.SameAccess.refl _, rfl⟩
  have hactive : ∀ q, after.ActiveLoad q → l.ActiveLoad q := by
    intro q hq
    refine ⟨hreq ▸ hq.front, (hsame q).1.isLoad ▸ hq.isLoad, ?_⟩
    by_cases hqp : q = a.ptr
    · rw [hqp]
      exact .inl hpos
    · exact hother q hqp ▸ hq.tried
  -- A single slot had its packet when it was sent.
  have hpacket : ∀ q ∈ after.slots, (after.heap q).packet.isSome = (l.heap q).packet.isSome := by
    intro q hq
    by_cases hqp : q = a.ptr
    · subst hqp
      rw [hself]
      by_cases hkind : (l.heap a.ptr).kind = .singleData
      · rw [(hretires.single hkind).2.2.2,
          (h.each a.ptr).packet (hsub a.ptr (hslots ▸ hq)) hkind (hcounted.packetSent hpos hkind)]
      · exact hretires.packet hkind
    · rw [hother q hqp]
  have hkeeps : LSQ.awaitsResponse r.state = true → ∀ q ∈ l.slots, q ∈ slotsAfter l a.ptr r := by
    intro hawaits q hq
    refine hkept q hq (.inr fun hs => ?_)
    rw [hs] at hawaits
    cases hawaits
  refine h.change hother ⟨fun hq => ?_, fun hq => ?_, fun hq => ?_, fun hq => ?_,
    fun hq hkind hsent => ?_⟩ ?_ (fun q _ hq => hreq ▸ hq) (fun q _ hq => hsub q (hslots ▸ hq)) ?_
    (h.waits_of_same hother hstate hretry ?_ ?_)
  · rw [hself] at hq ⊢
    rw [hmore hq]
    exact (h.each a.ptr).issuing hpos
  · rw [hself] at hq
    rw [hreq, htr, hslots]
    exact ((h.each a.ptr).alive hpos).imp id (Or.imp id
      (hkeeps ((hmore hq).symm ▸ (h.each a.ptr).issuing hpos) a.ptr))
  · have hzero := (h.each a.ptr).behind (hreq ▸ hq)
    omega
  · rw [hself]
    exact hleft (hslots ▸ hq)
  · rw [hpacket a.ptr hq]
    rw [hself] at hkind hsent
    exact (h.each a.ptr).packet (hsub a.ptr (hslots ▸ hq)) (hretires.same.kind ▸ hkind)
      (hretires.packetSent ▸ hsent)
  · intro q hqp hq
    rw [hreq, htr, hslots]
    exact hq.imp id (Or.imp id fun hm => hkept q hm (.inl hqp))
  · intro q hq
    refine ⟨fun q' hq' => ?_, fun hllsc q' hq' => ?_⟩
    · rw [(hsame q').1.isLoad]
      exact (h.active q (hactive q hq)).1 q' (htr ▸ hq')
    · rw [(hsame q).2] at hllsc
      rw [slotCoverage_congr (hsame q).1.inst (hsame q).2,
        slotCoverage_congr_slot (hsame q').1.inst (hsame q').2 (hpacket q' hq')]
      exact (h.active q (hactive q hq)).2 hllsc q' (hsub q' (hslots ▸ hq'))
  · rw [hself, hreq, hslots]
    refine ⟨fun ⟨hq, hw⟩ => ⟨hq.imp id (hsub a.ptr), ?_⟩, fun ⟨hq, hw⟩ => ?_⟩
    · rcases hretires.state with hs | hs
      · exact hs ▸ hw
      · rw [hs] at hw
        cases hw
    · have hsame := hwaits hw
      rw [hsame]
      exact ⟨hq.imp id (hkeeps (hsame.symm ▸ (h.each a.ptr).issuing hpos) a.ptr), hw⟩
  · intro q hqp
    rw [hreq, hslots]
    exact or_congr Iff.rfl ⟨hsub q, fun hm => hkept q hm (.inl hqp)⟩

/-! ### The other events -/

section
variable (h : l.Held)
include h

/-- A new request, in `requests` or as a barrier in the store buffer. -/
theorem held_alloc (hwf : (s.viewOf l).WF) {requests slots : List Nat} {unissued : Nat}
    (hrequests : requests = l.requests ∨ requests = l.requests ++ [l.nextPtr])
    (hslots : slots = l.slots ∨ slots = l.slots ++ [l.nextPtr] ∧ r.isBarrier = true ∧
      r.packet = none ∧ r.packetSent = false) (hout : r.outstanding = 0)
    (hstate : LSQ.awaitsRetry r.state = false) :
    Held { l.alloc r with
      requests := requests, slots := slots, numUnissuedAccesses := unissued } := by
  generalize hafter : ({ l.alloc r with
    requests := requests, slots := slots, numUnissuedAccesses := unissued } : LSQ) = after
  have hself : after.heap l.nextPtr = r := by
    rw [← hafter]
    exact update_self _ _ _
  have hother : ∀ q ≠ l.nextPtr, after.heap q = l.heap q := fun q hq => by
    rw [← hafter]
    exact update_of_ne hq _ _
  have hqueues : after.requests = requests ∧ after.transfers = l.transfers ∧
      after.slots = slots ∧ after.state = l.state ∧ after.retryRequest = l.retryRequest := by
    subst hafter
    exact ⟨rfl, rfl, rfl, rfl, rfl⟩
  obtain ⟨hreq, htr, hsl, hst, hretry⟩ := hqueues
  have hfresh : ∀ q, q ∈ l.requests ∨ q ∈ l.transfers ∨ q ∈ l.slots → q ≠ l.nextPtr := by
    intro q hq
    have hmem : q ∈ (s.viewOf l).queue ++ (s.viewOf l).slots := by
      simp only [queue, mem_append]
      tauto
    exact Nat.ne_of_lt (hwf.fresh q hmem)
  have hreqs : ∀ q ∈ requests, q ∈ l.requests ∨ q = l.nextPtr := by
    intro q hq
    rcases hrequests with rfl | rfl
    · exact .inl hq
    · simpa using hq
  have hin : ∀ q ∈ slots, q ∈ l.slots ∨
      q = l.nextPtr ∧ r.isBarrier = true ∧ r.packet = none ∧ r.packetSent = false := by
    intro q hq
    rcases hslots with rfl | ⟨rfl, hbarrier⟩
    · exact .inl hq
    · rcases mem_append.mp hq with hq | hq
      · exact .inl hq
      · exact .inr ⟨mem_singleton.mp hq, hbarrier⟩
  have hkeep : (∀ q ∈ l.requests, q ∈ requests) ∧ ∀ q ∈ l.slots, q ∈ slots := by
    constructor
    · intro q hq
      rcases hrequests with rfl | rfl
      · exact hq
      · exact mem_append_left _ hq
    · intro q hq
      rcases hslots with rfl | ⟨rfl, -⟩
      · exact hq
      · exact mem_append_left _ hq
  have hzero : (after.heap l.nextPtr).outstanding = 0 := by rw [hself]; exact hout
  have hnot : LSQ.awaitsRetry (after.heap l.nextPtr).state = false := by rw [hself]; exact hstate
  have hactive : ∀ q, after.ActiveLoad q → l.ActiveLoad q ∧ q ≠ l.nextPtr := by
    intro q ha
    have hq : q ≠ l.nextPtr := fun hqp => LSQ.not_activeLoad_of_zero hzero hnot (hqp ▸ ha)
    have hhead : l.requests.head? = some q := by
      have hfront := ha.front
      rw [hreq] at hfront
      rcases hrequests with rfl | rfl
      · exact hfront
      · cases hl : l.requests with
        | nil =>
          rw [hl] at hfront
          exact absurd (some.inj hfront).symm hq
        | cons => simpa [hl] using hfront
    exact ⟨⟨hhead, hother q hq ▸ ha.isLoad, hother q hq ▸ ha.tried⟩, hq⟩
  -- A slot is an old one, or the barrier.
  have hnew : l.nextPtr ∈ after.slots →
      r.isBarrier = true ∧ r.packet = none ∧ r.packetSent = false := fun hq =>
    ((hin _ (hsl ▸ hq)).resolve_left fun hm => hfresh _ (.inr (.inr hm)) rfl).2
  refine h.change hother ⟨fun hpos => by omega, fun hpos => by omega, fun _ => hzero,
    fun hq _ => ?_, fun hq _ hsent => ?_⟩ (fun q _ hq => ?_) (fun q hqp hq => ?_) (fun q hqp hq => ?_)
    ?_ (h.waits_of_same hother hst hretry ?_ fun q hqp => ?_)
  · rw [hself]
    exact (hnew hq).1
  · rw [hself, (hnew hq).2.2] at hsent
    cases hsent
  · rw [hreq, htr, hsl]
    exact hq.imp (hkeep.1 q) (Or.imp id (hkeep.2 q))
  · rw [hreq] at hq
    rcases hrequests with rfl | rfl
    · exact hq
    · cases hl : l.requests with
      | nil => simp [hl] at hq
      | cons => simpa [hl, hqp] using hq
  · exact (hin q (hsl ▸ hq)).resolve_right fun hnew => hqp hnew.1
  · intro q ha
    obtain ⟨hold, hne⟩ := hactive q ha
    refine ⟨fun q' hq' => ?_, fun hllsc q' hq' => ?_⟩
    · rw [htr] at hq'
      rw [hother q' (hfresh q' (.inr (.inl hq')))]
      exact (h.active q hold).1 q' hq'
    · rw [hother q hne] at hllsc ⊢
      rcases hin q' (hsl ▸ hq') with hq' | ⟨rfl, -, hpacket, -⟩
      · rw [hother q' (hfresh q' (.inr (.inr hq')))]
        exact (h.active q hold).2 hllsc q' hq'
      · rw [hself]
        simp [LSQ.slotCoverage, hpacket]
  · refine ⟨fun hq => absurd (hnot.symm.trans hq.2) (by simp), fun hq => ?_⟩
    exact absurd rfl (hfresh _ (hq.1.imp id .inr))
  · rw [hreq, hsl]
    exact or_congr ⟨fun hm => (hreqs q hm).resolve_right hqp, hkeep.1 q⟩
      ⟨fun hm => (hin q hm).resolve_right fun hnew => hqp hnew.1, hkeep.2 q⟩

/-- The front of `transfers` leaves it, with no packet in the memory system. -/
theorem held_pop (hfront : l.transfers = p :: rest)
    (hzero : (l.heap p).outstanding = 0) : (l.popResponse p).Held := by
  refine ⟨fun q => { h.each q with alive := fun hq => ?_ }, fun p' ha => ?_, { h.waits with }⟩
  · refine ((h.each q).alive hq).imp id (Or.imp (fun hm => ?_) id)
    rw [hfront] at hm
    rcases mem_cons.mp hm with rfl | hm
    · exact absurd hzero (Nat.ne_of_gt hq)
    · show q ∈ l.transfers.tail
      rw [hfront]
      exact hm
  · obtain ⟨hstores, hcover⟩ := h.active p' { ha with }
    exact ⟨fun q hq => hstores q (mem_of_mem_tail hq), hcover⟩

/-- A store goes from the front of `transfers` to the store buffer. No load has been sent behind
it, so the new slot covers no active load. -/
theorem held_insert (hp : p ∈ l.transfers) (hnreq : p ∉ l.requests)
    (hnslot : p ∉ l.slots) (hstore : (l.heap p).isLoad = false) (hzero : (l.heap p).outstanding = 0)
    (hstate : (l.heap p).state = .storeToStoreBuffer)
    (hsent : (l.heap p).kind = .singleData → (l.heap p).packetSent = false) :
    (l.insert p).Held ∧ ((l.insert p).heap p).outstanding = 0 := by
  have hself : (l.insert p).heap p = (l.heap p).setState .storeInStoreBuffer := by
    simp [LSQ.insert, LSQ.modify, isComplete, hstate]
  have hother : ∀ q ≠ p, (l.insert p).heap q = l.heap q := fun q hq =>
    update_of_ne hq _ _
  have hin : ∀ q ∈ (l.insert p).slots, q = p ∨ q ≠ p ∧ q ∈ l.slots := by
    intro q hq
    rcases mem_append.mp hq with hq | hq
    · exact .inr ⟨fun hqp => hnslot (hqp ▸ hq), hq⟩
    · exact .inl (mem_singleton.mp hq)
  have hzero' : ((l.insert p).heap p).outstanding = 0 := by rw [hself]; exact hzero
  refine ⟨h.change hother ⟨fun hpos => by omega, fun hpos => by omega, fun _ => hzero',
    fun _ hs => ?_, fun _ hkind hs => ?_⟩ (fun q _ hq => ?_) (fun q _ hq => hq)
    (fun q hqp hq => ((hin q hq).resolve_left hqp).2) (fun q ha => ?_)
    (h.waits_of_same hother rfl rfl ?_ fun q hqp => ?_), hzero'⟩
  · rw [hself] at hs
    cases hs
  · rw [hself] at hkind hs
    cases (hsent hkind).symm.trans hs
  · exact hq.imp id (Or.imp id fun hm => mem_append_left _ hm)
  · have hfront : l.requests.head? = some q := ha.front
    have hqp : q ≠ p := fun hqp => hnreq (hqp ▸ mem_of_mem_head? hfront)
    have hload := (h.active q ⟨hfront, hother q hqp ▸ ha.isLoad, hother q hqp ▸ ha.tried⟩).1 p hp
    cases hstore.symm.trans hload
  · refine ⟨fun hq => ?_, fun hq => (hq.1.elim hnreq hnslot).elim⟩
    have hw := hq.2
    rw [hself] at hw
    cases hw
  · exact or_congr Iff.rfl ⟨fun hm => ((hin q hm).resolve_left hqp).2, mem_append_left _⟩

/-- A commit keeps the states. -/
theorem held_commit (hacc : Accounts l) (hwf : (s.viewOf l).WF)
    (hfront : l.transfers = p :: rest)
    (hstate : (l.heap p).state = .complete ∨ (l.heap p).state = .storeToStoreBuffer)
    (env : ResponseEnv) : (l.commitResponse env p).Held := by
  have hp : p ∈ l.transfers := by rw [hfront]; exact mem_cons_self
  obtain ⟨hnreq, hnslot⟩ := hwf.not_mem_of_transfer hp
  have hzero : (l.heap p).outstanding = 0 :=
    h.outstanding_eq_zero (by rcases hstate with hs | hs <;> rw [hs] <;> rfl)
  unfold LSQ.commitResponse
  dsimp only
  generalize hresult : handleMemResponse l.thresholdLCT env l.cvu (l.heap p) = result
  have hcompleted : Held { (l.modify p fun r => { r with packet := result.packet }) with
      cvu := result.cvu } :=
    (h.modify (f := fun r => { r with packet := result.packet }) rfl rfl
      ⟨rfl, rfl, rfl, rfl⟩ rfl fun hslot => absurd hslot hnslot).congr rfl rfl rfl rfl rfl rfl
  have hself : (l.modify p fun r => { r with packet := result.packet }).heap p
      = { l.heap p with packet := result.packet } := LSQ.modify_heap_self _
  split
  · rename_i hbuffer
    rw [← hresult] at hbuffer
    have hto := state_of_toStoreBuffer hbuffer
    have hstore : (l.heap p).isLoad = false := by
      rcases hwf.transfers p hp with hs | hs | ⟨-, hload, -⟩
      · cases hto.symm.trans hs
      · cases hto.symm.trans hs
      · exact hload
    have hunsent := (hacc.request p).not_sent (by simp [hto])
    obtain ⟨hinsert, hout⟩ := held_insert hcompleted hp hnreq hnslot
      (by rw [hself]; exact hstore) (by rw [hself]; exact hzero) (by rw [hself]; exact hto)
      (by rw [hself]; exact hunsent)
    exact held_pop (hinsert.congr rfl rfl rfl rfl rfl rfl) hfront hout
  · refine held_pop hcompleted hfront ?_
    rw [hself]
    exact hzero

end

/-! ### No panic -/

/-- The front of `requests` is sent in a state in which it may be sent. -/
theorem transferPanics_eq_false (h : l.Held) (hacc : Accounts l) (hwf : (s.viewOf l).WF)
    (hstream : env.streamSeqNum = s.streamSeqNum) : l.transferPanics env p = false := by
  by_contra hpanics
  simp only [LSQ.transferPanics, Bool.not_eq_false, Bool.and_eq_true, beq_iff_eq] at hpanics
  obtain ⟨⟨hsend, hroom⟩, hbad⟩ := hpanics
  obtain ⟨rest, hcan⟩ : ∃ rest, (s.viewOf l).CanTransfer p rest := by
    rcases transferAction_cases (l := l) hstream with hwait | ⟨rest, -, -, ⟨hskip, -⟩ | hcan⟩
    · cases hsend.symm.trans hwait
    · cases hsend.symm.trans hskip
    · exact ⟨rest, hcan.1⟩
  have hstate : (l.heap p).state = .translated ∨ (l.heap p).state = .requestIssuing := by
    have hretry := h.not_waiting (running_of_canSend hroom) (.inl hcan.mem)
    rcases state_of_canTransfer hwf hcan with hs | hs | hs
    · exact .inl hs
    · exact .inr hs
    · rw [hs] at hretry
      cases hretry
  have hkind := (hacc.request p).kinds fun hs => hs.elim hcan.notComplete hcan.notFailed
  have hmark : ((l.markIssued p).heap p).kind = (l.heap p).kind ∧
      ((l.markIssued p).heap p).state = (l.heap p).state := by
    unfold LSQ.markIssued
    split
    · simp [LSQ.modify]
    · exact ⟨rfl, rfl⟩
  simp only [LSQ.tryToSendPanics, hmark.1, hmark.2] at hbad
  rcases hkind with hk | hk <;> rcases hstate with hs | hs <;>
    simp [hk, hs, LSQ.issuingState] at hbad

variable (hwf : (s.viewOf l).WF)
include hwf

/-- So is a slot. -/
theorem tryToSendPanics_slot (h : Accounts l ∧ l.Held)
    (hroom : l.canSendToMemorySystem = true) (hp : p ∈ l.slots)
    (hbarrier : ¬((l.heap p).isBarrier && (l.heap p).isComplete) = true) :
    l.tryToSendPanics p = false := by
  have hslot : InSlots (l.heap p) := hwf.slots p hp
  have hcomplete : (l.heap p).state ≠ .complete := by
    intro hs
    simp [(h.2.each p).barrier hp hs, isComplete, hs] at hbarrier
  have hwaits := h.2.not_waiting (running_of_canSend hroom) (.inr hp)
  have hstate : (l.heap p).state = .storeInStoreBuffer ∨
      (l.heap p).state = .storeBufferIssuing := by
    rcases hslot.1 with hs | hs | hs | hs
    · exact .inl hs
    · exact .inr hs
    · rw [hs] at hwaits
      cases hwaits
    · exact absurd hs hcomplete
  have hkind := (h.1.request p).kinds (by rcases hstate with hs | hs <;> simp [hs])
  rcases hkind with hk | hk <;> rcases hstate with hs | hs <;>
    simp [LSQ.tryToSendPanics, hk, hs, LSQ.issuingState]

/-- `StoreBuffer::step`. -/
theorem stepStoreBufferPanics_eq_false (h : Accounts l ∧ l.Held) :
    l.stepStoreBufferPanics env = false := by
  unfold LSQ.stepStoreBufferPanics
  split
  · rfl
  · obtain ⟨hwf₁, hP⟩ := drains_invariant
      (fun _ _ => held_drain) hwf h (show Drains env _ _ from clearBarriers_drains l.slots l)
    exact issueStoresReach_eq_false (fun _ _ => held_drain)
      (fun _ _ hwf hP hroom hp hbarrier _ => tryToSendPanics_slot hwf hP hroom hp hbarrier) _
      hwf₁ hP (nil_append _).symm (fun q hq => by simp at hq)

/-- A retry finds its request in one of the two states, and sends it. -/
theorem recvReqRetryPanics_eq_false (h : l.Held) (hacc : Accounts l)
    (hwaiting : l.state = .memoryNeedsRetry) (hretry : l.retryRequest = some p) :
    l.recvReqRetryPanics env p = false := by
  obtain ⟨p', hptr, hw, -⟩ := h.waits.retry hwaiting
  obtain rfl : p = p' := some.inj (hretry.symm.trans hptr)
  have hview : (s.viewOf l).retry = some p := by simp [view, hwaiting, hretry]
  obtain ⟨hreq, hslot⟩ := hwf.retry p hview
  have hkind := (hacc.request p).kinds fun hs => by
    rcases hs with hs | hs <;> rw [hs] at hw <;> cases hw
  -- `before` is the state in which the packet is sent again.
  have hdone : ∀ before after, LSQ.resendState (l.heap p).state = some before →
      LSQ.issuingState before = some after → LSQ.retryState before = some (l.heap p).state →
      (l.heap p).request.localAccess = false →
      (after = .requestIssuing ∨ after = .storeBufferIssuing) →
      l.recvReqRetryPanics env p = false := by
    intro before after hresend hissue hrefuse hlocal hafter
    unfold LSQ.recvReqRetryPanics
    rw [hresend]
    rw [Bool.or_eq_false_iff]
    constructor
    · rcases hkind with hk | hk <;>
        simp [LSQ.tryToSendPanics, LSQ.modify, setState, hk, hissue]
    · split
      · rename_i l₁ htry
        rcases resend_cases hissue hrefuse hlocal htry with
          ⟨hsent, -⟩ | ⟨packet, port, -, -, -, rfl⟩ | ⟨hsent, -⟩
        · cases hsent
        · have hself : ((resent l p after port).heap p).state = after := by
            simp [resent, setState]
          unfold LSQ.finishRetry
          rw [hself]
          rcases hafter with rfl | rfl <;> rfl
        · cases hsent
      · rfl
  cases hs : (l.heap p).state with
  | requestNeedsRetry =>
    exact hdone .translated .requestIssuing (by rw [hs]; rfl) rfl (by rw [hs]; rfl) (hreq hs).2
      (.inl rfl)
  | storeBufferNeedsRetry =>
    exact hdone .storeInStoreBuffer .storeBufferIssuing (by rw [hs]; rfl) rfl (by rw [hs]; rfl)
      (hwf.slots p (hslot hs)).2 (.inr rfl)
  | _ =>
    rw [hs] at hw
    cases hw

end

end LSQSystem

/-! ### Runs -/

namespace FaultyLSQ

open LSQSystem

/-- The events that may leave a request with a packet in the memory system in a state without
a response, and the push that is refused. -/
def mayPanic (s : FaultyLSQ) : Event → Bool
  | .call (.push args _) =>
    transferNeedsBurst args.addr args.size s.sys.lsq.lineWidth &&
      args.inst.staticInst.isAtomic
  | .call (.step call) =>
    !call.env.lockedWrite && s.sys.lsq.requests.head?.any fun p =>
      !(s.sys.lsq.heap p).isLoad && (s.sys.lsq.heap p).request.flags.llsc &&
        (s.sys.lsq.heap p).hasPacketsInMemSystem
  | .call (.recvTimingResp k _) => s.sys.lsq.dcachePort.inMemory[k]?.any fun a =>
    (s.sys.lsq.heap a.ptr).endsWaiting (s.sys.lsq.heap a.ptr).skipped
  | .recvErrorResp k _ => s.sys.lsq.dcachePort.inMemory[k]?.any fun a =>
    (s.sys.lsq.heap a.ptr).endsWaiting true
  | _ => false

section
variable {s s' : FaultyLSQ} {e : Event} {p : Nat}

/-- The states after the end of a translation. -/
theorem held_finish (hs : s.Sound) (h : s.sys.lsq.Held) (hp : p ∈ s.sys.lsq.requests)
    (hstate : (s.sys.lsq.heap p).state = .inTranslation) (t : Translation) (call : CallEnv) :
    ((s.sys.entered call).modify p fun r => r.finish t call.env.fresh).Held := by
  have hentered : (s.sys.entered call).Held := h.congr rfl rfl rfl rfl rfl rfl
  obtain ⟨hntr, hnslot⟩ := hs.wf.not_mem_of_request hp
  refine hentered.modify_unsent hntr hnslot ?_
    ((hs.accounts.request p).finish hstate t call.env.fresh).2 ?_
  · show LSQ.awaitsRetry (s.sys.lsq.heap p).state = false
    rw [hstate]
    rfl
  · rcases (s.sys.lsq.heap p).state_finish t call.env.fresh with hs | hs | ⟨hs, -⟩
    · exact (congrArg LSQ.awaitsRetry (hs.trans hstate)).trans rfl
    · exact (congrArg LSQ.awaitsRetry hs).trans rfl
    · exact (congrArg LSQ.awaitsRetry hs).trans rfl

variable {call : CallEnv} {l : LSQ}

/-- The states after `tryToSendToTransfers` in `step`. -/
theorem held_stepTransfer (hs : s.Sound) (h : s.sys.lsq.Held)
    (hok : s.mayPanic (.call (.step call)) = false)
    (htransfer : Transfer s.sys (s.sys.env call) (s.sys.entered call) p l) :
    (s.sys.viewOf l).WF ∧ Accounts l ∧ l.Held :=
  ⟨wf_transfer htransfer hs.wf, (accounts_entered hs.accounts call).transfer hs.wf htransfer,
    held_transfer (l := s.sys.entered call) (h.congr rfl rfl rfl rfl rfl rfl)
      (accounts_entered hs.accounts call) hs.wf htransfer fun hlocked hload hllsc hfront =>
        outstanding_of_noPackets (by
          simp only [LSQSystem.env, LSQSystem.entered] at hlocked hload hllsc hfront ⊢
          simpa [mayPanic, hlocked, hfront, hload, hllsc] using hok)⟩

/-- The first LSQ is empty. -/
theorem held_new (params : LSQParams) (mem : Addr → Byte) : (new params mem).sys.lsq.Held := by
  have hzero : ∀ q, ((new params mem).sys.lsq.heap q).outstanding = 0 := fun _ => rfl
  refine ⟨fun q => ⟨fun hq => ?_, fun hq => ?_, nofun, nofun, nofun⟩, nofun, fun _ hq => ?_, nofun⟩
  · exact absurd (hzero q) (Nat.ne_of_gt hq)
  · exact absurd (hzero q) (Nat.ne_of_gt hq)
  · rcases hq with hq | hq <;> cases hq

/-- Each outcome keeps the states, unless the event may panic. -/
theorem held_outcome (hs : s.Sound) (h : s.sys.lsq.Held) (hok : s.mayPanic e = false)
    (hout : Outcome s e l) : l.Held := by
  have hwf := hs.wf
  have hacc := hs.accounts
  have hentered : ∀ call, (s.sys.entered call).Held := fun _ => h.congr rfl rfl rfl rfl rfl rfl
  cases hout with
  | push args call =>
    refine held_alloc (hentered call) hwf (.inr rfl) (.inl rfl)
      (counted_push args s.sys.lsq.cvu s.sys.lsq.lineWidth call.env.fresh).2.1 ?_
    obtain ⟨_, _, _, heq, rfl | rfl⟩ := startAddrTranslation_newRequest args s.sys.lsq.cvu
      s.sys.lsq.lineWidth call.env.fresh <;>
      exact congrArg (fun r => LSQ.awaitsRetry r.state) heq
  | pushFailed inst =>
    exact held_alloc h hwf (.inr rfl) (.inl rfl) (counted_special inst (.inl ⟨rfl, rfl⟩)).2 rfl
  | markDelayed => exact h.modify rfl rfl ⟨rfl, rfl, rfl, rfl⟩ rfl fun _ => ⟨rfl, rfl⟩
  | finish p t call hp hstate => exact held_finish hs h hp hstate t call
  | finishTransfer p t call l₁ clear hp hstate htransfer =>
    have hmoved := held_transfer (held_finish hs h hp hstate t call)
      (accounts_finish hacc hstate t call) (wf_finish hs hp hstate t call) htransfer
      fun _ _ _ _ => by
        rw [LSQ.modify_heap_self]
        exact ((hacc.request p).finish hstate t call.env.fresh).2
    cases clear with
    | false => exact hmoved
    | true =>
      rw [if_pos rfl]
      exact hmoved.modify rfl rfl ⟨rfl, rfl, rfl, rfl⟩ rfl fun _ => ⟨rfl, rfl⟩
  | drain call l hempty hdrain =>
    exact (drains_invariant (l := s.sys.entered call) (fun _ _ => held_drain) hwf
      ⟨accounts_entered hacc call, hentered call⟩ hdrain).2.2
  | step call p rest l₁ l hfront htransfer hdrain =>
    obtain ⟨hwf₁, hP⟩ := held_stepTransfer hs h hok htransfer
    exact (drains_invariant (fun _ _ => held_drain) hwf₁ hP hdrain).2.2
  | perform | issuedMemBarrierInst => exact h.congr rfl rfl rfl rfl rfl rfl
  | respond e k call a r skipped he ha hawaits hretires =>
    refine held_respond (hentered call) (accounts_entered hacc call) hwf ha
      hretires ?_
    show (s.sys.lsq.heap a.ptr).endsWaiting skipped = false
    rcases he with ⟨rfl, rfl⟩ | ⟨rfl, rfl⟩ <;> simpa [mayPanic, ha] using hok
  | retry call l hretry => exact held_retry (hentered call) hwf hretry
  | commit env p rest hrespond =>
    exact held_commit h hacc hwf hrespond.1 hrespond.2 env
  | discard p rest hrespond =>
    refine held_pop h hrespond.1 (h.outstanding_eq_zero ?_)
    rcases hrespond.2 with hs | hs <;> exact (congrArg LSQ.awaitsResponse hs).trans rfl
  | clearMemBarrier inst =>
    obtain ⟨barrier, hclear⟩ := clearMemBarrier_eq s.sys.lsq inst
    rw [hclear]
    exact h.congr rfl rfl rfl rfl rfl rfl
  | insertBarrier inst =>
    rw [insert_barrier_eq]
    exact held_alloc h hwf (.inl rfl) (.inr ⟨rfl, rfl, rfl, rfl⟩)
      (counted_special inst (.inr ⟨rfl, rfl⟩)).2 rfl
  | none => exact h

/-- No event panics, apart from those of `mayPanic`. -/
theorem panics_eq_false (hs : s.Sound) (h : s.sys.lsq.Held) (hok : s.mayPanic e = false) :
    s.panics e = false := by
  have hwf := hs.wf
  have hacc := hs.accounts
  have hentered : ∀ call, (s.sys.entered call).Held := fun _ => h.congr rfl rfl rfl rfl rfl rfl
  have hresponse : ∀ k : Nat, (s.sys.lsq.dcachePort.inMemory[k]?.any fun a =>
      !LSQ.awaitsResponse (s.sys.lsq.heap a.ptr).state) = false := by
    intro k
    cases hk : s.sys.lsq.dcachePort.inMemory[k]? with
    | none => rfl
    | some a =>
      have hawaits := (h.each a.ptr).issuing (hacc.outstanding_pos (mem_of_getElem? hk))
      simp [hawaits]
  cases e with
  | recvErrorResp k => exact hresponse k
  | call e =>
    cases e with
    | push => exact hok
    | finishTranslation p t call =>
      simp only [panics, Bool.and_eq_false_iff, decide_eq_false_iff_not]
      by_cases hp : p ∈ s.sys.lsq.requests
      · by_cases hstate : (s.sys.lsq.heap p).state = .inTranslation
        · refine .inr ?_
          refine Bool.and_eq_false_iff.mpr (.inr ?_)
          exact transferPanics_eq_false (held_finish hs h hp hstate t call)
            (accounts_finish hacc hstate t call) (wf_finish hs hp hstate t call) rfl
        · exact .inl (.inr (by simpa using hstate))
      · exact .inl (.inl hp)
    | step call =>
      show (s.sys.entered call).stepPanics (s.sys.env call) = false
      unfold LSQ.stepPanics
      split
      · exact stepStoreBufferPanics_eq_false hwf
          ⟨accounts_entered hacc call, hentered call⟩
      · rw [transferPanics_eq_false (hentered call)
          (accounts_entered hacc call) hwf rfl]
        split
        · rename_i l₁ htry
          obtain ⟨hwf₁, hP⟩ := held_stepTransfer hs h hok
            (transfer_of_tryToSendToTransfers rfl htry)
          exact stepStoreBufferPanics_eq_false hwf₁ hP
        · rfl
    | recvTimingResp k => exact hresponse k
    | recvReqRetry call =>
      simp only [panics]
      cases hstate : s.sys.lsq.state with
      | memoryRunning => rfl
      | memoryNeedsRetry =>
        cases hretry : s.sys.lsq.retryRequest with
        | none => rfl
        | some =>
          exact recvReqRetryPanics_eq_false
            hwf (hentered call) (accounts_entered hacc call)
            hstate hretry
    | _ => rfl

end

/-- In every run in which no half-sent store-conditional is given up, no response ends a request
that waits for a retry and no atomic access crosses a line: each packet in the memory system
belongs to a request that is still in one of the queues and may receive the response, a waiting
LSQ has a request that may be sent again, and no further such event panics. -/
theorem no_panic_in_every_state (params : LSQParams) (mem : Addr → Byte) (es : List Event)
    {s : FaultyLSQ} (hrun : Lib.run step (new params mem) es = some s)
    (hok : Lib.RunMeets step (fun s e => s.mayPanic e = false) (new params mem) es) :
    (∀ a ∈ s.sys.lsq.dcachePort.inMemory, LSQ.awaitsResponse (s.sys.lsq.heap a.ptr).state = true ∧
        (a.ptr ∈ s.sys.lsq.requests ∨ a.ptr ∈ s.sys.lsq.transfers ∨ a.ptr ∈ s.sys.lsq.slots)) ∧
      (s.sys.lsq.state = .memoryNeedsRetry → ∃ p, s.sys.lsq.retryRequest = some p ∧
        LSQ.awaitsRetry (s.sys.lsq.heap p).state = true ∧
        (p ∈ s.sys.lsq.requests ∨ p ∈ s.sys.lsq.slots)) ∧
      ∀ e, s.mayPanic e = false → s.panics e = false := by
  obtain ⟨hs, hheld⟩ : s.Sound ∧ s.sys.lsq.Held := by
    refine run_invariant_of_meets (P := fun s => s.Sound ∧ s.sys.lsq.Held)
      (fun s e s' hs hok h => ⟨sound_step hs.1 h, ?_⟩)
      ⟨sound_new params mem, held_new params mem⟩ hok hrun
    exact held_outcome hs.1 hs.2 hok (outcome_of_step hs.1 h)
  refine ⟨fun a ha => ?_, hheld.waits.retry, fun e hok => panics_eq_false hs hheld hok⟩
  have hpos := hs.accounts.outstanding_pos ha
  exact ⟨(hheld.each a.ptr).issuing hpos, (hheld.each a.ptr).alive hpos⟩

/-! ### A split store-conditional -/

/-- A store-conditional of 8 bytes across a line. The end of the second translation sends its
first packet. -/
def splitConditional : List Event :=
  [.call (smallPush 1 false LvptOut.zero 0x10c 8 0xbb
      { noFlags with llsc := true }),
    .call (smallTranslation 1 0 0x10c), .call (smallTranslation 1 0 0x110)]

/-- The next call asks `handleLockedWrite` again. -/
def askAgain (answer : Bool) : CallEnv :=
  { smallCall 1 with env := { (smallCall 1).env with lockedWrite := answer } }

/-- The answer is yes, and both packets are in the memory system. -/
theorem no_panic_in_every_state_splitConditional :
    ∃ s, Lib.run step (new smallParams fun _ => 1)
        (splitConditional ++ [.call (.step (askAgain true))]) = some s ∧
      s.sys.lsq.dcachePort.inMemory.length = 2 ∧ ∀ k call,
        s.mayPanic (.call (.recvTimingResp k call)) = false →
        s.panics (.call (.recvTimingResp k call)) = false := by
  obtain ⟨s, hrun, hlen⟩ : ∃ s ∈ run step (new smallParams fun _ => 1)
      (splitConditional ++ [.call (.step (askAgain true))]),
      s.sys.lsq.dcachePort.inMemory.length = 2 := by
    decide +kernel
  have h := no_panic_in_every_state smallParams _ _ hrun (by decide +kernel)
  exact ⟨s, hrun, hlen, fun k call hok => h.2.2 _ hok⟩

/-- The answer is no. The store-conditional is complete with a packet in the memory system, and
the response to the packet panics. -/
theorem conditional_given_up_panics :
    ∃ s, Lib.run step (new smallParams fun _ => 1)
        (splitConditional ++ [.call (.step (askAgain false)),
          .call (.perform 0 (fun _ => 0) true)]) = some s ∧
      (∃ a, s.sys.lsq.dcachePort.inMemory = [a] ∧ (s.sys.lsq.heap a.ptr).state = .complete) ∧
      ∀ call, s.panics (.call (.recvTimingResp 0 call)) = true := by
  obtain ⟨s, hrun, hlen, hstate⟩ : ∃ s ∈ run step (new smallParams fun _ => 1)
      (splitConditional ++ [.call (.step (askAgain false)), .call (.perform 0 (fun _ => 0) true)]),
      s.sys.lsq.dcachePort.inMemory.length = 1 ∧
        ∀ a ∈ s.sys.lsq.dcachePort.inMemory, (s.sys.lsq.heap a.ptr).state = .complete := by
    decide +kernel
  obtain ⟨a, ha⟩ := length_eq_one_iff.mp hlen
  have hstate := hstate a (by simp [ha])
  refine ⟨s, hrun, ⟨a, ha, hstate⟩, fun call => ?_⟩
  simp [panics, ha, hstate, LSQ.awaitsResponse]

end FaultyLSQ

end Gem5.MyMinor
