import Gem5.Lib.Count
import Gem5.Proofs.MyMinor.LSQStep
import Gem5.Proofs.MyMinor.PacketCount

/-!
# `Gem5.Proofs.MyMinor.LSQLedger`: the account of the LSQ

`LSQ.Ledger` is the account of the whole LSQ. Each request has as many packets in the memory
system as it says, and three of the four counters of the LSQ are what they count. The limit on
the packets in the memory system holds, and while a packet waits for a retry the limit is not
reached. `LSQ.NoneSent` says that a single request leaves `requests` with its packet.

`FaultyLSQ.Outcome` says once what each event does to the LSQ. Every event keeps the account,
with or without error responses, and `FaultyLSQ.sound_run` is the run lemma.
-/

namespace Gem5.MyMinor

open Function List LSQRequest Lib
open Option (map_eq_some_iff ite_none_left_eq_some ite_none_right_eq_some)
open MemAccess (ptr)

/-! ### The account of the LSQ -/

namespace LSQ

/-- The account of the packets in the memory system and of the queues. -/
structure Ledger (l : LSQ) : Prop where
  request : ∀ q, (l.heap q).Counted
  inFlight : ∀ q, (l.dcachePort.inMemory.map MemAccess.ptr).count q = (l.heap q).outstanding
  inMemory : l.numAccessesInMemorySystem = l.dcachePort.inMemory.length
  limit : l.numAccessesInMemorySystem ≤ l.inMemorySystemLimit
  room : l.state = .memoryNeedsRetry → l.numAccessesInMemorySystem < l.inMemorySystemLimit
  stores : l.numStoresInTransfers = l.transfers.countP fun q => !(l.heap q).isLoad
  issued : l.numAccessesIssuedToMemory
    = (l.requests ++ l.transfers).countP fun q => (l.heap q).issuedToMemory

section
variable {l : LSQ} {p : Nat} {rest : List Nat} {a : MemAccess} {port : DcachePort} {l' : LSQ}

/-- A packet in the memory system belongs to a request that has one there. -/
theorem Ledger.outstanding_pos (h : l.Ledger) (ha : a ∈ l.dcachePort.inMemory) :
    0 < (l.heap a.ptr).outstanding := by
  rw [← h.inFlight, count_pos_iff]
  exact mem_map.mpr ⟨a, ha, rfl⟩

variable (f : LSQRequest → LSQRequest)

/-- The heap after a change of one request. -/
theorem modify_heap_self : (l.modify p f).heap p = f (l.heap p) := by
  simp [modify]

theorem modify_heap_of_ne {q : Nat} (h : q ≠ p) : (l.modify p f).heap q = l.heap q := by
  simp [modify, h]

variable {r : LSQRequest}

section
variable (h : l.Ledger)
include h

/-- One request changes, and with it the packets in the memory system and the accesses that
are marked as issued. -/
theorem Ledger.update {n issued : Nat} {state : MemoryState} (hr : r.Counted)
    (hself : (port.inMemory.map ptr).count p = r.outstanding)
    (hothers : ∀ q ≠ p, (port.inMemory.map ptr).count q
      = (l.dcachePort.inMemory.map ptr).count q) (hn : n = port.inMemory.length)
    (hlimit : n ≤ l.inMemorySystemLimit)
    (hroom : state = .memoryNeedsRetry → n < l.inMemorySystemLimit)
    (hload : r.isLoad = (l.heap p).isLoad)
    (hissued : issued = (l.requests ++ l.transfers).countP
      fun q => (Function.update l.heap p r q).issuedToMemory) :
    Ledger { l with
      heap := Function.update l.heap p r
      numAccessesInMemorySystem := n
      numAccessesIssuedToMemory := issued
      dcachePort := port
      state := state } where
  request := by
    intro q
    by_cases hq : q = p
    · simp only [hq, update_self]
      exact hr
    · simp only [update_of_ne hq]
      exact h.request q
  inFlight := by
    intro q
    by_cases hq : q = p
    · simp only [hq, update_self]
      exact hself
    · simp only [update_of_ne hq]
      rw [hothers q hq]
      exact h.inFlight q
  inMemory := hn
  limit := hlimit
  room := hroom
  stores := by
    rw [show l.numStoresInTransfers = _ from h.stores]
    exact (countP_update_of_eq l.heap (fun r => !r.isLoad) (by simp [hload]) _).symm
  issued := hissued

/-- A change that sends and retires nothing. -/
theorem Ledger.modify {f : LSQRequest → LSQRequest} (hr : (f (l.heap p)).Counted)
    (hout : (f (l.heap p)).outstanding = (l.heap p).outstanding)
    (hload : (f (l.heap p)).isLoad = (l.heap p).isLoad)
    (hissued : (f (l.heap p)).issuedToMemory = (l.heap p).issuedToMemory) : (l.modify p f).Ledger :=
  h.update hr ((h.inFlight p).trans hout.symm) (fun _ _ => rfl) h.inMemory h.limit h.room hload
    (h.issued.trans (countP_update_of_eq l.heap (fun r => r.issuedToMemory) hissued _).symm)

/-- The front of `requests` goes to `transfers`. -/
theorem Ledger.move (hfront : l.requests = p :: rest) : (l.moveFromRequestsToTransfers p).Ledger :=
  { h with
    stores := by
      show (if (l.heap p).isLoad then l.numStoresInTransfers else l.numStoresInTransfers + 1)
        = (l.transfers ++ [p]).countP fun q => !(l.heap q).isLoad
      rw [countP_append, ← h.stores, countP_singleton]
      cases (l.heap p).isLoad <;> rfl
    issued := by
      show l.numAccessesIssuedToMemory
        = (l.requests.tail ++ (l.transfers ++ [p])).countP fun q => (l.heap q).issuedToMemory
      rw [h.issued, hfront]
      simp only [tail_cons, cons_append, countP_cons, countP_append, countP_nil]
      omega }

/-- The front of `transfers` leaves it. -/
theorem Ledger.pop (hfront : l.transfers = p :: rest) : (l.popResponse p).Ledger :=
  { h with
    stores := by
      show (if (l.heap p).isLoad then l.numStoresInTransfers else l.numStoresInTransfers - 1)
        = l.transfers.tail.countP fun q => !(l.heap q).isLoad
      rw [h.stores, hfront, countP_cons]
      cases (l.heap p).isLoad <;> simp
    issued := by
      show (if (l.heap p).issuedToMemory then l.numAccessesIssuedToMemory - 1
          else l.numAccessesIssuedToMemory)
        = (l.requests ++ l.transfers.tail).countP fun q => (l.heap q).issuedToMemory
      rw [h.issued, hfront, tail_cons, countP_append, countP_cons]
      cases (l.heap p).issuedToMemory <;> simp }

/-- An access that an interrupt must not discard. -/
theorem Ledger.markIssued (hnodup : (l.requests ++ l.transfers).Nodup)
    (hp : p ∈ l.requests) : (l.markIssued p).Ledger := by
  unfold LSQ.markIssued
  split
  · rename_i hmark
    simp only [Bool.and_eq_true, Bool.not_eq_true'] at hmark
    have hcount := countP_update_add l.heap (b := { l.heap p with issuedToMemory := true })
      (fun r => r.issuedToMemory) hnodup (mem_append_left _ hp)
    refine h.update { h.request p with } (h.inFlight p) (fun _ _ => rfl) h.inMemory h.limit
      h.room rfl ?_
    rw [h.issued]
    simpa [hmark.2] using hcount.symm
  · exact h

/-- A packet goes to the memory system. -/
theorem Ledger.send {packet : Packet} (hport : l.dcachePort.sendTimingReq p packet = some port)
    (hroom : l.numAccessesInMemorySystem < l.inMemorySystemLimit) (hr : r.Counted)
    (hout : r.outstanding = (l.heap p).outstanding + 1) (hload : r.isLoad = (l.heap p).isLoad)
    (hissued : r.issuedToMemory = (l.heap p).issuedToMemory) :
    Ledger { l with
      heap := Function.update l.heap p r
      numAccessesInMemorySystem := l.numAccessesInMemorySystem + 1
      dcachePort := port
      state := .memoryRunning } := by
  have hmem := LSQSystem.inMemory_sendTimingReq hport
  refine h.update hr ?_ ?_ ?_ hroom (by simp) hload (h.issued.trans
    (countP_update_of_eq l.heap (fun r => r.issuedToMemory) hissued _).symm)
  · rw [hmem, hout, ← h.inFlight p]
    simp
  · intro q hq
    rw [hmem, map_append]
    simp [Ne.symm hq]
  · rw [hmem, h.inMemory]
    simp

/-- A packet leaves the memory system. -/
theorem Ledger.retire {k : Nat} {skipped : Bool} (ha : l.dcachePort.inMemory[k]? = some a)
    (hretires : LSQRequest.Retires skipped (l.heap a.ptr) r) :
    Ledger { l with
      heap := Function.update l.heap a.ptr r
      numAccessesInMemorySystem := l.numAccessesInMemorySystem - 1
      dcachePort := { l.dcachePort with inMemory := l.dcachePort.inMemory.eraseIdx k } } := by
  have hcount := fun q => count_map_eraseIdx_add ptr ha q
  have hlt := (List.getElem?_eq_some_iff.mp ha).1
  have hpos : 0 < (l.heap a.ptr).outstanding := by
    have hself := hcount a.ptr
    rw [h.inFlight, if_pos rfl] at hself
    omega
  have hnum := h.inMemory
  have hlimit := h.limit
  obtain ⟨hr, hout⟩ := (h.request a.ptr).retire hpos hretires
  refine h.update hr ?_ ?_ ?_ ?_ ?_ hretires.same.isLoad (h.issued.trans
    (countP_update_of_eq l.heap (fun r => r.issuedToMemory) hretires.issuedToMemory _).symm)
  · have hself := hcount a.ptr
    rw [h.inFlight, if_pos rfl] at hself
    show ((l.dcachePort.inMemory.eraseIdx k).map ptr).count a.ptr = _
    omega
  · intro q hq
    simpa [Ne.symm hq] using hcount q
  · rw [List.length_eraseIdx_of_lt hlt, hnum]
  · omega
  · intro hs
    omega

/-- A new request, in `requests` or in the store buffer. -/
theorem Ledger.alloc {requests slots : List Nat} {unissued : Nat} (hr : r.Counted)
    (hout : r.outstanding = 0) (hissued : r.issuedToMemory = false)
    (howned : ∀ a ∈ l.dcachePort.inMemory, a.ptr < l.nextPtr)
    (hfresh : ∀ q ∈ l.requests ++ l.transfers, q < l.nextPtr)
    (hrequests : requests = l.requests ∨ requests = l.requests ++ [l.nextPtr]) :
    Ledger { l.alloc r with
      requests := requests, slots := slots, numUnissuedAccesses := unissued } := by
  have hnone : (l.dcachePort.inMemory.map ptr).count l.nextPtr = 0 := by
    rw [count_eq_zero]
    intro hmem
    obtain ⟨a, ha, hptr⟩ := mem_map.mp hmem
    exact absurd (howned a ha) (by omega)
  have hnot : l.nextPtr ∉ l.requests ++ l.transfers := fun hmem =>
    Nat.lt_irrefl _ (hfresh _ hmem)
  simp only [mem_append, not_or] at hnot
  have hcount := fun f : LSQRequest → Bool =>
    countP_update_of_not_mem l.heap (b := r) f (fun hmem => hnot.1 hmem)
  have hcount' := fun f : LSQRequest → Bool =>
    countP_update_of_not_mem l.heap (b := r) f (fun hmem => hnot.2 hmem)
  exact
    { h with
      request := by
        intro q
        by_cases hq : q = l.nextPtr
        · simp only [hq, LSQ.alloc, update_self]
          exact hr
        · simp only [LSQ.alloc, update_of_ne hq]
          exact h.request q
      inFlight := by
        intro q
        by_cases hq : q = l.nextPtr
        · simp only [hq, LSQ.alloc, update_self]
          exact hnone.trans hout.symm
        · simp only [LSQ.alloc, update_of_ne hq]
          exact h.inFlight q
      stores := h.stores.trans (hcount' fun r => !r.isLoad).symm
      issued := by
        show l.numAccessesIssuedToMemory = (requests ++ l.transfers).countP
          fun q => (Function.update l.heap l.nextPtr r q).issuedToMemory
        rw [h.issued, countP_append, countP_append, hcount' fun r => r.issuedToMemory]
        rcases hrequests with rfl | rfl
        · rw [hcount fun r => r.issuedToMemory]
        · rw [countP_append, hcount fun r => r.issuedToMemory]
          simp [hissued] }

end

/-- The single requests of `requests` have not sent their packet. -/
def NoneSent (l : LSQ) : Prop :=
  ∀ q ∈ l.requests, (l.heap q).kind = .singleData → (l.heap q).packetSent = false

/-- A change of one request, which may leave `requests`. -/
theorem NoneSent.frame (h : l.NoneSent) (hsub : ∀ q ∈ l'.requests, q ∈ l.requests)
    (hheap : ∀ q ∈ l'.requests, q ≠ p → l'.heap q = l.heap q)
    (hp : p ∈ l'.requests → (l'.heap p).kind = .singleData → (l'.heap p).packetSent = false) :
    l'.NoneSent := by
  intro q hq hkind
  by_cases hqp : q = p
  · subst hqp
    exact hp hq hkind
  · rw [hheap q hq hqp] at hkind ⊢
    exact h q (hsub q hq) hkind

/-- A request changes in place. -/
theorem NoneSent.put (h : l.NoneSent) (hheap : l'.heap = Function.update l.heap p r)
    (hrequests : l'.requests = l.requests)
    (hr : p ∈ l.requests → r.kind = .singleData → r.packetSent = false) : l'.NoneSent := by
  refine h.frame (p := p) (fun q hq => hrequests ▸ hq) (fun q _ hq => ?_) fun hp => ?_
  · rw [hheap, update_of_ne hq]
  · rw [hheap, update_self]
    exact hr (hrequests ▸ hp)

/-- The outcomes of `tryToSend` keep the account. A single request whose packet is not sent
then has not sent it before. -/
theorem Ledger.tryToSend (h : l.Ledger) {env : LSQEnv} {sent : Bool}
    (hunsent : (l.heap p).kind = .singleData → (l.heap p).packetSent = false)
    (hfault : (l.heap p).request.localAccess = true ∨ (l.heap p).state ≠ .complete →
      (l.heap p).translationFault = none)
    (hdirect : (l.heap p).state = .translated → (l.heap p).isLoad = false →
      (l.heap p).request.bufferable = false ∨ (l.heap p).request.localAccess = true)
    (htry : l.tryToSend env p = some (l', sent)) :
    l'.Ledger ∧ (sent = false → (l'.heap p).kind = .singleData →
      (l'.heap p).packetSent = false) := by
  rcases LSQSystem.tryToSend_cases htry with ⟨rfl, rfl, -⟩ | ⟨hcan, packet, hpacket, hcases⟩
  · exact ⟨h, fun _ => hunsent⟩
  have hcan' : l.state = .memoryRunning ∧ l.numAccessesInMemorySystem < l.inMemorySystemLimit := by
    simpa [canSendToMemorySystem] using hcan
  obtain ⟨hrunning, hroom⟩ := hcan'
  rcases hcases with ⟨hlocal, hl⟩ | ⟨hlocal, port, state, hport, hissue, rfl, rfl⟩ |
    ⟨hlocal, state, hretry, rfl, rfl⟩
  · -- A local access. It is complete, or has packets to go.
    obtain ⟨rfl, rfl⟩ := hl
    obtain ⟨hacc, hout, hstate, hissued⟩ := (h.request p).accessLocally (env.localAccessor packet)
    obtain ⟨hsame, hrequest, hfaults⟩ := (l.heap p).accessLocally_frame (env.localAccessor packet)
    obtain ⟨packet', hpacket'⟩ := getHeadPacket_accessLocally hpacket (env.localAccessor packet)
    generalize haccessed : accessLocally (l.heap p) (env.localAccessor packet) = accessed at *
    obtain ⟨hsame', hrequest', -⟩ := accessed.stepToNextPacket_frame
    have hr : (accessed.stepToNextPacket.setState
        (if accessed.stepToNextPacket.sentAllPackets then .complete
          else .requestIssuing)).Counted :=
      hacc.stepToNextPacket hpacket' (hfaults.trans (hfault (.inl hlocal)))
        (by split <;> simp) (fun _ _ => .inr (by rw [hrequest]; exact hlocal))
    refine ⟨h.modify hr ?_ ?_ ?_, ?_⟩
    · rw [outstanding_of_local hlocal]
      apply outstanding_of_local
      show accessed.stepToNextPacket.request.localAccess = true
      rw [hrequest', hrequest]
      exact hlocal
    · exact hsame'.isLoad.trans hsame.isLoad
    · exact (accessed.issuedToMemory_stepToNextPacket).trans hissued
    · intro hsent hkind
      rw [modify_heap_self] at hkind
      have hkind' : accessed.kind = .singleData := hsame'.kind.symm.trans hkind
      rw [sentAllPackets_stepToNextPacket hkind'] at hsent
      cases hsent
  · -- The port takes the packet.
    obtain ⟨hsame, -⟩ := (l.heap p).stepToNextPacket_frame
    have hstates : (state = .requestIssuing ∧
        ((l.heap p).state = .translated ∨ (l.heap p).state = .requestIssuing)) ∨
        state = .storeBufferIssuing := by
      unfold issuingState at hissue
      split at hissue <;> simp_all
    have hne : (l.heap p).state ≠ .complete := by
      intro hs
      simp [hs, issuingState] at hissue
    have hr : ((l.heap p).stepToNextPacket.setState state).Counted :=
      (h.request p).stepToNextPacket hpacket (hfault (.inr hne)) (by tauto) (by
        intro hs hload
        rcases hstates with ⟨-, hold | hold⟩ | hslot
        · exact hdirect hold hload
        · exact (h.request p).direct (.inl hold) hload
        · rw [hslot] at hs
          cases hs)
    have hledger := h.send hport hroom hr
      ((h.request p).outstanding_stepToNextPacket hpacket hlocal hunsent) hsame.isLoad
      (l.heap p).issuedToMemory_stepToNextPacket
    rw [← hrunning] at hledger
    refine ⟨hledger, fun hsent hkind => ?_⟩
    have hkind' : (l.heap p).kind = .singleData := by
      have hself : ((l.modify p fun r => r.stepToNextPacket.setState state).heap p).kind
          = (l.heap p).kind := by
        rw [modify_heap_self]
        exact hsame.kind
      exact hself.symm.trans hkind
    rw [sentAllPackets_stepToNextPacket hkind'] at hsent
    cases hsent
  · -- The port refuses the packet.
    have hne : (l.heap p).state ≠ .complete := by
      intro hs
      simp [hs, retryState] at hretry
    have hr := (h.request p).refuse hpacket hretry hunsent hdirect (hfault (.inr hne))
    refine ⟨{ h.modify (f := fun r => r.setState state) hr rfl rfl rfl with
      room := fun _ => hroom }, fun _ hkind => ?_⟩
    have hself : (l.modify p fun r => r.setState state).heap p = (l.heap p).setState state :=
      modify_heap_self _
    have hkind' : ((l.modify p fun r => r.setState state).heap p).kind = .singleData := hkind
    show ((l.modify p fun r => r.setState state).heap p).packetSent = false
    rw [hself] at hkind' ⊢
    exact hunsent hkind'

end

end LSQ

/-! ### Each call keeps the account -/

namespace LSQSystem

section
variable {s : LSQSystem} {l l' : LSQ} {env : LSQEnv} {p : Nat} {rest : List Nat}

/-- The account and the unsent requests, which every call keeps together. -/
structure Accounts (l : LSQ) : Prop extends l.Ledger where
  noneSent : l.NoneSent

/-- No request is twice in the queues. -/
theorem nodup_queues (hwf : (s.viewOf l).WF) : (l.requests ++ l.transfers).Nodup := by
  have hnodup : ((l.transfers ++ l.requests) ++ l.slots).Nodup := hwf.nodup
  exact nodup_append_comm.mp (nodup_append.mp hnodup).1

/-- The front of `requests` is not behind itself. -/
theorem not_mem_rest (hwf : (s.viewOf l).WF) (hfront : l.requests = p :: rest) : p ∉ rest := by
  have hnodup := (nodup_append.mp (nodup_queues hwf)).1
  rw [hfront] at hnodup
  exact (nodup_cons.mp hnodup).1

variable {sent : Bool} {r : LSQRequest} {a : MemAccess} {k : Nat}

variable {f : LSQRequest → LSQRequest} {skipped : Bool}

/-- The front of `requests` leaves it. -/
theorem noneSent_leave (h : l.NoneSent) (hwf : (s.viewOf l).WF) (hfront : l.requests = p :: rest)
    (hrest : l'.requests = rest) (hheap : ∀ q ≠ p, l'.heap q = l.heap q) : l'.NoneSent := by
  refine h.frame (p := p) ?_ (fun q _ => hheap q) ?_ <;> rw [hrest]
  · intro q hq
    rw [hfront]
    exact mem_cons_of_mem p hq
  · intro hp
    exact absurd hp (not_mem_rest hwf hfront)

/-- The front of `requests` goes to `transfers` without a packet being sent. -/
theorem Accounts.leave (h : Accounts l) (hwf : (s.viewOf l).WF) (hfront : l.requests = p :: rest)
    (hr : (f (l.heap p)).Counted) (hout : (f (l.heap p)).outstanding = (l.heap p).outstanding)
    (hload : (f (l.heap p)).isLoad = (l.heap p).isLoad)
    (hissued : (f (l.heap p)).issuedToMemory = (l.heap p).issuedToMemory) :
    Accounts ((l.modify p f).moveFromRequestsToTransfers p) where
  toLedger := (h.toLedger.modify hr hout hload hissued).move hfront
  noneSent := noneSent_leave h.noneSent hwf hfront (requests_moveFromRequests hfront)
    fun _ hq => LSQ.modify_heap_of_ne f hq

/-- The request of a front that goes to `transfers` or to the memory system. -/
theorem state_of_canTransfer (hwf : (s.viewOf l).WF) (hcan : (s.viewOf l).CanTransfer p rest) :
    (l.heap p).state = .translated ∨ (l.heap p).state = .requestIssuing ∨
      (l.heap p).state = .requestNeedsRetry := by
  have hreq : InRequests (l.heap p).state := hwf.requests p hcan.mem
  have htranslated : (l.heap p).state ≠ .inTranslation := hcan.translated
  have hcomplete : (l.heap p).state ≠ .complete := hcan.notComplete
  have hfailed : (l.heap p).state ≠ .failed := hcan.notFailed
  cases hs : (l.heap p).state <;> simp_all [InRequests]

/-- A store that goes to the store buffer has not been tried to be sent. -/
theorem translated_of_bufferable (h : (l.heap p).Counted)
    (hwf : (s.viewOf l).WF) (hcan : (s.viewOf l).CanTransfer p rest)
    (hload : (l.heap p).isLoad = false) (hbuf : (l.heap p).request.bufferable = true)
    (hlocal : (l.heap p).request.localAccess = false) : (l.heap p).state = .translated := by
  rcases state_of_canTransfer hwf hcan with hs | hs | hs
  · exact hs
  · have := h.direct (.inl hs) hload
    simp [hbuf, hlocal] at this
  · have := h.direct (.inr hs) hload
    simp [hbuf, hlocal] at this

/-- The account of the accesses that are marked. -/
theorem Accounts.markIssued (h : Accounts l) (hwf : (s.viewOf l).WF) (hp : p ∈ l.requests) :
    Accounts (l.markIssued p) where
  toLedger := h.toLedger.markIssued (nodup_queues hwf) hp
  noneSent := by
    unfold LSQ.markIssued
    split
    · exact h.noneSent.put rfl rfl (h.noneSent p)
    · exact h.noneSent

/-- `tryToSendToTransfers` keeps the account. -/
theorem Accounts.transfer (h : Accounts l) (hwf : (s.viewOf l).WF)
    (ht : Transfer s env l p l') : Accounts l' := by
  have hretired := (h.request p).retired
  cases ht with
  | wait => exact h
  | skip rest hfront =>
    exact h.leave hwf hfront
      ((h.request p).update rfl rfl id rfl hretired rfl rfl (.inl rfl)) rfl rfl rfl
  | toStoreBuffer rest hcan hload hbuf hlocal =>
    have hcounted := h.request p
    have hstate := translated_of_bufferable hcounted hwf hcan hload hbuf hlocal
    exact h.leave hwf hcan.front
      (hcounted.toStoreBuffer (by rw [hstate]; rfl) (by rw [hstate]; simp) hcan.noFault
        (.inl rfl)) rfl rfl rfl
  | forward rest slot packet hcan | failConditional rest hcan =>
    exact h.leave hwf hcan.front
      ((h.request p).update rfl rfl id rfl hretired rfl rfl (.inl rfl)) rfl rfl rfl
  | send rest l₁ sent hsend hroom htry =>
    have hfront : l.requests = p :: rest := hsend.front
    have hp : p ∈ l.requests := hsend.mem
    have hmark := h.markIssued hwf hp
    obtain ⟨hquiet, hsend'⟩ := markIssued_quiet hwf hsend
    have hqueue := (markIssued_queues (l := l) (p := p)).1
    obtain ⟨hledger, hnone⟩ := hmark.tryToSend (hmark.noneSent p (by rw [hqueue]; exact hp))
      (fun _ => hsend'.noFault) (fun _ hload => hsend'.store hload) htry
    obtain ⟨⟨hreq, -, -⟩, -, hheap⟩ := tryToSend_frame htry
    have hfront' : l₁.requests = p :: rest := hreq.trans (hqueue.trans hfront)
    cases sent with
    | true =>
      exact ⟨hledger.move hfront', noneSent_leave hmark.noneSent (hquiet.wf hwf)
        (hqueue.trans hfront) (requests_moveFromRequests hfront') hheap⟩
    | false =>
      exact ⟨hledger, hmark.noneSent.frame (fun q hq => hreq ▸ hq)
        (fun q _ hq => hheap q hq) fun _ => hnone rfl⟩

/-- A complete slot sends nothing. -/
theorem tryToSend_of_complete (hlocal : (l.heap p).request.localAccess = false)
    (hs : (l.heap p).state = .complete) (h : l.tryToSend env p = some (l', sent)) :
    l' = l ∧ sent = false := by
  rcases tryToSend_cases h with ⟨rfl, rfl, -⟩ | ⟨-, packet, -, hcases⟩
  · exact ⟨rfl, rfl⟩
  rcases hcases with ⟨hl, -⟩ | ⟨-, port, state, -, hstate, -⟩ | ⟨-, state, hstate, -⟩
  · cases hlocal.symm.trans hl
  · simp [hs, LSQ.issuingState] at hstate
  · simp [hs, LSQ.retryState] at hstate

/-- `StoreBuffer::step` keeps the account. -/
theorem Accounts.drain (h : Accounts l) (hwf : (s.viewOf l).WF) (hd : Drain env l l') :
    Accounts l' := by
  cases hd with
  | clearBarrier p =>
    obtain ⟨barrier, hclear⟩ := clearMemBarrier_eq l (l.heap p).inst
    rw [hclear]
    exact { h with }
  | slotSend l₁ p older younger sent hslots holder hopen htry =>
    have hp : p ∈ l.slots := by simp [hslots]
    have hslot : InSlots (l.heap p) := hwf.slots p hp
    have hnreq : p ∉ l.requests := (hwf.not_mem_of_slot hp).1
    by_cases hs : (l.heap p).state = .complete
    · obtain ⟨rfl, rfl⟩ := tryToSend_of_complete hslot.2 hs htry
      exact h
    have hcounted := h.request p
    have hstates : (l.heap p).state ≠ .requestIssuing ∧ (l.heap p).state ≠ .translated := by
      rcases hslot.1 with hs' | hs' | hs' | hs' <;> simp [hs']
    obtain ⟨hledger, -⟩ := h.tryToSend (fun hkind => by
        cases hsent : (l.heap p).packetSent with
        | false => rfl
        | true =>
          rcases hcounted.sent hkind hsent with hs' | hs' | hs'
          · exact absurd hs' hstates.1
          · simp [hs', sentAllPackets, hkind, hsent] at hopen
          · exact absurd hs' hs)
      (fun _ => by
        by_contra hfault
        rcases hcounted.fault hfault with hs' | hs'
        · exact hstates.2 hs'
        · exact hs hs')
      (fun hs' => absurd hs' hstates.2) htry
    have hnone : l₁.NoneSent := by
      obtain ⟨⟨hreq, -, -⟩, -, hheap⟩ := tryToSend_frame htry
      exact h.noneSent.frame (fun q hq => hreq ▸ hq)
        (fun q _ hq => hheap q hq) fun hp' => absurd (hreq ▸ hp') hnreq
    cases sent with
    | true =>
      obtain ⟨n, hcount⟩ := countIssuedStore_eq l₁ p
      rw [if_pos rfl, hcount]
      exact ⟨{ hledger with }, hnone⟩
    | false => exact ⟨hledger, hnone⟩

/-- The loop over the slots never sends a slot for which `bad` is true, when `bad` is false in
every state that the drain steps can reach. -/
theorem issueStoresReach_eq_false {bad : LSQ → Nat → Bool} {P : LSQ → Prop}
    (hdrain : ∀ l l', (s.viewOf l).WF → P l → Drain env l l' → P l')
    (hbad : ∀ l p, (s.viewOf l).WF → P l → l.canSendToMemorySystem = true → p ∈ l.slots →
      ¬((l.heap p).isBarrier && (l.heap p).isComplete) = true →
      ¬((l.heap p).state == .storeBufferIssuing && (l.heap p).sentAllPackets) = true →
      bad l p = false) (slots : List Nat) :
    ∀ {limit : Nat} {older : List Nat} {l : LSQ}, (s.viewOf l).WF → P l →
      l.slots = older ++ slots → (∀ q ∈ older, (l.heap q).sentAllPackets = true) →
      LSQ.issueStoresReach bad env limit slots l = false := by
  induction slots with
  | nil => intros; rfl
  | cons p rest ih =>
    intro limit older l hwf hP hslots holder
    unfold LSQ.issueStoresReach
    split
    · rfl
    rename_i hlimit
    split
    · rfl
    rename_i hbarrier
    split
    · rename_i hsent
      simp only [Bool.and_eq_true] at hsent
      have hslots' : l.slots = older ++ [p] ++ rest := by simp [hslots]
      exact ih hwf hP hslots' (forall_mem_append.mpr ⟨holder, by simpa using hsent.2⟩)
    · rename_i hopen
      simp only [Bool.or_eq_true, not_or, Bool.not_eq_true', Bool.not_eq_false] at hlimit
      have hp : p ∈ l.slots := by simp [hslots]
      rw [hbad l p hwf hP hlimit.2 hp hbarrier hopen]
      split
      · rename_i l₁ htry
        obtain ⟨hstep, hwf₁, hslots₁, holder₁⟩ := slotSend_next hwf hslots holder hopen htry
        exact ih hwf₁ (hdrain _ _ hwf hP hstep) hslots₁ holder₁
      · rfl

/-! ### Retries -/

/-- A request that waits for a retry is sent. -/
theorem Accounts.resent (h : Accounts l) {packet : Packet} {port : DcachePort}
    {after : LSQRequestState} (hwaiting : l.state = .memoryNeedsRetry)
    (hstate : (l.heap p).state = .requestNeedsRetry ∧ after = .requestIssuing ∨
      (l.heap p).state = .storeBufferNeedsRetry ∧ after = .storeBufferIssuing)
    (hlocal : (l.heap p).request.localAccess = false)
    (hpacket : (l.heap p).getHeadPacket = some packet)
    (hport : l.dcachePort.sendTimingReq p packet = some port) : (resent l p after port).Ledger := by
  have hcounted := h.request p
  have hunsent := hcounted.not_sent (by rcases hstate with ⟨hs, -⟩ | ⟨hs, -⟩ <;> simp [hs])
  have hfault : (l.heap p).translationFault = none := by
    by_contra hne
    rcases hcounted.fault hne with hs | hs <;>
      rcases hstate with ⟨hs', -⟩ | ⟨hs', -⟩ <;> rw [hs'] at hs <;> cases hs
  have hr : ((l.heap p).stepToNextPacket.setState after).Counted :=
    hcounted.stepToNextPacket hpacket hfault (by tauto) (by
      intro hafter hload
      rcases hstate with ⟨hs, -⟩ | ⟨-, hs⟩
      · exact hcounted.direct (.inr hs) hload
      · rw [hs] at hafter
        cases hafter)
  exact h.send hport (h.room hwaiting) hr
    (hcounted.outstanding_stepToNextPacket hpacket hlocal hunsent)
    (l.heap p).stepToNextPacket_frame.1.isLoad (l.heap p).issuedToMemory_stepToNextPacket

/-- `recvReqRetry` keeps the account. -/
theorem Accounts.retry (h : Accounts l) (hwf : (s.viewOf l).WF) (hr : Retry l l') :
    Accounts l' := by
  cases hr with
  | refused => exact h
  | request p rest packet port hwaiting hretry hstate hfront hlocal hpacket hport =>
    have hledger := h.resent hwaiting (.inl ⟨hstate, rfl⟩) hlocal hpacket hport
    split
    · exact ⟨{ hledger.move hfront with }, noneSent_leave h.noneSent hwf hfront
        (requests_moveFromRequests hfront) fun q hq => update_of_ne hq _ _⟩
    · rename_i hall
      refine ⟨hledger, h.noneSent.put rfl rfl fun _ hkind => ?_⟩
      have hkind' := (l.heap p).stepToNextPacket_frame.1.kind.symm.trans hkind
      exact absurd (sentAllPackets_stepToNextPacket hkind') hall
  | slot p packet port hwaiting hretry hstate hp hlocal hpacket hport =>
    have hledger := h.resent hwaiting (.inr ⟨hstate, rfl⟩) hlocal hpacket hport
    have hnone : (LSQSystem.resent l p .storeBufferIssuing port).NoneSent :=
      h.noneSent.put rfl rfl fun hp' => absurd hp' (hwf.not_mem_of_slot hp).1
    split
    · obtain ⟨n, hcount⟩ := countIssuedStore_eq (LSQSystem.resent l p .storeBufferIssuing port) p
      rw [hcount]
      exact ⟨{ hledger with }, hnone⟩
    · exact ⟨hledger, hnone⟩

/-! ### Responses -/

/-- The LSQ after the response to the packet `k`. -/
def responded (l : LSQ) (k : Nat) (a : MemAccess) (r : LSQRequest) (slots : List Nat) : LSQ :=
  { l with
    heap := Function.update l.heap a.ptr r
    numAccessesInMemorySystem := l.numAccessesInMemorySystem - 1
    dcachePort := { l.dcachePort with inMemory := l.dcachePort.inMemory.eraseIdx k }
    slots := slots }

/-- The slots after a response. A slot that is complete leaves, unless it is a barrier. -/
def slotsAfter (l : LSQ) (p : Nat) (r : LSQRequest) : List Nat :=
  match (l.heap p).state with
  | .storeBufferIssuing | .storeBufferNeedsRetry =>
    if r.isComplete && !r.isBarrier then l.slots.erase p else l.slots
  | _ => l.slots

theorem slotsAfter_cases (l : LSQ) (p : Nat) (r : LSQRequest) :
    let issued := (l.heap p).state = .storeBufferIssuing ∨ (l.heap p).state = .storeBufferNeedsRetry
    (slotsAfter l p r = l.slots ∧ (issued → (r.isComplete && !r.isBarrier) = false)) ∨
      (slotsAfter l p r = l.slots.erase p ∧ issued ∧ (r.isComplete && !r.isBarrier) = true) := by
  unfold slotsAfter
  cases hdone : r.isComplete && !r.isBarrier <;> split <;> simp_all

/-- What a response does, when it does not panic. -/
theorem recvRespWith_eq {retire : LSQRequest → LSQRequest}
    (h : (takeResponse l k).recvRespWith retire a = some l') :
    LSQ.awaitsResponse (l.heap a.ptr).state = true ∧
      l' = responded l k a (retire (l.heap a.ptr)) (slotsAfter l a.ptr (retire (l.heap a.ptr))) := by
  have hself : ((takeResponse l k).modify a.ptr retire).heap a.ptr = retire (l.heap a.ptr) :=
    LSQ.modify_heap_self _
  unfold LSQ.recvRespWith at h
  dsimp only [LSQ.modify, takeResponse] at h hself
  simp only [hself] at h
  unfold slotsAfter
  split at h
  -- a request of the queue, of the store buffer, and the panic
  iterate 2
    · rename_i hs
      cases h
      simp [hs, LSQ.awaitsResponse, responded]
  iterate 2
    · rename_i hs
      refine ⟨by simp [hs, LSQ.awaitsResponse], ?_⟩
      simp only [hs]
      split at h <;> rename_i hdone <;> cases h <;> simp [responded, LSQ.deleteRequest, hdone]
  · cases h

/-- A response keeps the view well formed. -/
theorem wf_responded (hwf : (s.viewOf l).WF)
    (hawaits : LSQ.awaitsResponse (l.heap a.ptr).state = true)
    (hretires : LSQRequest.Retires skipped (l.heap a.ptr) r) :
    (s.viewOf (responded l k a r (slotsAfter l a.ptr r))).WF := by
  have hlocal : r.request.localAccess = ((s.viewOf l).heap a.ptr).request.localAccess :=
    congrArg Request.localAccess hretires.request
  have hstates : ((s.viewOf l).heap a.ptr).state = .requestIssuing ∨
      ((s.viewOf l).heap a.ptr).state = .requestNeedsRetry ∨
      ((s.viewOf l).heap a.ptr).state = .storeBufferIssuing ∨
      ((s.viewOf l).heap a.ptr).state = .storeBufferNeedsRetry := by
    show (l.heap a.ptr).state = _ ∨ (l.heap a.ptr).state = _ ∨ (l.heap a.ptr).state = _ ∨
      (l.heap a.ptr).state = _
    unfold LSQ.awaitsResponse at hawaits
    split at hawaits <;> simp_all
  unfold slotsAfter
  split
  · exact hwf.slotRespond hstates hretires.state hlocal k
  · exact hwf.slotRespond hstates hretires.state hlocal k
  · exact hwf.respond hstates hretires.state hlocal k

/-- A response keeps the account. -/
theorem Accounts.respond (h : Accounts l) (ha : l.dcachePort.inMemory[k]? = some a)
    (hretires : LSQRequest.Retires skipped (l.heap a.ptr) r) (slots : List Nat) :
    Accounts (responded l k a r slots) where
  toLedger := { h.retire ha hretires with }
  noneSent := by
    refine h.noneSent.put rfl rfl fun hp hkind => ?_
    rw [hretires.packetSent]
    exact h.noneSent a.ptr hp (hretires.same.kind.symm.trans hkind)

/-! ### The other events -/

/-- A change of one request that sends and retires nothing. -/
theorem Accounts.modify (h : Accounts l) (hr : (f (l.heap p)).Counted)
    (hout : (f (l.heap p)).outstanding = (l.heap p).outstanding)
    (hload : (f (l.heap p)).isLoad = (l.heap p).isLoad)
    (hissued : (f (l.heap p)).issuedToMemory = (l.heap p).issuedToMemory)
    (hkind : (f (l.heap p)).kind = (l.heap p).kind)
    (hsent : (f (l.heap p)).packetSent = (l.heap p).packetSent) : Accounts (l.modify p f) where
  toLedger := h.toLedger.modify hr hout hload hissued
  noneSent := by
    refine h.noneSent.put rfl rfl fun hp hk => ?_
    rw [hsent]
    exact h.noneSent p hp (hkind.symm.trans hk)

/-- The front of `transfers` leaves it. -/
theorem Accounts.pop (h : Accounts l) (hfront : l.transfers = p :: rest) :
    Accounts (l.popResponse p) :=
  { h.toLedger.pop hfront with noneSent := h.noneSent }

/-- A new request. -/
theorem Accounts.alloc (h : Accounts l) (hwf : (s.viewOf l).WF) {requests slots : List Nat}
    {unissued : Nat} (hr : r.Counted) (hout : r.outstanding = 0)
    (hissued : r.issuedToMemory = false) (hsent : r.kind = .singleData → r.packetSent = false)
    (hrequests : requests = l.requests ∨ requests = l.requests ++ [l.nextPtr]) :
    Accounts { l.alloc r with
      requests := requests, slots := slots, numUnissuedAccesses := unissued } := by
  have hfresh : ∀ q ∈ l.requests ++ l.transfers, q < l.nextPtr := by
    intro q hq
    refine hwf.fresh q ?_
    simp only [LSQView.queue, mem_append] at hq ⊢
    tauto
  refine ⟨h.toLedger.alloc hr hout hissued hwf.owned hfresh hrequests, ?_⟩
  intro q hq hkind
  by_cases hqp : q = l.nextPtr
  · subst hqp
    have hself : (l.alloc r).heap l.nextPtr = r := update_self _ _ _
    have hkind' : ((l.alloc r).heap l.nextPtr).kind = .singleData := hkind
    show ((l.alloc r).heap l.nextPtr).packetSent = false
    rw [hself] at hkind' ⊢
    exact hsent hkind'
  · have hother : (l.alloc r).heap q = l.heap q := update_of_ne hqp _ _
    have hkind' : ((l.alloc r).heap q).kind = .singleData := hkind
    show ((l.alloc r).heap q).packetSent = false
    rw [hother] at hkind' ⊢
    refine h.noneSent q ?_ hkind'
    rcases hrequests with rfl | rfl
    · exact hq
    · rcases mem_append.mp hq with hq | hq
      · exact hq
      · exact absurd (mem_singleton.mp hq) hqp

/-- A barrier enters the store buffer complete. -/
theorem insert_barrier_eq (l : LSQ) (inst : DynInst) :
    (l.alloc (LSQ.specialRequest .barrierData inst .complete)).insert l.nextPtr
      = { l.alloc (LSQ.specialRequest .barrierData inst .complete) with
          requests := l.requests
          slots := l.slots ++ [l.nextPtr]
          numUnissuedAccesses := l.numUnissuedAccesses + 1 } := by
  simp [LSQ.insert, LSQ.alloc, LSQ.modify, LSQ.specialRequest, LSQRequest.isComplete,
    LSQRequest.new]

/-- A commit keeps the account. -/
theorem Accounts.commit (h : Accounts l) (hfront : l.transfers = p :: rest)
    (env : ResponseEnv) : Accounts (l.commitResponse env p) := by
  have hcounted := h.request p
  have hpacket : ∀ packet, ({ l.heap p with packet := packet } : LSQRequest).Counted := fun _ =>
    { hcounted with }
  have hcompleted := fun packet => h.modify (f := fun r => { r with packet := packet })
    (hpacket packet) rfl rfl rfl rfl rfl
  unfold LSQ.commitResponse
  dsimp only
  split
  · rename_i hbuffer
    have hstate := state_of_toStoreBuffer hbuffer
    have hnofault := (handleMemResponse_toStoreBuffer.mp hbuffer).1
    -- The store enters the store buffer before it leaves `transfers`.
    generalize (handleMemResponse l.thresholdLCT env l.cvu (l.heap p)).packet = packet
    have hself : (l.modify p fun r => { r with packet := packet }).heap p
        = { l.heap p with packet := packet } := LSQ.modify_heap_self _
    have hinsert := (hcompleted packet).modify (p := p)
      (f := fun r => if r.isComplete then r else r.setState .storeInStoreBuffer)
    rw [hself] at hinsert
    have hnew : ∀ r : LSQRequest, r.state = (l.heap p).state →
        (if r.isComplete then r else r.setState .storeInStoreBuffer)
          = r.setState .storeInStoreBuffer := by
      intro r hr
      simp [isComplete, hr, hstate]
    rw [hnew { l.heap p with packet := packet } rfl] at hinsert
    have hstored := hinsert ((hpacket packet).toStoreBuffer (by rw [hstate]; rfl)
      (by rw [hstate]; simp) hnofault (.inr rfl)) rfl rfl rfl rfl rfl
    have hpop := hstored.pop hfront
    exact { hpop with }
  · have hpop := (hcompleted (handleMemResponse l.thresholdLCT env l.cvu (l.heap p)).packet).pop
      hfront
    exact { hpop with }

end

end LSQSystem

/-! ### Runs -/

namespace FaultyLSQ

open LSQSystem

/-- What an event does to the LSQ. -/
inductive Outcome (s : FaultyLSQ) : Event → LSQ → Prop
  | push (args : LSQ.PushArgs) (call : CallEnv) :
      Outcome s (.call (.push args call))
        { (s.sys.entered call).alloc ((args.newRequest s.sys.lsq.cvu s.sys.lsq.lineWidth
              call.env.fresh).startAddrTranslation s.sys.lsq.lineWidth) with
          requests := s.sys.lsq.requests ++ [s.sys.lsq.nextPtr] }
  | pushFailed (inst : DynInst) :
      Outcome s (.call (.pushFailed inst)) (s.sys.lsq.pushFailedRequest inst)
  | markDelayed (p : Nat) (hp : p ∈ s.sys.lsq.requests) :
      Outcome s (.call (.markDelayed p)) (s.sys.lsq.markDelayed p)
  | finish (p : Nat) (t : Translation) (call : CallEnv) (hp : p ∈ s.sys.lsq.requests)
      (hstate : (s.sys.lsq.heap p).state = .inTranslation) :
      Outcome s (.call (.finishTranslation p t call))
        ((s.sys.entered call).modify p fun r => r.finish t call.env.fresh)
  | finishTransfer (p : Nat) (t : Translation) (call : CallEnv) (l : LSQ) (clear : Bool)
      (hp : p ∈ s.sys.lsq.requests) (hstate : (s.sys.lsq.heap p).state = .inTranslation)
      (htransfer : Transfer s.sys (s.sys.env call)
        ((s.sys.entered call).modify p fun r => r.finish t call.env.fresh) p l) :
      Outcome s (.call (.finishTranslation p t call))
        (if clear then l.modify p fun r => { r with translationFault := noFault } else l)
  | drain (call : CallEnv) (l : LSQ) (hempty : s.sys.lsq.requests = [])
      (hdrain : Drains (s.sys.env call) (s.sys.entered call) l) :
      Outcome s (.call (.step call)) l
  | step (call : CallEnv) (p : Nat) (rest : List Nat) (l₁ l : LSQ)
      (hfront : s.sys.lsq.requests = p :: rest)
      (htransfer : Transfer s.sys (s.sys.env call) (s.sys.entered call) p l₁)
      (hdrain : Drains (s.sys.env call) l₁ l) : Outcome s (.call (.step call)) l
  | perform (k : Nat) (a : MemAccess) (newData : Buffer) (succeeds : Bool)
      (ha : s.sys.lsq.dcachePort.inMemory[k]? = some a) :
      Outcome s (.call (.perform k newData succeeds)) (s.sys.perform k a newData succeeds).lsq
  | respond (e : Event) (k : Nat) (call : CallEnv) (a : MemAccess) (r : LSQRequest)
      (skipped : Bool)
      (he : e = .call (.recvTimingResp k call) ∧ skipped = (s.sys.lsq.heap a.ptr).skipped ∨
        e = .recvErrorResp k call ∧ skipped = true)
      (ha : s.sys.lsq.dcachePort.inMemory[k]? = some a)
      (hawaits : LSQ.awaitsResponse (s.sys.lsq.heap a.ptr).state = true)
      (hretires : LSQRequest.Retires skipped (s.sys.lsq.heap a.ptr) r) :
      Outcome s e (responded (s.sys.entered call) k a r (slotsAfter s.sys.lsq a.ptr r))
  | retry (call : CallEnv) (l : LSQ) (hretry : Retry (s.sys.entered call) l) :
      Outcome s (.call (.recvReqRetry call)) l
  | commit (env : ResponseEnv) (p : Nat) (rest : List Nat)
      (hrespond : s.sys.view.CanRespond p rest) :
      Outcome s (.call (.commit env)) (s.sys.lsq.commitResponse env p)
  | discard (p : Nat) (rest : List Nat) (hrespond : s.sys.view.CanRespond p rest) :
      Outcome s (.call .discard) (s.sys.lsq.popResponse p)
  | issuedMemBarrierInst (inst : DynInst) :
      Outcome s (.call (.issuedMemBarrierInst inst)) (s.sys.lsq.issuedMemBarrierInst inst)
  | clearMemBarrier (inst : DynInst) :
      Outcome s (.call (.completeMemBarrierInst inst false)) (s.sys.lsq.clearMemBarrier inst)
  | insertBarrier (inst : DynInst) :
      Outcome s (.call (.completeMemBarrierInst inst true))
        ((s.sys.lsq.alloc (LSQ.specialRequest .barrierData inst .complete)).insert
          s.sys.lsq.nextPtr)
  | none (e : Event) : Outcome s e s.sys.lsq

section
variable {s s' : FaultyLSQ} {e : Event}

/-- The view is well formed and the account is right. -/
structure Sound (s : FaultyLSQ) : Prop where
  wf : s.sys.view.WF
  accounts : Accounts s.sys.lsq

/-- The account does not depend on what the port accepts. -/
theorem accounts_entered (h : Accounts s.sys.lsq) (call : CallEnv) :
    Accounts (s.sys.entered call) :=
  { h with }

variable {l : LSQ}

/-- The outcome of a response event. -/
theorem outcome_of_response {k : Nat} {call : CallEnv} {a : MemAccess}
    {retire : LSQRequest → LSQRequest} {skipped : Bool}
    (he : e = .call (.recvTimingResp k call) ∧ skipped = (s.sys.lsq.heap a.ptr).skipped ∨
      e = .recvErrorResp k call ∧ skipped = true) (ha : s.sys.lsq.dcachePort.inMemory[k]? = some a)
    (hretires : LSQRequest.Retires skipped (s.sys.lsq.heap a.ptr) (retire (s.sys.lsq.heap a.ptr)))
    (h : (takeResponse (s.sys.entered call) k).recvRespWith retire a = some l) : Outcome s e l := by
  obtain ⟨hawaits, rfl⟩ := recvRespWith_eq h
  exact .respond e k call a _ skipped he ha hawaits hretires

/-- Each event of `LSQSystem` has an outcome. -/
theorem outcome_of_sys_step (hs : s.Sound) {e : LSQSystem.Event} {sys : LSQSystem}
    (h : s.sys.step e = some sys) : Outcome s (.call e) sys.lsq := by
  have hwf := hs.wf
  cases e with
  | push args call =>
    obtain ⟨-, h⟩ := ite_none_right_eq_some.mp h
    obtain ⟨l, hpush, rfl⟩ := map_eq_some_iff.mp h
    obtain ⟨-, hpush⟩ := ite_none_left_eq_some.mp hpush
    obtain ⟨-, ⟨⟩⟩ := ite_none_left_eq_some.mp hpush
    exact .push args call
  | pushFailed inst =>
    obtain ⟨-, ⟨⟩⟩ := ite_none_right_eq_some.mp h
    exact .pushFailed inst
  | markDelayed p =>
    obtain ⟨hp, ⟨⟩⟩ := ite_none_right_eq_some.mp h
    exact .markDelayed p hp
  | finishTranslation p t call =>
    obtain ⟨hp, h⟩ := ite_none_right_eq_some.mp h
    obtain ⟨l, hfinish, rfl⟩ := map_eq_some_iff.mp h
    obtain ⟨hstate, hfinish⟩ := ite_none_left_eq_some.mp hfinish
    split at hfinish
    · cases hfinish
      exact .finish p t call hp (not_not.mp hstate)
    · obtain ⟨l₁, htry, hclear⟩ := map_eq_some_iff.mp hfinish
      have htransfer := transfer_of_tryToSendToTransfers rfl htry
      have hout := fun clear => Outcome.finishTransfer p t call l₁ clear hp
        (not_not.mp hstate) htransfer
      subst hclear
      split
      · exact hout true
      · exact hout false
  | step call =>
    obtain ⟨l, hstep, rfl⟩ := map_eq_some_iff.mp h
    unfold LSQ.step at hstep
    split at hstep
    · rename_i hempty
      exact .drain call l hempty (stepStoreBuffer_drains hwf hstep)
    · rename_i p rest hfront
      obtain ⟨l₁, htry, hbuffer⟩ := Option.bind_eq_some_iff.mp hstep
      have htransfer := transfer_of_tryToSendToTransfers (s := s.sys) rfl htry
      exact .step call p rest l₁ l hfront htransfer
        (LSQSystem.stepStoreBuffer_drains (LSQSystem.wf_transfer htransfer hwf) hbuffer)
  | perform k newData succeeds =>
    simp only [LSQSystem.step] at h
    split at h
    · cases h
    · rename_i a ha
      obtain ⟨-, ⟨⟩⟩ := ite_none_right_eq_some.mp h
      exact .perform k a newData succeeds ha
  | recvTimingResp k call =>
    simp only [LSQSystem.step] at h
    split at h
    · cases h
    · rename_i a ha
      obtain ⟨-, h⟩ := ite_none_right_eq_some.mp h
      obtain ⟨l, hresp, rfl⟩ := map_eq_some_iff.mp h
      exact outcome_of_response (.inl ⟨rfl, rfl⟩) ha
        (retires_retireResponse _ a.packet (s.sys.env call).fresh) hresp
  | recvReqRetry call =>
    obtain ⟨l, hretry, rfl⟩ := map_eq_some_iff.mp h
    rcases recvReqRetry_cases (l := s.sys.entered call) hwf hretry with
      hretry | ⟨_, _, hwaiting, _, hfull, _⟩
    · exact .retry call l hretry
    · exact absurd (hs.accounts.room hwaiting) hfull
  | commit env =>
    simp only [LSQSystem.step] at h
    split at h
    · cases h
    · rename_i p hp
      obtain ⟨-, ⟨⟩⟩ := ite_none_right_eq_some.mp h
      obtain ⟨rest, hrespond⟩ := canRespond_of_response hp
      exact .commit env p rest hrespond
  | discard =>
    simp only [LSQSystem.step] at h
    split at h
    · cases h
    · rename_i p hp
      cases h
      obtain ⟨rest, hrespond⟩ := canRespond_of_response hp
      exact .discard p rest hrespond
  | changeStream | snoop =>
    cases h
    exact .none _
  | issuedMemBarrierInst inst =>
    cases h
    exact .issuedMemBarrierInst inst
  | completeMemBarrierInst inst committed =>
    cases h
    show Outcome s _ (s.sys.lsq.completeMemBarrierInst inst committed)
    unfold LSQ.completeMemBarrierInst
    cases committed with
    | false => exact .clearMemBarrier inst
    | true =>
      rw [if_pos rfl]
      split
      · exact .none _
      · exact .insertBarrier inst

/-- A call of the LSQ is a step of `LSQSystem`. -/
theorem sys_of_step {e : LSQSystem.Event} (h : s.step (.call e) = some s') :
    ∃ sys, s.sys.step e = some sys ∧ s' = { s with sys := sys } := by
  cases e with
  | commit =>
    simp only [step] at h
    split at h
    · cases h
    · obtain ⟨sys, hsys, rfl⟩ := map_eq_some_iff.mp h
      exact ⟨sys, hsys, rfl⟩
  | _ =>
    simp only [step] at h
    obtain ⟨sys, hsys, rfl⟩ := map_eq_some_iff.mp h
    exact ⟨sys, hsys, rfl⟩

/-- Each event has an outcome. -/
theorem outcome_of_step (hs : s.Sound) (h : s.step e = some s') : Outcome s e s'.sys.lsq := by
  cases e with
  | call =>
    obtain ⟨sys, hsys, rfl⟩ := sys_of_step h
    exact outcome_of_sys_step hs hsys
  | recvErrorResp k call =>
    simp only [step] at h
    split at h
    · cases h
    · rename_i a ha
      split at h
      · cases h
      · obtain ⟨l, hresp, rfl⟩ := map_eq_some_iff.mp h
        exact outcome_of_response (.inr ⟨rfl, rfl⟩) ha
          (retires_retireError _ a.packet (s.sys.env call).fresh) hresp

/-- Each event keeps the view well formed. -/
theorem wf_of_step (hs : s.Sound) (h : s.step e = some s') : s'.sys.view.WF := by
  cases e with
  | call =>
    obtain ⟨sys, hsys, rfl⟩ := sys_of_step h
    obtain ⟨v, hstep, hquiet⟩ := step_change hs.wf hsys
    exact hquiet.wf (wf_step hs.wf hstep)
  | recvErrorResp k call =>
    simp only [step] at h
    split at h
    · cases h
    · rename_i a ha
      split at h
      · cases h
      · obtain ⟨l, hresp, rfl⟩ := map_eq_some_iff.mp h
        obtain ⟨hawaits, rfl⟩ := recvRespWith_eq hresp
        exact wf_responded hs.wf hawaits (retires_retireError _ a.packet (s.sys.env call).fresh)

/-- The account of the request that leaves the translation. -/
theorem accounts_finish (h : Accounts s.sys.lsq) {p : Nat}
    (hstate : (s.sys.lsq.heap p).state = .inTranslation) (t : Translation) (call : CallEnv) :
    Accounts ((s.sys.entered call).modify p fun r => r.finish t call.env.fresh) := by
  have hcounted := h.request p
  obtain ⟨hr, hout⟩ := hcounted.finish hstate t call.env.fresh
  have hsame := (s.sys.lsq.heap p).sameAccess_finish t call.env.fresh
  obtain ⟨-, -, hsent, -, hissued⟩ := (s.sys.lsq.heap p).finish_counts t call.env.fresh
  exact (accounts_entered h call).modify hr
    (hout.trans (hcounted.outstanding_unsent (by rw [hstate]; rfl)).symm) hsame.isLoad hissued
    hsame.kind hsent

/-- The view after the end of a translation is well formed. -/
theorem wf_finish (hs : s.Sound) {p : Nat} (hp : p ∈ s.sys.lsq.requests)
    (hstate : (s.sys.lsq.heap p).state = .inTranslation) (t : Translation) (call : CallEnv) :
    (s.sys.viewOf ((s.sys.entered call).modify p fun r => r.finish t call.env.fresh)).WF :=
  wf_step hs.wf (LSQStep.finish s.sys.view p t call.env.fresh hp hstate)

/-- Each outcome keeps the account. -/
theorem accounts_outcome (hs : s.Sound) (h : Outcome s e l) : Accounts l := by
  have hacc := hs.accounts
  have hwf := hs.wf
  cases h with
  | push args call =>
    obtain ⟨hr, hout, hissued, hsent⟩ := counted_push args s.sys.lsq.cvu
      s.sys.lsq.lineWidth call.env.fresh
    exact (accounts_entered hacc call).alloc hwf hr hout hissued (fun _ => hsent) (.inr rfl)
  | pushFailed inst =>
    obtain ⟨hr, hout⟩ := counted_special inst (.inl ⟨rfl, rfl⟩)
    exact hacc.alloc hwf hr hout rfl (fun _ => rfl) (.inr rfl)
  | markDelayed p =>
    exact hacc.modify { hacc.request p with } rfl rfl rfl rfl rfl
  | finish p t call hp hstate => exact accounts_finish hacc hstate t call
  | finishTransfer p t call l₁ clear hp hstate htransfer =>
    have hfinish := accounts_finish hacc hstate t call
    have hmoved := hfinish.transfer (wf_finish hs hp hstate t call) htransfer
    cases clear with
    | false => exact hmoved
    | true =>
      rw [if_pos rfl]
      exact hmoved.modify { hmoved.request p with fault := fun hne => absurd rfl hne }
        rfl rfl rfl rfl rfl
  | drain call l hempty hdrain =>
    exact (drains_invariant (l := s.sys.entered call)
      (fun _ _ hwf hacc hd => hacc.drain hwf hd) hwf (accounts_entered hacc call) hdrain).2
  | step call p rest l₁ l hfront htransfer hdrain =>
    have hmoved := (accounts_entered hacc call).transfer hwf htransfer
    exact (drains_invariant (fun _ _ hwf hacc hd => hacc.drain hwf hd)
      (wf_transfer htransfer hwf) hmoved hdrain).2
  | perform k a newData succeeds ha =>
    have hptrs := map_set_of_eq ptr ha
      (y := { a with packet := a.packet.answer s.sys.mem, performed := true }) rfl
    refine { hacc with inFlight := fun q => ?_, inMemory := ?_ }
    · show ((s.sys.lsq.dcachePort.inMemory.set k _).map ptr).count q = _
      rw [hptrs]
      exact hacc.inFlight q
    · show _ = (s.sys.lsq.dcachePort.inMemory.set k _).length
      rw [length_set]
      exact hacc.inMemory
  | respond e k call a r skipped he ha hawaits hretires =>
    exact (accounts_entered hacc call).respond ha hretires _
  | retry call l hretry => exact (accounts_entered hacc call).retry hwf hretry
  | commit env p rest hrespond => exact hacc.commit hrespond.1 env
  | discard p rest hrespond => exact hacc.pop hrespond.1
  | issuedMemBarrierInst => exact { hacc with }
  | clearMemBarrier inst =>
    obtain ⟨barrier, hclear⟩ := clearMemBarrier_eq s.sys.lsq inst
    rw [hclear]
    exact { hacc with }
  | insertBarrier inst =>
    obtain ⟨hr, hout⟩ := counted_special inst (.inr ⟨rfl, rfl⟩)
    rw [insert_barrier_eq]
    exact hacc.alloc hwf hr hout rfl (fun _ => rfl) (.inl rfl)
  | none => exact hacc

/-- Each event keeps a state sound. -/
theorem sound_step (hs : s.Sound) (h : s.step e = some s') : s'.Sound :=
  ⟨wf_of_step hs h, accounts_outcome hs (outcome_of_step hs h)⟩

/-- The first state is sound. -/
theorem sound_new (params : LSQParams) (mem : Addr → Byte) : (new params mem).Sound where
  wf := wf_new params mem
  accounts :=
    { request := fun _ => (counted_special _ (.inl ⟨rfl, rfl⟩)).1
      inFlight := fun _ => rfl
      inMemory := rfl
      limit := Nat.zero_le _
      room := nofun
      stores := rfl
      issued := rfl
      noneSent := nofun }

end

end FaultyLSQ

end Gem5.MyMinor
