import Gem5.Proofs.MyMinor.StoreCommit

/-!
# `Gem5.Proofs.MyMinor.UseCVU`: loads that skip the cache

`pushRequest` looks a constant load up in the CVU and marks its request with `use_CVU_value`
on a hit. `BaseCache::recvTimingReq` then answers the packet without an access, so the packet
comes back as it was made. `handleMemResponse` looks the load up again, and replaces the data
on a hit. On a miss the load completes with a buffer that nobody has written.

Between the two lookups older accesses commit: a store can invalidate the entry, and an insertion
can take its slot. `second_lookup_hits` is for runs in which each commit keeps an entry for each
waiting load of this kind. `second_lookup_misses` is a run in which a store takes the entry out and
is too short to serve the load.
-/

namespace Gem5.MyMinor

open MemResponse LSQRequest List LSQ

namespace LSQRequest

/-- The packet of the request carries `use_CVU_value`. Fragments never do. -/
def skipsCache (r : LSQRequest) : Bool :=
  r.kind == .singleData && r.request.useCVUValue

/-- The CVU holds an entry for the load. -/
def verified (cvu : CVU) (r : LSQRequest) : Bool :=
  cvu.verifyEntryInCVU r.request.vaddr r.inst.lvptOut.index r.inst.lvptOut.value true

/-- What both lookups read. -/
structure SameLookup (r r' : LSQRequest) : Prop where
  same : SameAccess r r'
  vaddr : r'.request.vaddr = r.request.vaddr
  useCVUValue : r'.request.useCVUValue = r.request.useCVUValue

section
variable {r r' : LSQRequest}

theorem SameLookup.refl (r : LSQRequest) : SameLookup r r := ⟨SameAccess.refl r, rfl, rfl⟩

theorem SameLookup.of_request (hsame : SameAccess r r') (hrequest : r'.request = r.request) :
    SameLookup r r' :=
  ⟨hsame, by rw [hrequest], by rw [hrequest]⟩

theorem SameLookup.skipsCache (h : SameLookup r r') : r'.skipsCache = r.skipsCache := by
  simp [LSQRequest.skipsCache, h.same.kind, h.useCVUValue]

theorem SameLookup.verified (h : SameLookup r r') (cvu : CVU) :
    r'.verified cvu = r.verified cvu := by
  simp [LSQRequest.verified, h.same.inst, h.vaddr]

/-- A new packet leaves what the lookups read. -/
theorem request_makePacket (r : LSQRequest) (fresh : Buffer) :
    (r.makePacket fresh).request = r.request := by
  unfold makePacket
  split <;> rfl

/-- The translation of the address does not change what the lookups read. -/
theorem sameLookup_finish (r : LSQRequest) (t : Translation) (fresh : Buffer) :
    SameLookup r (r.finish t fresh) := by
  have hsame := r.sameAccess_finish t fresh
  rcases r.finish_cases t fresh with ⟨-, fault, n, state, h, -⟩ | ⟨-, h⟩ | ⟨-, -, -, h⟩ |
    ⟨-, -, h⟩ | ⟨-, -, h⟩ | ⟨-, -, h⟩ <;> rw [h] at hsame ⊢
  · exact ⟨hsame, rfl, rfl⟩
  · refine ⟨hsame, ?_, ?_⟩ <;> rw [request_makePacket, Request.translate]
  · refine ⟨hsame, ?_, ?_⟩ <;> rw [makeFragmentPackets, request_makePacket]
  · refine ⟨hsame, ?_, ?_⟩ <;> rw [makeFragmentPackets, request_makePacket] <;> rfl
  · exact ⟨hsame, rfl, rfl⟩
  · exact SameLookup.refl r

theorem sameLookup_stepToNextPacket (r : LSQRequest) (state : LSQRequestState) :
    SameLookup r (r.stepToNextPacket.setState state) :=
  SameLookup.of_request (r.stepToNextPacket_frame.1.setState state) r.stepToNextPacket_frame.2.1

end

end LSQRequest

namespace LSQView

/-- The commit of an access with the packet `k` keeps an entry for the load `q`: some entry
verifies the load, the commit does not invalidate it, and no insertion takes its slot. -/
def keepsEntry (v : LSQView) (env : ResponseEnv) (r : LSQRequest) (k : Packet)
    (q : LSQRequest) : Bool :=
  (List.range v.cvu.tableSize).any fun i =>
    (v.cvu.entry i).verifies q.request.vaddr q.inst.lvptOut.index q.inst.lvptOut.value &&
    !(r.needsToBeSentToStoreBuffer && (v.cvu.entry i).hasAddr k.vaddr k.paddr) &&
    !(insertsEntry v.thresholdLCT v.cvu r.inst (substitute v.cvu r.inst k env.pastValue)
        (packetData (substitute v.cvu r.inst k env.pastValue) env.pastData) &&
      v.cvu.newEntryIndex env.rand == i)

/-- The condition on a change: a commit keeps an entry for each load of the queue that skips
the cache. -/
def entriesKept (v : LSQView) : LSQLabel → Bool
  | .commit env =>
    match v.transfers with
    | [] => true
    | p :: rest =>
      match (v.heap p).packet with
      | none => true
      | some k =>
        (rest ++ v.requests).all fun q =>
          !(v.heap q).skipsCache || v.keepsEntry env (v.heap p) k (v.heap q)
  | _ => true

/-- The CVU holds an entry for each load of the queue that skips the cache. -/
def LookupInv (v : LSQView) : Prop :=
  ∀ p ∈ v.queue, (v.heap p).skipsCache = true → (v.heap p).verified v.cvu = true

section
variable {v v' : LSQView} {p : Nat} {rest : List Nat}

/-- A change that leaves the CVU and what the lookups read. -/
theorem LookupInv.congr (h : v.LookupInv) (hcvu : v'.cvu = v.cvu)
    (hqueue : ∀ q ∈ v'.queue, q ∈ v.queue)
    (hheap : ∀ q ∈ v'.queue, SameLookup (v.heap q) (v'.heap q)) : v'.LookupInv := by
  intro q hq hskips
  have hsame := hheap q hq
  rw [hcvu, hsame.verified]
  exact h q (hqueue q hq) (hsame.skipsCache ▸ hskips)

variable {r : LSQRequest}

/-- One request changes, and the queue stays. -/
theorem LookupInv.put (h : v.LookupInv) (hcvu : v'.cvu = v.cvu) (hqueue : v'.queue = v.queue)
    (hheap : v'.heap = (v.put p r).heap) (hr : SameLookup (v.heap p) r) : v'.LookupInv := by
  refine h.congr hcvu (fun q hq => hqueue ▸ hq) fun q _ => ?_
  rw [hheap]
  by_cases hqp : q = p
  · subst hqp
    rw [put_heap_self]
    exact hr
  · rw [put_heap_of_ne r hqp]
    exact SameLookup.refl _

/-- A new request is verified when it skips the cache. -/
theorem LookupInv.alloc (h : v.LookupInv) (hr : r.skipsCache = true → r.verified v.cvu = true) :
    (v.alloc r).LookupInv := by
  intro q hq hskips
  by_cases hqn : q = v.nextPtr
  · subst hqn
    have hself : (v.alloc r).heap v.nextPtr = r := put_heap_self r
    rw [hself] at hskips ⊢
    exact hr hskips
  · have hold : q ∈ v.queue := by
      simp only [queue, LSQView.alloc, mem_append, mem_singleton] at hq ⊢
      rcases hq with hq | hq | hq
      · exact .inl hq
      · exact .inr hq
      · exact absurd hq hqn
    have hheap : (v.alloc r).heap q = v.heap q := put_heap_of_ne r hqn
    rw [hheap] at hskips ⊢
    exact h q hold hskips

end

end LSQView

open LSQView

variable {v : LSQView}

/-- A commit that keeps an entry for a load leaves the load verified. -/
theorem verified_commit {env : ResponseEnv} {r q : LSQRequest} {k : Packet} (hk : r.packet = some k)
    (hkeeps : v.keepsEntry env r k q = true) (hold : q.verified v.cvu = true) :
    q.verified (handleMemResponse v.thresholdLCT env v.cvu r).cvu = true := by
  cases hfault : r.translationFault with
  | some =>
    rw [handleMemResponse_cvu_of_no_access (.inl (by simp [hfault]))]
    exact hold
  | none =>
    rw [handleMemResponse_of_access hfault hk]
    simp only [keepsEntry, any_eq_true, mem_range, Bool.and_eq_true,
      Bool.not_eq_true', Bool.and_eq_false_iff, beq_eq_false_iff_ne] at hkeeps
    obtain ⟨i, hi, ⟨hverifies, haddr⟩, hslot⟩ := hkeeps
    -- The load part does not write slot `i`, and `storeInvalidate` does not match it.
    have hloaded : (cvuLoaded v.thresholdLCT env v.cvu r.inst k).entry i = v.cvu.entry i := by
      rw [entry_cvuLoaded, if_neg]
      rintro ⟨hinserts, hindex, -⟩
      rcases hslot with h | h
      · rw [hinserts] at h
        cases h
      · exact h hindex
    have hentry : (completeAccess v.thresholdLCT env v.cvu r k).cvu.entry i = v.cvu.entry i := by
      rw [completeAccess_cvu]
      split
      · rename_i hbuffer
        rcases haddr with h | h
        · rw [hbuffer.2] at h
          cases h
        · rw [CVU.entry_storeInvalidate, hloaded, CVU.TableEntry.invalidated]
          rw [h]
          simp
      · exact hloaded
    have hsize : (completeAccess v.thresholdLCT env v.cvu r k).cvu.tableSize = v.cvu.tableSize := by
      rw [← handleMemResponse_of_access hfault hk]
      exact handleMemResponse_tableSize
    rw [verified, CVU.verifyEntryInCVU, Bool.true_and, any_eq_true]
    refine ⟨i, mem_range.mpr (hsize ▸ hi), ?_⟩
    rw [hentry]
    exact hverifies

/-- Each change keeps the entries, a commit under its condition. -/
theorem lookupInv_step {v' : LSQView} {l : LSQLabel} (hwf : v.WF) (h : v.LookupInv)
    (hok : l = .quiet ∨ v.entriesKept l = true) (hstep : LSQStep v l v') : v'.LookupInv := by
  have hleave : ∀ {p : Nat} {rest : List Nat}, v.CanRespond p rest →
      ∀ q ∈ rest ++ v.requests, q ∈ v.queue ∧ q ≠ p := by
    intro p rest hrespond q hq
    have hnot := (hwf.not_mem_of_front hrespond.1).1
    rw [queue, hrespond.1]
    exact ⟨mem_cons_of_mem p hq, fun hqp => hnot (hqp ▸ hq)⟩
  have hmove : ∀ {p : Nat} {rest : List Nat} {r : LSQRequest}, v.requests = p :: rest →
      SameLookup (v.heap p) r → ((v.put p r).move p rest).LookupInv := by
    intro p rest r hfront hr
    exact h.put rfl (queue_move hfront) rfl hr
  have hsend : ∀ {p : Nat} {rest : List Nat} (packet : Packet) (sent : Bool) {r : LSQRequest},
      v.requests = p :: rest → SameLookup (v.heap p) r →
      (((v.put p r).sendPacket p packet).moveIf sent p rest).LookupInv := by
    intro p rest packet sent r hfront hr
    unfold LSQView.moveIf
    split
    · exact h.put rfl (queue_move hfront) rfl hr
    · exact h.put rfl rfl rfl hr
  cases hstep with
  | idle | clearBarrier | perform | changeStream | snoop => exact h
  | push args fresh =>
    refine h.alloc fun hskips => ?_
    obtain ⟨_, _, _, heq, -⟩ := startAddrTranslation_newRequest args v.cvu v.lineWidth fresh
    rw [heq] at hskips ⊢
    simp only [skipsCache, Bool.and_eq_true] at hskips
    have huses : args.usesCVU v.cvu = true := hskips.2
    simp only [PushArgs.usesCVU, Bool.and_eq_true] at huses
    rw [huses.1.2] at huses
    exact huses.2
  | pushFailed =>
    refine h.alloc fun hskips => ?_
    simp [skipsCache, specialRequest, LSQRequest.new] at hskips
  | adjust | clearFault | refuse | unblock | slotRefuse | slotUnblock =>
    exact h.put rfl rfl rfl ⟨⟨rfl, rfl, rfl, rfl⟩, rfl, rfl⟩
  | finish p t fresh => exact h.put rfl rfl rfl (sameLookup_finish _ t fresh)
  | skip p rest hfront => exact hmove hfront ⟨⟨rfl, rfl, rfl, rfl⟩, rfl, rfl⟩
  | toStoreBuffer p rest hcan | forward p rest slot packet hcan | failConditional p rest hcan =>
    exact hmove hcan.front ⟨⟨rfl, rfl, rfl, rfl⟩, rfl, rfl⟩
  | sendLocally p rest packet data hcan =>
    obtain ⟨hsame, hrequest, -⟩ := (v.heap p).accessLocally_frame data
    generalize accessLocally (v.heap p) data = r at *
    have hr : ∀ state, SameLookup (v.heap p) (r.stepToNextPacket.setState state) := by
      intro state
      have hnext := sameLookup_stepToNextPacket r state
      exact ⟨hsame.trans hnext.same, hnext.vaddr.trans (by rw [hrequest]),
        hnext.useCVUValue.trans (by rw [hrequest])⟩
    unfold LSQView.moveIf
    split
    · exact hmove hcan.front (hr _)
    · exact h.put rfl rfl rfl (hr _)
  | send p rest packet hcan =>
    exact hsend packet _ hcan.front (sameLookup_stepToNextPacket _ _)
  | resend p rest packet hretry hstate hfront =>
    exact hsend packet _ hfront (sameLookup_stepToNextPacket _ _)
  | slotSend | slotResend =>
    exact h.put rfl rfl rfl (sameLookup_stepToNextPacket _ _)
  | insertBarrier inst =>
    refine h.congr rfl (fun _ hq => hq) fun q hq => ?_
    have hlt : q < v.nextPtr := hwf.fresh q (mem_append_left _ hq)
    have hheap : (v.put v.nextPtr (specialRequest .barrierData inst .complete)).heap q
        = v.heap q := put_heap_of_ne _ hlt.ne
    show SameLookup (v.heap q)
      ((v.put v.nextPtr (specialRequest .barrierData inst .complete)).heap q)
    rw [hheap]
    exact SameLookup.refl _
  | respond k a fresh | slotRespond k a fresh =>
    obtain ⟨hsame, hrequest, -, -⟩ := (v.heap a.ptr).retireResponse_frame a.packet fresh
    exact h.put rfl rfl rfl (SameLookup.of_request hsame hrequest)
  | commit env p rest hrespond =>
    -- The access `p` leaves the queue, and the CVU is the one of `handleMemResponse`.
    have hcvu : (v.commit env p rest).cvu
        = (handleMemResponse v.thresholdLCT env v.cvu (v.heap p)).cvu := by
      simp only [LSQView.commit]
      split <;> rfl
    have hqueue : (v.commit env p rest).queue = rest ++ v.requests := by
      simp only [LSQView.commit]
      split <;> rfl
    have hheap : ∀ q, q ≠ p → (v.commit env p rest).heap q = v.heap q := by
      intro q hqp
      simp only [LSQView.commit]
      split <;> exact put_heap_of_ne _ hqp
    intro q hq hskips
    rw [hqueue] at hq
    obtain ⟨hq', hqp⟩ := hleave hrespond q hq
    rw [hheap q hqp] at hskips ⊢
    rw [hcvu]
    have hold := h q hq' hskips
    cases hk : (v.heap p).packet with
    | none =>
      rw [handleMemResponse_cvu_of_no_access (.inr hk)]
      exact hold
    | some =>
      rcases hok with hok | hok
      · cases hok
      · simp only [entriesKept, hrespond.1, hk, all_eq_true] at hok
        have hkeeps := hok q hq
        rw [hskips] at hkeeps
        exact verified_commit hk hkeeps hold
  | discard p rest hrespond =>
    exact h.congr rfl (fun q hq => (hleave hrespond q hq).1) fun q _ => SameLookup.refl _

namespace LSQSystem
variable {s : LSQSystem} {p : Nat} {k : Packet}

/-- In a run whose commits keep the entries of waiting loads, the second lookup of a load that
skipped the cache hits, and the load completes with the predicted value. -/
theorem second_lookup_hits (params : LSQParams) (mem : Addr → Byte) (es : List Event)
    (env : ResponseEnv)
    (hkept : Lib.RunMeets step (fun s e => s.view.entriesKept (label e) = true) (new params mem) es)
    (hrun : Lib.run step (new params mem) es = some s) (hp : s.response = some p)
    (hkind : (s.lsq.heap p).kind = .singleData) (hk : (s.lsq.heap p).packet = some k)
    (hsent : k.useCVUValue = true) (hfault : (s.lsq.heap p).translationFault = none) :
    entryInCVU s.lsq.cvu (s.lsq.heap p).inst k = true ∧
      ∃ k', (handleMemResponse s.lsq.thresholdLCT env s.lsq.cvu (s.lsq.heap p)).packet = some k' ∧
        k'.data = valueBytes (s.lsq.heap p).inst.lvptOut.value env.pastValue := by
  have hlookup : (new params mem).view.LookupInv := nofun
  obtain ⟨hwf, hqueue⟩ := queueInv_run params mem hrun
  obtain ⟨-, hinv⟩ := lsqSystem_refines.run_invariant_of_meets lookupInv_step
    (wf_new params mem) hlookup hkept hrun
  obtain ⟨rest, hrespond⟩ := canRespond_of_response hp
  have hmem : p ∈ s.view.queue := by
    rw [queue, hrespond.1]
    simp
  have hok : QueuedOk s.streamSeqNum (s.lsq.heap p) := hqueue.queued p hmem
  have hcarries := hok.packet k hk
  have huse : (s.lsq.heap p).request.useCVUValue = true := hcarries.useCVUValue ▸ hsent
  have hskips : (s.lsq.heap p).skipsCache = true := by simp [skipsCache, hkind, huse]
  have hhit : entryInCVU s.lsq.cvu (s.lsq.heap p).inst k = true := by
    have hverified : (s.lsq.heap p).verified s.lsq.cvu = true := hinv p hmem hskips
    rw [entryInCVU, hcarries.vaddr, (hok.useCVUValue huse).2]
    exact hverified
  refine ⟨hhit, _, ?_, substitute_of_hit env.pastValue hhit⟩
  rw [handleMemResponse_of_access hfault hk, completeAccess_packet]

/-- The constant load again: it is in the CVU, so it skips the cache. -/
def skippingLoad : List Event :=
  insertingLoad ++
    [smallPush 2 true onesAtThreshold 0x100 8 0 noFlags, smallTranslation 2 1 0x100,
      .perform 0 (fun _ => 0) true, .recvTimingResp 0 (smallCall 2)]

/-- It completes with the predicted value. -/
theorem second_lookup_hits_skippingLoad :
    ∃ s k, afterOnes skippingLoad = some s ∧ s.response = some 1 ∧
      (s.lsq.heap 1).packet = some k ∧ k.useCVUValue = true ∧
      entryInCVU s.lsq.cvu (s.lsq.heap 1).inst k = true := by
  obtain ⟨s, hrun, hp, hkind, hfault, k, hk, hsent⟩ :
      ∃ s ∈ afterOnes skippingLoad, s.response = some 1 ∧ (s.lsq.heap 1).kind = .singleData ∧
        (s.lsq.heap 1).translationFault = none ∧
        ∃ k ∈ (s.lsq.heap 1).packet, k.useCVUValue := by
    decide +kernel
  exact ⟨s, k, hrun, hp, hk, hsent,
    (second_lookup_hits smallParams _ skippingLoad smallCommit (by decide +kernel) hrun hp hkind
      hk hsent hfault).1⟩

/-- A store of four bytes to the address of the load, and the load again before the store
commits. -/
def overtakenLoad : List Event :=
  insertingLoad ++
    [smallPush 2 false LvptOut.zero 0x100 4 0xbb noFlags,
      smallPush 3 true onesAtThreshold 0x100 8 0 noFlags,
      smallTranslation 2 1 0x100, smallTranslation 2 2 0x100, .commit smallCommit,
      .step (smallCall 3), .perform 0 (fun _ => 0) true, .recvTimingResp 0 (smallCall 3),
      .step (smallCall 3), .perform 0 (fun _ => 0) true, .recvTimingResp 0 (smallCall 3)]

/-- The store takes the entry out of the CVU and covers a part of the load, so the load waits
for the store and then goes to the cache. Its second lookup misses, and it completes with the
buffer as it was allocated. -/
theorem second_lookup_misses :
    ∃ s k, afterOnes overtakenLoad = some s ∧ s.response = some 2 ∧
      (s.lsq.heap 2).packet = some k ∧ k.useCVUValue = true ∧
      entryInCVU s.lsq.cvu (s.lsq.heap 2).inst k = false ∧
      ((s.commit smallCommit 2).lsq.heap 2).packet = some k ∧ k.data 0 = 99 ∧
      s.mem 0x100 = 0xbb := by
  obtain ⟨s, hrun, hp, hfault, hmem, k, hk, hsent, hmiss, hdata⟩ :
      ∃ s ∈ afterOnes overtakenLoad, s.response = some 2 ∧
        (s.lsq.heap 2).translationFault = none ∧ s.mem 0x100 = 0xbb ∧
        ∃ k ∈ (s.lsq.heap 2).packet, k.useCVUValue ∧
          entryInCVU s.lsq.cvu (s.lsq.heap 2).inst k = false ∧ k.data 0 = 99 := by
    decide +kernel
  refine ⟨s, k, hrun, hp, hk, hsent, hmiss, ?_, hdata, hmem⟩
  rw [packet_commit, handleMemResponse_of_access hfault hk, completeAccess_packet,
    substitute_of_miss _ hmiss]

end LSQSystem

end Gem5.MyMinor
