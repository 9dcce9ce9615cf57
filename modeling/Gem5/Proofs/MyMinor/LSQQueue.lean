import Gem5.Proofs.MyMinor.LSQStep

/-!
# `Gem5.Proofs.MyMinor.LSQQueue`: the requests between Execute and the store buffer

`QueueInv` is the invariant of the requests in `requests` and `transfers`, of every kind and size:

* a request has no packet before its translation is done, and none after a fault,
* the packet of a request, and each packet of it in flight, carries the address and the
  direction of the request. The packet of a store also carries the bytes of the store, up to
  swaps, atomics and local accesses, where it comes back with an answer,
* only a store that cannot go to the store buffer is sent from `requests`,
* a request belongs to the current stream of its thread or to an older one.
-/

namespace Gem5.MyMinor

open List Option

namespace LSQRequest

variable (r : LSQRequest)

/-- The store buffer takes the request. -/
def buffers : Bool :=
  r.request.bufferable && !r.request.localAccess

/-- The packet of the request comes back with an answer, even for a store. -/
def isAnswered : Bool :=
  r.request.flags.swap || r.request.flags.atomic || r.request.localAccess

/-- A packet with the address, the direction and, for a store, the bytes of a request. -/
structure Carries (r : LSQRequest) (packet : Packet) : Prop where
  vaddr : packet.vaddr = r.request.vaddr
  paddr : packet.paddr = r.request.paddr
  size : packet.size = r.request.size
  isLoad : packet.isLoad = r.isLoad
  isSwap : packet.isSwap = (r.request.flags.swap || r.request.flags.atomic)
  useCVUValue : packet.useCVUValue = r.request.useCVUValue
  data : r.isLoad = false → r.isAnswered = false → packet.data = r.writeData

/-- What a request between Execute and the store buffer has. -/
structure QueuedOk (streamSeqNum : ThreadID → InstSeqNum) (r : LSQRequest) : Prop where
  stream : r.inst.id.streamSeqNum ≤ streamSeqNum r.inst.id.threadId
  untranslated : r.state = .inTranslation →
    r.packet = none ∧ r.translationFault = noFault ∧
      (r.isLoad = false → r.data = some r.writeData)
  faulted : r.translationFault ≠ noFault → r.packet = none
  issued : r.isLoad = false → r.state = .requestIssuing ∨ r.state = .requestNeedsRetry →
    r.buffers = false
  completed : r.isLoad = false → r.state = .complete →
    r.buffers = false ∨ r.packet = none ∨
      r.inst.id.streamSeqNum < streamSeqNum r.inst.id.threadId
  packet : ∀ k, r.packet = some k → r.Carries k
  useCVUValue : r.request.useCVUValue = true → r.isLoad = true ∧ r.inst.lvptOut.constant = true
  failed : r.state = .failed → r.isLoad = true

section
variable {r r' : LSQRequest} {packet : Packet} {streamSeqNum : ThreadID → InstSeqNum}

/-- What a packet carries depends on the access and its `Request` only. -/
theorem Carries.congr (h : r.Carries packet) (hsame : SameAccess r r')
    (hrequest : r'.request = r.request) : r'.Carries packet where
  vaddr := hrequest ▸ h.vaddr
  paddr := hrequest ▸ h.paddr
  size := hrequest ▸ h.size
  isLoad := hsame.isLoad ▸ h.isLoad
  isSwap := hrequest ▸ h.isSwap
  useCVUValue := hrequest ▸ h.useCVUValue
  data := by
    intro hload hanswered
    rw [hsame.isLoad] at hload
    rw [isAnswered, hrequest] at hanswered
    rw [hsame.writeData]
    exact h.data hload hanswered

/-- The answer of memory keeps what a packet carries. -/
theorem Carries.answer (h : r.Carries packet) (mem : Addr → Byte) :
    r.Carries (packet.answer mem) := by
  unfold Packet.answer
  split
  · rename_i hread
    refine { h with data := fun hload hanswered => ?_ }
    -- A store whose packet is not answered is not read.
    simp only [isAnswered, Bool.or_eq_false_iff] at hanswered
    rw [h.isLoad, h.isSwap, hload, hanswered.1.1, hanswered.1.2] at hread
    cases hread
  · exact h

variable {fresh : Buffer} {state : LSQRequestState} {k : Packet}

/-- The states that a request may get after its translation. -/
def MayBecome (streamSeqNum : ThreadID → InstSeqNum) (r : LSQRequest) : LSQRequestState → Prop
  | .inTranslation | .failed => False
  | .requestIssuing | .requestNeedsRetry => r.isLoad = false → r.buffers = false
  | .complete => r.isLoad = false → r.buffers = false ∨ r.packet = none ∨
      r.inst.id.streamSeqNum < streamSeqNum r.inst.id.threadId
  | _ => True

theorem MayBecome.congr (h : r.MayBecome streamSeqNum state) (hsame : SameAccess r r')
    (hrequest : r'.request = r.request) (hpacket : r'.packet = r.packet) :
    r'.MayBecome streamSeqNum state := by
  unfold MayBecome buffers at h ⊢
  rw [hsame.isLoad, hsame.inst, hrequest, hpacket]
  exact h

/-- The conditions on a request that is out of translation. -/
theorem QueuedOk.of_state (hstate : r.MayBecome streamSeqNum r.state)
    (hstream : r.inst.id.streamSeqNum ≤ streamSeqNum r.inst.id.threadId)
    (hfaulted : r.translationFault ≠ noFault → r.packet = none)
    (hpacket : ∀ k, r.packet = some k → r.Carries k)
    (hcvu : r.request.useCVUValue = true → r.isLoad = true ∧ r.inst.lvptOut.constant = true) :
    QueuedOk streamSeqNum r := by
  refine ⟨hstream, fun hs => ?_, hfaulted, fun hload hs => ?_, fun hload hs => ?_, hpacket, hcvu,
    fun hs => ?_⟩
  · rw [hs] at hstate
    exact hstate.elim
  · rcases hs with hs | hs <;> rw [hs] at hstate <;> exact hstate hload
  · rw [hs] at hstate
    exact hstate hload
  · rw [hs] at hstate
    exact hstate.elim

section
variable (h : QueuedOk streamSeqNum r)
include h

/-- A change of the state and of the bookkeeping only. -/
theorem QueuedOk.congr (hsame : SameAccess r r')
    (hrequest : r'.request = r.request) (hpacket : r'.packet = r.packet)
    (hfault : r'.translationFault = noFault ∨ r'.translationFault = r.translationFault)
    (hstate : r.MayBecome streamSeqNum r'.state) : QueuedOk streamSeqNum r' := by
  refine .of_state (hstate.congr hsame hrequest hpacket) ?_ ?_ ?_ ?_
  · rw [hsame.inst]
    exact h.stream
  · intro hf
    rw [hpacket]
    rcases hfault with hf' | hf'
    · exact absurd hf' hf
    · exact h.faulted (hf' ▸ hf)
  · intro k hk
    exact (h.packet k (hpacket ▸ hk)).congr hsame hrequest
  · rw [hrequest, hsame.isLoad, hsame.inst]
    exact h.useCVUValue

/-- Streams only grow. -/
theorem QueuedOk.mono {streamSeqNum' : ThreadID → InstSeqNum}
    (hle : ∀ tid, streamSeqNum tid ≤ streamSeqNum' tid) : QueuedOk streamSeqNum' r :=
  { h with
    stream := h.stream.trans (hle _)
    completed := fun hload hs =>
      (h.completed hload hs).imp_right fun hor => hor.imp_right fun hlt => hlt.trans_le (hle _) }

variable (huntranslated : r.state = .inTranslation)
include huntranslated

section
variable (hsame : SameAccess r r')
include hsame

/-- A request whose packet has just been made. -/
theorem QueuedOk.makePacket (hpacket : r'.packet = r.packet) (hdata : r'.data = r.data)
    (hfault : r'.translationFault = noFault) (hstate : r'.state = .translated)
    (hcvu : r'.request.useCVUValue = r.request.useCVUValue) :
    QueuedOk streamSeqNum (r'.makePacket fresh) := by
  obtain ⟨hnone, -, hwrite⟩ := h.untranslated huntranslated
  simp only [LSQRequest.makePacket, hpacket.trans hnone]
  refine .of_state ?_ (hsame.inst ▸ h.stream) (fun hf => absurd hfault hf) ?_ ?_
  · simp only [hstate]
    exact trivial
  · -- The new packet carries its request.
    rintro k ⟨⟩
    refine ⟨rfl, rfl, rfl, rfl, rfl, rfl, fun hload _ => ?_⟩
    have hload' : r'.isLoad = false := hload
    simp [makePacketForRequest, hload', hdata, hwrite (hsame.isLoad ▸ hload'), hsame.writeData]
  · simp only [hcvu, hsame.isLoad, hsame.inst]
    exact h.useCVUValue

/-- A request that gets no packet from its translation. -/
theorem QueuedOk.noPacket (hrequest : r'.request = r.request) (hpacket : r'.packet = r.packet)
    (hstate : r'.state = .translated ∨ r'.state = .complete) : QueuedOk streamSeqNum r' := by
  obtain ⟨hnone, -, -⟩ := h.untranslated huntranslated
  have hnone' := hpacket.trans hnone
  refine .of_state ?_ ?_ (fun _ => hnone') ?_ ?_
  · rcases hstate with hs | hs <;> rw [hs]
    · exact trivial
    · exact fun _ => .inr (.inl hnone')
  · rw [hsame.inst]
    exact h.stream
  · intro k hk
    rw [hnone'] at hk
    cases hk
  · rw [hrequest, hsame.isLoad, hsame.inst]
    exact h.useCVUValue

end

/-- `finish` keeps the invariant of a request. -/
theorem QueuedOk.finish (t : Translation) (fresh : Buffer) :
    QueuedOk streamSeqNum (r.finish t fresh) := by
  obtain ⟨hnone, hfault, hdata⟩ := h.untranslated huntranslated
  rcases r.finish_cases t fresh with ⟨-, fault, n, state, heq, hstate⟩ | ⟨-, heq⟩ |
    ⟨-, -, -, heq⟩ | ⟨-, -, heq⟩ | ⟨-, -, heq⟩ | ⟨-, -, heq⟩ <;> rw [heq]
  · exact h.noPacket huntranslated ⟨rfl, rfl, rfl, rfl⟩ rfl rfl hstate
  · exact h.makePacket huntranslated ⟨rfl, rfl, rfl, rfl⟩ rfl rfl hfault rfl rfl
  · -- `makeFragmentPackets` is `makePacket` of a request with the fragments filled in.
    exact h.makePacket huntranslated ⟨rfl, rfl, rfl, rfl⟩ rfl rfl rfl rfl rfl
  · exact h.makePacket huntranslated ⟨rfl, rfl, rfl, rfl⟩ rfl rfl hfault rfl rfl
  · -- A fragment in the middle changes the fragments only.
    refine { h with packet := fun k hk => ?_ }
    have hk' : r.packet = some k := hk
    rw [hnone] at hk'
    cases hk'
  · exact h

end

/-- The packet of a split request changes its data at most, and only for a load. -/
theorem packet_retireSplit (response : Packet) (fresh : Buffer) (hkind : r.kind = .splitData)
    (hk : (r.retireResponse response fresh).packet = some k) :
    ∃ k', r.packet = some k' ∧ (k = k' ∨ (r.isLoad = true ∧ ∃ d, k = { k' with data := d })) := by
  rw [retireSplit_eq r hkind] at hk
  dsimp only at hk
  split at hk
  · rename_i hload
    obtain ⟨k', hk', rfl⟩ := map_eq_some_iff.mp hk
    exact ⟨k', hk', .inr ⟨hload.2.1, _, rfl⟩⟩
  · exact ⟨k, hk, .inl rfl⟩

/-- A response for a request that was sent keeps the invariant. -/
theorem QueuedOk.retireResponse (h : QueuedOk streamSeqNum r)
    (hstate : r.state = .requestIssuing ∨ r.state = .requestNeedsRetry)
    (hsingle : r.kind = .singleData → r.Carries packet ∧ r.translationFault = noFault)
    (fresh : Buffer) : QueuedOk streamSeqNum (r.retireResponse packet fresh) := by
  have hunbuffered : r.isLoad = false → r.buffers = false := fun hload => h.issued hload hstate
  by_cases hkind : r.kind = .splitData
  · -- The packet keeps all but the data of a load.
    obtain ⟨hsame, hrequest, hfault, -⟩ := r.retireResponse_frame packet fresh
    have hunbuffered' : (r.retireResponse packet fresh).isLoad = false →
        (r.retireResponse packet fresh).buffers = false := by
      rw [hsame.isLoad, buffers, hrequest]
      exact hunbuffered
    refine .of_state ?_ ?_ ?_ ?_ ?_
    · rcases r.state_retireResponse packet fresh with hs | hs <;> rw [hs]
      · rcases hstate with hs | hs <;> rw [hs] <;> exact hunbuffered'
      · exact fun hload => .inl (hunbuffered' hload)
    · rw [hsame.inst]
      exact h.stream
    · intro hf
      rw [hfault] at hf
      rw [eq_none_iff_forall_ne_some]
      intro k hk
      obtain ⟨k', hk', -⟩ := packet_retireSplit packet fresh hkind hk
      rw [h.faulted hf] at hk'
      cases hk'
    · intro k hk
      obtain ⟨k', hk', hsub⟩ := packet_retireSplit packet fresh hkind hk
      have hcarries := (h.packet k' hk').congr hsame hrequest
      rcases hsub with rfl | ⟨hload, d, rfl⟩
      · exact hcarries
      · refine { hcarries with data := fun hstore => ?_ }
        rw [hsame.isLoad, hload] at hstore
        cases hstore
    · rw [hrequest, hsame.isLoad, hsame.inst]
      exact h.useCVUValue
  · rcases r.retireResponse_of_not_split hkind packet fresh with ⟨hk, heq⟩ | heq <;> rw [heq]
    · -- The response takes the place of the packet.
      obtain ⟨hcarries, hfault⟩ := hsingle hk
      refine .of_state (fun hload => .inl (hunbuffered hload)) h.stream
        (fun hf => absurd hfault hf) ?_ h.useCVUValue
      intro k hk'
      cases hk'
      exact hcarries.congr ⟨rfl, rfl, rfl, rfl⟩ rfl
    · exact h

/-- What a change of a request keeps for its packets in flight. -/
structure Keeps (r r' : LSQRequest) : Prop where
  state : r'.state ≠ .inTranslation
  same : SameAccess r r'
  request : r'.request = r.request
  fault : r'.translationFault = noFault ∨ r'.translationFault = r.translationFault

section
variable (h : QueuedOk streamSeqNum r)
include h

/-- `QueuedOk.congr` for a change that keeps the packets in flight. -/
theorem QueuedOk.keeps (hkeeps : Keeps r r') (hpacket : r'.packet = r.packet)
    (hstate : r.MayBecome streamSeqNum r'.state) : QueuedOk streamSeqNum r' :=
  h.congr hkeeps.same hkeeps.request hpacket hkeeps.fault hstate

/-- Bookkeeping, and a fault that is cleared. -/
theorem QueuedOk.adjust (delayed issued : Bool) {fault : Fault}
    (hfault : fault = noFault ∨ fault = r.translationFault) :
    QueuedOk streamSeqNum
      { r with isTranslationDelayed := delayed, issuedToMemory := issued,
               translationFault := fault } := by
  refine { h with
    untranslated := fun hs => ?_, faulted := fun hf => ?_, packet := fun k hk => ?_ }
  · obtain ⟨hnone, hnofault, hdata⟩ := h.untranslated hs
    refine ⟨hnone, ?_, hdata⟩
    rcases hfault with hf | hf
    · exact hf
    · exact hf.trans hnofault
  · rcases hfault with hf' | hf'
    · exact absurd hf' hf
    · exact h.faulted (hf' ▸ hf)
  · exact (h.packet k hk).congr ⟨rfl, rfl, rfl, rfl⟩ rfl

/-- New data in the packet of a load, or of a request that is answered. -/
theorem QueuedOk.withData (hread : r.isLoad = true ∨ r.isAnswered = true) (f : Packet → Buffer)
    (fragments : List Packet) :
    QueuedOk streamSeqNum
      { r with packet := r.packet.map fun packet => { packet with data := f packet }
               fragmentPackets := fragments } := by
  have hnone : r.packet = none →
      (r.packet.map fun packet => { packet with data := f packet }) = none := by
    intro hn
    rw [hn]
    rfl
  refine { h with
    untranslated := fun hs => ?_, faulted := fun hf => hnone (h.faulted hf)
    completed := fun hload hs => ?_, packet := fun k hk => ?_ }
  · obtain ⟨hn, hrest⟩ := h.untranslated hs
    exact ⟨hnone hn, hrest⟩
  · exact (h.completed hload hs).imp_right fun hor => hor.imp_left hnone
  · obtain ⟨k', hk', rfl⟩ := map_eq_some_iff.mp hk
    have hc : Carries { r with
        packet := r.packet.map fun packet => { packet with data := f packet }
        fragmentPackets := fragments } k' :=
      (h.packet k' hk').congr ⟨rfl, rfl, rfl, rfl⟩ rfl
    refine { hc with data := fun hload hanswered => ?_ }
    have hload' : r.isLoad = false := hload
    have hanswered' : r.isAnswered = false := hanswered
    rw [hload', hanswered'] at hread
    rcases hread with hread | hread <;> cases hread

/-- A local access changes data only. -/
theorem QueuedOk.accessLocally (hlocal : r.request.localAccess = true) (data : Buffer) :
    QueuedOk streamSeqNum (LSQ.accessLocally r data) := by
  have hanswered : r.isAnswered = true := by simp [isAnswered, hlocal]
  unfold LSQ.accessLocally
  split
  · exact h.withData (.inr hanswered) (fun _ => data) r.fragmentPackets
  · have hok := h.withData (.inr hanswered) (fun k => k.data)
      (r.fragmentPackets.modify r.numIssuedFragments fun k => { k with data := data })
    have hsame : (r.packet.map fun k => { k with data := k.data }) = r.packet := map_id'
    rw [hsame] at hok
    exact hok
  · exact h

end

theorem keeps_setState (state : LSQRequestState) (hstate : state ≠ .inTranslation) :
    Keeps r (r.setState state) :=
  ⟨hstate, ⟨rfl, rfl, rfl, rfl⟩, rfl, .inr rfl⟩

/-- The step to the next packet and a new state. -/
theorem keeps_stepToNextPacket (hstate : state ≠ .inTranslation) :
    Keeps r (r.stepToNextPacket.setState state) where
  state := hstate
  same := r.stepToNextPacket_frame.1.setState state
  request := r.stepToNextPacket_frame.2.1
  fault := Or.inr r.stepToNextPacket_frame.2.2.2.2.2.2

end

end LSQRequest

namespace LSQView

/-- The invariant of the queue. -/
structure QueueInv (v : LSQView) : Prop where
  queued : ∀ p ∈ v.queue, LSQRequest.QueuedOk v.streamSeqNum (v.heap p)
  accesses : ∀ a ∈ v.inMemory, a.ptr ∈ v.queue →
    (v.heap a.ptr).state ≠ .inTranslation ∧
      ((v.heap a.ptr).kind = .singleData →
        (v.heap a.ptr).Carries a.packet ∧ (v.heap a.ptr).translationFault = noFault)

section
variable {v v' : LSQView} {p : Nat} {rest : List Nat}

open LSQRequest

/-- The rule for a change of one request. The queue may lose requests, and new packets in
flight carry their request. -/
theorem QueueInv.update (h : v.QueueInv) (p : Nat) (hstream : v'.streamSeqNum = v.streamSeqNum)
    (hqueue : ∀ q ∈ v'.queue, q ∈ v.queue) (hother : ∀ q ∈ v'.queue, q ≠ p → v'.heap q = v.heap q)
    (hself : p ∈ v'.queue → QueuedOk v.streamSeqNum (v'.heap p) ∧
      ((v.heap p).state ≠ .inTranslation → Keeps (v.heap p) (v'.heap p)))
    (hmem : ∀ a ∈ v'.inMemory, a.ptr ∈ v'.queue → a ∈ v.inMemory ∨
      ((v'.heap a.ptr).state ≠ .inTranslation ∧ ((v'.heap a.ptr).kind = .singleData →
          (v'.heap a.ptr).Carries a.packet ∧ (v'.heap a.ptr).translationFault = noFault))) :
    v'.QueueInv where
  queued := by
    intro q hq
    rw [hstream]
    by_cases hqp : q = p
    · subst hqp
      exact (hself hq).1
    · rw [hother q hq hqp]
      exact h.queued q (hqueue q hq)
  accesses := by
    intro a ha hq
    rcases hmem a ha hq with hold | hnew
    · obtain ⟨hstate, hsingle⟩ := h.accesses a hold (hqueue _ hq)
      by_cases hqp : a.ptr = p
      · subst hqp
        have hkeeps := (hself hq).2 hstate
        refine ⟨hkeeps.state, fun hkind => ?_⟩
        obtain ⟨hcarries, hfault⟩ := hsingle (hkeeps.same.kind ▸ hkind)
        refine ⟨hcarries.congr hkeeps.same hkeeps.request, ?_⟩
        rcases hkeeps.fault with hf | hf
        · exact hf
        · rw [hf, hfault]
      · rw [hother _ hq hqp]
        exact ⟨hstate, hsingle⟩
    · exact hnew

variable {r : LSQRequest}

variable (h : v.QueueInv)
include h

/-- The same for a change of a request of the queue that keeps the queue and the packets in
flight. -/
theorem QueueInv.put (hr : QueuedOk v.streamSeqNum r)
    (hkeeps : (v.heap p).state ≠ .inTranslation → Keeps (v.heap p) r) : (v.put p r).QueueInv := by
  refine h.update p rfl (fun q hq => hq) (fun q _ hqp => put_heap_of_ne r hqp) ?_
    (fun a ha _ => .inl ha)
  intro _
  rw [put_heap_self]
  exact ⟨hr, hkeeps⟩

/-- The same for a change that keeps the packet. -/
theorem QueueInv.keeps (hp : p ∈ v.queue) (hkeeps : Keeps (v.heap p) r)
    (hpacket : r.packet = (v.heap p).packet)
    (hstate : (v.heap p).MayBecome v.streamSeqNum r.state) : (v.put p r).QueueInv :=
  h.put ((h.queued p hp).keeps hkeeps hpacket hstate) fun _ => hkeeps

/-- A request outside the queue does not count. -/
theorem QueueInv.put_other (hp : p ∉ v.queue) (r : LSQRequest) : (v.put p r).QueueInv :=
  h.update p rfl (fun _ hq => hq) (fun _ _ hqp => put_heap_of_ne r hqp)
    (fun hq => absurd hq hp) (fun _ ha _ => .inl ha)

/-- The queue stays when its front moves on. -/
theorem QueueInv.move (hfront : v.requests = p :: rest) : (v.move p rest).QueueInv := by
  have hqueue := queue_move hfront
  refine h.update p rfl (fun q hq => hqueue ▸ hq) (fun _ _ _ => rfl) ?_ (fun a ha _ => .inl ha)
  exact fun hp => ⟨h.queued p (hqueue ▸ hp), fun hs => ⟨hs, SameAccess.refl _, rfl, .inr rfl⟩⟩

theorem QueueInv.moveIf (hfront : v.requests = p :: rest) (sent : Bool) :
    (v.moveIf sent p rest).QueueInv := by
  unfold LSQView.moveIf
  split
  · exact h.move hfront
  · exact h

/-- A new request. -/
theorem QueueInv.alloc (hwf : v.WF) (hr : QueuedOk v.streamSeqNum r) : (v.alloc r).QueueInv := by
  have hold : ∀ q ∈ (v.alloc r).queue, q = v.nextPtr ∨ q ∈ v.queue := by
    intro q hq
    simp only [queue, LSQView.alloc, mem_append, mem_singleton] at hq ⊢
    rcases hq with hq | hq | hq
    · exact .inr (.inl hq)
    · exact .inr (.inr hq)
    · exact .inl hq
  have hheap : ∀ q, q ≠ v.nextPtr → (v.alloc r).heap q = v.heap q := fun q hq => put_heap_of_ne r hq
  refine ⟨?_, ?_⟩
  · intro q hq
    by_cases hqn : q = v.nextPtr
    · subst hqn
      have hself : (v.alloc r).heap v.nextPtr = r := put_heap_self r
      rw [hself]
      exact hr
    · rw [hheap q hqn]
      exact h.queued q ((hold q hq).resolve_left hqn)
  · intro a ha hq
    have hne : a.ptr ≠ v.nextPtr := (hwf.owned a ha).ne
    rw [hheap _ hne]
    exact h.accesses a ha ((hold _ hq).resolve_left hne)

/-- The packets in flight change. -/
theorem QueueInv.inMemory {inMemory : List MemAccess} (mem : Addr → Byte)
    (hmem : ∀ a ∈ inMemory, a.ptr ∈ v.queue → a ∈ v.inMemory ∨ ∃ b ∈ v.inMemory, b.ptr = a.ptr ∧
        ((v.heap a.ptr).Carries b.packet → (v.heap a.ptr).Carries a.packet)) :
    QueueInv { v with inMemory := inMemory, mem := mem } := by
  refine ⟨h.queued, fun a ha hq => ?_⟩
  rcases hmem a ha hq with hold | ⟨b, hb, hptr, hcarries⟩
  · exact h.accesses a hold hq
  · obtain ⟨hstate, hsingle⟩ := h.accesses b hb (hptr ▸ hq)
    rw [hptr] at hstate hsingle
    exact ⟨hstate, fun hkind => (hsingle hkind).imp_left hcarries⟩

/-- A packet of another request enters the memory system. -/
theorem QueueInv.sendPacket_other (hp : p ∉ v.queue) (packet : Packet) :
    (v.sendPacket p packet).QueueInv := by
  refine h.inMemory v.mem fun a ha hq => ?_
  rcases mem_append.mp ha with ha | ha
  · exact .inl ha
  · rw [mem_singleton] at ha
    subst ha
    exact absurd hq hp

/-- The front of `transfers` leaves the queue, with any change to it. -/
theorem QueueInv.leave (hwf : v.WF) (hfront : v.transfers = p :: rest)
    (hstream : v'.streamSeqNum = v.streamSeqNum) (htransfers : v'.transfers = rest)
    (hrequests : v'.requests = v.requests) (hmem : v'.inMemory = v.inMemory)
    (hheap : ∀ q, q ≠ p → v'.heap q = v.heap q) : v'.QueueInv := by
  have hqueue : v'.queue = rest ++ v.requests := by
    rw [queue, htransfers, hrequests]
  have hold : v.queue = p :: v'.queue := by
    rw [hqueue, queue, hfront, cons_append]
  have hnot : p ∉ v'.queue := hqueue ▸ (hwf.not_mem_of_front hfront).1
  refine h.update p hstream ?_ (fun q _ hqp => hheap q hqp) (fun hp => absurd hp hnot) ?_
  · intro q hq
    rw [hold]
    exact mem_cons_of_mem p hq
  · intro a ha _
    exact .inl (hmem ▸ ha)

/-- A packet of a queued request enters the memory system. -/
theorem QueueInv.sendPacket {packet : Packet} (hp : p ∈ v.queue)
    (hstate : (v.heap p).state ≠ .inTranslation)
    (hsingle : (v.heap p).kind = .singleData → (v.heap p).packet = some packet) :
    (v.sendPacket p packet).QueueInv := by
  refine h.update p rfl (fun q hq => hq) (fun _ _ _ => rfl)
    (fun _ => ⟨h.queued p hp, fun hs => ⟨hs, SameAccess.refl _, rfl, .inr rfl⟩⟩) ?_
  intro a ha _
  rcases mem_append.mp ha with ha | ha
  · exact .inl ha
  · rw [mem_singleton] at ha
    subst ha
    refine .inr ⟨hstate, fun hkind => ⟨(h.queued p hp).packet packet (hsingle hkind), ?_⟩⟩
    by_contra hfault
    have hnone := (h.queued p hp).faulted hfault
    rw [hsingle hkind] at hnone
    cases hnone

end

end LSQView

open LSQView LSQRequest in
/-- A new request of `pushRequest`. -/
theorem queuedOk_push {streamSeqNum : ThreadID → InstSeqNum} (args : LSQ.PushArgs) (cvu : CVU)
    (lineWidth : Nat) (fresh : Buffer)
    (hstream : args.inst.id.streamSeqNum = streamSeqNum args.inst.id.threadId) :
    QueuedOk streamSeqNum
      ((args.newRequest cvu lineWidth fresh).startAddrTranslation lineWidth) := by
  obtain ⟨fragments, n, state, heq, hstate⟩ :=
    startAddrTranslation_newRequest args cvu lineWidth fresh
  rw [heq]
  refine ⟨hstream.le, ?_, fun _ => rfl, ?_, fun _ _ => .inr (.inl rfl), ?_, ?_, ?_⟩
  · intro _
    refine ⟨rfl, rfl, fun hload => ?_⟩
    have hload' : args.isLoad = false := hload
    simp [LSQ.PushArgs.newRequest, LSQRequest.new, hload']
  · intro _ hs
    rcases hstate with rfl | rfl <;> rcases hs with hs | hs <;> cases hs
  · intro k hk
    cases hk
  · intro hcvu
    have hcvu : args.usesCVU cvu = true := hcvu
    simp only [LSQ.PushArgs.usesCVU, Bool.and_eq_true] at hcvu
    exact hcvu.1
  · intro hs
    rcases hstate with rfl | rfl <;> cases hs

open LSQView LSQRequest in
/-- Each change keeps the invariant of the queue. -/
theorem queueInv_step {v v' : LSQView} {l : LSQLabel} (hwf : v.WF) (h : v.QueueInv)
    (hstep : LSQStep v l v') : v'.QueueInv := by
  -- The front of `requests` is in the queue.
  have hmem : ∀ {p : Nat} {rest : List Nat}, v.requests = p :: rest → p ∈ v.queue := by
    intro p rest hfront
    simp [queue, hfront]
  -- The front of `requests` sends a packet.
  have hsend : ∀ {p : Nat} {rest : List Nat} {packet : Packet}, v.requests = p :: rest →
      (v.heap p).getHeadPacket = some packet →
      ((v.heap p).isLoad = false → (v.heap p).buffers = false) →
      ((((v.put p ((v.heap p).stepToNextPacket.setState .requestIssuing)).sendPacket p
        packet).moveIf (v.heap p).stepToNextPacket.sentAllPackets p rest)).QueueInv := by
    intro p rest packet hfront hpacket hunbuffered
    have hkeeps : Keeps (v.heap p) ((v.heap p).stepToNextPacket.setState .requestIssuing) :=
      keeps_stepToNextPacket (by simp)
    have hput := h.keeps (hmem hfront) hkeeps (v.heap p).stepToNextPacket_frame.2.2.1 hunbuffered
    refine (hput.sendPacket (hmem hfront) ?_ ?_).moveIf hfront _
    · rw [put_heap_self]
      exact hkeeps.state
    · rw [put_heap_self]
      intro hkind
      have hkind' : (v.heap p).kind = .singleData := hkeeps.same.kind.symm.trans hkind
      have hsame : ((v.heap p).stepToNextPacket.setState .requestIssuing).packet
          = (v.heap p).packet := (v.heap p).stepToNextPacket_frame.2.2.1
      rw [hsame, ← hpacket, getHeadPacket, hkind']
  cases hstep with
  | idle => exact h
  | push args fresh hstream =>
    have hright : args.inst.id.streamSeqNum = v.streamSeqNum args.inst.id.threadId := by
      simpa [rightStream] using hstream
    exact h.alloc hwf (queuedOk_push args v.cvu v.lineWidth fresh hright)
  | pushFailed inst hstream =>
    have hright : inst.id.streamSeqNum = v.streamSeqNum inst.id.threadId := by
      simpa [rightStream] using hstream
    refine h.alloc hwf ⟨hright.le, ?_, fun _ => rfl, ?_, ?_, ?_, ?_, ?_⟩
    all_goals simp [LSQ.specialRequest, LSQRequest.new]
  | adjust p delayed issued hp =>
    have hq : p ∈ v.queue := mem_append_right _ hp
    exact h.put ((h.queued p hq).adjust delayed issued (.inr rfl))
      fun hs => ⟨hs, ⟨rfl, rfl, rfl, rfl⟩, rfl, .inr rfl⟩
  | clearFault p hp =>
    exact h.put ((h.queued p hp).adjust _ _ (.inl rfl))
      fun hs => ⟨hs, ⟨rfl, rfl, rfl, rfl⟩, rfl, .inl rfl⟩
  | finish p t fresh hp hstate =>
    have hq : p ∈ v.queue := mem_append_right _ hp
    exact h.put ((h.queued p hq).finish hstate t fresh) fun hs => absurd hstate hs
  | skip p rest hfront hretry hskip =>
    have hok := h.queued p (hmem hfront)
    have hkeeps : Keeps (v.heap p) { v.heap p with state := .complete, skipped := true } :=
      ⟨by simp, ⟨rfl, rfl, rfl, rfl⟩, rfl, .inr rfl⟩
    refine (h.keeps (hmem hfront) hkeeps rfl fun hload => ?_).move hfront
    rcases hskip with hs | hs | ⟨hs, -⟩ | hs
    · exact hok.completed hload hs
    · cases (hok.failed hs).symm.trans hload
    · -- A request of another stream is of an older one.
      refine .inr (.inr (lt_of_le_of_ne hok.stream ?_))
      simpa [rightStream] using hs
    · exact .inr (.inl (hok.faulted hs))
  | toStoreBuffer p rest hcan =>
    exact (h.keeps (hmem hcan.front) (keeps_setState .storeToStoreBuffer (by simp)) rfl trivial).move
      hcan.front
  | forward p rest slot packet hcan hload hcover hpacket =>
    have hok := (h.queued p (hmem hcan.front)).withData (.inl hload)
      (fun k => LSQRequest.memcpy packet.data 0
        (fun i => (((v.heap slot).packet.map fun s => s.data).getD packet.data)
          ((v.heap p).request.paddr - (v.heap slot).request.paddr + i))
        (v.heap p).request.size) (v.heap p).fragmentPackets
    rw [hpacket] at hok
    have hkeeps : Keeps (v.heap p)
        ((LSQ.forwardStoreData (v.heap slot) (v.heap p) packet).setState .complete) :=
      ⟨by simp [setState], ⟨rfl, rfl, rfl, rfl⟩, rfl, .inr rfl⟩
    refine (h.put ?_ fun _ => hkeeps).move hcan.front
    refine hok.congr ⟨rfl, rfl, rfl, rfl⟩ rfl rfl (.inr rfl) fun hstore => ?_
    cases hload.symm.trans hstore
  | failConditional p rest hcan hstore hllsc =>
    refine (h.keeps (hmem hcan.front) (keeps_setState .complete (by simp)) rfl fun _ => ?_).move
      hcan.front
    exact .inl (by simp [buffers, Request.bufferable, hllsc])
  | sendLocally p rest packet data hcan hlocal =>
    obtain ⟨hsame, hrequest, hfault⟩ := (v.heap p).accessLocally_frame data
    have hok := (h.queued p (hmem hcan.front)).accessLocally hlocal data
    generalize LSQ.accessLocally (v.heap p) data = r at *
    have hbuffers : r.buffers = false := by simp [buffers, hrequest, hlocal]
    have hstate : (if r.stepToNextPacket.sentAllPackets = true then LSQRequestState.complete
        else .requestIssuing) ≠ .inTranslation := by
      split <;> simp
    have hnext : Keeps r _ := keeps_stepToNextPacket hstate
    have hkeeps : Keeps (v.heap p) (r.stepToNextPacket.setState
        (if r.stepToNextPacket.sentAllPackets then .complete else .requestIssuing)) :=
      ⟨hstate, hsame.trans hnext.same, hnext.request.trans hrequest,
        hnext.fault.imp_right fun hf => hf.trans hfault⟩
    refine (h.put (hok.keeps hnext r.stepToNextPacket_frame.2.2.1 ?_) fun _ => hkeeps).moveIf
      hcan.front _
    split
    · exact fun _ => .inl hbuffers
    · exact fun _ => hbuffers
  | send p rest packet hcan hlocal hpacket =>
    refine hsend hcan.front hpacket fun hload => ?_
    rcases hcan.store hload with hb | hl
    · simp [buffers, hb]
    · cases hl.symm.trans hlocal
  | refuse p rest packet hcan hlocal =>
    have hput : (v.put p ((v.heap p).setState .requestNeedsRetry)).QueueInv := by
      refine h.keeps (hmem hcan.front) (keeps_setState _ (by simp)) rfl fun hload => ?_
      rcases hcan.store hload with hb | hl
      · simp [buffers, hb]
      · cases hl.symm.trans hlocal
    exact ⟨hput.queued, hput.accesses⟩
  | resend p rest packet hretry hstate hfront hlocal hpacket =>
    have hsent := hsend hfront hpacket fun hload =>
      (h.queued p (hmem hfront)).issued hload (.inr hstate)
    exact ⟨hsent.queued, hsent.accesses⟩
  | unblock p hretry hstate =>
    obtain ⟨hhead, -⟩ := (hwf.retry p hretry).1 hstate
    have hq : p ∈ v.queue := mem_append_right _ (mem_of_head? hhead)
    have hput : (v.put p ((v.heap p).setState .translated)).QueueInv :=
      h.keeps hq (keeps_setState _ (by simp)) rfl trivial
    exact ⟨hput.queued, hput.accesses⟩
  | clearBarrier | snoop => exact ⟨h.queued, h.accesses⟩
  | slotSend p older younger packet hslots =>
    have hnot : p ∉ v.queue := hwf.not_queued (by simp [hslots])
    exact (h.put_other hnot _).sendPacket_other hnot packet
  | slotRefuse p older younger packet hslots =>
    have hp : p ∈ v.slots := by simp [hslots]
    have hput := h.put_other (hwf.not_queued hp) ((v.heap p).setState .storeBufferNeedsRetry)
    exact ⟨hput.queued, hput.accesses⟩
  | slotResend p packet hretry hstate =>
    have hnot : p ∉ v.queue := hwf.not_queued ((hwf.retry p hretry).2 hstate)
    have hsent := (h.put_other hnot
      ((v.heap p).stepToNextPacket.setState .storeBufferIssuing)).sendPacket_other hnot packet
    exact ⟨hsent.queued, hsent.accesses⟩
  | slotUnblock p hretry hstate =>
    have hput := h.put_other (hwf.not_queued ((hwf.retry p hretry).2 hstate))
      ((v.heap p).setState .storeInStoreBuffer)
    exact ⟨hput.queued, hput.accesses⟩
  | insertBarrier inst =>
    have hnot : v.nextPtr ∉ v.queue := by
      intro hq
      exact absurd (hwf.fresh v.nextPtr (mem_append_left _ hq)) (Nat.lt_irrefl _)
    have hput := h.put_other hnot (LSQ.specialRequest .barrierData inst .complete)
    exact ⟨hput.queued, hput.accesses⟩
  | perform k a newData succeeds ha =>
    refine h.inMemory _ fun b hb _ => ?_
    rcases mem_or_eq_of_mem_set hb with hb | rfl
    · exact .inl hb
    · exact .inr ⟨a, mem_of_getElem? ha, rfl, fun hc => hc.answer v.mem⟩
  | respond k a fresh ha hperformed hstate =>
    obtain ⟨hsame, hrequest, hfault, -⟩ := (v.heap a.ptr).retireResponse_frame a.packet fresh
    refine h.update a.ptr rfl (fun _ hq => hq) (fun _ _ hqp => put_heap_of_ne _ hqp) ?_
      (fun b hb _ => .inl (mem_of_mem_eraseIdx hb))
    intro hq
    obtain ⟨hsent, hsingle⟩ := h.accesses a (mem_of_getElem? ha) hq
    have hself : ({ v.put a.ptr ((v.heap a.ptr).retireResponse a.packet fresh) with
        inMemory := v.inMemory.eraseIdx k } : LSQView).heap a.ptr
        = (v.heap a.ptr).retireResponse a.packet fresh := put_heap_self _
    rw [hself]
    refine ⟨(h.queued a.ptr hq).retireResponse hstate hsingle fresh,
      fun _ => ⟨?_, hsame, hrequest, .inr hfault⟩⟩
    rcases (v.heap a.ptr).state_retireResponse a.packet fresh with hs | hs <;> rw [hs]
    · exact hsent
    · simp
  | slotRespond k a fresh ha hperformed hstate =>
    have hput := h.put_other (hwf.not_queued_of_state hstate)
      ((v.heap a.ptr).retireResponse a.packet fresh)
    exact ⟨hput.queued, fun b hb => hput.accesses b (mem_of_mem_eraseIdx hb)⟩
  | commit env p rest hrespond =>
    unfold LSQView.commit
    dsimp only
    split <;> exact h.leave hwf hrespond.1 rfl rfl rfl rfl fun q hq => put_heap_of_ne _ hq
  | discard p rest hrespond => exact h.leave hwf hrespond.1 rfl rfl rfl rfl fun _ _ => rfl
  | changeStream tid =>
    refine ⟨fun p hp => (h.queued p hp).mono fun tid' => ?_, h.accesses⟩
    by_cases htid : tid' = tid
    · subst htid
      simp
    · simp [htid]

namespace LSQSystem

variable (params : LSQParams) (mem : Addr → Byte)

/-- The queue is empty at first. -/
theorem queueInv_new : (new params mem).view.QueueInv :=
  ⟨nofun, nofun⟩

/-- The invariants hold after every run. -/
theorem queueInv_run {es : List Event} {s : LSQSystem}
    (hrun : Lib.run step (new params mem) es = some s) : s.view.WF ∧ s.view.QueueInv :=
  lsqSystem_refines.run_invariant queueInv_step (wf_new params mem) (queueInv_new params mem) hrun

end LSQSystem

end Gem5.MyMinor
