import Gem5.Lib.Refinement
import Gem5.MyMinor.LSQStep
import Gem5.Proofs.MyMinor.LSQRequest
import Gem5.Proofs.MyMinor.MemResponse

/-!
# `Gem5.Proofs.MyMinor.LSQStep`: the LSQ refines its transition relation

`LSQView.WF` is what every view has: a request is in one place, its state fits the place, and
the request that waits for a retry is the front of `requests` or in the store buffer.
`wf_step` proves that each change keeps it.

`lsqSystem_refines` connects the two levels: each event of `LSQSystem` is one labelled change
followed by quiet ones.
-/

namespace Gem5.MyMinor

open Function List LSQRequest Relation.ReflTransGen Sublist
open Option (map_eq_some_iff bind_eq_some_iff ite_none_left_eq_some ite_none_right_eq_some)

/-! ### Well-formed views -/

/-- The states of a request in `requests`. -/
def InRequests : LSQRequestState → Prop
  | .inTranslation | .translated | .failed | .requestIssuing | .requestNeedsRetry
  | .complete => True
  | _ => False

/-- The states of a request in `transfers`. Only bufferable stores without a local accessor
are on their way to the store buffer. -/
def InTransfers (r : LSQRequest) : Prop :=
  r.state = .requestIssuing ∨ r.state = .complete ∨
    (r.state = .storeToStoreBuffer ∧ r.isLoad = false ∧ r.request.bufferable = true ∧
      r.request.localAccess = false)

/-- The states of a request in the store buffer. -/
def InSlots (r : LSQRequest) : Prop :=
  (r.state = .storeInStoreBuffer ∨ r.state = .storeBufferIssuing ∨
    r.state = .storeBufferNeedsRetry ∨ r.state = .complete) ∧ r.request.localAccess = false

/-- The new state of a request after `finish` fits into `requests`. -/
theorem inRequests_finish (r : LSQRequest) (t : Translation) (fresh : Buffer)
    (h : r.state = .inTranslation) :
    InRequests (r.finish t fresh).state ∧ (r.finish t fresh).state ≠ .requestNeedsRetry := by
  rcases r.state_finish t fresh with hs | hs | ⟨hs, -⟩ <;> rw [hs] <;> simp [h, InRequests]

/-- A slot after a packet was sent. -/
theorem inSlots_issuing {r : LSQRequest} (h : InSlots r) :
    InSlots (r.stepToNextPacket.setState .storeBufferIssuing) := by
  refine ⟨.inr (.inl rfl), ?_⟩
  simpa [setState, r.stepToNextPacket_frame.2.1] using h.2

namespace LSQView

/-- What every view has. -/
structure WF (v : LSQView) : Prop where
  nodup : (v.queue ++ v.slots).Nodup
  fresh : ∀ p ∈ v.queue ++ v.slots, p < v.nextPtr
  owned : ∀ a ∈ v.inMemory, a.ptr < v.nextPtr
  requests : ∀ p ∈ v.requests, InRequests (v.heap p).state
  transfers : ∀ p ∈ v.transfers, InTransfers (v.heap p)
  slots : ∀ p ∈ v.slots, InSlots (v.heap p)
  retry : ∀ p, v.retry = some p →
    ((v.heap p).state = .requestNeedsRetry →
      v.requests.head? = some p ∧ (v.heap p).request.localAccess = false) ∧
      ((v.heap p).state = .storeBufferNeedsRetry → p ∈ v.slots)

section
variable {v : LSQView} {p : Nat} {rest : List Nat}

@[simp] theorem put_heap_self (r : LSQRequest) : (v.put p r).heap p = r := by
  simp [put]

theorem put_heap_of_ne (r : LSQRequest) {q : Nat} (h : q ≠ p) : (v.put p r).heap q = v.heap q := by
  simp [put, h]

/-- What holds of the new request and of the others. -/
theorem forall_put {P : Nat → LSQRequest → Prop} {qs : List Nat} {r : LSQRequest}
    (hp : p ∈ qs → P p r) (h : ∀ q ∈ qs, q ≠ p → P q (v.heap q)) :
    ∀ q ∈ qs, P q ((v.put p r).heap q) := by
  intro q hq
  by_cases hqp : q = p
  · subst hqp
    rw [put_heap_self]
    exact hp hq
  · rw [put_heap_of_ne r hqp]
    exact h q hq hqp

/-- No slot overlaps a load when the search finds none. -/
theorem noCoverage_of_findCoverage {load : LSQRequest} {slots : List Nat}
    (h : (v.findCoverage load slots).1 = .noCoverage) :
    ∀ q ∈ slots, LSQ.slotCoverage (v.heap q) load = .noCoverage := by
  induction slots with
  | nil => simp
  | cons s slots ih =>
    simp only [findCoverage] at h
    split at h
    · rename_i hs
      exact forall_mem_cons.mpr ⟨hs, ih h⟩
    · rename_i hs
      exact absurd h hs

/-- The search finds the youngest slot that overlaps the load. -/
theorem exists_of_findCoverage {load : LSQRequest} {slots : List Nat} {slot : Nat}
    (h : v.findCoverage load slots = (.fullCoverage, slot)) :
    ∃ before after, slots = before ++ slot :: after ∧
      (∀ q ∈ before, LSQ.slotCoverage (v.heap q) load = .noCoverage) ∧
      LSQ.slotCoverage (v.heap slot) load = .fullCoverage := by
  induction slots with
  | nil => simp [findCoverage] at h
  | cons s slots ih =>
    simp only [findCoverage] at h
    split at h
    · rename_i hs
      obtain ⟨before, after, rfl, hbefore, hslot⟩ := ih h
      exact ⟨s :: before, after, rfl, forall_mem_cons.mpr ⟨hs, hbefore⟩, hslot⟩
    · simp only [Prod.mk.injEq] at h
      obtain ⟨hfull, rfl⟩ := h
      exact ⟨[], slots, rfl, by simp, hfull⟩

section
variable (h : v.WF)
include h

/-- A request of `requests` is nowhere else. -/
theorem WF.not_mem_of_request (hp : p ∈ v.requests) : p ∉ v.transfers ∧ p ∉ v.slots := by
  have hnodup := h.nodup
  simp only [queue, nodup_append, mem_append] at hnodup
  exact ⟨fun ht => hnodup.1.2.2 p ht p hp rfl, fun hs => hnodup.2.2 p (.inr hp) p hs rfl⟩

/-- A request of `transfers` is nowhere else. -/
theorem WF.not_mem_of_transfer (hp : p ∈ v.transfers) :
    p ∉ v.requests ∧ p ∉ v.slots := by
  have hnodup := h.nodup
  simp only [queue, nodup_append, mem_append] at hnodup
  exact ⟨fun hr => hnodup.1.2.2 p hp p hr rfl, fun hs => hnodup.2.2 p (.inl hp) p hs rfl⟩

/-- A request of the store buffer is nowhere else. -/
theorem WF.not_queued (hp : p ∈ v.slots) : p ∉ v.queue :=
  fun hq => (nodup_append.mp h.nodup).2.2 p hq p hp rfl

/-- The states of the store buffer do not occur in the queue. -/
theorem WF.not_queued_of_state (hstate : (v.heap p).state = .storeBufferIssuing ∨
    (v.heap p).state = .storeBufferNeedsRetry) : p ∉ v.queue := by
  intro hq
  rcases mem_append.mp hq with hq | hq
  · have ht := h.transfers p hq
    rcases hstate with hs | hs <;> simp [InTransfers, hs] at ht
  · have hr := h.requests p hq
    rcases hstate with hs | hs <;> rw [hs] at hr <;> exact hr

/-- The front of `transfers` is nowhere else. -/
theorem WF.not_mem_of_front (hfront : v.transfers = p :: rest) :
    p ∉ rest ++ v.requests ∧ p ∉ v.slots := by
  have hnodup := h.nodup
  rw [queue, hfront, cons_append, cons_append, nodup_cons, mem_append] at hnodup
  exact not_or.mp hnodup.1

theorem WF.not_mem_of_slot (hp : p ∈ v.slots) : p ∉ v.requests ∧ p ∉ v.transfers :=
  ⟨fun hr => (h.not_mem_of_request hr).2 hp, fun ht => (h.not_mem_of_transfer ht).2 hp⟩

end

theorem CanTransfer.mem (h : v.CanTransfer p rest) : p ∈ v.requests := by
  rw [h.front]
  exact mem_cons_self

variable {r : LSQRequest}

section
variable (h : v.WF)
include h

/-- Replacing a request keeps the view well formed when the new state fits its place. -/
theorem WF.put (hreq : p ∈ v.requests → InRequests r.state)
    (htr : p ∈ v.transfers → InTransfers r) (hslot : p ∈ v.slots → InSlots r)
    (hretry : v.retry = some p → (r.state = .requestNeedsRetry →
        v.requests.head? = some p ∧ r.request.localAccess = false) ∧
        (r.state = .storeBufferNeedsRetry → p ∈ v.slots)) : (v.put p r).WF where
  nodup := h.nodup
  fresh := h.fresh
  owned := h.owned
  requests := forall_put (P := fun _ r => InRequests r.state) hreq fun q hq _ => h.requests q hq
  transfers := forall_put htr fun q hq _ => h.transfers q hq
  slots := forall_put hslot fun q hq _ => h.slots q hq
  retry := by
    intro q hq
    by_cases hqp : q = p
    · subst hqp
      rw [put_heap_self]
      exact hretry hq
    · rw [put_heap_of_ne r hqp]
      exact h.retry q hq

/-- The same for a request of `requests` that does not start to wait for a retry. -/
theorem WF.put_request (hp : p ∈ v.requests) (hr : InRequests r.state)
    (hretry : r.state = .requestNeedsRetry → (v.heap p).state = .requestNeedsRetry ∧
      r.request.localAccess = (v.heap p).request.localAccess) : (v.put p r).WF := by
  obtain ⟨hntr, hnslot⟩ := h.not_mem_of_request hp
  refine h.put (fun _ => hr) (fun hq => absurd hq hntr) (fun hq => absurd hq hnslot) ?_
  intro hp'
  refine ⟨fun hstate => ?_, fun hstate => ?_⟩
  · obtain ⟨hold, hlocal⟩ := hretry hstate
    rw [hlocal]
    exact (h.retry p hp').1 hold
  · rw [hstate] at hr
    exact hr.elim

/-- The same for a request of `transfers`. -/
theorem WF.put_transfer (hp : p ∈ v.transfers) (hr : InTransfers r) :
    (v.put p r).WF := by
  obtain ⟨hnreq, hnslot⟩ := h.not_mem_of_transfer hp
  refine h.put (fun hq => absurd hq hnreq) (fun _ => hr) (fun hq => absurd hq hnslot) ?_
  intro _
  constructor <;> intro hstate <;> rcases hr with hr | hr | hr <;> simp [hr] at hstate

/-- The same for a request of the store buffer. -/
theorem WF.put_slot (hp : p ∈ v.slots) (hr : InSlots r) : (v.put p r).WF := by
  obtain ⟨hnreq, hntr⟩ := h.not_mem_of_slot hp
  refine h.put (fun hq => absurd hq hnreq) (fun hq => absurd hq hntr) (fun _ => hr) ?_
  intro _
  refine ⟨fun hstate => ?_, fun _ => hp⟩
  rcases hr.1 with hr | hr | hr | hr <;> simp [hr] at hstate

/-- Without a waiting request the last field says nothing. -/
theorem WF.no_retry : WF { v with retry := none } :=
  { h with retry := fun _ hp => by cases hp }

end

/-- The requests of a view in program order do not change when the front of `requests` goes
to `transfers`. -/
theorem queue_move (hfront : v.requests = p :: rest) : (v.move p rest).queue = v.queue := by
  simp [queue, move, hfront]

/-- Replacing the front of `requests` by a request that fits into `transfers`, and moving
it. The request is never seen in `requests` with its new state. -/
theorem WF.put_move (h : v.WF) (hfront : v.requests = p :: rest) (hretry : v.retry = none)
    (hr : InTransfers r) : ((v.put p r).move p rest).WF := by
  have hp : p ∈ v.requests := by rw [hfront]; exact mem_cons_self
  obtain ⟨hntr, hnslot⟩ := h.not_mem_of_request hp
  have hnrest : p ∉ rest := by
    have hnodup := h.nodup
    simp only [queue, hfront, nodup_append, nodup_cons] at hnodup
    exact hnodup.1.2.1.1
  have hq : ((v.put p r).move p rest).queue = v.queue := queue_move hfront
  exact
    { nodup := by rw [hq]; exact h.nodup
      fresh := by rw [hq]; exact h.fresh
      owned := h.owned
      requests := forall_put (P := fun _ r => InRequests r.state) (fun hq => absurd hq hnrest)
        fun q hq _ => h.requests q (hfront ▸ mem_cons_of_mem p hq)
      transfers := forall_put (fun _ => hr) fun q hq hqp =>
        h.transfers q ((mem_append.mp hq).resolve_right fun hq => hqp (mem_singleton.mp hq))
      slots := forall_put (fun hq => absurd hq hnslot) fun q hq _ => h.slots q hq
      retry := by
        intro q hq
        have hq' : v.retry = some q := hq
        rw [hretry] at hq'
        cases hq' }

/-- A packet of a known request enters the memory system. -/
theorem WF.sendPacket (h : v.WF) (hp : p < v.nextPtr) (packet : Packet) :
    (v.sendPacket p packet).WF :=
  { h with
    owned := forall_mem_append.mpr ⟨h.owned, forall_mem_singleton.mpr hp⟩ }

/-- A new request at the end of `requests`. -/
theorem WF.alloc (h : v.WF) (hr : InRequests r.state) (hretry : r.state ≠ .requestNeedsRetry) :
    (v.alloc r).WF := by
  have hnew : v.nextPtr ∉ v.queue ++ v.slots := fun hmem => Nat.lt_irrefl _ (h.fresh _ hmem)
  have hmem : ∀ q ∈ (v.alloc r).queue ++ (v.alloc r).slots,
      q ∈ v.queue ++ v.slots ∨ q = v.nextPtr := by
    intro q hq
    simp only [LSQView.alloc, queue, mem_append, mem_singleton] at hq ⊢
    tauto
  refine
    { nodup := ?_
      fresh := ?_
      owned := fun a ha => Nat.lt_succ_of_lt (h.owned a ha)
      requests := ?_
      transfers := ?_
      slots := ?_
      retry := ?_ }
  · have hperm : ((v.alloc r).queue ++ (v.alloc r).slots).Perm
        (v.nextPtr :: (v.queue ++ v.slots)) := by
      simp only [LSQView.alloc, LSQView.put, queue]
      rw [← append_assoc v.transfers, append_assoc _ [v.nextPtr]]
      exact perm_middle
    exact hperm.nodup_iff.mpr (nodup_cons.mpr ⟨hnew, h.nodup⟩)
  · intro q hq
    rcases hmem q hq with hq | hq
    · exact Nat.lt_succ_of_lt (h.fresh q hq)
    · rw [hq]
      exact Nat.lt_succ_self _
  · exact forall_put (P := fun _ r => InRequests r.state) (fun _ => hr) fun q hq hqp =>
      h.requests q ((mem_append.mp hq).resolve_right fun hq => hqp (mem_singleton.mp hq))
  · exact forall_put (fun hq => absurd (by simp [queue, show _ ∈ v.transfers from hq]) hnew)
      fun q hq _ => h.transfers q hq
  · exact forall_put (fun hq => absurd (mem_append_right _ hq) hnew)
      fun q hq _ => h.slots q hq
  · intro q hq
    have hq' : v.retry = some q := hq
    by_cases hqp : q = v.nextPtr
    · -- A new request does not wait for a retry.
      subst hqp
      have hstate : ((v.alloc r).heap v.nextPtr).state = r.state := by simp [LSQView.alloc]
      rw [hstate]
      refine ⟨fun hs => absurd hs hretry, fun hs => ?_⟩
      rw [hs] at hr
      exact hr.elim
    · have hstate : (v.alloc r).heap q = v.heap q := by
        simp [LSQView.alloc, put_heap_of_ne r hqp]
      rw [hstate]
      obtain ⟨hreq, hslot⟩ := h.retry q hq'
      refine ⟨fun hs => ⟨?_, (hreq hs).2⟩, hslot⟩
      have hhead := (hreq hs).1
      cases hrequests : v.requests with
      | nil => rw [hrequests] at hhead; cases hhead
      | cons =>
        rw [hrequests] at hhead
        simpa [LSQView.alloc, LSQView.put, hrequests] using hhead

/-! ### Each change keeps a view well formed -/

variable (h : v.WF)
include h

/-- Forgetting slots keeps a view well formed, unless one of them waits for a retry. -/
theorem WF.sublist_slots {slots : List Nat} (hsub : slots.Sublist v.slots)
    (hretry : ∀ p, v.retry = some p → (v.heap p).state = .storeBufferNeedsRetry → p ∈ slots) :
    WF { v with slots := slots } :=
  { h with
    nodup := h.nodup.sublist (append_left hsub _)
    fresh := fun p hp => h.fresh p ((append_left hsub _).subset hp)
    slots := fun p hp => h.slots p (hsub.subset hp)
    retry := fun p hp => ⟨(h.retry p hp).1, hretry p hp⟩ }

/-- The front of `transfers` leaves it. -/
theorem WF.pop (hfront : v.transfers = p :: rest) : (v.pop p rest).WF := by
  have hsub : rest.Sublist v.transfers := hfront ▸ sublist_cons_self p rest
  exact
    { h with
      nodup := h.nodup.sublist (append_right (append_right hsub _) _)
      fresh := fun q hq => h.fresh q ((append_right (append_right hsub _) _).subset hq)
      transfers := fun q hq => h.transfers q (hsub.subset hq) }

/-- A request that is in no queue goes to the end of the store buffer. -/
theorem WF.insert {n : Nat} (hnew : p ∉ v.queue ++ v.slots)
    (hstate : r.state = .storeInStoreBuffer ∨ r.state = .complete)
    (hlocal : r.request.localAccess = false) (hn : v.nextPtr ≤ n) (hp : p < n) :
    WF { v.put p r with slots := v.slots ++ [p], nextPtr := n } := by
  have hput : (v.put p r).WF := by
    simp only [queue, mem_append, not_or] at hnew
    refine h.put (fun hq => absurd hq hnew.1.2) (fun hq => absurd hq hnew.1.1)
      (fun hq => absurd hq hnew.2) fun _ => ?_
    constructor <;> intro hs <;> rw [hs] at hstate <;> simp at hstate
  exact
    { hput with
      nodup := by
        show (v.queue ++ (v.slots ++ [p])).Nodup
        rw [← append_assoc, ← concat_eq_append]
        exact h.nodup.concat hnew
      fresh := by
        show ∀ q ∈ v.queue ++ (v.slots ++ [p]), q < n
        rw [← append_assoc]
        exact forall_mem_append.mpr ⟨fun q hq => Nat.lt_of_lt_of_le (h.fresh q hq) hn,
          forall_mem_singleton.mpr hp⟩
      owned := fun a ha => Nat.lt_of_lt_of_le (h.owned a ha) hn
      slots := forall_mem_append.mpr ⟨hput.slots, forall_mem_singleton.mpr (by
        show InSlots ((v.put p r).heap p)
        rw [put_heap_self]
        exact ⟨by tauto, hlocal⟩)⟩
      retry := fun q hq =>
        ⟨(hput.retry q hq).1, fun hs => mem_append_left _ ((hput.retry q hq).2 hs)⟩ }

/-- A commit keeps a view well formed. -/
theorem WF.commit (hrespond : v.CanRespond p rest) (env : ResponseEnv) :
    (v.commit env p rest).WF := by
  have hp : p ∈ v.transfers := by rw [hrespond.1]; exact mem_cons_self
  have htransfer := h.transfers p hp
  have hpop := h.pop hrespond.1
  have hnew : p ∉ (v.pop p rest).queue ++ (v.pop p rest).slots :=
    fun hmem => (mem_append.mp hmem).elim (h.not_mem_of_front hrespond.1).1
      (h.not_mem_of_front hrespond.1).2
  unfold LSQView.commit
  dsimp only
  split
  · -- The store leaves `transfers` and enters the store buffer.
    rename_i hbuffer
    have hstate := state_of_toStoreBuffer hbuffer
    have hlocal : (v.heap p).request.localAccess = false := by
      rcases htransfer with ht | ht | ht
      · rw [ht] at hstate
        cases hstate
      · rw [ht] at hstate
        cases hstate
      · exact ht.2.2.2
    have hinsert := hpop.insert hnew (r := { v.heap p with
        packet := (handleMemResponse v.thresholdLCT env v.cvu (v.heap p)).packet
        state := .storeInStoreBuffer }) (.inl rfl) hlocal (Nat.le_refl _)
        (h.fresh p (by simp [queue, hp]))
    exact { hinsert with }
  · have hput := (h.put_transfer hp (r := { v.heap p with
      packet := (handleMemResponse v.thresholdLCT env v.cvu (v.heap p)).packet })
      htransfer).pop hrespond.1
    exact { hput with }

/-- The front of `requests` after a packet was sent. -/
theorem WF.put_moveIf {sent : Bool} (hfront : v.requests = p :: rest) (hretry : v.retry = none)
    (hsent : sent = true → InTransfers r) (hnot : sent = false → InRequests r.state)
    (hwait : r.state ≠ .requestNeedsRetry) : ((v.put p r).moveIf sent p rest).WF := by
  cases sent with
  | true => exact h.put_move hfront hretry (hsent rfl)
  | false =>
    have hp : p ∈ v.requests := by rw [hfront]; exact mem_cons_self
    exact h.put_request hp (hnot rfl) fun hs => absurd hs hwait

/-- A request starts to wait for a retry. -/
theorem WF.wait (hreq : (v.heap p).state = .requestNeedsRetry →
      v.requests.head? = some p ∧ (v.heap p).request.localAccess = false)
    (hslot : (v.heap p).state = .storeBufferNeedsRetry → p ∈ v.slots) :
    WF { v with retry := some p } :=
  { h with
    retry := by
      intro q hq
      have hqp : p = q := by simpa using hq
      subst hqp
      exact ⟨hreq, hslot⟩ }

/-- Packets leave the memory system. -/
theorem WF.inMemory {inMemory : List MemAccess}
    (hptr : ∀ a ∈ inMemory, ∃ b ∈ v.inMemory, b.ptr = a.ptr) : WF { v with inMemory := inMemory } :=
  { h with
    owned := by
      intro a ha
      obtain ⟨b, hb, hba⟩ := hptr a ha
      rw [← hba]
      exact h.owned b hb }

variable (hstate : (v.heap p).state = .requestIssuing ∨ (v.heap p).state = .requestNeedsRetry ∨
  (v.heap p).state = .storeBufferIssuing ∨ (v.heap p).state = .storeBufferNeedsRetry)
include hstate

variable (hnew : r.state = (v.heap p).state ∨ r.state = .complete)
include hnew

variable (hlocal : r.request.localAccess = (v.heap p).request.localAccess)
include hlocal

/-- A response arrives. The request completes or keeps its state. -/
theorem WF.respond (k : Nat) :
    WF { v.put p r with inMemory := v.inMemory.eraseIdx k } := by
  have hput : (v.put p r).WF := by
    refine h.put (fun hp => ?_) (fun hp => ?_) (fun hp => ⟨?_, ?_⟩) (fun hp => ⟨?_, ?_⟩)
    · rcases hnew with hnew | hnew <;> rw [hnew]
      · exact h.requests p hp
      · trivial
    · rcases hnew with hnew | hnew
      · -- Only a request that is issuing is in `transfers`.
        have htr := h.transfers p hp
        rcases hstate with hs | hs | hs | hs <;> simp [InTransfers, hs] at htr
        exact .inl (hnew.trans hs)
      · exact .inr (.inl hnew)
    · rcases hnew with hnew | hnew <;> rw [hnew]
      · exact (h.slots p hp).1
      · simp
    · rw [hlocal]
      exact (h.slots p hp).2
    · intro hs
      rw [hlocal]
      rcases hnew with hnew | hnew <;> rw [hs] at hnew
      · exact (h.retry p hp).1 hnew.symm
      · cases hnew
    · intro hs
      rcases hnew with hnew | hnew <;> rw [hs] at hnew
      · exact (h.retry p hp).2 hnew.symm
      · cases hnew
  exact hput.inMemory fun b hb => ⟨b, mem_of_mem_eraseIdx hb, rfl⟩

/-- A slot that is complete then leaves the store buffer, unless it is a barrier. -/
theorem WF.slotRespond (k : Nat) :
    WF { v.put p r with
      inMemory := v.inMemory.eraseIdx k
      slots := if r.isComplete && !r.isBarrier then v.slots.erase p else v.slots } := by
  have hwf := h.respond hstate hnew hlocal k
  split
  · -- The request is complete, so it does not wait for a retry.
    rename_i hcomplete
    refine hwf.sublist_slots erase_sublist fun q hq hs => ?_
    have hqne : q ≠ p := by
      rintro rfl
      have hself : r.state = .storeBufferNeedsRetry := by simpa using hs
      simp [isComplete, hself] at hcomplete
    exact (mem_erase_of_ne hqne).mpr ((hwf.retry q hq).2 hs)
  · exact hwf

end

end LSQView

variable {p : Nat} {v : LSQView} {r : LSQRequest} {rest : List Nat}

open LSQView in
/-- Each change keeps a view well formed. -/
theorem wf_step {v' : LSQView} {l : LSQLabel} (h : v.WF) (hstep : LSQStep v l v') : v'.WF := by
  have hlt : ∀ {p : Nat}, p ∈ v.requests ∨ p ∈ v.slots → p < v.nextPtr := by
    intro p hp
    refine h.fresh p ?_
    simp only [queue, mem_append]
    tauto
  cases hstep with
  | idle => exact h
  | push args fresh =>
    obtain ⟨_, _, _, heq, rfl | rfl⟩ :=
      startAddrTranslation_newRequest args v.cvu v.lineWidth fresh <;>
      exact h.alloc (by simp [heq, InRequests]) (by simp [heq])
  | pushFailed =>
    exact h.alloc (by simp [LSQ.specialRequest, new, InRequests])
      (by simp [LSQ.specialRequest, new])
  | adjust p delayed issued hp =>
    exact h.put_request hp (h.requests p hp) fun hs => ⟨hs, rfl⟩
  | clearFault p hp =>
    rcases mem_append.mp hp with hp | hp
    · exact h.put_transfer hp (h.transfers p hp)
    · exact h.put_request hp (h.requests p hp) fun hs => ⟨hs, rfl⟩
  | finish p t fresh hp hstate =>
    obtain ⟨hr, hwait⟩ := inRequests_finish (v.heap p) t fresh hstate
    exact h.put_request hp hr fun hs => absurd hs hwait
  | skip p rest hfront hretry => exact h.put_move hfront hretry (.inr (.inl rfl))
  | toStoreBuffer p rest htransfer hstore hbuf hlocal =>
    exact h.put_move htransfer.front htransfer.notBlocked (.inr (.inr ⟨rfl, hstore, hbuf, hlocal⟩))
  | forward p rest slot packet htransfer | failConditional p rest htransfer =>
    exact h.put_move htransfer.front htransfer.notBlocked (.inr (.inl rfl))
  | sendLocally p rest packet data hsend =>
    refine h.put_moveIf hsend.front hsend.notBlocked (fun hs => ?_) (fun hs => ?_) ?_
    · exact .inr (.inl (by simp [setState, hs]))
    · simp [setState, hs, InRequests]
    · simp only [setState]
      split <;> simp
  | send p rest packet hsend =>
    have hsent := h.sendPacket (hlt (.inl hsend.mem)) packet
    exact hsent.put_moveIf hsend.front hsend.notBlocked (fun _ => .inl rfl)
      (fun _ => trivial) (by simp [setState])
  | refuse p rest packet hsend hlocal =>
    obtain ⟨hntr, hnslot⟩ := h.not_mem_of_request hsend.mem
    have hput : (v.put p ((v.heap p).setState .requestNeedsRetry)).WF :=
      h.put (fun _ => trivial) (fun hq => absurd hq hntr) (fun hq => absurd hq hnslot)
        fun hq => by rw [hsend.notBlocked] at hq; cases hq
    refine hput.wait (fun _ => ?_) (fun hs => ?_)
    · refine ⟨?_, by simpa [setState] using hlocal⟩
      show v.requests.head? = some p
      rw [hsend.front]
      rfl
    · simp [setState] at hs
  | resend p rest packet hretry hstate hfront =>
    have hp : p ∈ v.requests := by rw [hfront]; exact mem_cons_self
    have hsent : ∀ sent, ((({ v with retry := none } : LSQView).sendPacket p packet).put p
        ((v.heap p).stepToNextPacket.setState .requestIssuing)).moveIf sent p rest |>.WF :=
      fun sent => (h.no_retry.sendPacket (hlt (.inl hp)) packet).put_moveIf hfront rfl
        (fun _ => .inl rfl) (fun _ => trivial) (by simp [setState])
    cases (v.heap p).stepToNextPacket.sentAllPackets with
    | true => exact hsent true
    | false => exact hsent false
  | unblock p hretry hstate =>
    have hfront := ((h.retry p hretry).1 hstate).1
    have hp : p ∈ v.requests := mem_of_mem_head? hfront
    exact h.no_retry.put_request hp trivial (by simp [setState])
  | clearBarrier p rest hfront hcomplete =>
    refine h.sublist_slots (hfront ▸ sublist_cons_self p rest) fun q hq hs => ?_
    have hmem := (h.retry q hq).2 hs
    rw [hfront] at hmem
    rcases mem_cons.mp hmem with rfl | hmem
    · rw [hcomplete] at hs
      cases hs
    · exact hmem
  | slotSend p older younger packet hslots =>
    have hp : p ∈ v.slots := by simp [hslots]
    exact (h.sendPacket (hlt (.inr hp)) packet).put_slot hp (inSlots_issuing (h.slots p hp))
  | slotRefuse p older younger packet hslots =>
    have hp : p ∈ v.slots := by simp [hslots]
    have hput : (v.put p ((v.heap p).setState .storeBufferNeedsRetry)).WF :=
      h.put_slot hp ⟨by simp [setState], (h.slots p hp).2⟩
    exact hput.wait (fun hs => by simp [setState] at hs) fun _ => hp
  | slotResend p packet hretry hstate =>
    have hp : p ∈ v.slots := (h.retry p hretry).2 hstate
    exact ((h.sendPacket (hlt (.inr hp)) packet).put_slot hp
      (inSlots_issuing (h.slots p hp))).no_retry
  | slotUnblock p hretry hstate =>
    have hp : p ∈ v.slots := (h.retry p hretry).2 hstate
    have hput : (v.put p ((v.heap p).setState .storeInStoreBuffer)).WF :=
      h.put_slot hp ⟨.inl rfl, (h.slots p hp).2⟩
    exact hput.no_retry
  | insertBarrier =>
    have hnew : v.nextPtr ∉ v.queue ++ v.slots := fun hmem =>
      Nat.lt_irrefl _ (h.fresh _ hmem)
    exact h.insert hnew (.inr rfl) rfl (Nat.le_succ _) (Nat.lt_succ_self _)
  | perform k a newData succeeds ha =>
    have hptr : ∀ b ∈ v.inMemory.set k
        { a with packet := a.packet.answer v.mem, performed := true },
        ∃ c ∈ v.inMemory, c.ptr = b.ptr := by
      intro b hb
      rcases mem_or_eq_of_mem_set hb with hb | hb
      · exact ⟨b, hb, rfl⟩
      · exact ⟨a, mem_of_getElem? ha, by rw [hb]⟩
    exact { h.inMemory hptr with }
  | respond k a fresh =>
    exact h.respond (by tauto) ((v.heap a.ptr).state_retireResponse a.packet fresh)
      (congrArg Request.localAccess ((v.heap a.ptr).retireResponse_frame a.packet fresh).2.1) k
  | slotRespond k a fresh =>
    exact h.slotRespond (by tauto) ((v.heap a.ptr).state_retireResponse a.packet fresh)
      (congrArg Request.localAccess ((v.heap a.ptr).retireResponse_frame a.packet fresh).2.1) k
  | commit env p rest hrespond => exact h.commit hrespond env
  | discard p rest hrespond => exact h.pop hrespond.1
  | changeStream | snoop => exact { h with }

/-! ### Each event is a sequence of changes -/

namespace LSQSystem

/-- Quiet changes, any number of them. -/
abbrev Quiet (v v' : LSQView) : Prop :=
  Lib.QuietPath LSQStep .quiet v v'

theorem Quiet.wf {v' : LSQView} (h : Quiet v v') (hwf : v.WF) : v'.WF :=
  Lib.quietPath_invariant wf_step h hwf

/-- The view of a system with another LSQ. -/
abbrev viewOf (s : LSQSystem) (l : LSQ) : LSQView :=
  ({ s with lsq := l } : LSQSystem).view

section
variable (s : LSQSystem)

/-- The coverage search of the view is the one of the LSQ. -/
theorem findCoverage_view (l : LSQ) (load : LSQRequest) (slots : List Nat) :
    (s.viewOf l).findCoverage load slots = l.findCoverage load slots := by
  induction slots with
  | nil => rfl
  | cons q rest ih =>
    rw [LSQView.findCoverage, LSQ.findCoverage, ih]
    rfl

variable {s} {l : LSQ} {env : LSQEnv} {p : Nat} {packet : Packet}

/-- A running LSQ has no request that waits. -/
theorem retry_of_running (h : l.state ≠ .memoryNeedsRetry) : (s.viewOf l).retry = none := by
  simp [view, h]

theorem running_of_canSend (h : l.canSendToMemorySystem = true) : l.state ≠ .memoryNeedsRetry := by
  simp only [LSQ.canSendToMemorySystem, Bool.and_eq_true, beq_iff_eq] at h
  rw [h.1]
  simp

variable {l' : LSQ} {sent : Bool} {rest : List Nat} {state : LSQRequestState}

/-- The outcomes of `tryToSend`: nothing, a local access, a packet sent, a packet refused. -/
theorem tryToSend_cases (h : l.tryToSend env p = some (l', sent)) :
    (l' = l ∧ sent = false ∧ l.canSendToMemorySystem = false) ∨
      (l.canSendToMemorySystem = true ∧ ∃ packet, (l.heap p).getHeadPacket = some packet ∧
        (((l.heap p).request.localAccess = true ∧ (l', sent) = l.sendLocally env p packet) ∨
          ((l.heap p).request.localAccess = false ∧ ∃ port state,
            l.dcachePort.sendTimingReq p packet = some port ∧
            LSQ.issuingState (l.heap p).state = some state ∧
            sent = (l.heap p).stepToNextPacket.sentAllPackets ∧
            l' = { (l.modify p fun r => r.stepToNextPacket.setState state) with
              numAccessesInMemorySystem := l.numAccessesInMemorySystem + 1
              dcachePort := port }) ∨
          ((l.heap p).request.localAccess = false ∧ ∃ state,
            LSQ.retryState (l.heap p).state = some state ∧ sent = false ∧
            l' = { (l.modify p fun r => r.setState state) with
              state := .memoryNeedsRetry, retryRequest := some p }))) := by
  unfold LSQ.tryToSend at h
  split at h
  · rename_i hcan
    simp only [Option.some.injEq, Prod.mk.injEq] at h
    exact .inl ⟨h.1.symm, h.2.symm, by simpa using hcan⟩
  · rename_i hcan
    refine .inr ⟨by simpa using hcan, ?_⟩
    split at h
    · cases h
    · rename_i packet hpacket
      refine ⟨packet, hpacket, ?_⟩
      split at h
      · rename_i hlocal
        exact .inl ⟨hlocal, (Option.some.inj h).symm⟩
      · rename_i hlocal
        have hlocal : (l.heap p).request.localAccess = false := by simpa using hlocal
        split at h
        · rename_i port hport
          obtain ⟨state, hstate, hl⟩ := map_eq_some_iff.mp h
          simp only [Prod.mk.injEq] at hl
          exact .inr (.inl ⟨hlocal, port, state, hport, hstate, hl.2.symm, hl.1.symm⟩)
        · obtain ⟨state, hstate, hl⟩ := map_eq_some_iff.mp h
          simp only [Prod.mk.injEq] at hl
          exact .inr (.inr ⟨hlocal, state, hstate, hl.2.symm, hl.1.symm⟩)

/-- A packet that the port accepts is the last one in the memory system. -/
theorem inMemory_sendTimingReq {d d' : DcachePort} (h : d.sendTimingReq p packet = some d') :
    d'.inMemory = d.inMemory ++ [{ ptr := p, packet := packet, performed := false }] := by
  unfold DcachePort.sendTimingReq at h
  split at h
  · cases h
  · cases h
    rfl

/-- What the checks of `tryToSendToTransfers` have established, by their outcome. -/
theorem transferAction_cases (hstream : env.streamSeqNum = s.streamSeqNum) :
    l.transferAction env p = .wait ∨ ∃ rest, l.requests = p :: rest ∧ l.state ≠ .memoryNeedsRetry ∧
        ((l.transferAction env p = .skip ∧
            ((l.heap p).state = .complete ∨ (l.heap p).state = .failed ∨
              ((s.viewOf l).rightStream (l.heap p).inst = false ∧
                (l.heap p).hasPacketsInMemSystem = false) ∨
              (l.heap p).translationFault ≠ none)) ∨
          ((s.viewOf l).CanTransfer p rest ∧
            ((l.transferAction env p = .toStoreBuffer ∧ (l.heap p).isLoad = false ∧
                (l.heap p).request.bufferable = true ∧
                (l.heap p).request.localAccess = false) ∨
              (((l.heap p).isLoad = false → (l.heap p).request.bufferable = false ∨
                  (l.heap p).request.localAccess = true) ∧
                l.transferAction env p = l.accessAction env (l.heap p))))) := by
  have hright : env.instIsRightStream (l.heap p).inst
      = (s.viewOf l).rightStream (l.heap p).inst := by
    rw [LSQEnv.instIsRightStream, hstream]
    rfl
  generalize haction : l.transferAction env p = action
  unfold LSQ.transferAction at haction
  by_cases hrunning : l.state = .memoryNeedsRetry
  · exact .inl (haction.symm.trans (if_pos hrunning))
  rw [if_neg hrunning] at haction
  by_cases htrans : (l.heap p).state = .inTranslation
  · exact .inl (haction.symm.trans (if_pos htrans))
  rw [if_neg htrans] at haction
  by_cases hhead : l.requests.head? = some p
  swap
  · exact .inl (haction.symm.trans (if_pos hhead))
  rw [if_neg (not_not.mpr hhead)] at haction
  obtain ⟨rest, hfront⟩ := head?_eq_some_iff.mp hhead
  by_cases hfull : l.transfersQueueSize ≤ l.transfers.length
  · exact .inl (haction.symm.trans (if_pos hfull))
  rw [if_neg hfull] at haction
  by_cases hdone : ((l.heap p).isComplete || (l.heap p).state == .failed) = true
  · rw [if_pos hdone] at haction
    simp only [isComplete, Bool.or_eq_true, beq_iff_eq] at hdone
    exact .inr ⟨rest, hfront, hrunning, .inl ⟨haction.symm, hdone.imp id .inl⟩⟩
  rw [if_neg hdone] at haction
  simp only [isComplete, Bool.or_eq_true, beq_iff_eq, not_or] at hdone
  -- The request is translated. From here on only the stream, the fault and its kind decide.
  rw [hright] at haction
  cases hstream : (s.viewOf l).rightStream (l.heap p).inst <;> rw [hstream] at haction
  · cases hpackets : (l.heap p).hasPacketsInMemSystem <;> rw [hpackets] at haction
    · exact .inr ⟨rest, hfront, hrunning, .inl ⟨haction.symm, .inr (.inr (.inl ⟨rfl, rfl⟩))⟩⟩
    · exact .inl haction.symm
  rw [if_neg (by simp)] at haction
  by_cases hfault : (l.heap p).translationFault.isSome = true
  · exact .inr ⟨rest, hfront, hrunning, .inl ⟨haction.symm.trans (if_pos hfault),
      .inr (.inr (.inr (Option.isSome_iff_ne_none.mp hfault)))⟩⟩
  rw [if_neg hfault] at haction
  by_cases hstores : ((l.heap p).isLoad && l.numStoresInTransfers != 0) = true
  · exact .inl (haction.symm.trans (if_pos hstores))
  rw [if_neg hstores] at haction
  have hcan : (s.viewOf l).CanTransfer p rest :=
    { front := hfront
      notBlocked := retry_of_running hrunning
      translated := htrans
      notComplete := hdone.1
      notFailed := hdone.2
      rightStream := hstream
      noFault := Option.not_isSome_iff_eq_none.mp hfault
      noStores := fun (hload : (l.heap p).isLoad = true) =>
        (by simpa [hload] using hstores : l.numStoresInTransfers = 0) }
  by_cases hbuffer : (!(l.heap p).isLoad && (l.heap p).request.bufferable &&
      !(l.heap p).request.localAccess) = true
  · rw [if_pos hbuffer] at haction
    simp only [Bool.and_eq_true, Bool.not_eq_true'] at hbuffer
    exact .inr ⟨rest, hfront, hrunning, .inr ⟨hcan,
      .inl ⟨haction.symm, hbuffer.1.1, hbuffer.1.2, hbuffer.2⟩⟩⟩
  rw [if_neg hbuffer] at haction
  split at haction
  · exact .inl haction.symm
  split at haction
  · exact .inl haction.symm
  · refine .inr ⟨rest, hfront, hrunning, .inr ⟨hcan, .inr ⟨fun hload => ?_, haction.symm⟩⟩⟩
    rw [or_iff_not_imp_left]
    simpa [hload] using hbuffer

/-- The coverage of a load depends on the slots, the instruction and the `Request` only. -/
theorem findCoverage_congr {v' : LSQView} {load load' : LSQRequest} (hinst : load'.inst = load.inst)
    (hrequest : load'.request = load.request) {slots : List Nat}
    (hheap : ∀ q ∈ slots, v'.heap q = v.heap q) :
    v'.findCoverage load' slots = v.findCoverage load slots := by
  induction slots with
  | nil => rfl
  | cons q rest ih =>
    have hq : LSQ.slotCoverage (v'.heap q) load' = LSQ.slotCoverage (v.heap q) load := by
      simp [LSQ.slotCoverage, containsAddrRangeOf, hinst, hrequest, hheap q mem_cons_self]
    rw [LSQView.findCoverage, LSQView.findCoverage, hq,
      ih fun q' hq' => hheap q' (mem_cons_of_mem q hq')]

/-- The accounting of `markIssued` is a quiet change, and the checks before it stay true. -/
theorem markIssued_quiet (hwf : (s.viewOf l).WF) (hsend : (s.viewOf l).CanSend p rest) :
    Quiet (s.viewOf l) (s.viewOf (l.markIssued p)) ∧
      (s.viewOf (l.markIssued p)).CanSend p rest := by
  unfold LSQ.markIssued
  split
  · have hnslot := (hwf.not_mem_of_request hsend.mem).2
    have hself : (s.viewOf (l.modify p fun r => { r with issuedToMemory := true })).heap p
        = { l.heap p with issuedToMemory := true } := by simp [view, LSQ.modify]
    refine ⟨single (LSQStep.adjust (s.viewOf l) p (l.heap p).isTranslationDelayed true
      hsend.mem), ?_⟩
    refine
      { front := hsend.front
        notBlocked := hsend.notBlocked
        translated := hself ▸ hsend.translated
        notComplete := hself ▸ hsend.notComplete
        notFailed := hself ▸ hsend.notFailed
        rightStream := hself ▸ hsend.rightStream
        noFault := hself ▸ hsend.noFault
        noStores := hself ▸ hsend.noStores
        store := hself ▸ hsend.store
        load := ?_ }
    · intro hload hllsc
      rw [show (s.viewOf { (l.modify p fun r => { r with issuedToMemory := true }) with
        numAccessesIssuedToMemory := l.numAccessesIssuedToMemory + 1 }).heap p
        = { l.heap p with issuedToMemory := true } from hself] at hload hllsc ⊢
      have hsame := hsend.load hload hllsc
      rw [← hsame]
      apply congrArg Prod.fst
      apply findCoverage_congr
      · rfl
      · rfl
      · intro q hq
        have hqp : q ≠ p := fun hqp => hnslot (hqp ▸ mem_reverse.mp hq)
        simp [view, LSQ.modify, hqp]
  · exact ⟨refl, hsend⟩

/-- Moving the front of `requests` in the view. -/
theorem view_move (rest : List Nat) (hfront : l.requests = p :: rest) :
    s.viewOf (l.moveFromRequestsToTransfers p) = (s.viewOf l).move p rest := by
  simp [view, LSQ.moveFromRequestsToTransfers, LSQView.move, hfront]

/-- Changing and moving it. -/
theorem view_modify_move (rest : List Nat) (f : LSQRequest → LSQRequest)
    (hfront : l.requests = p :: rest) :
    s.viewOf ((l.modify p f).moveFromRequestsToTransfers p)
      = ((s.viewOf l).put p (f (l.heap p))).move p rest :=
  view_move rest hfront

/-- Moving it when all its packets are sent. -/
theorem view_moveIf (rest : List Nat) (sent : Bool) (hfront : l.requests = p :: rest) :
    s.viewOf (if sent then l.moveFromRequestsToTransfers p else l)
      = (s.viewOf l).moveIf sent p rest := by
  cases sent with
  | true => exact view_move rest hfront
  | false => rfl

variable {a : MemAccess} {k : Nat} {state' : LSQRequestState}

/-- A request of `requests` that sends a packet is issuing then. -/
theorem issuingState_of_request (h : InRequests state) (hs : LSQ.issuingState state = some state') :
    state' = .requestIssuing := by
  cases state <;> simp_all [InRequests, LSQ.issuingState]

theorem retryState_of_request (h : InRequests state) (hs : LSQ.retryState state = some state') :
    state' = .requestNeedsRetry := by
  cases state <;> simp_all [InRequests, LSQ.retryState]

/-- The same for a slot. -/
theorem issuingState_of_slot (h : InSlots r) (hs : LSQ.issuingState r.state = some state) :
    state = .storeBufferIssuing := by
  rcases h.1 with h | h | h | h <;> simp_all [LSQ.issuingState]

theorem retryState_of_slot (h : InSlots r) (hs : LSQ.retryState r.state = some state) :
    state = .storeBufferNeedsRetry := by
  rcases h.1 with h | h | h | h <;> simp_all [LSQ.retryState]

/-- The view after a packet was sent. -/
theorem view_sent (state : LSQRequestState) {port : DcachePort}
    (hport : l.dcachePort.sendTimingReq p packet = some port) :
    s.viewOf { (l.modify p fun r => r.stepToNextPacket.setState state) with
        numAccessesInMemorySystem := l.numAccessesInMemorySystem + 1, dcachePort := port }
      = ((s.viewOf l).put p ((l.heap p).stepToNextPacket.setState state)).sendPacket p packet := by
  show { s.viewOf (l.modify p fun r => r.stepToNextPacket.setState state) with
    inMemory := port.inMemory } = _
  rw [inMemory_sendTimingReq hport]
  rfl

/-- Sending from the front of `requests`, with the move to `transfers` when all packets are
sent, is a quiet path. -/
theorem send_quiet (hwf : (s.viewOf l).WF) (hsend : (s.viewOf l).CanSend p rest)
    (h : l.tryToSend env p = some (l', sent)) :
    Quiet (s.viewOf l) (s.viewOf (if sent then l'.moveFromRequestsToTransfers p else l')) := by
  have hfront : l.requests = p :: rest := hsend.front
  have hstate : InRequests (l.heap p).state := hwf.requests p hsend.mem
  rcases tryToSend_cases h with ⟨rfl, rfl, _⟩ | ⟨hcan, packet, hpacket, hcases⟩
  · exact refl
  rcases hcases with ⟨hlocal, hl⟩ | ⟨hlocal, port, state, hport, hissue, rfl, rfl⟩ |
    ⟨hlocal, state, hretry, rfl, rfl⟩
  · simp only [LSQ.sendLocally] at hl
    obtain ⟨rfl, rfl⟩ := hl
    rw [view_moveIf rest]
    · exact single (LSQStep.sendLocally (s.viewOf l) p rest packet
        (env.localAccessor packet) hsend hlocal hpacket)
    · exact hfront
  · rw [issuingState_of_request hstate hissue]
    rw [view_moveIf rest, view_sent _ hport]
    · exact single (LSQStep.send (s.viewOf l) p rest packet hsend hlocal hpacket)
    · exact hfront
  · rw [retryState_of_request hstate hretry]
    exact single (LSQStep.refuse (s.viewOf l) p rest packet hsend hlocal hpacket)

/-- Sending a packet does not touch the queues, and changes one request. -/
theorem tryToSend_frame (h : l.tryToSend env p = some (l', sent)) :
    (l'.requests = l.requests ∧ l'.transfers = l.transfers ∧ l'.slots = l.slots) ∧
      l'.numUnissuedAccesses = l.numUnissuedAccesses ∧ ∀ q ≠ p, l'.heap q = l.heap q := by
  rcases tryToSend_cases h with ⟨rfl, -, -⟩ | ⟨-, packet, -, hcases⟩
  · exact ⟨⟨rfl, rfl, rfl⟩, rfl, fun _ _ => rfl⟩
  rcases hcases with ⟨-, hl⟩ | ⟨-, port, state, -, -, -, rfl⟩ | ⟨-, state, -, -, rfl⟩
  · obtain ⟨rfl, -⟩ := hl
    exact ⟨⟨rfl, rfl, rfl⟩, rfl, fun q hq => update_of_ne hq _ _⟩
  · exact ⟨⟨rfl, rfl, rfl⟩, rfl, fun q hq => update_of_ne hq _ _⟩
  · exact ⟨⟨rfl, rfl, rfl⟩, rfl, fun q hq => update_of_ne hq _ _⟩

theorem markIssued_queues :
    (l.markIssued p).requests = l.requests ∧ (l.markIssued p).transfers = l.transfers := by
  unfold LSQ.markIssued
  split <;> exact ⟨rfl, rfl⟩

/-- The move from `requests` to `transfers` keeps the program order. -/
theorem queue_moveFromRequests (hfront : l.requests = p :: rest) :
    (l.moveFromRequestsToTransfers p).transfers ++ (l.moveFromRequestsToTransfers p).requests
      = l.transfers ++ l.requests := by
  simp [LSQ.moveFromRequestsToTransfers, hfront]

theorem requests_moveFromRequests (hfront : l.requests = p :: rest) :
    (l.moveFromRequestsToTransfers p).requests = rest := by
  show l.requests.tail = rest
  rw [hfront, tail_cons]

/-- The outcomes of `tryToSendToTransfers` for the request `p`, with the checks that the code
has made at that point. -/
inductive Transfer (s : LSQSystem) (env : LSQEnv) (l : LSQ) (p : Nat) : LSQ → Prop
  | wait : Transfer s env l p l
  | skip (rest : List Nat) (hfront : l.requests = p :: rest)
      (hrunning : l.state ≠ .memoryNeedsRetry)
      (hreason : (l.heap p).state = .complete ∨ (l.heap p).state = .failed ∨
        ((s.viewOf l).rightStream (l.heap p).inst = false ∧
          (l.heap p).hasPacketsInMemSystem = false) ∨
        (l.heap p).translationFault ≠ none) :
      Transfer s env l p
        ((l.modify p fun r => (r.setState .complete).setSkipped).moveFromRequestsToTransfers p)
  | toStoreBuffer (rest : List Nat) (hcan : (s.viewOf l).CanTransfer p rest)
      (hload : (l.heap p).isLoad = false) (hbuf : (l.heap p).request.bufferable = true)
      (hlocal : (l.heap p).request.localAccess = false) :
      Transfer s env l p
        ((l.modify p fun r => r.setState .storeToStoreBuffer).moveFromRequestsToTransfers p)
  | forward (rest : List Nat) (slot : Nat) (packet : Packet)
      (hcan : (s.viewOf l).CanTransfer p rest) (hload : (l.heap p).isLoad = true)
      (hllsc : (l.heap p).request.flags.llsc = false)
      (hcover : l.canForwardDataToLoad (l.heap p) = (.fullCoverage, slot))
      (hpacket : (l.heap p).packet = some packet) :
      Transfer s env l p
        ((l.modify p fun r => (LSQ.forwardStoreData (l.heap slot) r packet).setState
          .complete).moveFromRequestsToTransfers p)
  | failConditional (rest : List Nat) (hcan : (s.viewOf l).CanTransfer p rest)
      (hload : (l.heap p).isLoad = false) (hllsc : (l.heap p).request.flags.llsc = true)
      (hlocked : env.lockedWrite = false) :
      Transfer s env l p
        ((l.modify p fun r => r.setState .complete).moveFromRequestsToTransfers p)
  | send (rest : List Nat) (l' : LSQ) (sent : Bool) (hsend : (s.viewOf l).CanSend p rest)
      (hroom : l.canSendToMemorySystem = true)
      (htry : (l.markIssued p).tryToSend env p = some (l', sent)) :
      Transfer s env l p (if sent then l'.moveFromRequestsToTransfers p else l')

/-- The last part of `tryToSendToTransfers`. -/
theorem transfer_of_accessAction (hcan : (s.viewOf l).CanTransfer p rest)
    (hstore : (l.heap p).isLoad = false → (l.heap p).request.bufferable = false ∨
      (l.heap p).request.localAccess = true)
    (h : l.performAction env p (l.accessAction env (l.heap p)) = some l') :
    Transfer s env l p l' := by
  -- A packet that goes to memory.
  have hmemory : (s.viewOf l).CanSend p rest → l.performAction env p .send = some l' →
      Transfer s env l p l' := by
    intro hsend hperform
    unfold LSQ.performAction at hperform
    dsimp only at hperform
    split at hperform
    · cases hperform
      exact .wait
    · rename_i hroom
      obtain ⟨⟨l₁, sent⟩, htry, rfl⟩ := map_eq_some_iff.mp hperform
      exact .send rest l₁ sent hsend (by simpa using hroom) htry
  unfold LSQ.accessAction at h
  split at h
  · rename_i hllsc
    split at h
    · cases h
      exact .wait
    · split at h
      · exact hmemory { hcan with
          store := hstore
          load := fun _ hnot => absurd (hllsc.symm.trans hnot) (by simp) } h
      · rename_i hfail
        cases h
        simp only [Bool.or_eq_true, not_or, Bool.not_eq_true] at hfail
        exact .failConditional rest hcan hfail.1 hllsc hfail.2
  · rename_i hllsc
    split at h
    · rename_i hload
      split at h
      · rename_i slot hfull
        obtain ⟨packet, hpacket, rfl⟩ := map_eq_some_iff.mp h
        exact .forward rest slot packet hcan hload (by simpa using hllsc) hfull hpacket
      · cases h
        exact .wait
      · rename_i slot hno
        exact hmemory { hcan with
          store := hstore
          load := fun _ _ => congrArg Prod.fst
            ((findCoverage_view s l (l.heap p) l.slots.reverse).trans hno) } h
    · rename_i hload
      exact hmemory { hcan with
        store := hstore, load := fun hl => absurd hl hload } h

/-- `tryToSendToTransfers` has one of the outcomes. -/
theorem transfer_of_tryToSendToTransfers (hstream : env.streamSeqNum = s.streamSeqNum)
    (h : l.tryToSendToTransfers env p = some l') : Transfer s env l p l' := by
  unfold LSQ.tryToSendToTransfers at h
  rcases transferAction_cases (l := l) hstream with
    hwait | ⟨rest, hfront, hrunning, hcases⟩
  · rw [hwait] at h
    cases h
    exact .wait
  rcases hcases with ⟨hskip, hreason⟩ | ⟨hcan, ⟨hbuffer, hload, hbuf, hlocal⟩ | ⟨hstore, haccess⟩⟩
  · rw [hskip] at h
    cases h
    exact .skip rest hfront hrunning hreason
  · rw [hbuffer] at h
    cases h
    exact .toStoreBuffer rest hcan hload hbuf hlocal
  · rw [haccess] at h
    exact transfer_of_accessAction hcan hstore h

/-- Each outcome is a quiet path, and no request leaves the queues. -/
theorem transfer_quiet (hwf : (s.viewOf l).WF) (h : Transfer s env l p l') :
    Quiet (s.viewOf l) (s.viewOf l') ∧ l'.transfers ++ l'.requests = l.transfers ++ l.requests := by
  -- The front of `requests` changes and moves on.
  have hmove : ∀ {rest : List Nat} {f : LSQRequest → LSQRequest}, l.requests = p :: rest →
      LSQStep (s.viewOf l) .quiet (((s.viewOf l).put p (f (l.heap p))).move p rest) →
      Quiet (s.viewOf l) (s.viewOf ((l.modify p f).moveFromRequestsToTransfers p)) := by
    intro rest f hfront hstep
    rw [view_modify_move rest _ hfront]
    exact single hstep
  cases h with
  | wait => exact ⟨refl, rfl⟩
  | skip rest hfront hrunning hreason =>
    exact ⟨hmove hfront (.skip (s.viewOf l) p rest hfront (retry_of_running hrunning) hreason),
      queue_moveFromRequests hfront⟩
  | toStoreBuffer rest hcan hload hbuf hlocal =>
    exact ⟨hmove hcan.front (.toStoreBuffer (s.viewOf l) p rest hcan hload hbuf hlocal),
      queue_moveFromRequests hcan.front⟩
  | forward rest slot packet hcan hload hllsc hcover hpacket =>
    have hview := findCoverage_view s l (l.heap p) l.slots.reverse
    exact ⟨hmove hcan.front (.forward (s.viewOf l) p rest slot packet hcan hload
      (hview.trans hcover) hpacket), queue_moveFromRequests hcan.front⟩
  | failConditional rest hcan hload hllsc =>
    exact ⟨hmove hcan.front (.failConditional (s.viewOf l) p rest hcan hload hllsc),
      queue_moveFromRequests hcan.front⟩
  | send rest l₁ sent hsend hroom htry =>
    obtain ⟨hmark, hsend'⟩ := markIssued_quiet hwf hsend
    have hwf' := hmark.wf hwf
    refine ⟨hmark.trans (send_quiet hwf' hsend' htry), ?_⟩
    have hfront : l.requests = p :: rest := hsend.front
    obtain ⟨⟨hreq, htr, -⟩, -⟩ := tryToSend_frame htry
    obtain ⟨hreq', htr'⟩ := markIssued_queues (l := l)
    cases sent with
    | true =>
      simp only [if_true]
      rw [queue_moveFromRequests (hreq.trans (hreq'.trans hfront)), hreq, htr, hreq', htr']
    | false =>
      simp only [Bool.false_eq_true, if_false]
      rw [hreq, htr, hreq', htr']

theorem wf_transfer (h : Transfer s env l p l') (hwf : (s.viewOf l).WF) : (s.viewOf l').WF :=
  (transfer_quiet hwf h).1.wf hwf

/-- `tryToSendToTransfers` is a quiet path, and no request leaves the queues. -/
theorem tryToSendToTransfers_quiet (hwf : (s.viewOf l).WF)
    (hstream : env.streamSeqNum = s.streamSeqNum) (h : l.tryToSendToTransfers env p = some l') :
    Quiet (s.viewOf l) (s.viewOf l') ∧ l'.transfers ++ l'.requests = l.transfers ++ l.requests :=
  transfer_quiet hwf (transfer_of_tryToSendToTransfers hstream h)

/-! ### The store buffer -/

/-- What `StoreBuffer::step` does: it clears a leading barrier, or sends a packet of a slot
whose older slots have sent theirs. -/
inductive Drain (env : LSQEnv) : LSQ → LSQ → Prop
  | clearBarrier (l : LSQ) (p : Nat) (rest : List Nat) (hslots : l.slots = p :: rest)
      (hcomplete : (l.heap p).state = .complete) (hbarrier : (l.heap p).isBarrier = true) :
      Drain env l { l.clearMemBarrier (l.heap p).inst with
        numUnissuedAccesses := l.numUnissuedAccesses - 1, slots := rest }
  | slotSend (l l' : LSQ) (p : Nat) (older younger : List Nat) (sent : Bool)
      (hslots : l.slots = older ++ p :: younger)
      (holder : ∀ q ∈ older, (l.heap q).sentAllPackets = true)
      (hopen : ¬((l.heap p).state == .storeBufferIssuing && (l.heap p).sentAllPackets) = true)
      (htry : l.tryToSend env p = some (l', sent)) :
      Drain env l (if sent then l'.countIssuedStore p else l')

/-- Clearing a barrier changes `lastMemBarrier` at most. -/
theorem clearMemBarrier_eq (l : LSQ) (inst : DynInst) :
    ∃ barrier, l.clearMemBarrier inst = { l with lastMemBarrier := barrier } := by
  unfold LSQ.clearMemBarrier
  split <;> exact ⟨_, rfl⟩

/-- Counting a store changes the count at most. -/
theorem countIssuedStore_eq (l : LSQ) (p : Nat) :
    ∃ n, l.countIssuedStore p = { l with numUnissuedAccesses := n } := by
  unfold LSQ.countIssuedStore
  split <;> exact ⟨_, rfl⟩

/-- A slot that sends a packet has not sent all of them. -/
theorem slot_state
    (hissue : LSQ.issuingState r.state = some state ∨ LSQ.retryState r.state = some state)
    (hslot : InSlots r) (hopen : ¬(r.state == .storeBufferIssuing && r.sentAllPackets) = true) :
    r.state = .storeInStoreBuffer ∨ (r.state = .storeBufferIssuing ∧ r.sentAllPackets = false) := by
  rcases hslot.1 with hs | hs | hs | hs
  · exact .inl hs
  · refine .inr ⟨hs, ?_⟩
    simpa [hs] using hopen
  · simp [hs, LSQ.issuingState, LSQ.retryState] at hissue
  · simp [hs, LSQ.issuingState, LSQ.retryState] at hissue

/-- Sending a packet from the store buffer. All older slots have sent theirs. -/
theorem slotSend_quiet {older younger : List Nat} (hwf : (s.viewOf l).WF)
    (hslots : l.slots = older ++ p :: younger)
    (holder : ∀ q ∈ older, (l.heap q).sentAllPackets = true)
    (hopen : ¬((l.heap p).state == .storeBufferIssuing && (l.heap p).sentAllPackets) = true)
    (h : l.tryToSend env p = some (l', sent)) :
    Quiet (s.viewOf l) (s.viewOf l') ∧ (∀ q ≠ p, l'.heap q = l.heap q) ∧
      (sent = true → (l'.heap p).sentAllPackets = true) := by
  have hp : p ∈ l.slots := by simp [hslots]
  have hslot : InSlots (l.heap p) := hwf.slots p hp
  rcases tryToSend_cases h with ⟨rfl, rfl, -⟩ | ⟨hcan, packet, hpacket, hcases⟩
  · exact ⟨refl, fun _ _ => rfl, by simp⟩
  have hrunning : (s.viewOf l).retry = none := retry_of_running (running_of_canSend hcan)
  rcases hcases with ⟨hlocal, -⟩ | ⟨-, port, state, hport, hissue, rfl, rfl⟩ |
    ⟨-, state, hretry, rfl, rfl⟩
  · cases hslot.2.symm.trans hlocal
  · have hstate := slot_state (.inl hissue) hslot hopen
    obtain rfl := issuingState_of_slot hslot hissue
    refine ⟨?_, fun q hq => by simp [LSQ.modify, hq], fun hall => ?_⟩
    · rw [view_sent _ hport]
      exact single (LSQStep.slotSend (s.viewOf l) p older younger packet hslots hrunning
        holder hstate hpacket)
    · have hself : (l.modify p fun r => r.stepToNextPacket.setState .storeBufferIssuing).heap p
          = (l.heap p).stepToNextPacket.setState .storeBufferIssuing := by simp [LSQ.modify]
      show ((l.modify p fun r => r.stepToNextPacket.setState .storeBufferIssuing).heap
        p).sentAllPackets = true
      rw [hself]
      exact hall
  · have hstate := slot_state (.inr hretry) hslot hopen
    obtain rfl := retryState_of_slot hslot hretry
    exact ⟨single (LSQStep.slotRefuse (s.viewOf l) p older younger packet hslots hrunning
      holder hstate hpacket), fun q hq => by simp [LSQ.modify, hq], by simp⟩

/-- Each drain step is a quiet path. -/
theorem drain_quiet (hwf : (s.viewOf l).WF) (h : Drain env l l') :
    Quiet (s.viewOf l) (s.viewOf l') := by
  cases h with
  | clearBarrier p rest hslots hcomplete hbarrier =>
    obtain ⟨barrier, hclear⟩ := clearMemBarrier_eq l (l.heap p).inst
    rw [hclear]
    exact single (LSQStep.clearBarrier (s.viewOf l) p rest hslots hcomplete hbarrier)
  | slotSend l₁ p older younger sent hslots holder hopen htry =>
    have hpath := (slotSend_quiet hwf hslots holder hopen htry).1
    cases sent with
    | true =>
      obtain ⟨n, hcount⟩ := countIssuedStore_eq l₁ p
      rw [if_pos rfl, hcount]
      exact hpath
    | false => exact hpath

/-- Drain steps, any number of them. -/
abbrev Drains (env : LSQEnv) : LSQ → LSQ → Prop :=
  Relation.ReflTransGen (Drain env)

/-- Drain steps keep a predicate that each of them keeps. The view stays well formed, so a
step may rely on it. -/
theorem drains_invariant {P : LSQ → Prop}
    (hdrain : ∀ l l', (s.viewOf l).WF → P l → Drain env l l' → P l') (hwf : (s.viewOf l).WF)
    (hP : P l) (h : Drains env l l') : (s.viewOf l').WF ∧ P l' := by
  induction h with
  | refl => exact ⟨hwf, hP⟩
  | tail _ hstep ih =>
    exact ⟨(drain_quiet ih.1 hstep).wf ih.1, hdrain _ _ ih.1 ih.2 hstep⟩

/-- Drain steps are a quiet path. -/
theorem drains_quiet (hwf : (s.viewOf l).WF) (h : Drains env l l') :
    Quiet (s.viewOf l) (s.viewOf l') :=
  (drains_invariant (P := fun l' => Quiet (s.viewOf l) (s.viewOf l'))
    (fun _ _ hwf hpath hstep => hpath.trans (drain_quiet hwf hstep)) hwf (refl) h).2

variable (slots : List Nat)

/-- Clearing the leading barriers. -/
theorem clearBarriers_drains (l : LSQ) :
    Drains env { l with slots := slots } (l.clearBarriers slots) := by
  induction slots generalizing l with
  | nil => exact refl
  | cons p rest ih =>
    unfold LSQ.clearBarriers
    split
    · rename_i hbarrier
      simp only [Bool.and_eq_true, isComplete, beq_iff_eq] at hbarrier
      have hstep : Drain env { l with slots := p :: rest } _ :=
        Drain.clearBarrier { l with slots := p :: rest } p rest rfl hbarrier.1 hbarrier.2
      have hsame : { ({ l with slots := p :: rest } : LSQ).clearMemBarrier (l.heap p).inst with
            numUnissuedAccesses := l.numUnissuedAccesses - 1, slots := rest }
          = { ({ l.clearMemBarrier (l.heap p).inst with
              numUnissuedAccesses := l.numUnissuedAccesses - 1 } : LSQ) with
              slots := rest } := by
        unfold LSQ.clearMemBarrier
        split <;> rfl
      exact head (hsame ▸ hstep) (ih _)
    · exact refl

/-- The loop over the slots passes a slot that has sent its last packet. -/
theorem slotSend_next {older rest : List Nat} (hwf : (s.viewOf l).WF)
    (hslots : l.slots = older ++ p :: rest) (holder : ∀ q ∈ older, (l.heap q).sentAllPackets = true)
    (hopen : ¬((l.heap p).state == .storeBufferIssuing && (l.heap p).sentAllPackets) = true)
    (htry : l.tryToSend env p = some (l', true)) :
    Drain env l (l'.countIssuedStore p) ∧ (s.viewOf (l'.countIssuedStore p)).WF ∧
      (l'.countIssuedStore p).slots = older ++ [p] ++ rest ∧
      ∀ q ∈ older ++ [p], ((l'.countIssuedStore p).heap q).sentAllPackets = true := by
  obtain ⟨-, hframe, hall⟩ := slotSend_quiet hwf hslots holder hopen htry
  have hstep : Drain env l (l'.countIssuedStore p) :=
    .slotSend l l' p older rest true hslots holder hopen htry
  refine ⟨hstep, (drain_quiet hwf hstep).wf hwf, ?_⟩
  obtain ⟨n, hcount⟩ := countIssuedStore_eq l' p
  rw [hcount]
  refine ⟨?_, fun q hq => ?_⟩
  · rw [(tryToSend_frame htry).1.2.2, hslots]
    simp
  · by_cases hqp : q = p
    · rw [hqp]
      exact hall rfl
    · rw [hframe q hqp]
      exact holder q (by simpa [hqp] using hq)

/-- Issuing stores in order. `older` are the slots that the loop has passed. -/
theorem issueStores_drains :
    ∀ {limit : Nat} {older : List Nat} {l l' : LSQ}, (s.viewOf l).WF →
      l.slots = older ++ slots → (∀ q ∈ older, (l.heap q).sentAllPackets = true) →
      LSQ.issueStores env limit slots l = some l' → Drains env l l' := by
  induction slots with
  | nil =>
    intro limit older l l' _ _ _ h
    cases h
    exact refl
  | cons p rest ih =>
    intro limit older l l' hwf hslots holder h
    unfold LSQ.issueStores at h
    split at h
    · cases h
      exact refl
    split at h
    · cases h
      exact refl
    split at h
    · -- All packets of this slot are sent, so the loop passes it.
      rename_i hsent
      simp only [Bool.and_eq_true] at hsent
      have hslots' : l.slots = (older ++ [p]) ++ rest := by simp [hslots]
      exact ih hwf hslots' (forall_mem_append.mpr ⟨holder, by simpa using hsent.2⟩) h
    · rename_i hopen
      obtain ⟨⟨l₁, sent⟩, htry, hrest⟩ := bind_eq_some_iff.mp h
      cases sent with
      | false =>
        cases hrest
        exact single (Drain.slotSend l l₁ p older rest false hslots holder hopen htry)
      | true =>
        obtain ⟨hstep, hwf₁, hslots₁, holder₁⟩ := slotSend_next hwf hslots holder hopen htry
        exact head hstep (ih hwf₁ hslots₁ holder₁ hrest)

/-- `StoreBuffer::step`. -/
theorem stepStoreBuffer_drains (hwf : (s.viewOf l).WF) (h : l.stepStoreBuffer env = some l') :
    Drains env l l' := by
  unfold LSQ.stepStoreBuffer at h
  split at h
  · cases h
    exact refl
  · have hclear : Drains env l (l.clearBarriers l.slots) := clearBarriers_drains l.slots l
    have hwf' := (drains_quiet hwf hclear).wf hwf
    exact hclear.trans (issueStores_drains _ hwf' (nil_append _).symm (fun q hq => by simp at hq) h)

/-- `LSQ::step`. -/
theorem step_quiet (hwf : (s.viewOf l).WF) (hstream : env.streamSeqNum = s.streamSeqNum)
    (h : l.step env = some l') : Quiet (s.viewOf l) (s.viewOf l') := by
  unfold LSQ.step at h
  split at h
  · exact drains_quiet hwf (stepStoreBuffer_drains hwf h)
  · obtain ⟨l₁, htry, hbuffer⟩ := bind_eq_some_iff.mp h
    obtain ⟨hpath, -⟩ := tryToSendToTransfers_quiet hwf hstream htry
    have hwf₁ := hpath.wf hwf
    exact hpath.trans (drains_quiet hwf₁ (stepStoreBuffer_drains hwf₁ hbuffer))

/-! ### Retries -/

/-- The state before a packet is sent does not matter after it, nor to the question whether every
packet has been sent. -/
theorem stepToNextPacket_setState (r : LSQRequest) (state state' : LSQRequestState) :
    (r.setState state).stepToNextPacket.setState state' = r.stepToNextPacket.setState state' ∧
      (r.setState state).stepToNextPacket.sentAllPackets = r.stepToNextPacket.sentAllPackets := by
  obtain ⟨kind⟩ := r
  cases kind <;> exact ⟨rfl, rfl⟩

/-- The LSQ after a packet that was refused is sent. -/
def resent (l : LSQ) (p : Nat) (after : LSQRequestState) (port : DcachePort) : LSQ :=
  { l with
    heap := update l.heap p ((l.heap p).stepToNextPacket.setState after)
    numAccessesInMemorySystem := l.numAccessesInMemorySystem + 1
    dcachePort := port
    state := .memoryRunning }

/-- The outcomes of `recvReqRetry`. A packet that is refused again changes nothing. The limit
on the packets in the memory system never stops a retry, since it was not reached when the
packet was refused. -/
inductive Retry (l : LSQ) : LSQ → Prop
  | refused : Retry l l
  | request (p : Nat) (rest : List Nat) (packet : Packet) (port : DcachePort)
      (hwaiting : l.state = .memoryNeedsRetry) (hretry : l.retryRequest = some p)
      (hstate : (l.heap p).state = .requestNeedsRetry) (hfront : l.requests = p :: rest)
      (hlocal : (l.heap p).request.localAccess = false)
      (hpacket : (l.heap p).getHeadPacket = some packet)
      (hport : l.dcachePort.sendTimingReq p packet = some port) :
      Retry l (if (l.heap p).stepToNextPacket.sentAllPackets then
          { (resent l p .requestIssuing port).moveFromRequestsToTransfers p with
            retryRequest := none }
        else resent l p .requestIssuing port)
  | slot (p : Nat) (packet : Packet) (port : DcachePort)
      (hwaiting : l.state = .memoryNeedsRetry) (hretry : l.retryRequest = some p)
      (hstate : (l.heap p).state = .storeBufferNeedsRetry) (hp : p ∈ l.slots)
      (hlocal : (l.heap p).request.localAccess = false)
      (hpacket : (l.heap p).getHeadPacket = some packet)
      (hport : l.dcachePort.sendTimingReq p packet = some port) :
      Retry l (if (l.heap p).stepToNextPacket.sentAllPackets then
          { (resent l p .storeBufferIssuing port).countIssuedStore p with retryRequest := none }
        else resent l p .storeBufferIssuing port)

/-- The packet of a retry is sent, or refused again, or the limit of the LSQ stops it. `before` is
the state in which it is sent, and `after` the one after that. -/
theorem resend_cases {before after : LSQRequestState}
    (hissue : LSQ.issuingState before = some after)
    (hrefuse : LSQ.retryState before = some (l.heap p).state)
    (hlocal : (l.heap p).request.localAccess = false)
    (h : ({ (l.modify p fun r => r.setState before) with
      state := .memoryRunning } : LSQ).tryToSend env p = some (l', sent)) :
    (sent = false ∧ ¬l.numAccessesInMemorySystem < l.inMemorySystemLimit ∧
        l' = { (l.modify p fun r => r.setState before) with state := .memoryRunning }) ∨
      (∃ packet port, (l.heap p).getHeadPacket = some packet ∧
        l.dcachePort.sendTimingReq p packet = some port ∧
        sent = (l.heap p).stepToNextPacket.sentAllPackets ∧ l' = resent l p after port) ∨
      (sent = false ∧ l' = { l with state := .memoryNeedsRetry, retryRequest := some p }) := by
  have hself : (l.modify p fun r => r.setState before).heap p = (l.heap p).setState before := by
    simp [LSQ.modify]
  rcases tryToSend_cases h with ⟨rfl, rfl, hfull⟩ | ⟨-, packet, hpacket, hcases⟩
  · refine .inl ⟨rfl, fun hroom => ?_, rfl⟩
    simp [LSQ.canSendToMemorySystem, LSQ.modify, hroom] at hfull
  rw [hself] at hpacket hcases
  rcases hcases with ⟨hloc, -⟩ | ⟨-, port, state, hport, hstate, rfl, rfl⟩ |
    ⟨-, state, hstate, rfl, rfl⟩
  · cases hlocal.symm.trans hloc
  · refine .inr (.inl ⟨packet, port, hpacket, hport,
      (stepToNextPacket_setState (l.heap p) before after).2, ?_⟩)
    have hafter : after = state := Option.some.inj (hissue.symm.trans hstate)
    subst hafter
    simp [resent, LSQ.modify, (stepToNextPacket_setState _ _ _).1]
  · refine .inr (.inr ⟨rfl, ?_⟩)
    have hback : (l.heap p).state = state := Option.some.inj (hrefuse.symm.trans hstate)
    subst hback
    have hheap : update (update l.heap p ((l.heap p).setState before)) p
        (((l.heap p).setState before).setState (l.heap p).state) = l.heap := by
      rw [update_idem]
      exact update_eq_self p l.heap
    simp only [LSQ.modify, update_self, hheap]

/-- `recvReqRetry` has one of the outcomes, unless the limit of the LSQ stops the packet. -/
theorem recvReqRetry_cases (hwf : (s.viewOf l).WF) (h : l.recvReqRetry env = some l') :
    Retry l l' ∨ ∃ p before, l.state = .memoryNeedsRetry ∧ l.retryRequest = some p ∧
      ¬l.numAccessesInMemorySystem < l.inMemorySystemLimit ∧
      LSQ.resendState (l.heap p).state = some before ∧
      l' = { (l.modify p fun r => r.setState before) with state := .memoryRunning } := by
  unfold LSQ.recvReqRetry at h
  split at h
  · rename_i p hwaiting hptr
    obtain ⟨hreq, hslot⟩ := hwf.retry p (by simp [view, hwaiting, hptr])
    obtain ⟨before, hbefore, hrest⟩ := bind_eq_some_iff.mp h
    obtain ⟨⟨l₁, sent⟩, htry, hend⟩ := bind_eq_some_iff.mp hrest
    -- The state in which the packet is sent, and the outcome if it is.
    obtain ⟨after, hissue, hrefuse, hlocal, hsent⟩ : ∃ after, LSQ.issuingState before = some after ∧
        LSQ.retryState before = some (l.heap p).state ∧
        (l.heap p).request.localAccess = false ∧
        ∀ packet port, (l.heap p).getHeadPacket = some packet →
          l.dcachePort.sendTimingReq p packet = some port →
          (if (l.heap p).stepToNextPacket.sentAllPackets then
            (resent l p after port).finishRetry p else some (resent l p after port)) = some l' →
          Retry l l' := by
      unfold LSQ.resendState at hbefore
      split at hbefore
      · rename_i hstate
        cases hbefore
        obtain ⟨hhead, hlocal⟩ := hreq hstate
        obtain ⟨rest, hfront⟩ := head?_eq_some_iff.mp hhead
        refine ⟨.requestIssuing, rfl, by rw [hstate]; rfl, hlocal,
          fun packet port hpacket hport hend => ?_⟩
        have hfinish : (resent l p .requestIssuing port).finishRetry p = some
            { (resent l p .requestIssuing port).moveFromRequestsToTransfers p with
              retryRequest := none } := by
          simp [LSQ.finishRetry, resent, setState]
        rw [hfinish, ← apply_ite some, Option.some.injEq] at hend
        exact hend ▸ .request p rest packet port hwaiting hptr hstate hfront hlocal hpacket hport
      · rename_i hstate
        cases hbefore
        have hp := hslot hstate
        have hlocal := (hwf.slots p hp).2
        refine ⟨.storeBufferIssuing, rfl, by rw [hstate]; rfl, hlocal,
          fun packet port hpacket hport hend => ?_⟩
        have hfinish : (resent l p .storeBufferIssuing port).finishRetry p = some
            { (resent l p .storeBufferIssuing port).countIssuedStore p with
              retryRequest := none } := by
          simp [LSQ.finishRetry, resent, setState]
        rw [hfinish, ← apply_ite some, Option.some.injEq] at hend
        exact hend ▸ .slot p packet port hwaiting hptr hstate hp hlocal hpacket hport
      · cases hbefore
    rcases resend_cases hissue hrefuse hlocal htry with
      ⟨rfl, hfull, rfl⟩ | ⟨packet, port, hpacket, hport, rfl, rfl⟩ | ⟨rfl, rfl⟩
    · cases hend
      exact .inr ⟨p, before, hwaiting, hptr, hfull, hbefore, rfl⟩
    · exact .inl (hsent packet port hpacket hport hend)
    · cases hend
      rw [← hwaiting, ← hptr]
      exact .inl .refused
  · cases h

theorem view_resent (after : LSQRequestState) {port : DcachePort}
    (hport : l.dcachePort.sendTimingReq p packet = some port) :
    s.viewOf (resent l p after port) = { ((s.viewOf l).put p
      ((l.heap p).stepToNextPacket.setState after)).sendPacket p packet with retry := none } := by
  simp [view, resent, LSQView.put, LSQView.sendPacket, inMemory_sendTimingReq hport]

/-- `recvReqRetry` is one quiet change. -/
theorem recvReqRetry_step (hwf : (s.viewOf l).WF) (h : l.recvReqRetry env = some l') :
    LSQStep (s.viewOf l) .quiet (s.viewOf l') := by
  have hview : ∀ {p}, l.state = .memoryNeedsRetry → l.retryRequest = some p →
      (s.viewOf l).retry = some p := by
    intro p hwaiting hptr
    simp [view, hwaiting, hptr]
  rcases recvReqRetry_cases hwf h with hretry | ⟨p, before, hwaiting, hptr, -, hbefore, rfl⟩
  · cases hretry with
    | refused => exact LSQStep.idle _
    | request p rest packet port hwaiting hptr hstate hfront hlocal hpacket hport =>
      have hstep := LSQStep.resend (s.viewOf l) p rest packet (hview hwaiting hptr) hstate hfront
        hlocal hpacket
      have hafter := view_resent (s := s) .requestIssuing hport
      rw [show (s.viewOf l).heap p = l.heap p from rfl] at hstep
      split <;> rename_i hall
      · have hmove : s.viewOf { (resent l p .requestIssuing port).moveFromRequestsToTransfers p with
            retryRequest := none }
            = { (s.viewOf (resent l p .requestIssuing port)).move p rest with retry := none } := by
          rw [← view_move (l := resent l p .requestIssuing port) rest hfront]
          rfl
        rw [hall] at hstep
        rw [hmove, hafter]
        exact hstep
      · rw [Bool.eq_false_iff.mpr hall] at hstep
        rw [hafter]
        exact hstep
    | slot p packet port hwaiting hptr hstate hp hlocal hpacket hport =>
      have hstep := LSQStep.slotResend (s.viewOf l) p packet (hview hwaiting hptr) hstate hpacket
      have hafter := view_resent (s := s) .storeBufferIssuing hport
      split
      · obtain ⟨n, hcount⟩ := countIssuedStore_eq (resent l p .storeBufferIssuing port) p
        have hview : s.viewOf { (resent l p .storeBufferIssuing port).countIssuedStore p with
            retryRequest := none } = s.viewOf (resent l p .storeBufferIssuing port) := by
          rw [hcount]
          rfl
        rw [hview, hafter]
        exact hstep
      · rw [hafter]
        exact hstep
  · -- The limit leaves the request in the state before it was sent.
    unfold LSQ.resendState at hbefore
    split at hbefore
    · rename_i hstate
      cases hbefore
      exact LSQStep.unblock (s.viewOf l) p (hview hwaiting hptr) hstate
    · rename_i hstate
      cases hbefore
      exact LSQStep.slotUnblock (s.viewOf l) p (hview hwaiting hptr) hstate
    · cases hbefore

/-! ### The events -/

/-- A response for a slot: it leaves the store buffer when it is complete. -/
theorem deleteRequest_step (fresh : Buffer) {retired : LSQ}
    (ha : l.dcachePort.inMemory[k]? = some a) (hperformed : a.performed = true)
    (hstate : (l.heap a.ptr).state = .storeBufferIssuing ∨
      (l.heap a.ptr).state = .storeBufferNeedsRetry)
    (hview : s.viewOf retired
      = { (s.viewOf l).put a.ptr ((l.heap a.ptr).retireResponse a.packet fresh) with
          inMemory := l.dcachePort.inMemory.eraseIdx k })
    (h : (if (retired.heap a.ptr).isComplete && !(retired.heap a.ptr).isBarrier then
        some (retired.deleteRequest a.ptr)
      else some retired) = some l') : LSQStep (s.viewOf l) (.respond k) (s.viewOf l') := by
  have hstep := LSQStep.slotRespond (s.viewOf l) k a fresh ha hperformed hstate
  have hheap : retired.heap a.ptr = (l.heap a.ptr).retireResponse a.packet fresh :=
    (congrArg (fun v => v.heap a.ptr) hview).trans (by simp)
  have hslots : retired.slots = l.slots := congrArg (fun v => v.slots) hview
  have hdelete : s.viewOf (retired.deleteRequest a.ptr)
      = { s.viewOf retired with slots := retired.slots.erase a.ptr } := rfl
  have hold : (s.viewOf l).heap = l.heap := rfl
  rw [hold] at hstep
  rw [hheap] at h
  split at h <;> rename_i hdone <;> cases h
  · rw [hdelete, hview, hslots]
    rw [if_pos hdone] at hstep
    exact hstep
  · rw [hview]
    rw [if_neg hdone] at hstep
    exact hstep

/-- `recvTimingResp` is one change. -/
theorem recvTimingResp_step (ha : l.dcachePort.inMemory[k]? = some a)
    (hperformed : a.performed = true) (h : (takeResponse l k).recvTimingResp env a = some l') :
    LSQStep (s.viewOf l) (.respond k) (s.viewOf l') := by
  unfold LSQ.recvTimingResp at h
  split at h
  · rename_i hstate
    cases h
    exact LSQStep.respond (s.viewOf l) k a env.fresh ha hperformed (.inl hstate)
  · rename_i hstate
    cases h
    exact LSQStep.respond (s.viewOf l) k a env.fresh ha hperformed (.inr hstate)
  · rename_i hstate
    exact deleteRequest_step env.fresh ha hperformed (.inl hstate) rfl h
  · rename_i hstate
    exact deleteRequest_step env.fresh ha hperformed (.inr hstate) rfl h
  · cases h

/-- A request of the queue stays there along `tryToSendToTransfers`, so its fault can still
be cleared. -/
theorem finishTranslation_quiet {t : Translation} (hwf : (s.viewOf l).WF)
    (hstream : env.streamSeqNum = s.streamSeqNum) (hp : p ∈ l.requests)
    (h : l.finishTranslation env p t = some l') :
    ∃ v, LSQStep (s.viewOf l) (.finish p t) v ∧ Quiet v (s.viewOf l') := by
  unfold LSQ.finishTranslation at h
  dsimp only at h
  split at h
  · cases h
  · rename_i hstate
    have hfinish := LSQStep.finish (s.viewOf l) p t env.fresh hp (not_not.mp hstate)
    have hwf₁ : (s.viewOf (l.modify p fun r => r.finish t env.fresh)).WF := wf_step hwf hfinish
    refine ⟨_, hfinish, ?_⟩
    split at h
    · cases h
      exact refl
    · obtain ⟨l₁, htry, hclear⟩ := map_eq_some_iff.mp h
      obtain ⟨hpath, hqueue⟩ := tryToSendToTransfers_quiet hwf₁ hstream htry
      subst hclear
      refine hpath.trans ?_
      split
      · have hmem : p ∈ (s.viewOf l₁).queue := by
          show p ∈ l₁.transfers ++ l₁.requests
          rw [hqueue]
          exact mem_append_right _ hp
        exact single (LSQStep.clearFault (s.viewOf l₁) p hmem)
      · exact refl

/-- `pushRequest` is one change. -/
theorem pushRequest_step {args : LSQ.PushArgs} (hstream : s.rightStream args.inst = true)
    (h : l.pushRequest env args = some l') : LSQStep (s.viewOf l) (.push args) (s.viewOf l') := by
  unfold LSQ.pushRequest at h
  split at h
  · cases h
  · rename_i hatomic
    split at h
    · cases h
    · rename_i hmask
      cases h
      refine LSQStep.push (s.viewOf l) args env.fresh hstream ?_ (not_not.mp hmask)
      intro hburst
      have hburst' : transferNeedsBurst args.addr args.size l.lineWidth = true := hburst
      rw [hburst', Bool.true_and] at hatomic
      exact Bool.not_eq_true _ ▸ hatomic

/-- The front of `transfers` that `response` returns can leave the queue. -/
theorem canRespond_of_response (h : s.response = some p) : ∃ rest, s.view.CanRespond p rest := by
  obtain ⟨q, hhead, hfind⟩ := bind_eq_some_iff.mp h
  unfold LSQ.findResponse at hfind
  split at hfind
  · cases hfind
  · rename_i q' rest htransfers
    rw [htransfers, head?_cons, Option.some.injEq] at hhead
    dsimp only at hfind
    split at hfind
    · rename_i hcond
      cases hfind
      refine ⟨rest, htransfers, ?_⟩
      simp only [Bool.and_eq_true, Bool.or_eq_true, isComplete,
        needsToBeSentToStoreBuffer, beq_iff_eq] at hcond
      exact hcond.2.imp And.left And.left
    · cases hfind

theorem tail_of_canRespond (h : s.view.CanRespond p rest) : s.lsq.transfers.tail = rest := by
  have htransfers : s.lsq.transfers = p :: rest := h.1
  rw [htransfers, tail_cons]

/-- `commit` of the system is `commit` of the view. -/
theorem view_commit (env : ResponseEnv) (h : s.view.CanRespond p rest) :
    (s.commit env p).view = s.view.commit env p rest := by
  have htail := tail_of_canRespond h
  by_cases hbuffer :
      (handleMemResponse s.lsq.thresholdLCT env s.lsq.cvu (s.lsq.heap p)).toStoreBuffer = true
  · have hstate := state_of_toStoreBuffer hbuffer
    simp [commit, view, LSQView.commit, LSQ.commitResponse, hbuffer, LSQ.sendStoreToStoreBuffer,
      LSQ.insert, LSQ.popResponse, LSQ.modify, LSQView.put, LSQView.pop, isComplete,
      setState, hstate, htail]
  · simp [commit, view, LSQView.commit, LSQ.commitResponse, hbuffer, LSQ.popResponse,
      LSQ.modify, LSQView.put, LSQView.pop, htail]

/-- A request without an access has no state between the queues. -/
theorem view_completeMemBarrierInst (inst : DynInst) (committed : Bool) :
    LSQStep (s.viewOf l) .quiet (s.viewOf (l.completeMemBarrierInst inst committed)) := by
  unfold LSQ.completeMemBarrierInst
  split
  · split
    · exact LSQStep.idle _
    · have hstep := LSQStep.insertBarrier (s.viewOf l) inst
      -- A barrier is complete, so it keeps its state in the store buffer.
      have hview : ∀ r : LSQRequest, r.isComplete = true → s.viewOf ((l.alloc r).insert l.nextPtr)
          = { (s.viewOf l).put l.nextPtr r with
              nextPtr := l.nextPtr + 1, slots := l.slots ++ [l.nextPtr] } := by
        intro r hr
        have hheap : ((l.alloc r).insert l.nextPtr).heap = update l.heap l.nextPtr r := by
          simp [LSQ.insert, LSQ.alloc, LSQ.modify, hr]
        simp only [view, hheap]
        rfl
      rw [hview _ rfl]
      exact hstep
  · obtain ⟨barrier, hclear⟩ := clearMemBarrier_eq l inst
    rw [hclear]
    exact LSQStep.idle _

/-- The first change of an event, with the quiet ones that follow. -/
theorem step_change {s' : LSQSystem} {e : Event} (hwf : s.view.WF) (h : s.step e = some s') :
    ∃ v, LSQStep s.view (label e) v ∧ Quiet v s'.view := by
  have single : ∀ {l : LSQLabel}, LSQStep s.view l s'.view →
      ∃ v, LSQStep s.view l v ∧ Quiet v s'.view := fun hstep => ⟨_, hstep, refl⟩
  cases e with
  | push args call =>
    obtain ⟨hright, h⟩ := ite_none_right_eq_some.mp h
    obtain ⟨l', hpush, rfl⟩ := map_eq_some_iff.mp h
    exact single (pushRequest_step (l := s.entered call) hright hpush)
  | pushFailed inst =>
    obtain ⟨hright, ⟨⟩⟩ := ite_none_right_eq_some.mp h
    exact single (LSQStep.pushFailed s.view inst hright)
  | markDelayed p =>
    obtain ⟨hp, ⟨⟩⟩ := ite_none_right_eq_some.mp h
    exact single (LSQStep.adjust s.view p true (s.lsq.heap p).issuedToMemory hp)
  | finishTranslation p t call =>
    obtain ⟨hp, h⟩ := ite_none_right_eq_some.mp h
    obtain ⟨l', hfinish, rfl⟩ := map_eq_some_iff.mp h
    exact finishTranslation_quiet (l := s.entered call) hwf rfl hp hfinish
  | step call =>
    obtain ⟨l', hstep, rfl⟩ := map_eq_some_iff.mp h
    exact ⟨_, LSQStep.idle s.view, step_quiet (l := s.entered call) hwf rfl hstep⟩
  | perform k newData succeeds =>
    simp only [step] at h
    split at h
    · cases h
    · rename_i a ha
      obtain ⟨hcan, ⟨⟩⟩ := ite_none_right_eq_some.mp h
      simp only [canPerform, Bool.and_eq_true, Bool.not_eq_true', all_eq_true,
        Bool.or_eq_true] at hcan
      refine single (LSQStep.perform s.view k a newData succeeds ha hcan.1 ?_)
      intro b hb hbp
      rcases hcan.2 b hb with hb' | hb'
      · cases hb'.symm.trans hbp
      · exact hb'
  | recvTimingResp k call =>
    simp only [step] at h
    split at h
    · cases h
    · rename_i a ha
      obtain ⟨hperformed, h⟩ := ite_none_right_eq_some.mp h
      obtain ⟨l', hresp, rfl⟩ := map_eq_some_iff.mp h
      exact single (recvTimingResp_step (l := s.entered call) ha hperformed hresp)
  | recvReqRetry call =>
    obtain ⟨l', hretry, rfl⟩ := map_eq_some_iff.mp h
    exact single (recvReqRetry_step (l := s.entered call) hwf hretry)
  | commit env =>
    simp only [step] at h
    split at h
    · cases h
    · rename_i p hp
      obtain ⟨hright, ⟨⟩⟩ := ite_none_right_eq_some.mp h
      obtain ⟨rest, hrespond⟩ := canRespond_of_response hp
      refine single ?_
      rw [view_commit env hrespond]
      exact LSQStep.commit s.view env p rest hrespond hright
  | discard =>
    simp only [step] at h
    split at h
    · cases h
    · rename_i p hp
      cases h
      obtain ⟨rest, hrespond⟩ := canRespond_of_response hp
      have hstep := LSQStep.discard s.view p rest hrespond
      rw [← tail_of_canRespond hrespond] at hstep
      exact single hstep
  | changeStream tid =>
    cases h
    exact single (LSQStep.changeStream s.view tid)
  | issuedMemBarrierInst =>
    cases h
    exact single (LSQStep.idle s.view)
  | completeMemBarrierInst inst committed =>
    cases h
    exact single (view_completeMemBarrierInst inst committed)
  | snoop write =>
    cases h
    exact single (LSQStep.snoop s.view write)

/-- The system refines the transition relation. -/
theorem lsqSystem_refines : Lib.Refines step view label LSQStep LSQLabel.quiet LSQView.WF where
  wf_tr := fun hwf hstep => wf_step hwf hstep
  step_tr := fun hwf hstep => step_change hwf hstep

/-- The first view is well formed: every place is empty. -/
theorem wf_new (params : LSQParams) (mem : Addr → Byte) : (new params mem).view.WF where
  nodup := nodup_nil
  fresh := nofun
  owned := nofun
  requests := nofun
  transfers := nofun
  slots := nofun
  retry := by
    intro p hp
    simp [new, view, LSQ.new] at hp

end

end LSQSystem

end Gem5.MyMinor
