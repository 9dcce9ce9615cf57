import Gem5.Proofs.MyMinor.LSQQueue
import Gem5.Proofs.MyMinor.PlainTranslation

/-!
# `Gem5.Proofs.MyMinor.CoherenceInvariant`: memory under the store buffer

The invariant of runs of plain loads and stores of one thread. `arch` is the memory after the
committed stores in program order. The invariant describes it in two ways:

* `buffered`: it is the memory of the system with the writes of all slots over it, oldest
  first. A load that no slot overlaps therefore finds it in memory.
* `pending`: it is the memory with only those writes over it that the memory system has not
  performed: the packets in flight in the order sent, then the unsent packets of the slots. So it is
  what memory holds once the stores have left the buffer.

`order` keeps the loads apart from both: a load starts only when no store is in front of it
in the queue, so `arch` does not change while its packets are in flight.

The rules below say what the changes of one request do to the invariant. The transitions are
put together from them in `Gem5.Proofs.MyMinor.Coherence`.
-/

namespace Gem5.MyMinor

open Function List Lib
open LSQ (slotCoverage)

open Lib.Patch (applyAll)

namespace LSQRequest

variable (r : LSQRequest)

/-- A load with packets in memory, or about to send one without another look at the store
buffer. -/
def Exposed : Prop :=
  r.isLoad = true ∧ r.skipped = false ∧ (0 < r.numSent ∨ r.state = .requestNeedsRetry)

/-- A load whose data is decided, at least in part. -/
def Started : Prop :=
  r.isLoad = true ∧ r.skipped = false ∧
    (0 < r.numSent ∨ r.state = .requestNeedsRetry ∨ (r.state = .complete ∧ r.packet ≠ none))

/-- A request of the queue. -/
structure Queued (tid : ThreadID) (streamSeqNum : ThreadID → InstSeqNum)
    (arch : Addr → Byte) (r : LSQRequest) (as : List MemAccess) : Prop where
  kind : r.isLoad = false → r.kind = .singleData ∨ r.kind = .splitData
  ok : ReqOk tid r as
  load : r.isLoad = true → r.skipped = false → LoadOk arch r as
  store : r.isLoad = false → r.numSent = 0
  skipped : r.skipped = true → r.state = .complete ∧
    (r.packet = none ∨ r.inst.id.streamSeqNum < streamSeqNum r.inst.id.threadId)
  untranslated : r.state = .inTranslation → Untranslated r
  failed : r.state = .failed → r.packet = none

/-- A request of the store buffer: a store, or a barrier without an access. -/
structure Buffered (tid : ThreadID) (r : LSQRequest) (as : List MemAccess) : Prop where
  ok : ReqOk tid r as
  store : r.packet ≠ none → r.isLoad = false
  empty : r.packet = none → r.request.size = 0
  skipped : r.skipped = false
  unsent : r.state = .storeInStoreBuffer ∨ r.state = .storeBufferNeedsRetry →
    r.numSent < r.packets.length
  complete : r.state = .complete → r.numBack = r.packets.length

/-- The writes of the packets that are still to send. -/
def unsentWrites : List (Patch Addr Byte) :=
  (r.packets.drop r.numSent).map Packet.write

end LSQRequest

namespace LSQView

variable (inMemory : List MemAccess)

/-- The packets of a request in flight. -/
def accessesOf (p : Nat) : List MemAccess :=
  inMemory.filter fun a => a.ptr == p

/-- The writes that the memory system was sent and has not performed. -/
def inFlightWrites : List (Patch Addr Byte) :=
  (inMemory.filter fun a => !a.performed && !a.packet.isLoad).map fun a => a.packet.write

/-- The packets in flight change for one request, and no write that is still to be performed
does. -/
structure OthersKept (p : Nat) (old new : List MemAccess) : Prop where
  others : ∀ q, q ≠ p → accessesOf new q = accessesOf old q
  writes : new.filter (fun a => !a.performed && !a.packet.isLoad)
    = old.filter (fun a => !a.performed && !a.packet.isLoad)

/-- The writes of the slots, oldest first. -/
def slotWrites (v : LSQView) : List (Patch Addr Byte) :=
  v.slots.map fun p => (v.heap p).write

/-- The writes of the slots that are still to send. -/
def unsentWrites (v : LSQView) : List (Patch Addr Byte) :=
  v.slots.flatMap fun p => (v.heap p).unsentWrites

/-- The memory after the committed stores. -/
def arch (mem : Addr → Byte) (v : LSQView) : Addr → Byte :=
  applyAll v.committed mem

open LSQRequest in
/-- The invariant. -/
structure Coherent (tid : ThreadID) (mem : Addr → Byte) (v : LSQView) : Prop where
  width : ∃ k < 32, v.lineWidth = 2 ^ k
  queued : ∀ p ∈ v.queue,
    Queued tid v.streamSeqNum (v.arch mem) (v.heap p) (accessesOf v.inMemory p)
  waiting : ∀ p ∈ v.requests, (v.heap p).packet ≠ none →
    (v.heap p).numSent < (v.heap p).packets.length ∧ (v.heap p).state ≠ .complete
  slots : ∀ p ∈ v.slots, Buffered tid (v.heap p) (accessesOf v.inMemory p)
  order : v.queue.Pairwise fun p q => Started (v.heap q) → (v.heap p).isLoad = true
  stores : v.numStoresInTransfers = v.transfers.countP fun p => !(v.heap p).isLoad
  exposed : ∀ p ∈ v.queue, Exposed (v.heap p) → ∀ q ∈ v.slots,
    LSQ.slotCoverage (v.heap q) (v.heap p) = .noCoverage
  owner : ∀ a ∈ v.inMemory, a.performed = false → a.packet.isLoad = false → a.ptr ∈ v.slots
  retry : v.slots.Pairwise fun q p => v.retry = some p →
    (v.heap p).state = .storeBufferNeedsRetry → (v.heap q).unsentWrites = []
  buffered : applyAll v.slotWrites v.mem = v.arch mem
  pending : applyAll (inFlightWrites v.inMemory ++ v.unsentWrites) v.mem = v.arch mem

/-! ### Packets in flight -/

section
variable {l : List MemAccess} {a a' : MemAccess} {p k : Nat}

/-- A list around one of its entries. -/
theorem split_at {α : Type} {l : List α} {a : α} (ha : l[k]? = some a) :
    l = l.take k ++ a :: l.drop (k + 1) := by
  obtain ⟨hk, hget⟩ := List.getElem?_eq_some_iff.mp ha
  rw [← hget, ← List.drop_eq_getElem_cons hk, List.take_append_drop]

theorem eraseIdx_at (l : List MemAccess) (k : Nat) : l.eraseIdx k = l.take k ++ l.drop (k + 1) :=
  eraseIdx_eq_take_drop_succ l k

theorem set_at (ha : l[k]? = some a) (a' : MemAccess) :
    l.set k a' = l.take k ++ a' :: l.drop (k + 1) := by
  obtain ⟨hk, -⟩ := List.getElem?_eq_some_iff.mp ha
  rw [List.set_eq_take_append_cons_drop, if_pos hk]

variable {P : MemAccess → Bool}

/-- A predicate that does not hold of a packet does not see it go. -/
theorem filter_eraseIdx (ha : l[k]? = some a) (hP : P a = false) :
    (l.eraseIdx k).filter P = l.filter P := by
  conv_rhs => rw [split_at ha]
  rw [eraseIdx_at, filter_append, filter_append, filter_cons_of_neg (by simp [hP])]

/-- A predicate that holds neither before nor after does not see a change. -/
theorem filter_set (ha : l[k]? = some a) (hP : P a = false) (hP' : P a' = false) :
    (l.set k a').filter P = l.filter P := by
  conv_rhs => rw [split_at ha]
  rw [set_at ha, filter_append, filter_append, filter_cons_of_neg (by simp [hP']),
    filter_cons_of_neg (by simp [hP])]

@[simp] theorem mem_accessesOf {b : MemAccess} : b ∈ accessesOf l p ↔ b ∈ l ∧ b.ptr = p := by
  simp [accessesOf]

/-- A packet enters the memory system. -/
theorem accessesOf_append_self (packet : Packet) :
    accessesOf (l ++ [{ ptr := p, packet := packet, performed := false }]) p
      = accessesOf l p ++ [{ ptr := p, packet := packet, performed := false }] := by
  simp [accessesOf]

variable {q : Nat}

theorem accessesOf_append_of_ne (packet : Packet) (h : q ≠ p) :
    accessesOf (l ++ [{ ptr := p, packet := packet, performed := false }]) q = accessesOf l q := by
  simp [accessesOf, h.symm]

variable (ha : l[k]? = some a)
include ha

/-- A packet leaves the memory system. -/
theorem accessesOf_eraseIdx_of_ne (h : q ≠ a.ptr) :
    accessesOf (l.eraseIdx k) q = accessesOf l q :=
  filter_eraseIdx ha (by simp [h.symm])

/-- The packets of a request around one of them. -/
theorem accessesOf_split : accessesOf l a.ptr
    = accessesOf (l.take k) a.ptr ++ a :: accessesOf (l.drop (k + 1)) a.ptr := by
  conv_lhs => rw [split_at ha]
  simp [accessesOf]

/-- The packets of a request after one of them was answered. -/
theorem accessesOf_eraseIdx_self :
    (accessesOf (l.eraseIdx k) a.ptr).length + 1 = (accessesOf l a.ptr).length ∧
      (∀ b ∈ accessesOf (l.eraseIdx k) a.ptr, b ∈ accessesOf l a.ptr) ∧
      ∀ b ∈ accessesOf l a.ptr, b = a ∨ b ∈ accessesOf (l.eraseIdx k) a.ptr := by
  have herase : accessesOf (l.eraseIdx k) a.ptr
      = accessesOf (l.take k) a.ptr ++ accessesOf (l.drop (k + 1)) a.ptr := by
    rw [eraseIdx_at]
    simp [accessesOf]
  rw [accessesOf_split ha, herase]
  refine ⟨by simp [Nat.add_assoc], fun b hb => ?_, fun b hb => ?_⟩
  · simp only [mem_append, mem_cons] at hb ⊢
    tauto
  · simp only [mem_append, mem_cons] at hb ⊢
    tauto

/-- A packet is performed. -/
theorem accessesOf_set_of_ne (hptr : a'.ptr = a.ptr) (h : q ≠ a.ptr) :
    accessesOf (l.set k a') q = accessesOf l q :=
  filter_set ha (by simp [h.symm]) (by simp [hptr, h.symm])

/-- The packets of a request after one of them was performed. -/
theorem performed_set (mem : Addr → Byte) :
    LSQRequest.Performed mem a (accessesOf l a.ptr)
      (accessesOf (l.set k { a with packet := a.packet.answer mem, performed := true }) a.ptr) := by
  have hset : accessesOf (l.set k { a with packet := a.packet.answer mem, performed := true }) a.ptr
      = accessesOf (l.take k) a.ptr ++ { a with packet := a.packet.answer mem, performed := true } ::
        accessesOf (l.drop (k + 1)) a.ptr := by
    rw [set_at ha]
    simp [accessesOf]
  rw [accessesOf_split ha, hset]
  refine ⟨by simp, by simp, fun b hb => ?_, fun b hb => ?_⟩
  · simp only [mem_append, mem_cons] at hb ⊢
    tauto
  · simp only [mem_append, mem_cons] at hb ⊢
    tauto

end

end LSQView

/-! ### Addresses -/

/-- Packets without a common line write different bytes. -/
theorem disjoint_of_sharesLine {lineWidth : Nat} {p q : Packet}
    (h : Packet.sharesLine lineWidth p q = false) : Patch.Disjoint p.write q.write := by
  intro (a : Nat)
  by_contra hboth
  simp only [Packet.write, Packet.patch, not_or, ite_eq_right_iff, reduceCtorEq, imp_false,
    not_not] at hboth
  obtain ⟨⟨hp, hp', -⟩, hq, hq', -⟩ := hboth
  -- Both packets touch the line of `a`.
  have hfirst : ∀ x : Nat, x ≤ a → x / lineWidth ≤ a / lineWidth :=
    fun x hx => Nat.div_le_div_right hx
  have hlast : ∀ x : Nat, a ≤ x → a / lineWidth ≤ x / lineWidth :=
    fun x hx => Nat.div_le_div_right hx
  have hshares : Packet.sharesLine lineWidth p q = true := by
    rw [Packet.sharesLine, Bool.and_eq_true, decide_eq_true_eq, decide_eq_true_eq]
    exact ⟨(hfirst _ hp).trans (hlast _ (by omega)), (hfirst _ hq).trans (hlast _ (by omega))⟩
  rw [h] at hshares
  cases hshares

namespace LSQRequest

section
variable {tid : ThreadID} {slot load : LSQRequest} {as as' : List MemAccess} {a : Nat}

theorem range_of_write {r : LSQRequest} (h : r.write a ≠ none) :
    r.request.paddr ≤ a ∧ a < r.request.paddr + r.request.size := by
  simp only [write, ne_eq, ite_eq_right_iff, reduceCtorEq, imp_false, not_not] at h
  exact ⟨h.1, h.2.1⟩

/-- A slot that writes something has a packet. -/
theorem Buffered.packet_of_write (h : Buffered tid slot as) (ha : slot.write a ≠ none) :
    ∃ k, slot.packet = some k := by
  cases hk : slot.packet with
  | some k => exact ⟨k, rfl⟩
  | none =>
    have hsize := h.empty hk
    obtain ⟨hlow, hhigh⟩ := range_of_write ha
    omega

/-- Two plain requests with packets are compared by their address ranges. -/
theorem slotCoverage_eq {k k' : Packet} (hslot : ReqOk tid slot as) (hk : slot.packet = some k)
    (hload : ReqOk tid load as') (hk' : load.packet = some k') :
    slotCoverage slot load = slot.containsAddrRangeOf load := by
  have hp := hslot.plain (hslot.made k hk).kind
  have hp' := hload.plain (hload.made k' hk').kind
  have hflags := hp.flags
  simp only [RequestFlags.plain, Bool.not_eq_true', Bool.or_eq_false_iff] at hflags
  simp [slotCoverage, hk, hp.thread, hp'.thread, hflags]

variable (hslot : Buffered tid slot as)
include hslot

/-- A slot without coverage writes nothing in the range of the load. -/
theorem Buffered.apart (hload : ReqOk tid load as')
    (hpacket : load.packet ≠ none) (h : slotCoverage slot load = .noCoverage)
    (ha : slot.write a ≠ none) :
    ¬ (load.request.paddr ≤ a ∧ a < load.request.paddr + load.request.size) := by
  obtain ⟨k, hk⟩ := hslot.packet_of_write ha
  obtain ⟨k', hk'⟩ := Option.ne_none_iff_exists'.mp hpacket
  obtain ⟨hlow, hhigh⟩ := range_of_write ha
  have hbound := (hslot.ok.made k hk).bound
  have hbound' := (hload.made k' hk').bound
  rw [slotCoverage_eq hslot.ok hk hload hk'] at h
  have hnone : addrRangeCoverage slot.request.paddr slot.request.size load.request.paddr
      load.request.size = .noCoverage := by
    unfold containsAddrRangeOf at h
    split at h
    · split at h <;> cases h
    · exact h
  simp only [addrRangeCoverage] at hnone
  split at hnone
  · rename_i hcond
    simp only [Bool.or_eq_true, decide_eq_true_eq] at hcond
    omega
  · split at hnone <;> cases hnone

/-- A slot that covers the load fully writes every byte of it. -/
theorem Buffered.covers (hload : ReqOk tid load as')
    (hpacket : load.packet ≠ none) (h : slotCoverage slot load = .fullCoverage) :
    ∃ k, slot.packet = some k ∧ slot.request.paddr ≤ load.request.paddr ∧ ∀ i < load.request.size,
        slot.write (load.request.paddr + i)
          = some (k.data (load.request.paddr - slot.request.paddr + i)) := by
  obtain ⟨k', hk'⟩ := Option.ne_none_iff_exists'.mp hpacket
  have hsome : ∃ k, slot.packet = some k := by
    cases hk : slot.packet with
    | some k => exact ⟨k, rfl⟩
    | none => simp [slotCoverage, hk] at h
  obtain ⟨k, hk⟩ := hsome
  have hmade := hslot.ok.made k hk
  have hplain := hslot.ok.plain hmade.kind
  have hstore := hslot.store (by simp [hk])
  have hbound := hmade.bound
  have hbound' := (hload.made k' hk').bound
  rw [slotCoverage_eq hslot.ok hk hload hk'] at h
  -- Full coverage is an inclusion of ranges, and the slot is not masked.
  obtain ⟨hfull, hmask⟩ : addrRangeCoverage slot.request.paddr slot.request.size
      load.request.paddr load.request.size = .fullCoverage ∧
      slot.request.isMasked = false := by
    unfold containsAddrRangeOf at h
    split at h
    · rename_i hfull
      split at h
      · cases h
      · rename_i hmask
        exact ⟨hfull, Bool.eq_false_iff.mpr hmask⟩
    · rename_i hnot
      exact absurd h hnot
  simp only [addrRangeCoverage] at hfull
  split at hfull
  · cases hfull
  · split at hfull
    · rename_i hrange
      simp only [Bool.and_eq_true, decide_eq_true_eq] at hrange
      refine ⟨k, hk, hrange.1, fun i hi => ?_⟩
      have hindex : load.request.paddr + i - slot.request.paddr
          = load.request.paddr - slot.request.paddr + i := by omega
      have hlt : load.request.paddr - slot.request.paddr + i < slot.request.size := by omega
      have henabled : slot.request.enabled (load.request.paddr - slot.request.paddr + i)
          = true := by
        simp only [Request.isMasked, any_eq_false, Bool.not_eq_true, Bool.not_eq_false'] at hmask
        rw [← hplain.mask] at hlt
        rw [Request.enabled, getD_eq_getElem?_getD, getElem?_eq_getElem hlt]
        exact hmask _ (getElem_mem hlt)
      simp only [write]
      rw [hindex, if_pos ⟨by omega, by omega, henabled⟩]
      have hdata := hmade.whole.data hstore _ (by rw [hmade.size]; exact hlt)
      rw [Nat.zero_add] at hdata
      rw [hdata]
    · cases hfull

end

end LSQRequest

namespace LSQView

section
variable {tid : ThreadID} {mem : Addr → Byte} {v : LSQView} {p : Nat}

open LSQRequest

/-! ### One request changes -/

/-- A relation along a list after a change at one entry: it stays between the others, and it holds
between what stands before the entry and the entry. -/
theorem pairwise_of_change {R R' : Nat → Nat → Prop} {l : List Nat} (h : l.Pairwise R)
    (hstay : ∀ a ∈ l, ∀ b, b ≠ p → R a b → R' a b)
    (hbefore : ∀ older newer, l = older ++ p :: newer → ∀ a ∈ older, R' a p) : l.Pairwise R' := by
  rw [pairwise_iff_getElem] at h ⊢
  intro i j hi hj hij
  by_cases hb : l[j] = p
  · rw [hb]
    refine hbefore (l.take j) (l.drop (j + 1)) (split_at ?_) _ (mem_take_iff_getElem.mpr ⟨i, ?_, rfl⟩)
    · rw [getElem?_eq_getElem hj, hb]
    · omega
  · exact hstay _ (getElem_mem hi) _ hb (h i j hi hj hij)

variable {r : LSQRequest} {rest : List Nat} {a : MemAccess} {older : List Nat} {k : Nat}

/-- Coverage depends on the access of the slot and on whether it has a packet. -/
theorem slotCoverage_congr {r' load : LSQRequest} (hbody : SameBody r r')
    (hsome : r'.packet.isSome = r.packet.isSome) :
    slotCoverage r' load = slotCoverage r load := by
  simp only [slotCoverage, containsAddrRangeOf, hsome, hbody.inst, hbody.request]

/-- What a request of the queue may become. -/
structure Replaces (tid : ThreadID) (mem : Addr → Byte) (v : LSQView) (p : Nat) (r : LSQRequest)
    (inMemory : List MemAccess) : Prop where
  queued : Queued tid v.streamSeqNum (v.arch mem) r (accessesOf inMemory p)
  isLoad : r.isLoad = (v.heap p).isLoad
  waiting : p ∈ v.requests → r.packet ≠ none →
    r.numSent < r.packets.length ∧ r.state ≠ .complete
  started : Started r → Started (v.heap p) ∨
    ∀ older newer, v.queue = older ++ p :: newer → ∀ q ∈ older, (v.heap q).isLoad = true
  exposed : Exposed r → ∀ q ∈ v.slots, slotCoverage (v.heap q) r = .noCoverage

section
variable (h : v.Coherent tid mem)
include h

/-- The rule for a change of one request, in the queue or in the store buffer. -/
theorem Coherent.change (inMemory : List MemAccess) (retry : Option Nat)
    (hqueue : p ∈ v.queue → v.Replaces tid mem p r inMemory)
    (hslot : p ∈ v.slots → Buffered tid r (accessesOf inMemory p) ∧ SameBody (v.heap p) r ∧
      r.packet.isSome = (v.heap p).packet.isSome)
    (hother : ∀ q, q ≠ p → accessesOf inMemory q = accessesOf v.inMemory q)
    (howner : ∀ a ∈ inMemory, a.performed = false → a.packet.isLoad = false → a.ptr ∈ v.slots)
    (hretry : v.slots.Pairwise fun q s => retry = some s →
      ((v.put p r).heap s).state = .storeBufferNeedsRetry →
      ((v.put p r).heap q).unsentWrites = [])
    (hpending : applyAll (inFlightWrites inMemory ++ (v.put p r).unsentWrites) v.mem
      = v.arch mem) : Coherent tid mem { v.put p r with inMemory := inMemory, retry := retry } := by
  have hheap : ∀ q, q ≠ p → (v.put p r).heap q = v.heap q := fun q hq => put_heap_of_ne r hq
  have hself : (v.put p r).heap p = r := put_heap_self r
  have hisLoad : ∀ q ∈ v.queue, ((v.put p r).heap q).isLoad = (v.heap q).isLoad :=
    forall_put (P := fun q r => r.isLoad = (v.heap q).isLoad) (fun hq => (hqueue hq).isLoad)
      fun _ _ _ => rfl
  have hcoverage : ∀ s ∈ v.slots, ∀ load, slotCoverage ((v.put p r).heap s) load
      = slotCoverage (v.heap s) load :=
    forall_put (P := fun s r => ∀ load, slotCoverage r load = slotCoverage (v.heap s) load)
      (fun hs _ => slotCoverage_congr (hslot hs).2.1 (hslot hs).2.2) fun _ _ _ _ => rfl
  have hwrites : (v.put p r).slotWrites = v.slotWrites :=
    map_congr_left (forall_put (P := fun q r => r.write = (v.heap q).write)
      (fun hq => (hslot hq).2.1.write) fun _ _ _ => rfl)
  refine ⟨h.width, ?_, ?_, ?_, ?_, ?_, ?_, howner, hretry,
    (congrArg (applyAll · v.mem) hwrites).trans h.buffered, hpending⟩
  · refine forall_put (P := fun q r => Queued tid v.streamSeqNum (v.arch mem) r
      (accessesOf inMemory q)) (fun hq => (hqueue hq).queued) fun q hq hqp => ?_
    rw [hother q hqp]
    exact h.queued q hq
  · exact forall_put (P := fun _ r => r.packet ≠ none →
      r.numSent < r.packets.length ∧ r.state ≠ .complete)
      (fun hq => (hqueue (mem_append_right _ hq)).waiting hq) fun q hq _ => h.waiting q hq
  · refine forall_put (P := fun q r => Buffered tid r (accessesOf inMemory q))
      (fun hq => (hslot hq).1) fun q hq hqp => ?_
    rw [hother q hqp]
    exact h.slots q hq
  · refine pairwise_of_change (p := p) h.order ?_ ?_
    · intro a ha b hb hab
      show Started ((v.put p r).heap b) → ((v.put p r).heap a).isLoad = true
      rwa [hheap b hb, hisLoad a ha]
    · intro older newer hsplit a ha
      show Started ((v.put p r).heap p) → ((v.put p r).heap a).isLoad = true
      have hsplit' : v.queue = older ++ p :: newer := hsplit
      rw [hself, hisLoad a (hsplit' ▸ mem_append_left _ ha)]
      intro hst
      rcases (hqueue (hsplit' ▸ mem_append_right _ mem_cons_self)).started hst with hst | hloads
      · have horder := h.order
        rw [hsplit', pairwise_append] at horder
        exact horder.2.2 a ha p mem_cons_self hst
      · exact hloads older newer hsplit' a ha
  · refine h.stores.trans (countP_congr fun q hq => ?_)
    rw [← hisLoad q (mem_append_left _ hq)]
  · refine forall_put (P := fun _ r' => Exposed r' → ∀ s ∈ v.slots,
      slotCoverage ((v.put p r).heap s) r' = .noCoverage) (fun hq hex s hs => ?_)
      fun q hq _ hex s hs => ?_ <;> rw [hcoverage s hs]
    · exact (hqueue hq).exposed hex s hs
    · exact h.exposed q hq hex s hs

/-- The rule for a request that is not a slot. The writes in flight stay. -/
theorem Coherent.changeOther (hs : p ∉ v.slots) (inMemory : List MemAccess) (retry : Option Nat)
    (hqueue : p ∈ v.queue → v.Replaces tid mem p r inMemory)
    (hkept : OthersKept p v.inMemory inMemory)
    (hretry : ∀ q ∈ v.slots, retry = some q → v.retry = some q) :
    Coherent tid mem { v.put p r with inMemory := inMemory, retry := retry } := by
  have hheap : ∀ q ∈ v.slots, (v.put p r).heap q = v.heap q := fun q hq =>
    put_heap_of_ne r fun hqp => hs (hqp ▸ hq)
  refine h.change inMemory retry hqueue (fun hp => absurd hp hs) hkept.others ?_ ?_ ?_
  · intro a ha hperf hstore
    have hmem : a ∈ inMemory.filter (fun a => !a.performed && !a.packet.isLoad) := by
      simp [ha, hperf, hstore]
    rw [hkept.writes] at hmem
    exact h.owner a (mem_filter.mp hmem).1 hperf hstore
  · refine h.retry.imp_of_mem ?_
    intro a b ha hb hab hr
    rw [hheap a ha, hheap b hb]
    exact hab (hretry b hb hr)
  · have hwrites : (v.put p r).unsentWrites = v.unsentWrites :=
      flatMap_congr fun q hq => by rw [hheap q hq]
    rw [hwrites, inFlightWrites, hkept.writes]
    exact h.pending

/-- The front of `requests` goes to `transfers`. -/
theorem Coherent.move (hfront : v.requests = p :: rest) : (v.move p rest).Coherent tid mem := by
  have hqueue := queue_move hfront
  refine { h with
    queued := fun q hq => h.queued q (hqueue ▸ hq)
    waiting := fun q hq => h.waiting q (hfront ▸ mem_cons_of_mem p hq)
    order := hqueue ▸ h.order, stores := ?_
    exposed := fun q hq => h.exposed q (hqueue ▸ hq) }
  have hstores := h.stores
  simp only [LSQView.move, countP_append, countP_singleton]
  cases hl : (v.heap p).isLoad <;> simp [hstores]

/-- With no store in `transfers`, everything before the front of `requests` is a load. -/
theorem Coherent.loads_before (hwf : v.WF)
    (hfront : v.requests = p :: rest) (hnone : v.numStoresInTransfers = 0) {newer : List Nat}
    (hqueue : v.queue = older ++ p :: newer) : ∀ q ∈ older, (v.heap q).isLoad = true := by
  have hnodup := (nodup_append.mp hwf.nodup).1
  have holder : older = v.transfers := by
    rw [queue, hfront] at hnodup hqueue
    rw [nodup_append, nodup_cons] at hnodup
    have hnot : p ∉ v.transfers := fun hp => hnodup.2.2 p hp p mem_cons_self rfl
    exact ((append_cons_inj_of_notMem hnot hnodup.2.1.1).mp hqueue).1.symm
  intro q hq
  have hcount := h.stores
  rw [hnone, eq_comm, countP_eq_zero] at hcount
  simpa using hcount q (holder ▸ hq)

/-- The rule for a change of one request of the queue, which may move from the front of
`requests` to `transfers`. -/
theorem Coherent.update (hwf : v.WF) (hp : p ∈ v.queue) (moved : Bool)
    (rest : List Nat) (inMemory : List MemAccess) (retry : Option Nat)
    (hfront : moved = true → v.requests = p :: rest)
    (hqueued : Queued tid v.streamSeqNum (v.arch mem) r (accessesOf inMemory p))
    (hload : r.isLoad = (v.heap p).isLoad)
    (hwaiting : moved = false → p ∈ v.requests → r.packet ≠ none →
      r.numSent < r.packets.length ∧ r.state ≠ .complete)
    (hstarted : Started r → Started (v.heap p) ∨
      (v.requests.head? = some p ∧ v.numStoresInTransfers = 0))
    (hexposed : Exposed r → ∀ q ∈ v.slots, slotCoverage (v.heap q) r = .noCoverage)
    (hkept : OthersKept p v.inMemory inMemory)
    (hretry : ∀ q ∈ v.slots, retry = some q → v.retry = some q) :
    Coherent tid mem
      { (v.put p r).moveIf moved p rest with inMemory := inMemory, retry := retry } := by
  have hs : p ∉ v.slots := fun hs => hwf.not_queued hs hp
  have hbefore : Started r → Started (v.heap p) ∨
      ∀ older newer, v.queue = older ++ p :: newer → ∀ q ∈ older, (v.heap q).isLoad = true := by
    refine fun hst => (hstarted hst).imp_right fun ⟨hhead, hnone⟩ older newer hqueue => ?_
    obtain ⟨tail, htail⟩ := head?_eq_some_iff.mp hhead
    exact h.loads_before hwf htail hnone hqueue
  cases hm : moved with
  | false =>
    exact h.changeOther hs inMemory retry
      (fun _ => ⟨hqueued, hload, hwaiting hm, hbefore, hexposed⟩) hkept hretry
  | true =>
    -- It moves first, since it may not fit into `requests` any more.
    have hfront := hfront hm
    have hcomm : (v.put p r).moveIf true p rest = (v.move p rest).put p r := by
      simp [moveIf, LSQView.move, put, hload]
    have hnot : p ∉ rest := by
      have hnodup := (nodup_append.mp (nodup_append.mp hwf.nodup).1).2.1
      rw [hfront] at hnodup
      exact (nodup_cons.mp hnodup).1
    rw [hcomm]
    exact (h.move hfront).changeOther hs inMemory retry
      (fun _ => ⟨hqueued, hload, fun hp' => absurd hp' hnot, queue_move hfront ▸ hbefore, hexposed⟩)
      hkept hretry

/-- A request outside the queue and the store buffer does not count, nor do its packets, once
they are performed. -/
theorem Coherent.put_other (hq : p ∉ v.queue) (hs : p ∉ v.slots)
    (r : LSQRequest) {inMemory : List MemAccess} (hkept : OthersKept p v.inMemory inMemory) :
    Coherent tid mem { v.put p r with inMemory := inMemory } :=
  h.changeOther hs inMemory v.retry (fun hp => absurd hp hq) hkept fun _ _ hr => hr

end

/-! ### A slot leaves the buffer -/

/-- What is still to send does not change when only the state does. -/
theorem unsentWrites_put_heap (hp : (v.heap p).unsentWrites = r.unsentWrites) (q : Nat) :
    ((v.put p r).heap q).unsentWrites = (v.heap q).unsentWrites := by
  by_cases hqp : q = p
  · rw [hqp, put_heap_self]
    exact hp.symm
  · rw [put_heap_of_ne r hqp]

theorem unsentWrites_put (hp : (v.heap p).unsentWrites = r.unsentWrites) :
    (v.put p r).unsentWrites = v.unsentWrites :=
  flatMap_congr fun q _ => unsentWrites_put_heap hp q

/-- A write that is still to be performed is a part of the write of a slot, and not all packets
of the slot are back. -/
theorem Coherent.slot_of_pending (h : v.Coherent tid mem) {w : Patch Addr Byte}
    (hw : w ∈ inFlightWrites v.inMemory ++ v.unsentWrites) {a : Nat} (ha : w a ≠ none) :
    ∃ s ∈ v.slots, (v.heap s).write a ≠ none ∧ (v.heap s).numBack < (v.heap s).packets.length := by
  obtain ⟨b, hb⟩ := Option.ne_none_iff_exists'.mp ha
  rcases mem_append.mp hw with hw | hw
  · obtain ⟨c, hc, rfl⟩ := mem_map.mp hw
    obtain ⟨hcmem, hcond⟩ := mem_filter.mp hc
    simp only [Bool.and_eq_true, Bool.not_eq_true'] at hcond
    have hslot := h.owner c hcmem hcond.1 hcond.2
    have hok := (h.slots c.ptr hslot).ok
    have hmem : c ∈ accessesOf v.inMemory c.ptr := mem_accessesOf.mpr ⟨hcmem, rfl⟩
    obtain ⟨offset, hpart⟩ := hok.part_of_access hmem
    refine ⟨c.ptr, hslot, ?_, ?_⟩
    · rw [hpart.write_below (hpart.isLoad.symm.trans hcond.2) a b hb]
      simp
    · have hcount := hok.count
      have hsent := hok.sent
      have hpos := length_pos_of_mem hmem
      omega
  · obtain ⟨s, hs, hws⟩ := mem_flatMap.mp hw
    obtain ⟨f, hf, rfl⟩ := mem_map.mp hws
    have hslot := h.slots s hs
    have hfmem := mem_of_mem_drop hf
    obtain ⟨offset, hpart⟩ := hslot.ok.part_of_packets hfmem
    have hstore : (v.heap s).isLoad = false := by
      refine hslot.store fun hn => ?_
      rw [(hslot.ok.empty hn).1] at hfmem
      cases hfmem
    refine ⟨s, hs, ?_, ?_⟩
    · rw [hpart.write_below hstore a b hb]
      simp
    · have hcount := hslot.ok.count
      have hpos := length_pos_of_mem hf
      rw [length_drop] at hpos
      omega

/-- A slot whose packets are all back leaves the buffer, when no older slot overlaps it. -/
theorem Coherent.erase (h : v.Coherent tid mem) {younger : List Nat} (hnodup : v.slots.Nodup)
    (hslots : v.slots = older ++ p :: younger) (hcomplete : (v.heap p).state = .complete)
    (hapart : ∀ q ∈ older, slotCoverage (v.heap q) (v.heap p) = .noCoverage) :
    Coherent tid mem { v with slots := older ++ younger } := by
  have hp : p ∈ v.slots := by simp [hslots]
  have hslot := h.slots p hp
  have hsub : ∀ q ∈ older ++ younger, q ∈ v.slots ∧ q ≠ p := by
    intro q hq
    rw [hslots] at hnodup ⊢
    rw [nodup_append, nodup_cons] at hnodup
    rcases mem_append.mp hq with hq | hq
    · exact ⟨mem_append_left _ hq, hnodup.2.2 q hq p mem_cons_self⟩
    · refine ⟨mem_append_right _ (mem_cons_of_mem p hq), ?_⟩
      rintro rfl
      exact hnodup.2.1.1 hq
  have hsublist : (older ++ younger).Sublist v.slots := by
    rw [hslots]
    exact List.Sublist.append_left (sublist_cons_self p younger) older
  -- Nothing of the slot is in flight or still to send.
  have hback := hslot.complete hcomplete
  have hcount := hslot.ok.count
  have hsent := hslot.ok.sent
  have hnil : accessesOf v.inMemory p = [] := eq_nil_of_length_eq_zero (by omega)
  have hunsent : (v.heap p).unsentWrites = [] := by
    rw [LSQRequest.unsentWrites, drop_eq_nil_of_le (by omega), map_nil]
  have hnone : ∀ a ∈ v.inMemory, a.ptr ≠ p := by
    intro a ha hptr
    have hmem : a ∈ accessesOf v.inMemory p := mem_accessesOf.mpr ⟨ha, hptr⟩
    rw [hnil] at hmem
    cases hmem
  refine { h with
    slots := fun q hq => h.slots q (hsub q hq).1
    exposed := fun q hq hex s hs => h.exposed q hq hex s (hsub s hs).1
    owner := ?_, retry := h.retry.sublist hsublist, buffered := ?_, pending := ?_ }
  · intro a ha hperf hstore
    have hmem := h.owner a ha hperf hstore
    rw [hslots] at hmem
    rcases mem_append.mp hmem with hmem | hmem
    · exact mem_append_left _ hmem
    · rcases mem_cons.mp hmem with hmem | hmem
      · exact absurd hmem (hnone a ha)
      · exact mem_append_right _ hmem
  · have hold : v.slotWrites = older.map (fun q => (v.heap q).write) ++
        (v.heap p).write :: younger.map (fun q => (v.heap q).write) := by
      rw [slotWrites, hslots, map_append, map_cons]
    have hnew : slotWrites { v with slots := older ++ younger }
        = older.map (fun q => (v.heap q).write) ++ younger.map (fun q => (v.heap q).write) := by
      rw [slotWrites, map_append]
    have hbuffered := h.buffered
    rw [hold] at hbuffered
    refine Eq.trans ?_ hbuffered
    rw [hnew]
    refine Patch.applyAll_erase fun a ha => ?_
    by_cases hyounger : ∃ q ∈ younger.map (fun q => (v.heap q).write), q a ≠ none
    · exact .inl hyounger
    · right
      have holderNone : ∀ q ∈ older, (v.heap q).write a = none := by
        intro q hq
        by_contra hqa
        obtain ⟨k, hk⟩ := hslot.packet_of_write ha
        exact (h.slots q (hsub q (mem_append_left _ hq)).1).apart hslot.ok (by simp [hk])
          (hapart q hq) hqa (range_of_write ha)
      have hotherNone : ∀ q ∈ v.slots, q ≠ p → (v.heap q).write a = none := by
        intro q hq hqp
        rw [hslots] at hq
        rcases mem_append.mp hq with hq | hq
        · exact holderNone q hq
        · rcases mem_cons.mp hq with hq | hq
          · exact absurd hq hqp
          · by_contra hqa
            exact hyounger ⟨_, mem_map_of_mem hq, hqa⟩
      refine ⟨?_, ?_⟩
      · intro q hq
        obtain ⟨s, hs, rfl⟩ := mem_map.mp hq
        exact holderNone s hs
      · -- No write that is still to come covers `a`, so memory holds its final value.
        rw [hbuffered, ← h.pending]
        symm
        apply Patch.applyAll_eq_of_forall_none
        intro q hq
        by_contra hqa
        obtain ⟨s, hs, hsa, hless⟩ := h.slot_of_pending hq hqa
        by_cases hsp : s = p
        · rw [hsp] at hless
          omega
        · exact hsa (hotherNone s hs hsp)
  · have hwrites : unsentWrites { v with slots := older ++ younger } = v.unsentWrites := by
      simp only [unsentWrites, hslots, flatMap_append, flatMap_cons, hunsent, nil_append]
    refine Eq.trans ?_ h.pending
    exact congrArg (fun ws => applyAll (inFlightWrites v.inMemory ++ ws) v.mem) hwrites

/-! ### Requests come and go -/

section
variable (h : v.Coherent tid mem)
include h

/-- A new request without a packet. -/
theorem Coherent.append (n : Nat)
    (hqueued : Queued tid v.streamSeqNum (v.arch mem) (v.heap p)
      (accessesOf v.inMemory p))
    (hpacket : (v.heap p).packet = none) (hidle : ¬ Started (v.heap p)) :
    Coherent tid mem { v with nextPtr := n, requests := v.requests ++ [p] } := by
  have hmem : ∀ q ∈ queue { v with nextPtr := n, requests := v.requests ++ [p] },
      q ∈ v.queue ∨ q = p := by
    intro q hq
    simpa [queue, or_assoc] using hq
  have hexposed : ¬ Exposed (v.heap p) := fun hex => hidle ⟨hex.1, hex.2.1, hex.2.2.imp_right .inl⟩
  refine { h with queued := ?_, waiting := ?_, order := ?_, exposed := ?_ }
  · intro q hq
    rcases hmem q hq with hq | rfl
    · exact h.queued q hq
    · exact hqueued
  · intro q hq hne
    rcases mem_append.mp hq with hq | hq
    · exact h.waiting q hq hne
    · rw [mem_singleton] at hq
      subst hq
      exact absurd hpacket hne
  · have hqueue : queue { v with nextPtr := n, requests := v.requests ++ [p] }
        = v.queue ++ [p] := by
      simp [queue]
    rw [hqueue, pairwise_append]
    refine ⟨h.order, pairwise_singleton _ _, ?_⟩
    intro a _ b hb hst
    rw [mem_singleton] at hb
    subst hb
    exact absurd hst hidle
  · intro q hq hex
    rcases hmem q hq with hq | rfl
    · exact h.exposed q hq hex
    · exact absurd hex hexposed

/-- A request becomes the youngest slot. It has sent nothing, and `writes` is what it commits. A
load of the queue has not started, unless nothing is committed and the slot does not cover it. -/
theorem Coherent.appendSlot (n : Nat) (writes : List (Patch Addr Byte))
    (hbuffered : Buffered tid (v.heap p) (accessesOf v.inMemory p))
    (hunsent : (v.heap p).numSent = 0) (hstate : (v.heap p).state ≠ .storeBufferNeedsRetry)
    (hwrite : ∀ m, (v.heap p).write.apply m = applyAll writes m)
    (hpackets : ∀ m, applyAll ((v.heap p).packets.map Packet.write) m = applyAll writes m)
    (hloads : ∀ q ∈ v.queue, ¬ Started (v.heap q) ∨
      writes = [] ∧ slotCoverage (v.heap p) (v.heap q) = .noCoverage) :
    Coherent tid mem { v with
      nextPtr := n, slots := v.slots ++ [p], committed := v.committed ++ writes } := by
  have harch : applyAll (v.committed ++ writes) mem = applyAll writes (v.arch mem) :=
    Patch.applyAll_append ..
  refine ⟨h.width, ?_, h.waiting, ?_, h.order, h.stores, ?_, ?_, ?_, ?_, ?_⟩
  · intro q hq
    have hok := h.queued q hq
    show Queued tid v.streamSeqNum (applyAll (v.committed ++ writes) mem) _ _
    rcases hloads q hq with hidle | ⟨rfl, -⟩
    · refine { hok with load := fun hload hskipped => ?_ }
      -- A load that has not started has no data yet.
      refine LoadOk.idle hok.ok ?_ ?_ _
      · by_contra hpos
        exact hidle ⟨hload, hskipped, .inl (Nat.pos_of_ne_zero hpos)⟩
      · intro hcomplete _
        by_contra hne
        exact hidle ⟨hload, hskipped, .inr (.inr ⟨hcomplete, hne⟩)⟩
    · rw [harch]
      exact hok
  · intro q hq
    rcases mem_append.mp hq with hq | hq
    · exact h.slots q hq
    · rw [mem_singleton] at hq
      exact hq ▸ hbuffered
  · intro q hq hex s hs
    rcases hloads q hq with hidle | ⟨-, hnone⟩
    · exact absurd ⟨hex.1, hex.2.1, hex.2.2.imp_right .inl⟩ hidle
    · rcases mem_append.mp hs with hs | hs
      · exact h.exposed q hq hex s hs
      · rw [mem_singleton.mp hs]
        exact hnone
  · intro a ha hperf hst
    exact mem_append_left _ (h.owner a ha hperf hst)
  · rw [pairwise_append]
    refine ⟨h.retry, pairwise_singleton _ _, ?_⟩
    intro a _ b hb _ hs
    rw [mem_singleton] at hb
    subst hb
    exact absurd hs hstate
  · show applyAll ((v.slots ++ [p]).map fun q => (v.heap q).write) v.mem
      = applyAll (v.committed ++ writes) mem
    rw [harch, map_append, Patch.applyAll_append, ← h.buffered, ← hwrite]
    rfl
  · show applyAll (inFlightWrites v.inMemory ++
      (v.slots ++ [p]).flatMap fun q => (v.heap q).unsentWrites) v.mem
      = applyAll (v.committed ++ writes) mem
    rw [harch, flatMap_append, ← append_assoc, Patch.applyAll_append, ← hpackets, ← h.pending]
    simp [LSQView.unsentWrites, LSQRequest.unsentWrites, hunsent]

/-- A new slot without an access. -/
theorem Coherent.appendBarrier (n : Nat)
    (hbuffered : Buffered tid (v.heap p) (accessesOf v.inMemory p))
    (hpacket : (v.heap p).packet = none) :
    Coherent tid mem { v with nextPtr := n, slots := v.slots ++ [p] } := by
  obtain ⟨hpackets, hunsent⟩ := hbuffered.ok.empty hpacket
  have hnew := h.appendSlot n [] hbuffered hunsent ?_ ?_ ?_ ?_
  · rwa [append_nil] at hnew
  · intro hstate
    have hlt := hbuffered.unsent (.inr hstate)
    rw [hpackets] at hlt
    exact absurd hlt (Nat.not_lt_zero _)
  · intro m
    funext a
    refine Patch.apply_of_none (by_contra fun ha => ?_)
    obtain ⟨k, hk⟩ := hbuffered.packet_of_write ha
    rw [hpacket] at hk
    cases hk
  · intro m
    rw [hpackets]
    rfl
  · exact fun q _ => .inr ⟨rfl, by simp [slotCoverage, hpacket]⟩

/-- The store that commits becomes the youngest slot. No load has started, so the loads in the
queue will see it. -/
theorem Coherent.appendStore (hbuffered : Buffered tid (v.heap p) (accessesOf v.inMemory p))
    {k : Packet} (hpacket : (v.heap p).packet = some k) (hunsent : (v.heap p).numSent = 0)
    (hstate : (v.heap p).state = .storeInStoreBuffer)
    (hidle : ∀ q ∈ v.queue, ¬ Started (v.heap q)) :
    Coherent tid mem
      { v with slots := v.slots ++ [p], committed := v.committed ++ [(v.heap p).write] } := by
  have hmade := hbuffered.ok.made k hpacket
  refine h.appendSlot v.nextPtr [(v.heap p).write] hbuffered hunsent (by simp [hstate])
    (fun _ => rfl) (fun m => ?_) fun q hq => .inl (hidle q hq)
  exact hmade.applyAll_packets (hbuffered.store (by simp [hpacket])) m

/-- The front of `transfers` leaves the queue. -/
theorem Coherent.pop (hfront : v.transfers = p :: rest) : (v.pop p rest).Coherent tid mem := by
  have hqueue : v.queue = p :: (v.pop p rest).queue := by
    simp [queue, LSQView.pop, hfront]
  have hsub : ∀ q ∈ (v.pop p rest).queue, q ∈ v.queue := by
    intro q hq
    rw [hqueue]
    exact mem_cons_of_mem p hq
  refine { h with
    queued := fun q hq => h.queued q (hsub q hq), order := ?_, stores := ?_
    exposed := fun q hq => h.exposed q (hsub q hq) }
  · have horder := h.order
    rw [hqueue, pairwise_cons] at horder
    exact horder.2
  · have hstores := h.stores
    rw [hfront, countP_cons] at hstores
    have hcount : (v.pop p rest).numStoresInTransfers
        = if (v.heap p).isLoad then v.numStoresInTransfers else v.numStoresInTransfers - 1 := rfl
    rw [hcount, hstores]
    cases hl : (v.heap p).isLoad <;> rfl

/-- Streams only grow. -/
theorem Coherent.changeStream {streamSeqNum : ThreadID → InstSeqNum}
    (hle : ∀ t, v.streamSeqNum t ≤ streamSeqNum t) :
    Coherent tid mem { v with streamSeqNum := streamSeqNum } := by
  refine { h with queued := fun q hq => { h.queued q hq with skipped := fun hs => ?_ } }
  have hok := h.queued q hq
  exact (hok.skipped hs).imp_right fun hor => hor.imp_right fun hlt => hlt.trans_le (hle _)

end

/-! ### The memory system -/

/-- The packets of the requests after one packet is performed. -/
theorem Coherent.performed (h : v.Coherent tid mem) (ha : v.inMemory[k]? = some a) :
    (∀ q ∈ v.queue, Queued tid v.streamSeqNum (v.arch mem) (v.heap q)
      (accessesOf (v.inMemory.set k { a with packet := a.packet.answer v.mem, performed := true })
        q)) ∧
    ∀ q ∈ v.slots, Buffered tid (v.heap q)
      (accessesOf (v.inMemory.set k { a with packet := a.packet.answer v.mem, performed := true })
        q) := by
  have hperf := performed_set ha v.mem
  have hptr : { a with packet := a.packet.answer v.mem, performed := true : MemAccess }.ptr
      = a.ptr := rfl
  refine ⟨fun q hq => ?_, fun q hq => ?_⟩
  · have hok := h.queued q hq
    by_cases hqa : q = a.ptr
    · subst hqa
      refine ⟨hok.kind, hok.ok.perform hperf, fun hload hskipped => ?_, hok.store, hok.skipped,
        hok.untranslated, hok.failed⟩
      refine (hok.load hload hskipped).perform hok.ok hload hperf fun i hi => ?_
      -- The packet is part of a load that is exposed.
      have hcount := hok.ok.count
      have hpos := length_pos_of_mem hperf.access
      obtain ⟨offset, hpart⟩ := hok.ok.part_of_access hperf.access
      have hpacket : (v.heap a.ptr).packet ≠ none := by
        intro hn
        have hzero := (hok.ok.empty hn).2
        omega
      have hsize := hpart.size
      -- So it reads the bytes of the committed stores.
      rw [← h.buffered]
      symm
      apply Patch.applyAll_eq_of_forall_none
      intro w hw
      obtain ⟨s, hs, rfl⟩ := mem_map.mp hw
      by_contra hsx
      have hexposed := h.exposed a.ptr hq ⟨hload, hskipped, .inl (by omega)⟩ s hs
      refine (h.slots s hs).apart hok.ok hpacket hexposed hsx ?_
      rw [hpart.paddr]
      omega
    · have hsame := accessesOf_set_of_ne ha hptr hqa
      rw [hsame]
      exact hok
  · have hok := h.slots q hq
    by_cases hqa : q = a.ptr
    · subst hqa
      exact { hok with ok := hok.ok.perform hperf }
    · have hsame := accessesOf_set_of_ne ha hptr hqa
      rw [hsame]
      exact hok

/-- A packet is performed. Packets that share a line with it and were sent before are
performed already. -/
theorem Coherent.perform (h : v.Coherent tid mem) (ha : v.inMemory[k]? = some a)
    (hperformed : a.performed = false)
    (horder : ∀ b ∈ v.inMemory.take k, b.performed = false →
      Packet.sharesLine v.lineWidth b.packet a.packet = false) (newData : Buffer)
    (succeeds : Bool) :
    Coherent tid mem
      { v with
        mem := a.packet.effect v.mem newData succeeds
        inMemory := v.inMemory.set k
          { a with packet := a.packet.answer v.mem, performed := true } } := by
  obtain ⟨hqueued, hslots⟩ := h.performed ha
  have howner : ∀ b ∈ v.inMemory.set k
      { a with packet := a.packet.answer v.mem, performed := true },
      b.performed = false → b.packet.isLoad = false → b.ptr ∈ v.slots := by
    intro b hb hbp hbl
    rcases mem_or_eq_of_mem_set hb with hb | rfl
    · exact h.owner b hb hbp hbl
    · cases hbp
  cases hload : a.packet.isLoad with
  | true =>
    have hmem : a.packet.effect v.mem newData succeeds = v.mem := by
      simp [Packet.effect, hload]
    have hflight : inFlightWrites (v.inMemory.set k
        { a with packet := a.packet.answer v.mem, performed := true })
        = inFlightWrites v.inMemory := by
      rw [inFlightWrites, filter_set ha (by simp [hload]) (by simp), inFlightWrites]
    rw [hmem]
    refine { h with queued := hqueued, slots := hslots, owner := howner, pending := ?_ }
    refine Eq.trans ?_ h.pending
    exact congrArg (fun ws => applyAll (ws ++ v.unsentWrites) v.mem) hflight
  | false =>
    -- The packet of a store belongs to a slot, which hides its effect.
    have hslot := h.owner a (mem_of_getElem? ha) hperformed hload
    have hmemAccess : a ∈ accessesOf v.inMemory a.ptr :=
      mem_accessesOf.mpr ⟨mem_of_getElem? ha, rfl⟩
    obtain ⟨offset, hpart⟩ := (h.slots a.ptr hslot).ok.part_of_access hmemAccess
    have hmem : a.packet.effect v.mem newData succeeds = a.packet.write.apply v.mem := by
      simp [Packet.effect, hload, hpart.isLLSC, hpart.isSwap, hpart.isMaintenance, Packet.write]
    rw [hmem]
    refine { h with
      queued := hqueued, slots := hslots, owner := howner, buffered := ?_, pending := ?_ }
    · refine Eq.trans ?_ h.buffered
      refine Patch.applyAll_absorb v.mem (mem_map_of_mem hslot) ?_
      exact hpart.write_below (hpart.isLoad.symm.trans hload)
    · refine Eq.trans ?_ h.pending
      have hbefore : inFlightWrites v.inMemory = inFlightWrites (v.inMemory.take k) ++
          a.packet.write :: inFlightWrites (v.inMemory.drop (k + 1)) := by
        conv_lhs => rw [split_at ha]
        simp [inFlightWrites, hperformed, hload]
      have hafter : inFlightWrites (v.inMemory.set k
          { a with packet := a.packet.answer v.mem, performed := true })
          = inFlightWrites (v.inMemory.take k) ++ inFlightWrites (v.inMemory.drop (k + 1)) := by
        rw [set_at ha]
        simp [inFlightWrites]
      have hdisjoint : ∀ w ∈ inFlightWrites (v.inMemory.take k),
          Patch.Disjoint w a.packet.write := by
        intro w hw
        obtain ⟨b, hb, rfl⟩ := mem_map.mp hw
        obtain ⟨hbmem, hbcond⟩ := mem_filter.mp hb
        simp only [Bool.and_eq_true, Bool.not_eq_true'] at hbcond
        exact disjoint_of_sharesLine (horder b hbmem hbcond.1)
      rw [hbefore, append_assoc, cons_append,
        Patch.applyAll_move_front v.mem hdisjoint, ← append_assoc, ← hafter]
      rfl

end

end LSQView

end Gem5.MyMinor
