import Gem5.Proofs.MyMinor.CoherenceInvariant
import Gem5.Proofs.MyMinor.StoreCommit

/-!
# `Gem5.Proofs.MyMinor.Coherence`: loads return the committed stores

For one thread with bufferable loads and stores, each byte of a load that completes is the byte
of the youngest older store that covers it, or the initial one (`load_returns_committed_bytes`), and
memory ends with the committed bytes (`memory_holds_committed`). Both need a condition on the run.
`load_returns_older_store` is a run without it: a split store stays in the store buffer until its
last fragment is back, a younger store that overlaps it is answered and removed before, and then a
load takes its data from the older store.

`PlainLabel` is the condition, one part for each kind of event:

* requests are plain loads and stores of the thread, without the constant flag of a load, and a
  split one does not end in the last line of the address space,
* translations give bufferable memory, and the fragments of one access lie at one distance from
  their virtual addresses,
* a store that commits keeps its bytes when its CVU lookup hits, and a load draws a slot of the CVU,
* the last response for a slot comes when no older slot overlaps it,
* no other requestor writes.
-/

namespace Gem5.MyMinor

open Function Option LSQ LvptOut Lib List

open LSQRequest

/-- The response completes the request. -/
def LSQRequest.lastResponse (r : LSQRequest) : Bool :=
  match r.kind with
  | .singleData => true
  | .splitData => r.numRetiredFragments + 1 == r.numTranslatedFragments
  | _ => false

namespace LSQView

/-- What the parties outside the LSQ may do. -/
def PlainLabel (tid : ThreadID) (v : LSQView) : LSQLabel → Prop
  | .quiet => True
  | .push args =>
    args.inst.id.threadId = tid ∧ args.flags.plain = true ∧
      (args.isLoad = true → args.inst.lvptOut.constant = false) ∧
      (transferNeedsBurst args.addr args.size v.lineWidth = true →
        args.size < 2 ^ 32 ∧ args.addr + args.size + v.lineWidth ≤ 2 ^ 64)
  | .finish p t => PlainTranslation (v.heap p) t
  | .respond k =>
    ∀ a ∈ v.inMemory[k]?, (v.heap a.ptr).lastResponse = true →
      ∀ q ∈ v.slots.takeWhile (· != a.ptr),
        slotCoverage (v.heap q) (v.heap a.ptr) = .noCoverage
  | .commit env =>
    ∀ p ∈ v.transfers.head?,
      ((v.heap p).isLoad = false → ∀ k ∈ (v.heap p).packet, ∀ i < k.size,
        (MemResponse.substitute v.cvu (v.heap p).inst k env.pastValue).data i = k.data i) ∧
      ((v.heap p).inst.staticInst.isLoad = true → v.cvu.DrawsInTable env.rand)
  | .snoop _ => False

instance (tid : ThreadID) (v : LSQView) (l : LSQLabel) : Decidable (v.PlainLabel tid l) :=
  match l with
  | .quiet => inferInstanceAs (Decidable True)
  | .push _ => inferInstanceAs (Decidable (_ ∧ _))
  | .finish p t => inferInstanceAs (Decidable (PlainTranslation (v.heap p) t))
  | .respond k => inferInstanceAs (Decidable (∀ a ∈ v.inMemory[k]?, _))
  | .commit _ => inferInstanceAs (Decidable (∀ p ∈ v.transfers.head?, _))
  | .snoop _ => inferInstanceAs (Decidable False)

section
variable {tid : ThreadID} {mem : Addr → Byte} {v : LSQView} {p : Nat} {rest : List Nat}

/-! ### Changes of the state -/

variable {k : Packet} {load r : LSQRequest} {a : MemAccess} {as : List MemAccess}

/-- A request of the queue after a change of its state and bookkeeping. -/
theorem queued_congr {streamSeqNum : ThreadID → InstSeqNum} {arch : Addr → Byte}
    {r' : LSQRequest} (h : Queued tid streamSeqNum arch r as) (hsame : SameTraffic r r')
    (hskipped : r'.skipped = true → r'.state = .complete ∧
      (r.packet = none ∨ r.inst.id.streamSeqNum < streamSeqNum r.inst.id.threadId))
    (hlive : r'.skipped = false → r.skipped = false)
    (hcomplete : r'.state = .complete → r'.skipped = false → r.state = .complete)
    (huntranslated : r'.state = .inTranslation → Untranslated r')
    (hfailed : r'.state = .failed → r.packet = none) :
    Queued tid streamSeqNum arch r' as where
  kind := by
    rw [hsame.isLoad, hsame.kind]
    exact h.kind
  ok := h.ok.congr hsame
  load := by
    intro hload hs
    have hs' := hlive hs
    exact (h.load (hsame.isLoad.symm.trans hload) hs').congr hsame
      fun hc hk => ⟨hcomplete hc hk, hs'⟩
  store := by
    intro hstore
    rw [hsame.numSent]
    exact h.store (hsame.isLoad.symm.trans hstore)
  skipped := by
    intro hs
    rw [hsame.packet, hsame.inst]
    exact hskipped hs
  untranslated := huntranslated
  failed := by
    rw [hsame.packet]
    exact hfailed

theorem slotCoverage_load_congr {slot load' : LSQRequest} (hinst : load'.inst = load.inst)
    (hrequest : load'.request = load.request) :
    slotCoverage slot load' = slotCoverage slot load := by
  simp only [slotCoverage, containsAddrRangeOf, hinst, hrequest]

section
variable (h : v.Coherent tid mem)
include h

/-- The rule for a change of the state of one request of the queue. -/
theorem Coherent.setState (hwf : v.WF) (hp : p ∈ v.queue) (moved : Bool)
    (rest : List Nat) (retry : Option Nat) (hfront : moved = true → v.requests = p :: rest)
    (hsame : SameTraffic (v.heap p) r)
    (hqueued : Queued tid v.streamSeqNum (v.arch mem) r (accessesOf v.inMemory p))
    (hwaiting : moved = false → r.packet ≠ none → (v.heap p).state ≠ .complete →
      r.state ≠ .complete)
    (hstarted : Started r → Started (v.heap p) ∨
      (v.requests.head? = some p ∧ v.numStoresInTransfers = 0))
    (hexposed : Exposed r → Exposed (v.heap p) ∨
      ∀ q ∈ v.slots, slotCoverage (v.heap q) (v.heap p) = .noCoverage)
    (hretry : ∀ q ∈ v.slots, retry = some q → v.retry = some q) :
    Coherent tid mem
      { (v.put p r).moveIf moved p rest with inMemory := v.inMemory, retry := retry } := by
  refine h.update hwf hp moved rest v.inMemory retry hfront hqueued hsame.isLoad ?_ hstarted ?_
    ⟨fun _ _ => rfl, rfl⟩ hretry
  · intro hm hp' hpacket
    have hpacket' : (v.heap p).packet ≠ none := by
      rw [← hsame.packet]
      exact hpacket
    obtain ⟨hsent, hstate⟩ := h.waiting p hp' hpacket'
    rw [hsame.numSent, hsame.packets]
    exact ⟨hsent, hwaiting hm hpacket hstate⟩
  · intro hex q hq
    rw [slotCoverage_load_congr hsame.inst hsame.request]
    rcases hexposed hex with hex' | hcov
    · exact h.exposed p hp hex' q hq
    · exact hcov q hq

/-- Bookkeeping and a fault that is cleared. -/
theorem Coherent.adjust (hwf : v.WF) (hp : p ∈ v.queue) (delayed issued : Bool) (fault : Fault) :
    Coherent tid mem (v.put p { v.heap p with
      isTranslationDelayed := delayed, issuedToMemory := issued, translationFault := fault }) := by
  have hok := h.queued p hp
  have hsame : SameTraffic (v.heap p) { v.heap p with
      isTranslationDelayed := delayed, issuedToMemory := issued, translationFault := fault } :=
    { SameTraffic.refl (v.heap p) with }
  refine h.setState hwf hp false [] v.retry (by simp) hsame ?_
    (fun _ _ hs => hs) (fun hst => .inl hst) (fun hex => .inl hex) (fun _ _ hr => hr)
  refine queued_congr hok hsame hok.skipped (fun hs => hs) (fun hs _ => hs) ?_ hok.failed
  intro hs hk
  obtain ⟨⟨split, hsp⟩, hlt⟩ := hok.untranslated hs hk
  exact ⟨⟨split, { hsp with }⟩, hlt⟩

/-- A request that is still waiting is not skipped. -/
theorem Coherent.not_skipped (hp : p ∈ v.queue)
    (hstate : (v.heap p).state ≠ .complete) : (v.heap p).skipped = false := by
  by_contra hs
  exact hstate ((h.queued p hp).skipped (Bool.not_eq_false _ ▸ hs)).1

end

theorem mem_queue_of_front (hfront : v.requests = p :: rest) : p ∈ v.queue :=
  mem_append_right _ (hfront ▸ mem_cons_self)

section
variable (h : v.Coherent tid mem)
include h

/-- The front of `requests` moves on with nothing more to do. -/
theorem Coherent.skip (hinv : v.QueueInv) (hwf : v.WF) (hfront : v.requests = p :: rest)
    (hskip : (v.heap p).state = .complete ∨ (v.heap p).state = .failed ∨
      (v.rightStream (v.heap p).inst = false ∧ (v.heap p).hasPacketsInMemSystem = false) ∨
      (v.heap p).translationFault ≠ none) :
    Coherent tid mem
      ((v.put p { v.heap p with state := .complete, skipped := true }).move p rest) := by
  have hp := mem_queue_of_front hfront
  have hok := h.queued p hp
  have hsame : SameTraffic (v.heap p) { v.heap p with state := .complete, skipped := true } :=
    { SameTraffic.refl (v.heap p) with }
  have hreq : p ∈ v.requests := hfront ▸ mem_cons_self
  -- It has no packet, or it belongs to an older stream.
  have hdone : (v.heap p).packet = none ∨
      (v.heap p).inst.id.streamSeqNum < v.streamSeqNum (v.heap p).inst.id.threadId := by
    rcases hskip with hs | hs | ⟨hs, -⟩ | hs
    · left
      by_contra hne
      exact (h.waiting p hreq hne).2 hs
    · exact .inl (hok.failed hs)
    · refine .inr (lt_of_le_of_ne (hinv.queued p hp).stream ?_)
      simpa [rightStream] using hs
    · exact .inl ((hinv.queued p hp).faulted hs)
  refine h.setState hwf hp true rest v.retry (fun _ => hfront) hsame ?_ (by simp) ?_ ?_
    (fun _ _ hr => hr)
  · exact queued_congr hok hsame (fun _ => ⟨rfl, hdone⟩) (by simp) (by simp) (by simp) (by simp)
  · rintro ⟨-, hs, -⟩
    cases hs
  · rintro ⟨-, hs, -⟩
    cases hs

/-- The rule for a request that goes on to a state in which it waits. -/
theorem Coherent.advance (hwf : v.WF) (hp : p ∈ v.queue)
    (hopen : (v.heap p).state ≠ .complete) {state : LSQRequestState}
    (hstate : state ≠ .complete ∧ state ≠ .inTranslation ∧ state ≠ .failed) (moved : Bool)
    (rest : List Nat) (retry : Option Nat) (hfront : moved = true → v.requests = p :: rest)
    (hstarted : Started ((v.heap p).setState state) → Started (v.heap p) ∨
      (v.requests.head? = some p ∧ v.numStoresInTransfers = 0))
    (hexposed : Exposed ((v.heap p).setState state) → Exposed (v.heap p) ∨
      ∀ q ∈ v.slots, slotCoverage (v.heap q) (v.heap p) = .noCoverage)
    (hretry : ∀ q ∈ v.slots, retry = some q → v.retry = some q) :
    Coherent tid mem { (v.put p ((v.heap p).setState state)).moveIf moved p rest with
      inMemory := v.inMemory, retry := retry } := by
  have hsame : SameTraffic (v.heap p) ((v.heap p).setState state) :=
    { SameTraffic.refl (v.heap p) with }
  refine h.setState hwf hp moved rest retry hfront hsame ?_ (fun _ _ _ => hstate.1) hstarted
    hexposed hretry
  refine queued_congr (h.queued p hp) hsame (fun hs => ?_) (fun hs => hs)
    (fun hs => absurd hs hstate.1) (fun hs => absurd hs hstate.2.1) fun hs => absurd hs hstate.2.2
  have hs' : (v.heap p).skipped = true := hs
  rw [h.not_skipped hp hopen] at hs'
  cases hs'

/-- A store goes to the store buffer when it commits. -/
theorem Coherent.toStoreBuffer (hwf : v.WF) (hcan : v.CanTransfer p rest)
    (hstore : (v.heap p).isLoad = false) :
    Coherent tid mem ((v.put p { v.heap p with state := .storeToStoreBuffer }).move p rest) := by
  have hnot : ∀ {P : Prop}, (v.heap p).isLoad = true → P := by
    intro P hload
    rw [hstore] at hload
    cases hload
  exact h.advance hwf (mem_queue_of_front hcan.front) hcan.notComplete (by simp) true rest v.retry
    (fun _ => hcan.front) (fun hst => hnot hst.1) (fun hex => hnot hex.1) (fun _ _ hr => hr)

end

/-! ### Packets of loads -/

/-- A request with a packet to send is plain. -/
theorem packet_of_head (h : ReqOk tid r as) (hk : r.getHeadPacket = some k) :
    r.packet ≠ none ∧ Plain tid r := by
  have hpacket : r.packet ≠ none := by
    intro hnone
    have hempty := (h.empty hnone).1
    unfold getHeadPacket at hk
    unfold packets at hempty
    split at hk
    · rw [hnone] at hk
      cases hk
    · rename_i hkind
      simp only [hkind] at hempty
      rw [hempty] at hk
      cases hk
    · cases hk
  obtain ⟨k', hk'⟩ := ne_none_iff_exists'.mp hpacket
  exact ⟨hpacket, h.plain (h.made k' hk').kind⟩

theorem bufferable_of_plain (h : Plain tid r) :
    r.request.bufferable = true ∧ r.request.localAccess = false ∧ r.request.flags.llsc = false := by
  have hflags := h.flags
  simp only [RequestFlags.plain, Bool.not_eq_true', Bool.or_eq_false_iff] at hflags
  exact ⟨by simp [Request.bufferable, hflags], h.localAccess, by simp [hflags]⟩

variable {slots : List Nat} {packet : Packet} {slot : Nat}

section
variable (h : v.Coherent tid mem)
include h

/-- The front of `requests` sends a packet. -/
theorem Coherent.sendFront (hwf : v.WF) (hfront : v.requests = p :: rest)
    (hk : (v.heap p).getHeadPacket = some k) (hload : (v.heap p).isLoad = true)
    (hstate : (v.heap p).state ≠ .complete)
    (hstarted : Started (v.heap p) ∨ v.numStoresInTransfers = 0)
    (hcoverage : ∀ q ∈ v.slots, slotCoverage (v.heap q) (v.heap p) = .noCoverage)
    (retry : Option Nat) (hretry : ∀ q ∈ v.slots, retry = some q → v.retry = some q) :
    Coherent tid mem
      { ((v.put p ((v.heap p).stepToNextPacket.setState .requestIssuing)).sendPacket p
          k).moveIf (v.heap p).stepToNextPacket.sentAllPackets p rest with retry := retry } := by
  have hp := mem_queue_of_front hfront
  have hreq : p ∈ v.requests := hfront ▸ mem_cons_self
  have hok := h.queued p hp
  have hlive := h.not_skipped hp hstate
  have hpacket := (packet_of_head hok.ok hk).1
  have hunsent := (h.waiting p hreq hpacket).1
  have hsame := sameBody_stepToNextPacket (v.heap p) .requestIssuing
  have hskipped : ((v.heap p).stepToNextPacket.setState .requestIssuing).skipped = false :=
    (v.heap p).stepToNextPacket_frame.2.2.2.2.1.trans hlive
  have hok' := hok.ok.send hk hunsent .requestIssuing p
  have hqueued : Queued tid v.streamSeqNum (v.arch mem)
      ((v.heap p).stepToNextPacket.setState .requestIssuing)
      (accessesOf (v.inMemory ++ [{ ptr := p, packet := k, performed := false }]) p) := by
    rw [accessesOf_append_self]
    refine ⟨?_, hok', fun _ _ => (hok.load hload hlive).send hk p (by simp), ?_, ?_,
      (fun hs => by cases hs), fun hs => by cases hs⟩
    · rw [hsame.isLoad, hsame.kind]
      exact hok.kind
    · intro hst
      rw [hsame.isLoad, hload] at hst
      cases hst
    · intro hs
      rw [hskipped] at hs
      cases hs
  have hview : ∀ r sent, { ((v.put p r).sendPacket p k).moveIf sent p rest with retry := retry }
      = { (v.put p r).moveIf sent p rest with
        inMemory := v.inMemory ++ [{ ptr := p, packet := k, performed := false }]
        retry := retry } := by
    intro r sent
    cases sent <;> rfl
  rw [hview]
  refine h.update hwf hp _ rest _ retry (fun _ => hfront) hqueued hsame.isLoad ?_ ?_ ?_
    ⟨fun q hq => accessesOf_append_of_ne k hq, ?_⟩ hretry
  · -- It stays in `requests` while it has packets to send.
    intro hmore _ hne
    obtain ⟨k', hk'⟩ := ne_none_iff_exists'.mp hne
    have hnot : ¬ ((v.heap p).stepToNextPacket.setState .requestIssuing).sentAllPackets = true :=
      Bool.eq_false_iff.mp hmore
    rw [(hok'.made k' hk').sentAllPackets_iff hk'] at hnot
    refine ⟨lt_of_le_of_ne hok'.sent hnot, fun hs => by cases hs⟩
  · intro _
    rcases hstarted with hst | hnone
    · exact .inl hst
    · exact .inr ⟨by rw [hfront]; rfl, hnone⟩
  · intro _ q hq
    rw [slotCoverage_load_congr hsame.inst hsame.request]
    exact hcoverage q hq
  · have hkload : k.isLoad = true := by
      obtain ⟨offset, hpart⟩ := hok.ok.part_of_packets
        (mem_of_getElem? (getElem?_of_getHeadPacket hk hunsent))
      exact hpart.isLoad.trans hload
    simp [hkload]

/-- A request that goes to memory is a load that no slot overlaps. -/
theorem Coherent.load_of_canSend (hcan : v.CanSend p rest)
    (hk : (v.heap p).getHeadPacket = some k) :
    (v.heap p).isLoad = true ∧ ∀ q ∈ v.slots, slotCoverage (v.heap q) (v.heap p) = .noCoverage := by
  have hp := mem_queue_of_front hcan.front
  obtain ⟨hbuf, hlocal, hllsc⟩ := bufferable_of_plain (packet_of_head (h.queued p hp).ok hk).2
  have hload : (v.heap p).isLoad = true := by
    by_contra hstore
    rcases hcan.store (Bool.eq_false_iff.mpr hstore) with hb | hl
    · rw [hbuf] at hb
      cases hb
    · rw [hlocal] at hl
      cases hl
  refine ⟨hload, fun q hq => ?_⟩
  exact noCoverage_of_findCoverage (hcan.load hload hllsc) q (mem_reverse.mpr hq)

/-- The memory system refuses a packet. -/
theorem Coherent.refuse (hwf : v.WF) (hcan : v.CanSend p rest)
    (hk : (v.heap p).getHeadPacket = some k) :
    Coherent tid mem
      { v.put p ((v.heap p).setState .requestNeedsRetry) with retry := some p } := by
  obtain ⟨hload, hcoverage⟩ := h.load_of_canSend hcan hk
  have hreq : p ∈ v.requests := hcan.front ▸ mem_cons_self
  refine h.advance hwf (mem_queue_of_front hcan.front) hcan.notComplete (by simp) false [] (some p)
    (by simp) ?_ (fun _ => .inr hcoverage) ?_
  · intro _
    exact .inr ⟨by rw [hcan.front]; rfl, hcan.noStores hload⟩
  · intro q hq hr
    rw [some.injEq] at hr
    subst hr
    exact absurd hq (hwf.not_mem_of_request hreq).2

/-- The memory system is free again, and the request tries once more later. -/
theorem Coherent.unblock (hwf : v.WF) (hretry : v.retry = some p)
    (hstate : (v.heap p).state = .requestNeedsRetry) :
    Coherent tid mem
      { v.put p ((v.heap p).setState .translated) with retry := none } := by
  obtain ⟨rest, hfront⟩ := head?_eq_some_iff.mp ((hwf.retry p hretry).1 hstate).1
  refine h.advance hwf (mem_queue_of_front hfront) (by rw [hstate]; simp) (by simp) false [] none
    (by simp) ?_ ?_ (by simp)
  · rintro ⟨hload, hs, -⟩
    exact .inl ⟨hload, hs, .inr (.inl hstate)⟩
  · rintro ⟨hload, hs, -⟩
    exact .inl ⟨hload, hs, .inr hstate⟩

/-- A load takes its data from the youngest slot that overlaps it. -/
theorem Coherent.forward (hwf : v.WF) (hcan : v.CanTransfer p rest)
    (hload : (v.heap p).isLoad = true)
    (hcover : v.findCoverage (v.heap p) v.slots.reverse = (.fullCoverage, slot))
    (hpacket : (v.heap p).packet = some packet) :
    Coherent tid mem ((v.put p ((forwardStoreData (v.heap slot) (v.heap p) packet).setState
        .complete)).move p rest) := by
  have hp := mem_queue_of_front hcan.front
  have hok := h.queued p hp
  have hlive := h.not_skipped hp hcan.notComplete
  have hne : (v.heap p).packet ≠ none := by simp [hpacket]
  obtain ⟨younger, older, hslots, hyounger, hfull⟩ := exists_of_findCoverage hcover
  have hslots' : v.slots = older.reverse ++ slot :: younger.reverse := by
    rw [← reverse_reverse v.slots, hslots]
    simp
  have hslot : slot ∈ v.slots := by
    rw [hslots']
    exact mem_append_right _ mem_cons_self
  -- Nothing of the load was sent: otherwise no slot would overlap it.
  have hunsent : (v.heap p).numSent = 0 := by
    by_contra hpos
    have hnone := h.exposed p hp ⟨hload, hlive, .inl (Nat.pos_of_ne_zero hpos)⟩ slot hslot
    rw [hfull] at hnone
    cases hnone
  obtain ⟨k, hk, -, hwrite⟩ := (h.slots slot hslot).covers hok.ok hne hfull
  have hdata : ∀ i < (v.heap p).request.size,
      memcpy packet.data 0 (fun i => ((v.heap slot).packet.map fun s => s.data).getD packet.data
        ((v.heap p).request.paddr - (v.heap slot).request.paddr + i)) (v.heap p).request.size i
      = v.arch mem ((v.heap p).request.paddr + i) := by
    intro i hi
    have hlast : v.arch mem ((v.heap p).request.paddr + i)
        = k.data ((v.heap p).request.paddr - (v.heap slot).request.paddr + i) := by
      rw [← h.buffered, slotWrites, hslots', map_append]
      refine Patch.applyAll_of_last (hwrite i hi) fun w hw => ?_
      obtain ⟨s, hs, rfl⟩ := mem_map.mp hw
      rw [mem_reverse] at hs
      by_contra hsw
      have hsmem : s ∈ v.slots := by
        rw [hslots']
        exact mem_append_right _ (mem_cons_of_mem _ (mem_reverse.mpr hs))
      exact (h.slots s hsmem).apart hok.ok hne (hyounger s hs) hsw ⟨by omega, by omega⟩
    simp only [memcpy, Nat.zero_le, Nat.zero_add, true_and, Nat.sub_zero, hk, map_some, getD_some]
    rw [if_pos hi, hlast]
  refine h.update hwf hp true rest v.inMemory v.retry (fun _ => hcan.front) ?_ rfl
    (by simp) ?_ ?_ ⟨fun _ _ => rfl, rfl⟩ (fun _ _ hr => hr)
  · refine ⟨hok.kind, hok.ok.setPacket hpacket hunsent _ (fun hstore => ?_) .complete,
      fun _ _ => LoadOk.setPacket hok.ok hpacket hunsent hdata .complete, fun _ => hunsent, ?_,
      (fun hs => by cases hs), fun hs => by cases hs⟩
    · rw [hload] at hstore
      cases hstore
    · intro hs
      have hs' : (v.heap p).skipped = true := hs
      rw [hlive] at hs'
      cases hs'
  · intro _
    exact .inr ⟨by rw [hcan.front]; rfl, hcan.noStores hload⟩
  · rintro ⟨-, -, hpos | hs⟩
    · have hpos' : 0 < (v.heap p).numSent := hpos
      omega
    · cases hs

end

/-! ### New requests and translations -/

section
variable (h : v.Coherent tid mem)
include h

/-- An address translation. -/
theorem Coherent.finish (hinv : v.QueueInv) (hwf : v.WF)
    (hp : p ∈ v.requests) (hstate : (v.heap p).state = .inTranslation) {t : Translation}
    (ht : PlainTranslation (v.heap p) t) (fresh : Buffer) :
    Coherent tid mem (v.put p ((v.heap p).finish t fresh)) := by
  have hq : p ∈ v.queue := mem_append_right _ hp
  have hok := h.queued p hq
  have hlive := h.not_skipped hq (by rw [hstate]; simp)
  obtain ⟨hnone, -, hdata⟩ := (hinv.queued p hq).untranslated hstate
  have hsent := (hok.ok.empty hnone).2
  have hsame := sameAccess_finish (v.heap p) t fresh
  have hsent' : ((v.heap p).finish t fresh).numSent = 0 := (numSent_finish _ t fresh).trans hsent
  have hnil : accessesOf v.inMemory p = [] :=
    eq_nil_of_length_eq_zero (by have hcount := hok.ok.count; omega)
  have hokNil : ReqOk tid (v.heap p) [] := by
    have hok' := hok.ok
    rw [hnil] at hok'
    exact hok'
  obtain ⟨hok', huntranslated⟩ :=
    hokNil.finish (hok.untranslated hstate) hnone hdata ht fresh
  have hstate' := state_finish (v.heap p) t fresh
  rw [hstate] at hstate'
  -- A request that completes here has no packet.
  have hcomplete : ((v.heap p).finish t fresh).state = .complete →
      ((v.heap p).finish t fresh).packet = none := by
    intro hs
    rw [hs] at hstate'
    rcases hstate' with hc | hc | ⟨-, hc⟩
    · cases hc
    · cases hc
    · exact hc.trans hnone
  have hidle : ¬ Started ((v.heap p).finish t fresh) := by
    rintro ⟨-, -, hpos | hs | ⟨hs, hpacket⟩⟩
    · omega
    · rw [hs] at hstate'
      rcases hstate' with hc | hc | ⟨hc, -⟩ <;> cases hc
    · exact hpacket (hcomplete hs)
  refine h.update hwf hq false [] v.inMemory v.retry (by simp) ?_ hsame.isLoad ?_
    (fun hst => absurd hst hidle) ?_ ⟨fun _ _ => rfl, rfl⟩ (fun _ _ hr => hr)
  · rw [hnil]
    refine ⟨?_, hok', fun _ _ => LoadOk.idle hok' hsent' (fun hs _ => hcomplete hs) _,
      fun _ => hsent', ?_, huntranslated, ?_⟩
    · rw [hsame.isLoad, hsame.kind]
      exact hok.kind
    · intro hs
      have hskip : ((v.heap p).finish t fresh).skipped = (v.heap p).skipped := by
        rcases (v.heap p).finish_cases t fresh with ⟨-, fault, n, state, heq, -⟩ | ⟨-, heq⟩ |
          ⟨-, -, -, heq⟩ | ⟨-, -, heq⟩ | ⟨-, -, heq⟩ | ⟨-, -, heq⟩ <;> rw [heq] <;>
          simp [makeFragmentPackets, makePacket, translateFragment, LSQRequest.setState, hnone]
      rw [hskip, hlive] at hs
      cases hs
    · intro hs
      rw [hs] at hstate'
      rcases hstate' with hc | hc | ⟨hc, -⟩ <;> cases hc
  · intro _ _ hpacket
    obtain ⟨k, hk⟩ := ne_none_iff_exists'.mp hpacket
    refine ⟨?_, fun hs => hpacket (hcomplete hs)⟩
    rw [hsent']
    exact (hok'.made k hk).pos
  · intro hex
    exact absurd ⟨hex.1, hex.2.1, hex.2.2.imp_right .inl⟩ hidle

/-- A pointer that is not in use. -/
theorem Coherent.fresh (hwf : v.WF) (r : LSQRequest) :
    Coherent tid mem (v.put v.nextPtr r) ∧ accessesOf v.inMemory v.nextPtr = [] := by
  have hout : v.nextPtr ∉ v.queue ++ v.slots := fun hmem => (hwf.fresh _ hmem).ne rfl
  rw [mem_append, not_or] at hout
  refine ⟨h.put_other hout.1 hout.2 r ⟨fun _ _ => rfl, rfl⟩, ?_⟩
  rw [accessesOf, filter_eq_nil_iff]
  intro a ha hptr
  rw [beq_iff_eq] at hptr
  exact (hwf.owned a ha).ne hptr

/-- A new request without a packet. -/
theorem Coherent.alloc (hwf : v.WF)
    (hkind : r.isLoad = false → r.kind = .singleData ∨ r.kind = .splitData) (hok : ReqOk tid r [])
    (hpacket : r.packet = none) (hskipped : r.skipped = false)
    (hstate : r.state ≠ .requestNeedsRetry)
    (huntranslated : r.state = .inTranslation → Untranslated r) :
    (v.alloc r).Coherent tid mem := by
  obtain ⟨hput, hnil⟩ := h.fresh hwf r
  have hsent := (hok.empty hpacket).2
  have hself : (v.put v.nextPtr r).heap v.nextPtr = r := put_heap_self r
  refine hput.append (v.nextPtr + 1) ?_ ?_ ?_
  · have hnil' : accessesOf (v.put v.nextPtr r).inMemory v.nextPtr = [] := hnil
    rw [hself, hnil']
    refine ⟨hkind, hok, fun _ _ => LoadOk.idle hok hsent (fun _ _ => hpacket) _, fun _ => hsent, ?_,
      huntranslated, fun _ => hpacket⟩
    intro hs
    rw [hskipped] at hs
    cases hs
  · rw [hself]
    exact hpacket
  · rw [hself]
    rintro ⟨-, -, hpos | hs | ⟨-, hne⟩⟩
    · omega
    · exact hstate hs
    · exact hne hpacket

end

/-! ### Responses -/

/-- A response takes a packet of one request, which has been performed. -/
theorem othersKept_respond {k : Nat} (ha : v.inMemory[k]? = some a)
    (hperformed : a.performed = true) :
    OthersKept a.ptr v.inMemory (v.inMemory.eraseIdx k) :=
  ⟨fun _ hq => accessesOf_eraseIdx_of_ne ha hq, filter_eraseIdx ha (by simp [hperformed])⟩

/-- A response for a split request leaves its packets and how many of them were sent. -/
theorem retireSplit_counts (hkind : r.kind = .splitData) (response : Packet) (fresh : Buffer) :
    (r.retireResponse response fresh).packets = r.packets ∧
      (r.retireResponse response fresh).numSent = r.numSent := by
  rw [retireSplit_eq r hkind]
  simp only [packets, numSent, hkind, and_self]

section
variable (h : v.Coherent tid mem)
include h

variable (hwf : v.WF)
include hwf

/-- A response for a request of the queue: a load that was sent. -/
theorem Coherent.respondQueued {k : Nat}
    (ha : v.inMemory[k]? = some a) (hperformed : a.performed = true)
    (hstate : (v.heap a.ptr).state = .requestIssuing ∨
      (v.heap a.ptr).state = .requestNeedsRetry) (hp : a.ptr ∈ v.queue) (fresh : Buffer) :
    Coherent tid mem
      { v.put a.ptr ((v.heap a.ptr).retireResponse a.packet fresh) with
        inMemory := v.inMemory.eraseIdx k } := by
  have hok := h.queued a.ptr hp
  have hne : (v.heap a.ptr).state ≠ .complete := by
    rcases hstate with hs | hs <;> rw [hs] <;> simp
  have hlive := h.not_skipped hp hne
  have hmem : a ∈ accessesOf v.inMemory a.ptr := mem_accessesOf.mpr ⟨mem_of_getElem? ha, rfl⟩
  obtain ⟨hlen, hsub, hsup⟩ := accessesOf_eraseIdx_self ha
  have hcount := hok.ok.count
  have hsent : 0 < (v.heap a.ptr).numSent := by omega
  have hload : (v.heap a.ptr).isLoad = true := by
    by_contra hstore
    have hzero := hok.store (Bool.eq_false_iff.mpr hstore)
    omega
  have hsame := sameBody_retireResponse (v.heap a.ptr) a.packet fresh
  obtain ⟨-, -, -, hskip⟩ := (v.heap a.ptr).retireResponse_frame a.packet fresh
  have hstate' := (v.heap a.ptr).state_retireResponse a.packet fresh
  have hok' := hok.ok.retire hmem hlen hsub fresh
  have hloadOk := (hok.load hload hlive).retire hok.ok hload hlive hne hmem hperformed hlen hsub
    hsup fresh
  -- The state does not go back to one before the request was sent.
  have hnotBack : ∀ s, s ≠ .requestIssuing → s ≠ .requestNeedsRetry → s ≠ .complete →
      ((v.heap a.ptr).retireResponse a.packet fresh).state ≠ s := by
    intro s h1 h2 h3 hs
    rcases hstate' with hs' | hs'
    · rw [hs] at hs'
      rcases hstate with hs'' | hs''
      · exact h1 (hs'.trans hs'')
      · exact h2 (hs'.trans hs'')
    · exact h3 (hs.symm.trans hs')
  refine h.update hwf hp false [] (v.inMemory.eraseIdx k) v.retry (by simp) ?_
    hsame.isLoad ?_ ?_ ?_ (othersKept_respond ha hperformed) (fun _ _ hr => hr)
  · refine ⟨?_, hok', fun _ _ => hloadOk, ?_, ?_, ?_, ?_⟩
    · rw [hsame.isLoad, hsame.kind]
      exact hok.kind
    · intro hstore
      rw [hsame.isLoad, hload] at hstore
      cases hstore
    · intro hs
      rw [hskip, hlive] at hs
      cases hs
    · intro hs
      exact absurd hs (hnotBack _ (by simp) (by simp) (by simp))
    · intro hs
      exact absurd hs (hnotBack _ (by simp) (by simp) (by simp))
  · -- A request that still waits has packets to send, so it is not complete.
    intro _ hreq hpacket
    have hold : (v.heap a.ptr).packet ≠ none := by
      intro hn
      have hzero := (hok.ok.empty hn).2
      omega
    obtain ⟨hunsent, -⟩ := h.waiting a.ptr hreq hold
    rcases hok.ok.kind_of_access hmem with hkind | hkind
    · -- A single request has sent its only packet.
      have hone : (v.heap a.ptr).packets.length ≤ 1 := by
        simp only [packets, hkind]
        cases (v.heap a.ptr).packet <;> simp
      omega
    · obtain ⟨hpackets, hnumSent⟩ := retireSplit_counts hkind a.packet fresh
      rw [hpackets, hnumSent]
      refine ⟨hunsent, fun hs => ?_⟩
      obtain ⟨k', hk'⟩ := ne_none_iff_exists'.mp hold
      have hfragments := (hok.ok.made k' hk').fragments hkind
      have hdone : (v.heap a.ptr).splitDone = false := by
        simp only [numBack, packets, hkind] at hcount hunsent
        simp only [splitDone, hlive, Bool.false_and, Bool.false_or, beq_eq_false_iff_ne]
        omega
      rw [retireSplit_eq _ hkind] at hs
      simp only [hdone] at hs
      exact hne hs
  · intro _
    exact .inl ⟨hload, hlive, .inl hsent⟩
  · intro _ q hq
    rw [slotCoverage_load_congr hsame.inst hsame.request]
    exact h.exposed a.ptr hp ⟨hload, hlive, .inl hsent⟩ q hq

/-- A response for a request. -/
theorem Coherent.respond {k : Nat} (ha : v.inMemory[k]? = some a) (hperformed : a.performed = true)
    (hstate : (v.heap a.ptr).state = .requestIssuing ∨
      (v.heap a.ptr).state = .requestNeedsRetry) (fresh : Buffer) :
    Coherent tid mem
      { v.put a.ptr ((v.heap a.ptr).retireResponse a.packet fresh) with
        inMemory := v.inMemory.eraseIdx k } := by
  by_cases hp : a.ptr ∈ v.queue
  · exact h.respondQueued hwf ha hperformed hstate hp fresh
  · -- The request has left the queue, and slots are in other states.
    refine h.put_other hp ?_ _ (othersKept_respond ha hperformed)
    intro hs
    have hslot := (hwf.slots a.ptr hs).1
    rcases hstate with hst | hst <;> rw [hst] at hslot <;> simp at hslot

/-- A response for a slot, before the slot leaves the buffer. -/
theorem Coherent.respondSlot {k : Nat}
    (ha : v.inMemory[k]? = some a) (hperformed : a.performed = true)
    (hstate : (v.heap a.ptr).state = .storeBufferIssuing ∨
      (v.heap a.ptr).state = .storeBufferNeedsRetry) (hp : a.ptr ∈ v.slots) (fresh : Buffer) :
    Coherent tid mem
      { v.put a.ptr ((v.heap a.ptr).retireResponse a.packet fresh) with
        inMemory := v.inMemory.eraseIdx k } := by
  have hok := h.slots a.ptr hp
  have hmem : a ∈ accessesOf v.inMemory a.ptr := mem_accessesOf.mpr ⟨mem_of_getElem? ha, rfl⟩
  obtain ⟨hlen, hsub, -⟩ := accessesOf_eraseIdx_self ha
  have hsame := sameBody_retireResponse (v.heap a.ptr) a.packet fresh
  obtain ⟨-, -, -, hskip⟩ := (v.heap a.ptr).retireResponse_frame a.packet fresh
  have hstate' := (v.heap a.ptr).state_retireResponse a.packet fresh
  have hok' := hok.ok.retire hmem hlen hsub fresh
  have hcount := hok.ok.count
  obtain ⟨k₀, hk₀⟩ : ∃ k₀, (v.heap a.ptr).packet = some k₀ := by
    apply ne_none_iff_exists'.mp
    intro hn
    have hzero := (hok.ok.empty hn).2
    omega
  have hmade := hok.ok.made k₀ hk₀
  have hstore := hok.store (by simp [hk₀])
  -- The counts and the writes that are still to send.
  have hcounts : ∀ r, (v.heap a.ptr).retireResponse a.packet fresh = r →
      r.packet.isSome = true ∧ r.packets.length = (v.heap a.ptr).packets.length ∧
      r.numSent = (v.heap a.ptr).numSent ∧ r.unsentWrites = (v.heap a.ptr).unsentWrites ∧
      (r.state = .complete → r.numBack = r.packets.length) := by
    rintro _ rfl
    rcases hmade.kind with hkind | hkind
    · have heq : (v.heap a.ptr).retireResponse a.packet fresh
          = (v.heap a.ptr).retireSingle a.packet := by
        simp only [LSQRequest.retireResponse, hkind]
      have hone : (v.heap a.ptr).packetSent = true := by
        cases hps : (v.heap a.ptr).packetSent with
        | true => rfl
        | false =>
          simp only [numSent, numBack, hkind, hps] at hcount
          simp at hcount
          rw [hcount] at hmem
          cases hmem
      rw [heq]
      simp [packets, numSent, numBack, LSQRequest.unsentWrites, retireSingle, hkind, hk₀, hone]
    · have heq := retireSplit_eq (v.heap a.ptr) hkind a.packet fresh
      obtain ⟨hpackets, hnum⟩ := retireSplit_counts hkind a.packet fresh
      refine ⟨?_, by rw [hpackets], hnum, ?_, ?_⟩
      · rw [heq]
        simp [hstore, hk₀]
      · rw [LSQRequest.unsentWrites, hpackets, hnum, LSQRequest.unsentWrites]
      · intro hs
        have hdone : (v.heap a.ptr).splitDone = true := by
          by_contra hnot
          rw [heq] at hs
          simp only [hnot] at hs
          rcases hstate with hst | hst <;> rw [hst] at hs <;> cases hs
        rw [splitDone, hok.skipped, Bool.false_and, Bool.false_or, beq_iff_eq] at hdone
        rw [heq]
        simp only [numBack, packets, hkind]
        rw [hdone, hmade.fragments hkind]
  obtain ⟨hsome, hlength, hnumSent, hunsent, hcomplete⟩ := hcounts _ rfl
  have hkept := othersKept_respond ha hperformed
  refine h.change (v.inMemory.eraseIdx k) v.retry (fun hq => absurd hq (hwf.not_queued hp))
    (fun _ => ⟨?_, hsame, ?_⟩) hkept.others ?_ ?_ ?_
  · refine ⟨hok', fun _ => hsame.isLoad.trans hstore, ?_, hskip.trans hok.skipped, ?_, hcomplete⟩
    · intro hn
      rw [hn] at hsome
      cases hsome
    · intro hs
      rw [hnumSent, hlength]
      refine hok.unsent ?_
      rcases hstate' with hst | hst
      · rw [hst] at hs
        exact hs
      · rw [hst] at hs
        rcases hs with hs | hs <;> cases hs
  · rw [hsome, hk₀]
    rfl
  · intro b hb
    exact h.owner b (mem_of_mem_eraseIdx hb)
  · refine h.retry.imp ?_
    intro q s hqs hr hs
    have hold : (v.heap s).state = .storeBufferNeedsRetry := by
      by_cases hsa : s = a.ptr
      · subst hsa
        rw [put_heap_self] at hs
        rcases hstate' with hst | hst
        · exact hst.symm.trans hs
        · rw [hst] at hs
          cases hs
      · rw [put_heap_of_ne _ hsa] at hs
        exact hs
    rw [unsentWrites_put_heap hunsent.symm]
    exact hqs hr hold
  · rw [unsentWrites_put hunsent.symm, inFlightWrites, hkept.writes]
    exact h.pending

/-- A response for a slot. A slot that is complete leaves the buffer, unless it is a
barrier. -/
theorem Coherent.slotRespond {k : Nat}
    (ha : v.inMemory[k]? = some a) (hperformed : a.performed = true)
    (hstate : (v.heap a.ptr).state = .storeBufferIssuing ∨
      (v.heap a.ptr).state = .storeBufferNeedsRetry) (fresh : Buffer)
    (hapart : (v.heap a.ptr).lastResponse = true → ∀ q ∈ v.slots.takeWhile (· != a.ptr),
      slotCoverage (v.heap q) (v.heap a.ptr) = .noCoverage) :
    Coherent tid mem
      { v.put a.ptr ((v.heap a.ptr).retireResponse a.packet fresh) with
        inMemory := v.inMemory.eraseIdx k
        slots := if ((v.heap a.ptr).retireResponse a.packet fresh).isComplete &&
              !((v.heap a.ptr).retireResponse a.packet fresh).isBarrier then
            v.slots.erase a.ptr
          else v.slots } := by
  by_cases hp : a.ptr ∈ v.slots
  · have hnext := h.respondSlot hwf ha hperformed hstate hp fresh
    split
    · rename_i hdone
      simp only [Bool.and_eq_true, isComplete, beq_iff_eq] at hdone
      -- Only the last response completes a request that is not skipped.
      have hlast : (v.heap a.ptr).lastResponse = true := by
        rcases (h.slots a.ptr hp).ok.kind_of_access
          (mem_accessesOf.mpr ⟨mem_of_getElem? ha, rfl⟩) with hkind | hkind
        · simp [lastResponse, hkind]
        · have hcomplete := hdone.1
          rw [retireSplit_eq _ hkind] at hcomplete
          dsimp only at hcomplete
          split at hcomplete
          · rename_i hlast
            rw [splitDone, (h.slots a.ptr hp).skipped, Bool.false_and] at hlast
            simp only [lastResponse, hkind]
            exact hlast
          · rcases hstate with hs | hs <;> rw [hs] at hcomplete <;> cases hcomplete
      obtain ⟨older, younger, hnot, hslots, herase⟩ := exists_erase_eq hp
      have htake : v.slots.takeWhile (· != a.ptr) = older := by
        rw [hslots, takeWhile_append_of_pos, takeWhile_cons_of_neg (by simp), append_nil]
        intro q hq
        rw [bne_iff_ne]
        rintro rfl
        exact hnot hq
      have hbody := sameBody_retireResponse (v.heap a.ptr) a.packet fresh
      rw [herase]
      refine hnext.erase (nodup_append.mp hwf.nodup).2.1 hslots ?_ ?_
      · rw [put_heap_self]
        exact hdone.1
      · intro q hq
        have hqa : q ≠ a.ptr := by
          rintro rfl
          exact hnot hq
        rw [put_heap_self, put_heap_of_ne _ hqa, slotCoverage_load_congr hbody.inst hbody.request]
        exact hapart hlast q (htake.symm ▸ hq)
    · exact hnext
  · rw [erase_of_not_mem hp, ite_self]
    exact h.put_other (hwf.not_queued_of_state hstate) hp _ (othersKept_respond ha hperformed)

end

/-! ### Packets of stores -/

/-- A slot that has sent all its packets has nothing left to send. -/
theorem unsentWrites_of_sentAllPackets (h : Buffered tid r as) (hsent : r.sentAllPackets = true) :
    r.unsentWrites = [] := by
  cases hk : r.packet with
  | none => rw [LSQRequest.unsentWrites, (h.ok.empty hk).1, drop_nil, map_nil]
  | some k =>
    rw [(h.ok.made k hk).sentAllPackets_iff hk] at hsent
    rw [LSQRequest.unsentWrites, hsent, drop_length, map_nil]

section
variable (h : v.Coherent tid mem)
include h

/-- A slot sends a packet when all older slots have sent theirs. -/
theorem Coherent.sendSlot (hwf : v.WF) {older younger : List Nat}
    (hslots : v.slots = older ++ p :: younger) (hk : (v.heap p).getHeadPacket = some k)
    (hunsent : (v.heap p).numSent < (v.heap p).packets.length)
    (holder : ∀ q ∈ older, (v.heap q).unsentWrites = []) :
    Coherent tid mem
      { (v.put p ((v.heap p).stepToNextPacket.setState .storeBufferIssuing)).sendPacket p k with
        retry := none } := by
  have hp : p ∈ v.slots := by simp [hslots]
  have hok := h.slots p hp
  have hsame := sameBody_stepToNextPacket (v.heap p) .storeBufferIssuing
  obtain ⟨hpackets, hpacket⟩ := packets_stepToNextPacket (v.heap p) .storeBufferIssuing
  have hstore := hok.store (packet_of_head hok.ok hk).1
  have hkload : k.isLoad = false := by
    obtain ⟨offset, hpart⟩ := hok.ok.part_of_packets
      (mem_of_getElem? (getElem?_of_getHeadPacket hk hunsent))
    exact hpart.isLoad.trans hstore
  have hskipped : ((v.heap p).stepToNextPacket.setState .storeBufferIssuing).skipped = false :=
    (v.heap p).stepToNextPacket_frame.2.2.2.2.1.trans hok.skipped
  refine h.change (v.inMemory ++ [{ ptr := p, packet := k, performed := false }]) none
    (fun hq => absurd hq (hwf.not_queued hp))
    (fun _ => ⟨?_, hsame, by rw [hpacket]⟩) (fun q hq => accessesOf_append_of_ne k hq) ?_ ?_ ?_
  · rw [accessesOf_append_self]
    refine ⟨hok.ok.send hk hunsent .storeBufferIssuing p, fun _ => hsame.isLoad.trans hstore, ?_,
      hskipped, ?_, fun hs => by cases hs⟩
    · rw [hpacket, hsame.request]
      exact hok.empty
    · rintro (hs | hs) <;> cases hs
  · intro a ha hperf hst
    rcases mem_append.mp ha with ha | ha
    · exact h.owner a ha hperf hst
    · rw [mem_singleton] at ha
      subst ha
      exact hp
  · exact h.retry.imp (by simp)
  · -- The packet goes from the front of the unsent writes to the end of those in flight.
    have hne : ∀ q ∈ older ++ younger, q ≠ p := by
      have hnodup := (nodup_append.mp hwf.nodup).2.1
      rw [hslots, nodup_append, nodup_cons] at hnodup
      intro q hq
      rcases mem_append.mp hq with hq | hq
      · exact hnodup.2.2 q hq p mem_cons_self
      · rintro rfl
        exact hnodup.2.1.1 hq
    have hsplit : ∀ w : LSQView, w.slots = v.slots → (∀ q, q ≠ p → w.heap q = v.heap q) →
        w.unsentWrites = (w.heap p).unsentWrites ++
          younger.flatMap fun q => (v.heap q).unsentWrites := by
      intro w hw hheap
      have holder' : (older.flatMap fun q => (w.heap q).unsentWrites) = [] := by
        rw [flatMap_eq_nil_iff]
        intro q hq
        rw [hheap q (hne q (mem_append_left _ hq))]
        exact holder q hq
      have hyounger : (younger.flatMap fun q => (w.heap q).unsentWrites)
          = younger.flatMap fun q => (v.heap q).unsentWrites :=
        flatMap_congr fun q hq => by rw [hheap q (hne q (mem_append_right _ hq))]
      rw [LSQView.unsentWrites, hw, hslots, flatMap_append, flatMap_cons, holder',
        hyounger, nil_append]
    have hbefore := hsplit v rfl fun _ _ => rfl
    have hafter := hsplit (v.put p ((v.heap p).stepToNextPacket.setState .storeBufferIssuing)) rfl
      fun q hq => put_heap_of_ne _ hq
    have hhead : (v.heap p).unsentWrites = k.write ::
        ((v.heap p).stepToNextPacket.setState .storeBufferIssuing).unsentWrites := by
      rw [LSQRequest.unsentWrites, drop_numSent hk hunsent .storeBufferIssuing]
      rfl
    have hflight : inFlightWrites (v.inMemory ++ [{ ptr := p, packet := k, performed := false }])
        = inFlightWrites v.inMemory ++ [k.write] := by
      simp [inFlightWrites, hkload]
    have hpending := h.pending
    rw [hbefore, hhead] at hpending
    rw [hafter, put_heap_self, hflight, append_assoc]
    exact hpending

/-- A slot that is tried has packets to send. -/
theorem Coherent.unsent_of_tried (hp : p ∈ v.slots) (hk : (v.heap p).getHeadPacket = some k)
    (hstate : (v.heap p).state = .storeInStoreBuffer ∨
      ((v.heap p).state = .storeBufferIssuing ∧ (v.heap p).sentAllPackets = false)) :
    (v.heap p).numSent < (v.heap p).packets.length := by
  have hok := h.slots p hp
  rcases hstate with hs | ⟨-, hs⟩
  · exact hok.unsent (.inl hs)
  · obtain ⟨k', hk'⟩ := ne_none_iff_exists'.mp (packet_of_head hok.ok hk).1
    refine lt_of_le_of_ne hok.ok.sent fun heq => ?_
    rw [((hok.ok.made k' hk').sentAllPackets_iff hk').mpr heq] at hs
    cases hs

/-- A slot changes its state only. -/
theorem Coherent.setSlotState (hwf : v.WF) (hp : p ∈ v.slots)
    (hunsent : (v.heap p).numSent < (v.heap p).packets.length) (state : LSQRequestState)
    (hstate : state ≠ .complete) (retry : Option Nat)
    (hretry : v.slots.Pairwise fun q s => retry = some s → s = p → (v.heap q).unsentWrites = [])
    (hself : ∀ s, retry = some s → s = p) :
    Coherent tid mem { v.put p ((v.heap p).setState state) with retry := retry } := by
  have hok := h.slots p hp
  have hsame : SameTraffic (v.heap p) ((v.heap p).setState state) :=
    { SameTraffic.refl (v.heap p) with }
  have hwrites : ((v.heap p).setState state).unsentWrites = (v.heap p).unsentWrites := rfl
  refine h.change v.inMemory retry (fun hq => absurd hq (hwf.not_queued hp))
    (fun _ => ⟨?_, hsame.toSameBody, rfl⟩) (fun _ _ => rfl) h.owner ?_ ?_
  · exact { hok with
      ok := hok.ok.congr hsame, unsent := fun _ => hunsent
      complete := fun hs => absurd hs hstate }
  · refine hretry.imp ?_
    intro q s hqs hr _
    rw [unsentWrites_put_heap hwrites.symm]
    exact hqs hr (hself s hr)
  · rw [unsentWrites_put hwrites.symm]
    exact h.pending

end

/-! ### Commits -/

variable (h : v.Coherent tid mem)
include h

/-- The bytes that a store hands on are its own. -/
theorem Coherent.commitStore (hwf : v.WF) {data : Buffer} (hfront : v.transfers = p :: rest)
    (hstore : (v.heap p).isLoad = false) (hk : (v.heap p).packet = some k)
    (hstate : (v.heap p).state = .storeToStoreBuffer) (hdata : ∀ i < k.size, data i = k.data i) :
    Coherent tid mem
      { (v.put p { v.heap p with packet := some { k with data := data }
                                 state := .storeInStoreBuffer }).pop p rest with
        slots := v.slots ++ [p], committed := v.committed ++ [(v.heap p).storePatch] } := by
  have hp : p ∈ v.queue := mem_append_left _ (hfront ▸ mem_cons_self)
  have hok := h.queued p hp
  have hmade := hok.ok.made k hk
  have hsent := hok.store hstore
  have hlive := h.not_skipped hp (by rw [hstate]; simp)
  have hout : p ∉ (v.pop p rest).queue ∧ p ∉ v.slots := hwf.not_mem_of_front hfront
  have hbytes : ∀ i < k.size, data i = (v.heap p).writeData i := by
    intro i hi
    rw [hdata i hi, hmade.whole.data hstore i hi, Nat.zero_add]
  obtain ⟨r, hr⟩ : ∃ r : LSQRequest, r = { v.heap p with
      packet := some { k with data := data }, state := .storeInStoreBuffer } := ⟨_, rfl⟩
  have hrok : ReqOk tid r (accessesOf v.inMemory p) := by
    rw [hr]
    exact hok.ok.setPacket hk hsent data (fun _ => hbytes) .storeInStoreBuffer
  have hsent' : r.numSent = 0 := by
    rw [hr]
    exact hsent
  have hpacket : r.packet = some { k with data := data } := by rw [hr]
  have hwrite : r.write = (v.heap p).storePatch := by
    rw [hmade.storePatch hstore, hr]
    rfl
  -- First the store leaves the queue, then it enters the store buffer.
  have hleft := (h.pop hfront).put_other hout.1 hout.2 r ⟨fun _ _ => rfl, rfl⟩
  have hself : ((v.pop p rest).put p r).heap p = r := put_heap_self r
  have hnew := hleft.appendStore (p := p) (k := { k with data := data }) ?_ ?_ ?_ ?_ ?_
  · have hview : { (v.put p r).pop p rest with
        slots := v.slots ++ [p], committed := v.committed ++ [(v.heap p).storePatch] }
        = { (v.pop p rest).put p r with
            slots := v.slots ++ [p]
            committed := v.committed ++ [(((v.pop p rest).put p r).heap p).write] } := by
      rw [hself, hwrite]
      have hload : r.isLoad = (v.heap p).isLoad := by rw [hr]
      simp only [LSQView.pop, put, update_self, hload]
    rw [← hr, hview]
    exact hnew
  · have hok' : Buffered tid r (accessesOf v.inMemory p) := by
      refine ⟨hrok, fun _ => by rw [hr]; exact hstore, fun hn => ?_, by rw [hr]; exact hlive,
        fun _ => ?_, fun hs => ?_⟩
      · rw [hpacket] at hn
        cases hn
      · rw [hsent']
        exact (hrok.made _ hpacket).pos
      · rw [hr] at hs
        cases hs
    exact hself.symm ▸ hok'
  · exact hself.symm ▸ hpacket
  · exact hself.symm ▸ hsent'
  · rw [hr]
    exact congrArg LSQRequest.state (put_heap_self _)
  · intro q hq
    have hqp : q ≠ p := by
      rintro rfl
      exact hout.1 hq
    have hheap : ((v.pop p rest).put p r).heap q = v.heap q := put_heap_of_ne r hqp
    -- No load has started behind a store.
    have horder := h.order
    have hqueue : v.queue = p :: (v.pop p rest).queue := by
      simp [queue, LSQView.pop, hfront]
    rw [hqueue, pairwise_cons] at horder
    rw [hheap]
    intro hst
    have hload := horder.1 q hq hst
    rw [hstore] at hload
    cases hload

/-- The CVU does not matter for the invariant. -/
theorem Coherent.withCVU (cvu : CVU) :
    Coherent tid mem { v with cvu := cvu } :=
  { h with }

/-- The front of `transfers` leaves the queue with a new packet. -/
theorem Coherent.leave (hwf : v.WF) (hfront : v.transfers = p :: rest)
    (hload : r.isLoad = (v.heap p).isLoad) : Coherent tid mem ((v.put p r).pop p rest) := by
  obtain ⟨hqueue, hslots⟩ := hwf.not_mem_of_front hfront
  have hleft := (h.pop hfront).put_other hqueue hslots r ⟨fun _ _ => rfl, rfl⟩
  have hview : (v.put p r).pop p rest = (v.pop p rest).put p r := by
    simp only [LSQView.pop, put, update_self, hload]
  rw [hview]
  exact hleft

/-- A commit. -/
theorem Coherent.commit (hinv : v.QueueInv) (hwf : v.WF) {env : ResponseEnv}
    (hrespond : v.CanRespond p rest) (hstream : v.rightStream (v.heap p).inst = true)
    (hbytes : (v.heap p).isLoad = false → ∀ k, (v.heap p).packet = some k → ∀ i < k.size,
      (MemResponse.substitute v.cvu (v.heap p).inst k env.pastValue).data i = k.data i) :
    (v.commit env p rest).Coherent tid mem := by
  obtain ⟨hfront, hstate⟩ := hrespond
  have hp : p ∈ v.queue := mem_append_left _ (hfront ▸ mem_cons_self)
  have htransfer := hwf.transfers p (by rw [hfront]; exact mem_cons_self)
  have hok := hinv.queued p hp
  by_cases hto : (handleMemResponse v.thresholdLCT env v.cvu (v.heap p)).toStoreBuffer = true
  · obtain ⟨hfault, hpacket, hnofault, -⟩ := handleMemResponse_toStoreBuffer.mp hto
    obtain ⟨k, hk⟩ := ne_none_iff_exists'.mp hpacket
    have hstate' := state_of_toStoreBuffer hto
    have hstore : (v.heap p).isLoad = false := by
      rcases htransfer with hs | hs | ⟨-, hs, -⟩
      · rw [hstate'] at hs
        cases hs
      · rw [hstate'] at hs
        cases hs
      · exact hs
    have hresult : (handleMemResponse v.thresholdLCT env v.cvu (v.heap p)).packet = some { k with
          data := (MemResponse.substitute v.cvu (v.heap p).inst k env.pastValue).data } := by
      rw [handleMemResponse_of_access hfault hk, completeAccess_packet]
      unfold MemResponse.substitute
      split <;> rfl
    have hnew := (h.commitStore hwf hfront hstore hk hstate' (hbytes hstore k hk)).withCVU
      (handleMemResponse v.thresholdLCT env v.cvu (v.heap p)).cvu
    have hcommitted : (!(v.heap p).isLoad && (v.heap p).packet.isSome &&
        (v.heap p).translationFault.isNone &&
        (handleMemResponse v.thresholdLCT env v.cvu (v.heap p)).fault.isNone) = true := by
      simp [hstore, hk, hfault, hnofault]
    simp only [LSQView.commit, hto, hcommitted, hresult]
    exact hnew
  · -- Nothing enters the history: a bufferable store of the right stream is not complete.
    have hcommitted : (!(v.heap p).isLoad && (v.heap p).packet.isSome &&
        (v.heap p).translationFault.isNone &&
        (handleMemResponse v.thresholdLCT env v.cvu (v.heap p)).fault.isNone) = false := by
      by_contra hall
      simp only [Bool.not_eq_false, Bool.and_eq_true, Bool.not_eq_true', isNone_iff_eq_none] at hall
      obtain ⟨⟨⟨hstore, hsome⟩, hfault⟩, hnofault⟩ := hall
      obtain ⟨k, hk⟩ := isSome_iff_exists.mp hsome
      refine hto (handleMemResponse_toStoreBuffer.mpr ⟨hfault, by simp [hk], hnofault, ?_⟩)
      rcases hstate with hs | hs
      · obtain ⟨hbuf, hlocal, -⟩ := bufferable_of_plain
          ((h.queued p hp).ok.plain ((h.queued p hp).ok.made k hk).kind)
        rcases hok.completed hstore hs with hb | hb | hb
        · simp [buffers, hbuf, hlocal] at hb
        · rw [hk] at hb
          cases hb
        · have hright : (v.heap p).inst.id.streamSeqNum
              = v.streamSeqNum (v.heap p).inst.id.threadId := by
            simpa [rightStream] using hstream
          exact absurd hright hb.ne
      · simp [needsToBeSentToStoreBuffer, hs]
    have hnew := (h.leave hwf hfront (r := { v.heap p with
      packet := (handleMemResponse v.thresholdLCT env v.cvu (v.heap p)).packet }) rfl).withCVU
      (handleMemResponse v.thresholdLCT env v.cvu (v.heap p)).cvu
    simp only [LSQView.commit, hto, hcommitted]
    exact hnew

end

end LSQView

open LSQView in
/-- Each change keeps the invariant. -/
theorem coherent_step {tid : ThreadID} {mem : Addr → Byte} {v v' : LSQView} {l : LSQLabel}
    (hwf : v.WF) (hinvs : v.QueueInv ∧ v.Coherent tid mem) (hok : l = .quiet ∨ v.PlainLabel tid l)
    (hstep : LSQStep v l v') : v'.QueueInv ∧ v'.Coherent tid mem := by
  obtain ⟨hinv, h⟩ := hinvs
  refine ⟨queueInv_step hwf hinv hstep, ?_⟩
  have hlabel : ∀ {l' : LSQLabel}, l' ≠ .quiet → l = l' → v.PlainLabel tid l' := by
    rintro l' hne rfl
    exact hok.resolve_left hne
  cases hstep with
  | idle => exact h
  | push args fresh hstream hatomic hmask =>
    obtain ⟨hthread, hflags, hconstant, hroom⟩ := hlabel (by simp) rfl
    obtain ⟨hreq, huntranslated⟩ :=
      reqOk_push args v.cvu v.lineWidth fresh hthread hflags hconstant hmask h.width hroom
    obtain ⟨_, _, state, heq, hstate⟩ :=
      startAddrTranslation_newRequest args v.cvu v.lineWidth fresh
    rw [heq] at hreq huntranslated ⊢
    refine h.alloc hwf (fun _ => kind_newRequest args v.cvu v.lineWidth fresh) hreq rfl rfl ?_
      huntranslated
    rcases hstate with rfl | rfl <;> simp
  | pushFailed =>
    refine h.alloc hwf (fun hs => by cases hs) (ReqOk.of_none ?_ rfl rfl rfl rfl) rfl rfl
      (by simp [specialRequest, LSQRequest.new]) fun hs => by cases hs
    rintro (hkind | hkind) <;> cases hkind
  | adjust p delayed issued hp =>
    exact h.adjust hwf (mem_append_right _ hp) delayed issued (v.heap p).translationFault
  | clearFault p hp => exact h.adjust hwf hp _ _ noFault
  | finish p t fresh hp hstate => exact h.finish hinv hwf hp hstate (hlabel (by simp) rfl) fresh
  | skip p rest hfront hretry hskip => exact h.skip hinv hwf hfront hskip
  | toStoreBuffer p rest hcan hstore => exact h.toStoreBuffer hwf hcan hstore
  | forward p rest slot packet hcan hload hcover hpacket =>
    exact h.forward hwf hcan hload hcover hpacket
  | failConditional p rest hcan hstore hllsc =>
    -- The flags of a plain store exclude a store-conditional.
    have hok := h.queued p (mem_queue_of_front hcan.front)
    have hplain := bufferable_of_plain (hok.ok.plain (hok.kind hstore))
    rw [hplain.2.2] at hllsc
    cases hllsc
  | sendLocally p rest packet data hcan hlocal hpacket =>
    have hplain := (packet_of_head (h.queued p (mem_queue_of_front hcan.front)).ok hpacket).2
    rw [hplain.localAccess] at hlocal
    cases hlocal
  | send p rest packet hcan hlocal hpacket =>
    obtain ⟨hload, hcoverage⟩ := h.load_of_canSend hcan hpacket
    have hnew := h.sendFront hwf hcan.front hpacket hload hcan.notComplete
      (.inr (hcan.noStores hload)) hcoverage v.retry (fun _ _ hr => hr)
    have hview : { ((v.put p ((v.heap p).stepToNextPacket.setState .requestIssuing)).sendPacket p
          packet).moveIf (v.heap p).stepToNextPacket.sentAllPackets p rest with
          retry := v.retry }
        = ((v.put p ((v.heap p).stepToNextPacket.setState .requestIssuing)).sendPacket p
          packet).moveIf (v.heap p).stepToNextPacket.sentAllPackets p rest := by
      cases (v.heap p).stepToNextPacket.sentAllPackets <;> rfl
    rw [hview] at hnew
    exact hnew
  | refuse p rest packet hcan hlocal hpacket => exact h.refuse hwf hcan hpacket
  | resend p rest packet hretry hstate hfront hlocal hpacket =>
    have hp := mem_queue_of_front hfront
    have hne : (v.heap p).state ≠ .complete := by rw [hstate]; simp
    have hlive := h.not_skipped hp hne
    have hload : (v.heap p).isLoad = true := by
      -- A store that the store buffer takes is never refused here.
      by_contra hst
      have hstore := Bool.eq_false_iff.mpr hst
      obtain ⟨hbuf, hlocal', -⟩ := bufferable_of_plain (packet_of_head (h.queued p hp).ok hpacket).2
      have hbuffers := (hinv.queued p hp).issued hstore (.inr hstate)
      simp [buffers, hbuf, hlocal'] at hbuffers
    exact h.sendFront hwf hfront hpacket hload hne (.inl ⟨hload, hlive, .inr (.inl hstate)⟩)
      (h.exposed p hp ⟨hload, hlive, .inr hstate⟩) none (by simp)
  | unblock p hretry hstate => exact h.unblock hwf hretry hstate
  | clearBarrier p rest hfront hcomplete =>
    have hslots : v.slots = [] ++ p :: rest := hfront
    exact h.erase (nodup_append.mp hwf.nodup).2.1 hslots hcomplete (fun q hq => by cases hq)
  | slotSend p older younger packet hslots hretry holder hstate hpacket =>
    have hp : p ∈ v.slots := by simp [hslots]
    have hnew := h.sendSlot hwf hslots hpacket (h.unsent_of_tried hp hpacket hstate)
      (fun q hq => unsentWrites_of_sentAllPackets
        (h.slots q (by rw [hslots]; exact mem_append_left _ hq)) (holder q hq))
    rw [← hretry] at hnew
    exact hnew
  | slotRefuse p older younger packet hslots hretry holder hstate hpacket =>
    have hp : p ∈ v.slots := by simp [hslots]
    have holder' : ∀ q ∈ older, (v.heap q).unsentWrites = [] := fun q hq =>
      unsentWrites_of_sentAllPackets
        (h.slots q (by rw [hslots]; exact mem_append_left _ hq)) (holder q hq)
    refine h.setSlotState hwf hp (h.unsent_of_tried hp hpacket hstate) .storeBufferNeedsRetry
      (by simp) (some p) ?_ (fun s hs => by cases hs; rfl)
    have hnodup := (nodup_append.mp hwf.nodup).2.1
    refine pairwise_of_change (pairwise_of_forall fun _ _ => trivial)
      (fun a _ b hb _ _ hbp => absurd hbp hb) ?_
    intro older' newer hsplit q hq _ _
    rw [hslots, nodup_append, nodup_cons] at hnodup
    have hnot : p ∉ older := fun hpo => hnodup.2.2 p hpo p mem_cons_self rfl
    rw [hslots] at hsplit
    rw [((append_cons_inj_of_notMem hnot hnodup.2.1.1).mp hsplit).1] at holder'
    exact holder' q hq
  | slotResend p packet hretry hstate hpacket =>
    have hp := (hwf.retry p hretry).2 hstate
    obtain ⟨older, younger, hslots⟩ := append_of_mem hp
    refine h.sendSlot hwf hslots hpacket ((h.slots p hp).unsent (.inr hstate)) ?_
    intro q hq
    have hpair := h.retry
    rw [hslots, pairwise_append] at hpair
    exact hpair.2.2 q hq p mem_cons_self hretry hstate
  | slotUnblock p hretry hstate =>
    have hp := (hwf.retry p hretry).2 hstate
    exact h.setSlotState hwf hp ((h.slots p hp).unsent (.inr hstate)) .storeInStoreBuffer
      (by simp) none (h.retry.imp (by simp)) (by simp)
  | insertBarrier inst =>
    obtain ⟨hput, hnil⟩ := h.fresh hwf (specialRequest .barrierData inst .complete)
    have hself : (v.put v.nextPtr (specialRequest .barrierData inst .complete)).heap v.nextPtr
        = specialRequest .barrierData inst .complete := put_heap_self _
    refine hput.appendBarrier (v.nextPtr + 1) ?_ ?_
    · have hnil' : accessesOf (v.put v.nextPtr
          (specialRequest .barrierData inst .complete)).inMemory v.nextPtr = [] := hnil
      rw [hself, hnil']
      refine ⟨ReqOk.of_none ?_ rfl rfl rfl rfl, fun hn => absurd rfl hn, fun _ => rfl, rfl, ?_,
        fun _ => rfl⟩
      · rintro (hkind | hkind) <;> cases hkind
      · rintro (hs | hs) <;> cases hs
    · rw [hself]
      rfl
  | perform k a newData succeeds ha hperformed horder =>
    exact h.perform ha hperformed horder newData succeeds
  | respond k a fresh ha hperformed hstate => exact h.respond hwf ha hperformed hstate fresh
  | slotRespond k a fresh ha hperformed hstate =>
    exact h.slotRespond hwf ha hperformed hstate fresh (hlabel (by simp) rfl a ha)
  | commit env p rest hrespond hstream =>
    have hcommit : v.PlainLabel tid (.commit env) := hlabel (by simp) rfl
    exact h.commit hinv hwf hrespond hstream (hcommit p (by rw [hrespond.1]; rfl)).1
  | discard p rest hrespond => exact h.pop hrespond.1
  | changeStream t =>
    refine h.changeStream fun u => ?_
    by_cases hu : u = t
    · rw [hu, update_self]
      exact Nat.le_succ _
    · rw [update_of_ne hu]
  | snoop => exact (hlabel (by simp) rfl : False).elim

namespace LSQSystem
open LSQView MemResponse
variable {s : LSQSystem} {p : Nat} {k : Packet}

/-- The queues are empty at first, and nothing is written. -/
theorem coherent_new (params : LSQParams) (mem : Addr → Byte) (tid : ThreadID) :
    (new params mem).view.Coherent tid mem where
  width := ⟨params.lineBits, params.lineBits_lt, rfl⟩
  queued := nofun
  waiting := nofun
  slots := nofun
  order := Pairwise.nil
  stores := rfl
  exposed := nofun
  owner := nofun
  retry := Pairwise.nil
  buffered := rfl
  pending := rfl

/-- The CVU leaves the data of a load without the constant flag alone. -/
theorem packet_of_load (env : ResponseEnv)
    (hconstant : (s.lsq.heap p).inst.lvptOut.constant = false)
    (hk : (s.lsq.heap p).packet = some k) (hfault : (s.lsq.heap p).translationFault = none) :
    (handleMemResponse s.lsq.thresholdLCT env s.lsq.cvu (s.lsq.heap p)).packet = some k := by
  have hmiss : entryInCVU s.lsq.cvu (s.lsq.heap p).inst k = false := by
    by_contra hhit
    have hc := (entryInCVU_eq_true.mp (Bool.not_eq_false _ ▸ hhit)).1
    rw [hconstant] at hc
    cases hc
  rw [handleMemResponse_of_access hfault hk, completeAccess_packet, substitute_of_miss _ hmiss]

/-- In a run of plain loads and stores of one thread, each byte that a load hands on when it
commits is the byte of the committed stores before it. The commit of the load is the last event. -/
theorem load_returns_committed_bytes (params : LSQParams) (mem : Addr → Byte) (tid : ThreadID)
    (es : List Event) (env : ResponseEnv)
    (hplain : RunMeets step (fun s e => s.view.PlainLabel tid (label e)) (new params mem)
      (es ++ [.commit env]))
    (hrun : Lib.run step (new params mem) es = some s) (hp : s.response = some p)
    (hload : (s.lsq.heap p).isLoad = true) (hright : s.rightStream (s.lsq.heap p).inst = true)
    (hk : (handleMemResponse s.lsq.thresholdLCT env s.lsq.cvu (s.lsq.heap p)).packet = some k)
    {i a : Nat} (hi : i < (s.lsq.heap p).request.size) (ha : (s.lsq.heap p).physAddr i = some a) :
    k.data i = Lib.Patch.applyAll s.committed mem a := by
  obtain ⟨hwf, hinv, hcoherent⟩ := lsqSystem_refines.run_invariant_of_meets coherent_step
    (wf_new params mem) ⟨queueInv_new params mem, coherent_new params mem tid⟩ hplain.of_append hrun
  obtain ⟨rest, hfront, hstate⟩ := canRespond_of_response hp
  have hmem : p ∈ s.view.queue := mem_append_left _ (hfront ▸ mem_cons_self)
  have hq := hcoherent.queued p hmem
  have hok := hinv.queued p hmem
  -- Without a packet nothing is handed on.
  obtain ⟨hfault, k₀, hk₀⟩ : (s.lsq.heap p).translationFault = none ∧
      ∃ k₀, (s.lsq.heap p).packet = some k₀ := by
    cases hf : (s.lsq.heap p).translationFault with
    | some f =>
      have hnone : (s.lsq.heap p).packet = none := hok.faulted (by
        have hf' : (s.view.heap p).translationFault = some f := hf
        rw [hf']
        simp [noFault])
      unfold handleMemResponse at hk
      rw [hf, hnone] at hk
      dsimp only at hk
      split at hk <;> cases hk
    | none =>
      refine ⟨rfl, ne_none_iff_exists'.mp fun hnone => ?_⟩
      simp [handleMemResponse, hf, hnone] at hk
  have hplain' := hq.ok.plain (hq.ok.made k₀ hk₀).kind
  have hsame := packet_of_load env (hplain'.constant hload) hk₀ hfault
  rw [hk, some.injEq] at hsame
  subst hsame
  -- A load of the right stream with a packet was not skipped, and it is complete.
  have hlive : (s.lsq.heap p).skipped = false := by
    by_contra hs
    rcases (hq.skipped (Bool.not_eq_false _ ▸ hs)).2 with hn | hlt
    · have hn' : (s.lsq.heap p).packet = none := hn
      rw [hk₀] at hn'
      cases hn'
    · have hright' : (s.lsq.heap p).inst.id.streamSeqNum
          = s.streamSeqNum (s.lsq.heap p).inst.id.threadId := by
        simpa [LSQSystem.rightStream] using hright
      exact absurd hright' hlt.ne
  have hcomplete : (s.lsq.heap p).state = .complete := by
    rcases hstate with hs | hs
    · exact hs
    · have htransfer := hwf.transfers p (by rw [hfront]; exact mem_cons_self)
      rcases htransfer with ht | ht | ⟨-, hst, -⟩
      · rw [hs] at ht
        cases ht
      · exact ht
      · cases hload.symm.trans hst
  exact (hq.load hload hlive).complete hcomplete hlive k hk₀ i hi a ha

/-- A store of 0xaa to 8 bytes at 12, over two lines, and a store of 0xbb to 4 bytes at 16. Both
commit, and the LSQ sends all their packets. -/
def overlappingStores : List Event :=
  [smallPush 0 false zero 12 8 0xaa noFlags, smallTranslation 0 0 12,
    smallTranslation 0 0 16, .commit smallCommit,
    smallPush 1 false zero 16 4 0xbb noFlags, smallTranslation 1 1 16,
    .commit smallCommit, .step (smallCall 2), .step (smallCall 2)]

/-- A load of 4 bytes at 16. -/
def loadAfterStores : List Event :=
  [smallPush 2 true zero 16 4 0 noFlags, smallTranslation 2 2 16]

/-- The memory system answers the first store before the second. -/
def answeredInOrder : List Event :=
  overlappingStores ++ [.perform 0 (fun _ => 0) true, .perform 1 (fun _ => 0) true,
    .recvTimingResp 0 (smallCall 2), .recvTimingResp 0 (smallCall 2)] ++ loadAfterStores

/-- The load then returns the bytes of the second store. -/
theorem load_returns_committed_bytes_inOrder :
    ∃ s k, afterOnes answeredInOrder = some s ∧ s.response = some 2 ∧
      (s.lsq.heap 2).packet = some k ∧ Lib.Patch.applyAll s.committed (fun _ => 1) 16 = 0xbb ∧
      k.data 0 = Lib.Patch.applyAll s.committed (fun _ => 1) 16 := by
  obtain ⟨s, hrun, hp, hload, hright, hsize, haddr, hfault, hconstant, hbyte, k, hk, -⟩ :
      ∃ s ∈ afterOnes answeredInOrder, s.response = some 2 ∧ (s.lsq.heap 2).isLoad ∧
        s.rightStream (s.lsq.heap 2).inst ∧ (s.lsq.heap 2).request.size = 4 ∧
        (s.lsq.heap 2).physAddr 0 = some 16 ∧ (s.lsq.heap 2).translationFault = none ∧
        (s.lsq.heap 2).inst.lvptOut.constant = false ∧
        Patch.applyAll s.committed (fun _ => 1) 16 = 0xbb ∧
        ∃ k ∈ (s.lsq.heap 2).packet, True := by
    decide +kernel
  refine ⟨s, k, hrun, hp, hk, hbyte, ?_⟩
  exact load_returns_committed_bytes smallParams _ 0 answeredInOrder smallCommit (by decide +kernel)
    hrun hp hload hright (packet_of_load smallCommit hconstant hk hfault) (by rw [hsize]; decide)
    haddr

/-- The memory system answers the second store first. -/
def answeredOutOfOrder : List Event :=
  overlappingStores ++ [.perform 1 (fun _ => 0) true, .perform 2 (fun _ => 0) true,
    .recvTimingResp 2 (smallCall 2)] ++ loadAfterStores

/-- The second store has left the store buffer, the first one has not, and the load takes its
data from it. -/
theorem load_returns_older_store :
    ∃ s k, afterOnes answeredOutOfOrder = some s ∧ s.response = some 2 ∧
      (s.lsq.heap 2).isLoad = true ∧ (s.lsq.heap 2).physAddr 0 = some 16 ∧
      (handleMemResponse s.lsq.thresholdLCT smallCommit s.lsq.cvu (s.lsq.heap 2)).packet = some k ∧
      k.data 0 = 0xaa ∧ Lib.Patch.applyAll s.committed (fun _ => 1) 16 = 0xbb ∧
      s.mem 16 = 0xbb := by
  obtain ⟨s, hrun, hp, hload, haddr, k, hk, hlast⟩ :
      ∃ s ∈ afterOnes answeredOutOfOrder, s.response = some 2 ∧ (s.lsq.heap 2).isLoad ∧
        (s.lsq.heap 2).physAddr 0 = some 16 ∧
        ∃ k ∈ (handleMemResponse s.lsq.thresholdLCT smallCommit s.lsq.cvu (s.lsq.heap 2)).packet,
          k.data 0 = 0xaa ∧ Patch.applyAll s.committed (fun _ => 1) 16 = 0xbb ∧
          s.mem 16 = 0xbb := by
    decide +kernel
  exact ⟨s, k, hrun, hp, hload, haddr, hk, hlast⟩

/-- In a run of plain loads and stores of one thread, memory after the writes in flight and those
still to send is memory after the committed stores, and so is memory itself once the store buffer is
drained: no store is lost, made twice or overtaken. -/
theorem memory_holds_committed (params : LSQParams) (mem : Addr → Byte) (tid : ThreadID)
    (es : List Event)
    (hplain : RunMeets step (fun s e => s.view.PlainLabel tid (label e)) (new params mem) es)
    (hrun : run step (new params mem) es = some s) :
    Patch.applyAll (inFlightWrites s.view.inMemory ++ s.view.unsentWrites) s.mem
        = s.view.arch mem ∧
      (s.lsq.slots = [] → s.mem = s.view.arch mem) := by
  obtain ⟨-, -, hcoherent⟩ := lsqSystem_refines.run_invariant_of_meets coherent_step
    (wf_new params mem) ⟨queueInv_new params mem, coherent_new params mem tid⟩ hplain hrun
  refine ⟨hcoherent.pending, fun hdrained => ?_⟩
  have hbuffered := hcoherent.buffered
  rw [slotWrites, show s.view.slots = [] from hdrained] at hbuffered
  exact hbuffered

/-- The memory system answers both stores. -/
def answeredStores : List Event :=
  overlappingStores ++ [0, 1, 2].map (.perform · (fun _ => 0) true) ++
    replicate 3 (.recvTimingResp 0 (smallCall 2))

theorem memory_holds_committed_answered :
    ∃ s, afterOnes answeredStores = some s ∧ s.mem = s.view.arch fun _ => 1 := by
  obtain ⟨s, hrun, hdrained⟩ : ∃ s ∈ afterOnes answeredStores, s.lsq.slots = [] := by
    decide +kernel
  exact ⟨s, hrun, (memory_holds_committed smallParams _ 0 _ (by decide +kernel) hrun).2 hdrained⟩

end LSQSystem

end Gem5.MyMinor
