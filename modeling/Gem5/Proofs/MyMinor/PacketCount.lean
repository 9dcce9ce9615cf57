import Gem5.MyMinor.LSQErrors
import Gem5.Proofs.MyMinor.LSQRequest

/-!
# `Gem5.Proofs.MyMinor.PacketCount`: the packets of one request

A request counts its own packets: a single request with two flags, a split request with three
counters. `outstanding` reads off how many are in the memory system. `Counted` says how these
fields fit the state of the request, and there is one lemma for each method that changes them.

`Retires` is what a response does to a request, with or without an error.
-/

namespace Gem5.MyMinor

namespace LSQRequest

/-- The packets of a request that are in the memory system. A local access sends none. -/
def outstanding (r : LSQRequest) : Nat :=
  if r.request.localAccess then 0
  else
    match r.kind with
    | .singleData => r.packetInFlight.toNat
    | .splitData => r.numIssuedFragments - r.numRetiredFragments
    | _ => 0

/-- The states before the first packet is sent. -/
def beforeSend : LSQRequestState → Bool
  | .inTranslation | .translated | .storeToStoreBuffer | .storeInStoreBuffer => true
  | _ => false

/-- The counters of a request fit each other: what is back was sent, and what is sent was made. -/
structure Counts (r : LSQRequest) : Prop where
  inFlight : r.packetInFlight = true → r.packetSent = true
  retired : r.numRetiredFragments ≤ r.numIssuedFragments
  issued : r.numIssuedFragments ≤ r.fragmentPackets.length
  made : r.fragmentPackets.length ≤ r.numTranslatedFragments

/-- The counters of a request fit its state, too. -/
structure Counted (r : LSQRequest) : Prop extends Counts r where
  special : r.kind ≠ .singleData → r.kind ≠ .splitData →
    r.state = .complete ∨ r.state = .failed
  failed : r.state = .failed → r.kind = .failedData
  sent : r.kind = .singleData → r.packetSent = true →
    r.state = .requestIssuing ∨ r.state = .storeBufferIssuing ∨ r.state = .complete
  unsent : beforeSend r.state = true → r.numIssuedFragments = 0
  translated : r.kind = .splitData → beforeSend r.state = true → r.state ≠ .inTranslation →
    0 < r.numTranslatedFragments
  untranslated : r.state = .inTranslation → r.fragmentPackets = []
  refused : LSQ.awaitsRetry r.state = true → r.kind = .splitData →
    r.numIssuedFragments < r.fragmentPackets.length
  direct : r.state = .requestIssuing ∨ r.state = .requestNeedsRetry → r.isLoad = false →
    r.request.bufferable = false ∨ r.request.localAccess = true
  fault : r.translationFault ≠ none → r.state = .translated ∨ r.state = .complete

section
variable {r r' : LSQRequest}

/-- In the other states a single packet is not sent. -/
theorem Counted.not_sent (h : r.Counted)
    (hstate : ¬(r.state = .requestIssuing ∨ r.state = .storeBufferIssuing ∨ r.state = .complete))
    (hkind : r.kind = .singleData) : r.packetSent = false :=
  Bool.eq_false_iff.mpr fun hsent => hstate (h.sent hkind hsent)

theorem Counted.kinds (h : r.Counted) (hstate : ¬(r.state = .complete ∨ r.state = .failed)) :
    r.kind = .singleData ∨ r.kind = .splitData := by
  by_contra hother
  rw [not_or] at hother
  exact hstate (h.special hother.1 hother.2)

/-- Before the first packet is sent, none is in the memory system. -/
theorem Counted.outstanding_unsent (h : r.Counted) (hstate : beforeSend r.state = true) :
    r.outstanding = 0 := by
  have hflight : r.kind = .singleData → r.packetInFlight = false := by
    intro hkind
    cases hp : r.packetInFlight with
    | false => rfl
    | true =>
      rcases h.sent hkind (h.inFlight hp) with hs | hs | hs <;>
        simp [hs, beforeSend] at hstate
  unfold outstanding
  split
  · rfl
  · split
    · rename_i hkind
      simp [hflight hkind]
    · simp [h.unsent hstate]
    · rfl

/-- A request with a packet in the memory system sends packets there. -/
theorem Counted.of_outstanding (hpos : 0 < r.outstanding) :
    r.request.localAccess = false ∧
      ((r.kind = .singleData ∧ r.packetInFlight = true ∧ r.outstanding = 1) ∨
        (r.kind = .splitData ∧ r.numRetiredFragments < r.numIssuedFragments ∧
          r.outstanding = r.numIssuedFragments - r.numRetiredFragments)) := by
  unfold outstanding at hpos ⊢
  split at hpos
  · simp at hpos
  · rename_i hlocal
    refine ⟨by simpa using hlocal, ?_⟩
    rw [if_neg hlocal]
    split at hpos
    · rename_i hkind
      cases hp : r.packetInFlight with
      | false => simp [hp] at hpos
      | true => exact .inl ⟨hkind, rfl, rfl⟩
    · rename_i hkind
      exact .inr ⟨hkind, by omega, rfl⟩
    · simp at hpos

/-- A complete request has no more to count. -/
theorem Counts.complete (h : r.Counts) (hstate : r.state = .complete) : r.Counted :=
  { h with
    special := fun _ _ => .inl hstate
    failed := fun hs => by rw [hstate] at hs; cases hs
    sent := fun _ _ => .inr (.inr hstate)
    unsent := fun hs => by simp [hstate, beforeSend] at hs
    translated := fun _ hs => by simp [hstate, beforeSend] at hs
    untranslated := fun hs => by rw [hstate] at hs; cases hs
    refused := fun hs => by simp [hstate, LSQ.awaitsRetry] at hs
    direct := fun hs => by simp [hstate] at hs
    fault := fun _ => .inr hstate }

/-- A change that sends nothing: the request completes, or keeps its state. -/
theorem Counted.update (h : r.Counted) (hkind : r'.kind = r.kind)
    (hsent : r'.packetSent = r.packetSent)
    (hflight : r'.packetInFlight = true → r.packetInFlight = true)
    (hissued : r'.numIssuedFragments = r.numIssuedFragments)
    (hretired : r'.numRetiredFragments ≤ r.numIssuedFragments)
    (hpackets : r'.fragmentPackets.length = r.fragmentPackets.length)
    (htranslated : r'.numTranslatedFragments = r.numTranslatedFragments)
    (hstate : r'.state = .complete ∨ (r'.state = r.state ∧ r'.isLoad = r.isLoad ∧
      r'.request = r.request ∧ (r'.translationFault ≠ none → r.translationFault ≠ none))) :
    r'.Counted := by
  have hcounts : r'.Counts :=
    { inFlight := fun hp => by rw [hsent]; exact h.inFlight (hflight hp)
      retired := by rw [hissued]; exact hretired
      issued := by rw [hissued, hpackets]; exact h.issued
      made := by rw [hpackets, htranslated]; exact h.made }
  rcases hstate with hstate | ⟨hstate, hload, hrequest, hfault⟩
  · exact hcounts.complete hstate
  · exact
      { hcounts with
        special := by rw [hkind, hstate]; exact h.special
        failed := by rw [hkind, hstate]; exact h.failed
        sent := by rw [hkind, hsent, hstate]; exact h.sent
        unsent := by rw [hstate, hissued]; exact h.unsent
        translated := by rw [hkind, hstate, htranslated]; exact h.translated
        untranslated := fun hs => by
          have hnil := h.untranslated (hstate.symm.trans hs)
          rw [hnil] at hpackets
          exact List.length_eq_zero_iff.mp hpackets
        refused := by rw [hstate, hkind, hissued, hpackets]; exact h.refused
        direct := by rw [hstate, hload, hrequest]; exact h.direct
        fault := fun hf => by rw [hstate]; exact h.fault (hfault hf) }

/-- A store moves on to the store buffer. -/
theorem Counted.toStoreBuffer (h : r.Counted) (hstate : beforeSend r.state = true)
    (htranslated : r.state ≠ .inTranslation) (hfault : r.translationFault = none)
    {state : LSQRequestState} (hnew : state = .storeToStoreBuffer ∨ state = .storeInStoreBuffer) :
    (r.setState state).Counted := by
  have hne : state ≠ .complete ∧ state ≠ .failed ∧ state ≠ .inTranslation ∧
      state ≠ .requestIssuing ∧ state ≠ .requestNeedsRetry := by
    rcases hnew with rfl | rfl <;> simp
  exact
    { h with
      special := fun hsingle hsplit => by
        rcases h.special hsingle hsplit with hs | hs <;> simp [hs, beforeSend] at hstate
      failed := fun hs => absurd hs hne.2.1
      sent := fun hkind hsent => by
        rcases h.sent hkind hsent with hs | hs | hs <;> simp [hs, beforeSend] at hstate
      unsent := fun _ => h.unsent hstate
      translated := fun hkind _ _ => h.translated hkind hstate htranslated
      untranslated := fun hs => absurd hs hne.2.2.1
      refused := fun hs => by
        rcases hnew with rfl | rfl <;> simp [setState, LSQ.awaitsRetry] at hs
      direct := fun hs => absurd hs (not_or.mpr ⟨hne.2.2.2.1, hne.2.2.2.2⟩)
      fault := fun hf => absurd hfault hf }

variable {packet : Packet}

/-- A packet is sent. -/
theorem Counted.stepToNextPacket (h : r.Counted) (hpacket : r.getHeadPacket = some packet)
    (hfault : r.translationFault = none) {state : LSQRequestState}
    (hstate : state = .complete ∨ state = .requestIssuing ∨ state = .storeBufferIssuing)
    (hdirect : state = .requestIssuing → r.isLoad = false →
      r.request.bufferable = false ∨ r.request.localAccess = true) :
    (r.stepToNextPacket.setState state).Counted := by
  obtain ⟨hsame, hrequest, -, -, -, -, hf⟩ := r.stepToNextPacket_frame
  have hbefore : beforeSend state = false := by rcases hstate with rfl | rfl | rfl <;> rfl
  have hkind : r.kind = .singleData ∨ r.kind = .splitData := by
    unfold getHeadPacket at hpacket
    split at hpacket
    · rename_i hk
      exact .inl hk
    · rename_i hk
      exact .inr hk
    · cases hpacket
  have hne : state ≠ .failed ∧ state ≠ .inTranslation ∧ state ≠ .requestNeedsRetry := by
    rcases hstate with rfl | rfl | rfl <;> simp
  have hcounts : r.stepToNextPacket.Counts := by
    unfold LSQRequest.stepToNextPacket
    rcases hkind with hkind | hkind <;> simp only [hkind]
    · exact { h.toCounts with inFlight := fun _ => rfl }
    · simp only [getHeadPacket, hkind] at hpacket
      exact { h.toCounts with
        retired := Nat.le_succ_of_le h.retired
        issued := (List.getElem?_eq_some_iff.mp hpacket).1 }
  exact
    { hcounts with
      special := fun hsingle hsplit => by
        have hk : (r.stepToNextPacket.setState state).kind = r.kind := hsame.kind
        rw [hk] at hsingle hsplit
        exact absurd hkind (not_or.mpr ⟨hsingle, hsplit⟩)
      failed := fun hs => absurd hs hne.1
      sent := fun _ _ => by
        show state = _ ∨ state = _ ∨ state = _
        tauto
      unsent := fun hs => absurd (hbefore.symm.trans hs) (by simp)
      translated := fun _ hs => absurd (hbefore.symm.trans hs) (by simp)
      untranslated := fun hs => absurd hs hne.2.1
      refused := fun hs => by
        rcases hstate with rfl | rfl | rfl <;> simp [setState, LSQ.awaitsRetry] at hs
      direct := by
        intro hs hload
        have hissuing : state = .requestIssuing := by
          rcases hs with hs | hs
          · exact hs
          · exact absurd hs hne.2.2
        have hreq : (r.stepToNextPacket.setState state).request = r.request := hrequest
        rw [hreq]
        exact hdirect hissuing (hsame.isLoad.symm.trans hload)
      fault := fun hne' => absurd (hf.trans hfault) hne' }

/-- A packet is refused. -/
theorem Counted.refuse (h : r.Counted) (hpacket : r.getHeadPacket = some packet)
    {state : LSQRequestState} (hstate : LSQ.retryState r.state = some state)
    (hunsent : r.kind = .singleData → r.packetSent = false)
    (hdirect : r.state = .translated → r.isLoad = false →
      r.request.bufferable = false ∨ r.request.localAccess = true)
    (hfault : r.translationFault = none) : (r.setState state).Counted := by
  have hold : r.state ≠ .complete ∧ r.state ≠ .failed := by
    constructor <;> intro hs <;> simp [hs, LSQ.retryState] at hstate
  have hnew : state = .requestNeedsRetry ∧ (r.state = .translated ∨ r.state = .requestIssuing) ∨
      state = .storeBufferNeedsRetry := by
    unfold LSQ.retryState at hstate
    split at hstate <;> simp_all
  have hbefore : beforeSend state = false ∧ state ≠ .inTranslation ∧ state ≠ .failed := by
    rcases hnew with ⟨rfl, -⟩ | rfl <;> simp [beforeSend]
  exact
    { h with
      special := fun hsingle hsplit => by
        rcases h.special hsingle hsplit with hs | hs
        · exact absurd hs hold.1
        · exact absurd hs hold.2
      failed := fun hs => absurd hs hbefore.2.2
      sent := fun hkind hs => absurd ((hunsent hkind).symm.trans hs) (by simp)
      unsent := fun hs => absurd (hbefore.1.symm.trans hs) (by simp)
      translated := fun _ hs => absurd (hbefore.1.symm.trans hs) (by simp)
      untranslated := fun hs => absurd hs hbefore.2.1
      refused := fun _ hkind => by
        have hkind' : r.kind = .splitData := hkind
        simp only [getHeadPacket, hkind'] at hpacket
        exact (List.getElem?_eq_some_iff.mp hpacket).1
      direct := by
        intro hs hload
        rcases hnew with ⟨-, hold' | hold'⟩ | hslot
        · exact hdirect hold' hload
        · exact h.direct (.inl hold') hload
        · simp [setState, hslot] at hs
      fault := fun hne => absurd hfault hne }

/-! ### The methods of a request -/

/-- A local access changes data only. -/
theorem Counted.accessLocally (h : r.Counted) (data : Buffer) : (LSQ.accessLocally r data).Counted ∧
      (LSQ.accessLocally r data).outstanding = r.outstanding ∧
      (LSQ.accessLocally r data).state = r.state ∧
      (LSQ.accessLocally r data).issuedToMemory = r.issuedToMemory := by
  unfold LSQ.accessLocally
  split
  · exact ⟨{ h with }, rfl, rfl, rfl⟩
  · exact ⟨h.update rfl rfl id rfl h.retired (by simp) rfl (.inr ⟨rfl, rfl, rfl, id⟩),
      rfl, rfl, rfl⟩
  · exact ⟨h, rfl, rfl, rfl⟩

/-- A local access leaves the head packet there. -/
theorem getHeadPacket_accessLocally (hpacket : r.getHeadPacket = some packet) (data : Buffer) :
    ∃ packet', (LSQ.accessLocally r data).getHeadPacket = some packet' := by
  unfold getHeadPacket at hpacket
  split at hpacket
  · rename_i hkind
    simp [LSQ.accessLocally, getHeadPacket, hkind, hpacket]
  · rename_i hkind
    simp [LSQ.accessLocally, getHeadPacket, hkind, hpacket]
  · cases hpacket

/-- Sending a packet is not an accounting change. -/
theorem issuedToMemory_stepToNextPacket (r : LSQRequest) :
    r.stepToNextPacket.issuedToMemory = r.issuedToMemory := by
  unfold LSQRequest.stepToNextPacket
  split <;> rfl

/-- A single request has one packet. -/
theorem sentAllPackets_stepToNextPacket (hkind : r.kind = .singleData) :
    r.stepToNextPacket.sentAllPackets = true := by
  simp [LSQRequest.stepToNextPacket, sentAllPackets, hkind]

/-- Sending a packet to the memory system adds one to the packets there. -/
theorem Counted.outstanding_stepToNextPacket (h : r.Counted)
    (hpacket : r.getHeadPacket = some packet) (hlocal : r.request.localAccess = false)
    (hunsent : r.kind = .singleData → r.packetSent = false) :
    r.stepToNextPacket.outstanding = r.outstanding + 1 := by
  unfold getHeadPacket at hpacket
  split at hpacket
  · rename_i hkind
    have hflight : r.packetInFlight = false := by
      cases hp : r.packetInFlight with
      | false => rfl
      | true => cases (hunsent hkind).symm.trans (h.inFlight hp)
    simp [outstanding, LSQRequest.stepToNextPacket, hkind, hlocal, hflight]
  · rename_i hkind
    have hretired := h.retired
    simp only [outstanding, LSQRequest.stepToNextPacket, hkind, hlocal, Bool.false_eq_true,
      if_false]
    omega
  · cases hpacket

/-- A local access sends nothing to the memory system. -/
theorem outstanding_of_local (hlocal : r.request.localAccess = true) : r.outstanding = 0 := by
  simp [outstanding, hlocal]

/-- A request that has sent nothing. -/
theorem counted_of_unsent (hkind : r.kind = .singleData ∨ r.kind = .splitData)
    (hissued : r.numIssuedFragments = 0) (hretired : r.numRetiredFragments = 0)
    (hsent : r.kind = .singleData → r.packetSent = false)
    (hflight : r.packetInFlight = true → r.packetSent = true)
    (hmade : r.fragmentPackets.length ≤ r.numTranslatedFragments)
    (hstate : (r.state = .inTranslation ∧ r.fragmentPackets = [] ∧ r.translationFault = none) ∨
      (r.state = .translated ∧ (r.kind = .splitData → 0 < r.numTranslatedFragments)) ∨
      r.state = .complete) : r.Counted ∧ r.outstanding = 0 := by
  constructor
  · exact
      { special := fun hsingle hsplit => absurd hkind (not_or.mpr ⟨hsingle, hsplit⟩)
        failed := fun hs => by rcases hstate with h | h | h <;> simp [hs] at h
        inFlight := hflight
        sent := fun hk hs => absurd ((hsent hk).symm.trans hs) (by simp)
        retired := by omega
        issued := by omega
        made := hmade
        unsent := fun _ => hissued
        translated := fun hk hs hne => by
          rcases hstate with h | h | h
          · exact absurd h.1 hne
          · exact h.2 hk
          · simp [h, beforeSend] at hs
        untranslated := fun hs => by
          rcases hstate with h | h | h
          · exact h.2.1
          · rw [h.1] at hs
            cases hs
          · rw [h] at hs
            cases hs
        refused := fun hs => by rcases hstate with h | h | h <;> simp [h, LSQ.awaitsRetry] at hs
        direct := fun hs => by rcases hstate with h | h | h <;> simp [h] at hs
        fault := fun hf => by
          rcases hstate with h | h | h
          · exact absurd h.2.2 hf
          · exact .inl h.1
          · exact .inr h }
  · unfold outstanding
    split
    · rfl
    · split
      · rename_i hk
        cases hp : r.packetInFlight with
        | false => rfl
        | true => cases (hsent hk).symm.trans (hflight hp)
      · omega
      · rfl

/-- The fields of a translation that a packet is made without. -/
theorem makePacket_counts (r : LSQRequest) (fresh : Buffer) :
    (r.makePacket fresh).fragmentPackets = r.fragmentPackets ∧
      (r.makePacket fresh).numTranslatedFragments = r.numTranslatedFragments ∧
      (r.makePacket fresh).translationFault = r.translationFault := by
  obtain ⟨_, _, h⟩ := r.makePacket_eq fresh
  rw [h]
  exact ⟨rfl, rfl, rfl⟩

/-- The end of a translation leaves the counters of packets alone. -/
theorem finish_counts (r : LSQRequest) (t : Translation) (fresh : Buffer) :
    (r.finish t fresh).numIssuedFragments = r.numIssuedFragments ∧
      (r.finish t fresh).numRetiredFragments = r.numRetiredFragments ∧
      (r.finish t fresh).packetSent = r.packetSent ∧
      (r.finish t fresh).packetInFlight = r.packetInFlight ∧
      (r.finish t fresh).issuedToMemory = r.issuedToMemory := by
  obtain ⟨_, _, _, _, _, _, _, _, h⟩ := r.finish_eq t fresh
  rw [h]
  exact ⟨rfl, rfl, rfl, rfl, rfl⟩

/-- A split request that leaves the translation has a translated fragment, and at most one
packet for each of them. -/
theorem finish_fragments (hkind : r.kind = .splitData) (hnil : r.fragmentPackets = [])
    (t : Translation) (fresh : Buffer) :
    (r.finish t fresh).fragmentPackets.length ≤ (r.finish t fresh).numTranslatedFragments ∧
      ((r.finish t fresh).state = .translated → r.state = .inTranslation →
        0 < (r.finish t fresh).numTranslatedFragments) ∧
      ((r.finish t fresh).state = .inTranslation → (r.finish t fresh).fragmentPackets = [] ∧
        (r.finish t fresh).translationFault = r.translationFault) := by
  have hpacket := fun r' : LSQRequest => makePacket_counts r' fresh
  unfold finish
  unfold finishFragment finishFaultingFragment
  dsimp only
  repeat' split
  all_goals simp_all [makeFragmentPackets, setState]
  all_goals omega

/-- A single request leaves the translation at once. -/
theorem finish_single (hkind : r.kind = .singleData) (t : Translation) (fresh : Buffer) :
    (r.finish t fresh).fragmentPackets = r.fragmentPackets ∧
      (r.finish t fresh).numTranslatedFragments = r.numTranslatedFragments ∧
      (r.finish t fresh).state = .translated := by
  unfold finish
  simp only [hkind]
  unfold finishSingle
  split
  · exact ⟨rfl, rfl, rfl⟩
  · obtain ⟨hpackets, hcount, -⟩ := makePacket_counts { r with
      request := r.request.translate t, state := .translated } fresh
    exact ⟨hpackets, hcount, state_makePacket _ fresh⟩

/-- The end of a translation. Nothing is sent yet. -/
theorem Counted.finish (h : r.Counted) (hstate : r.state = .inTranslation) (t : Translation)
    (fresh : Buffer) : (r.finish t fresh).Counted ∧ (r.finish t fresh).outstanding = 0 := by
  obtain ⟨hissued, hretired, hsent, hflight, -⟩ := r.finish_counts t fresh
  have hkind : (r.finish t fresh).kind = r.kind := (r.sameAccess_finish t fresh).kind
  have hzero : r.numIssuedFragments = 0 := h.unsent (by rw [hstate]; rfl)
  have hnofault : r.translationFault = none := by
    by_contra hne
    rcases h.fault hne with hs | hs <;> rw [hstate] at hs <;> cases hs
  have hunsent := h.not_sent (by simp [hstate])
  have hkinds := h.kinds (by simp [hstate])
  refine counted_of_unsent (by rw [hkind]; exact hkinds) (hissued.trans hzero)
    (by have hle := h.retired; omega) (by rw [hkind, hsent]; exact hunsent)
    (by rw [hflight, hsent]; exact h.inFlight) ?_ ?_
  · rcases hkinds with hk | hk
    · rw [(finish_single hk t fresh).1, (finish_single hk t fresh).2.1]
      exact h.made
    · exact (finish_fragments hk (h.untranslated hstate) t fresh).1
  · rcases hkinds with hk | hk
    · refine .inr (.inl ⟨(finish_single hk t fresh).2.2, fun hsplit => ?_⟩)
      rw [hkind, hk] at hsplit
      cases hsplit
    · obtain ⟨-, hpos, hstill⟩ := finish_fragments hk (h.untranslated hstate) t fresh
      rcases r.state_finish t fresh with hs | hs | ⟨hs, -⟩
      · rw [hstate] at hs
        exact .inl ⟨hs, (hstill hs).1, (hstill hs).2.trans hnofault⟩
      · exact .inr (.inl ⟨hs, fun _ => hpos hs hstate⟩)
      · exact .inr (.inr hs)

/-- What a response does to a request. `skipped` says whether the request is skipped then. -/
structure Retires (skipped : Bool) (r r' : LSQRequest) : Prop where
  same : SameAccess r r'
  request : r'.request = r.request
  fault : r'.translationFault = r.translationFault
  issuedToMemory : r'.issuedToMemory = r.issuedToMemory
  packetSent : r'.packetSent = r.packetSent
  numIssued : r'.numIssuedFragments = r.numIssuedFragments
  numTranslated : r'.numTranslatedFragments = r.numTranslatedFragments
  packets : r'.fragmentPackets = r.fragmentPackets
  single : r.kind = .singleData → r'.packetInFlight = false ∧ r'.state = .complete ∧
    r'.numRetiredFragments = r.numRetiredFragments ∧ r'.packet.isSome = true
  split : r.kind = .splitData → r'.numRetiredFragments = r.numRetiredFragments + 1 ∧
    r'.packetInFlight = r.packetInFlight ∧
    r'.state = if (skipped && r.numIssuedFragments == r.numRetiredFragments + 1) ||
      r.numRetiredFragments + 1 == r.numTranslatedFragments then .complete else r.state
  packet : r.kind ≠ .singleData → r'.packet.isSome = r.packet.isSome
  other : r.kind ≠ .singleData → r.kind ≠ .splitData → r' = r

/-- A request of another kind gets no responses. -/
theorem retires_self (skipped : Bool) (r : LSQRequest) (hsingle : r.kind ≠ .singleData)
    (hsplit : r.kind ≠ .splitData) : Retires skipped r r :=
  { same := SameAccess.refl r, request := rfl, fault := rfl, issuedToMemory := rfl
    packetSent := rfl, numIssued := rfl, numTranslated := rfl, packets := rfl
    single := fun hk => absurd hk hsingle
    split := fun hk => absurd hk hsplit
    packet := fun _ => rfl
    other := fun _ _ => rfl }

theorem retires_retireSingle (skipped : Bool) (r : LSQRequest) (hkind : r.kind = .singleData)
    (response : Packet) : Retires skipped r (r.retireSingle response) :=
  { same := ⟨rfl, rfl, rfl, rfl⟩, request := rfl, fault := rfl, issuedToMemory := rfl
    packetSent := rfl, numIssued := rfl, numTranslated := rfl, packets := rfl
    single := fun _ => ⟨rfl, rfl, rfl, rfl⟩
    split := fun hk => by rw [hkind] at hk; cases hk
    packet := fun hk => absurd hkind hk
    other := fun hk => absurd hkind hk }

/-- `retireResponse` for a response with data. -/
theorem retires_retireResponse (r : LSQRequest) (response : Packet) (fresh : Buffer) :
    Retires r.skipped r (r.retireResponse response fresh) := by
  by_cases hsplit : r.kind = .splitData
  · rw [retireSplit_eq r hsplit]
    exact
      { same := ⟨rfl, rfl, rfl, rfl⟩, request := rfl, fault := rfl, issuedToMemory := rfl
        packetSent := rfl, numIssued := rfl, numTranslated := rfl, packets := rfl
        single := fun hk => by rw [hsplit] at hk; cases hk
        split := fun _ => ⟨rfl, rfl, rfl⟩
        packet := fun _ => by dsimp only; split <;> simp
        other := fun _ hk => absurd hsplit hk }
  · by_cases hsingle : r.kind = .singleData
    · have h : r.retireResponse response fresh = r.retireSingle response := by
        simp [retireResponse, hsingle]
      rw [h]
      exact retires_retireSingle _ r hsingle response
    · rcases r.retireResponse_of_not_split hsplit response fresh with ⟨hk, -⟩ | h
      · exact absurd hk hsingle
      · rw [h]
        exact retires_self _ r hsingle hsplit

/-- `retireResponse` for a response with an error. -/
theorem retires_retireError (r : LSQRequest) (response : Packet) (fresh : Buffer) :
    Retires true r (r.retireError response fresh) := by
  unfold retireError
  split
  · rename_i hsingle
    exact retires_retireSingle _ r hsingle response
  · rename_i hsplit
    have hflight : (({ r with numRetiredFragments := r.numRetiredFragments + 1, skipped := true }
        : LSQRequest).hasPacketsInMemSystem) =
        (r.numIssuedFragments != r.numRetiredFragments + 1) := by
      simp [hasPacketsInMemSystem, hsplit]
    unfold finishSplit
    simp only [hflight, Bool.true_and, bne, Bool.not_not]
    split
    all_goals
      rename_i hdone
      simp only [setState]
      exact
        { same := ⟨rfl, rfl, rfl, rfl⟩, request := rfl, fault := rfl, issuedToMemory := rfl
          packetSent := rfl, numIssued := rfl, numTranslated := rfl, packets := rfl
          single := fun hk => by rw [hsplit] at hk; cases hk
          split := fun _ => ⟨rfl, rfl, by simp [hdone]⟩
          packet := fun _ => rfl
          other := fun _ hk => absurd hsplit hk }
  · rename_i hsingle hsplit
    exact retires_self _ r hsingle hsplit

variable {skipped : Bool}

/-- A response completes a request or leaves its state. -/
theorem Retires.state (h : Retires skipped r r') : r'.state = r.state ∨ r'.state = .complete := by
  by_cases hsplit : r.kind = .splitData
  · rw [(h.split hsplit).2.2]
    split
    · exact .inr rfl
    · exact .inl rfl
  · by_cases hsingle : r.kind = .singleData
    · exact .inr (h.single hsingle).2.1
    · exact .inl (by rw [h.other hsingle hsplit])

/-- A response takes one packet out of the memory system. -/
theorem Counted.retire (h : r.Counted) (hpos : 0 < r.outstanding)
    (hretires : Retires skipped r r') : r'.Counted ∧ r'.outstanding + 1 = r.outstanding := by
  have hstate : r'.state = .complete ∨ (r'.state = r.state ∧ r'.isLoad = r.isLoad ∧
      r'.request = r.request ∧ (r'.translationFault ≠ none → r.translationFault ≠ none)) := by
    rcases hretires.state with hs | hs
    · exact .inr ⟨hs, hretires.same.isLoad, hretires.request, by rw [hretires.fault]; exact id⟩
    · exact .inl hs
  have hpackets : r'.fragmentPackets.length = r.fragmentPackets.length := by
    rw [hretires.packets]
  obtain ⟨hlocal, ⟨hkind, hflight, hone⟩ | ⟨hkind, hlt, hdiff⟩⟩ := Counted.of_outstanding hpos
  · obtain ⟨hdown, -, hretired, -⟩ := hretires.single hkind
    refine ⟨h.update hretires.same.kind hretires.packetSent
      (fun hp => absurd (hdown.symm.trans hp) (by simp)) hretires.numIssued
      (hretired ▸ h.retired) hpackets hretires.numTranslated hstate, ?_⟩
    rw [hone]
    simp [outstanding, hretires.same.kind, hkind, hdown]
  · obtain ⟨hretired, hsame, -⟩ := hretires.split hkind
    refine ⟨h.update hretires.same.kind hretires.packetSent (fun hp => hsame ▸ hp)
      hretires.numIssued (by omega) hpackets hretires.numTranslated hstate, ?_⟩
    rw [hdiff]
    simp only [outstanding, hretires.request, hlocal, hretires.same.kind, hkind, hretired,
      hretires.numIssued, Bool.false_eq_true, if_false]
    omega

/-- A request that Execute pushes. -/
theorem counted_push (args : LSQ.PushArgs) (cvu : CVU) (lineWidth : Nat) (fresh : Buffer) :
    let r := (args.newRequest cvu lineWidth fresh).startAddrTranslation lineWidth
    r.Counted ∧ r.outstanding = 0 ∧ r.issuedToMemory = false ∧ r.packetSent = false := by
  have hkind := kind_newRequest args cvu lineWidth fresh
  obtain ⟨fragments, n, state, heq, hstate⟩ :=
    startAddrTranslation_newRequest args cvu lineWidth fresh
  rw [heq]
  obtain ⟨hcounted, hout⟩ := counted_of_unsent (r := { args.newRequest cvu lineWidth fresh with
      fragmentRequests := fragments, numFragments := n, state := state })
    hkind rfl rfl (fun _ => rfl) (fun hp => by cases hp) (Nat.zero_le _)
    (hstate.elim (fun hs => .inl ⟨hs, rfl, rfl⟩) fun hs => .inr (.inr hs))
  exact ⟨hcounted, hout, rfl, rfl⟩

/-- A request of a class that never visits the memory system. -/
theorem counted_special (inst : DynInst) {kind : RequestKind} {state : LSQRequestState}
    (h : kind = .failedData ∧ state = .failed ∨ kind = .barrierData ∧ state = .complete) :
    (LSQ.specialRequest kind inst state).Counted ∧
      (LSQ.specialRequest kind inst state).outstanding = 0 := by
  rcases h with ⟨rfl, rfl⟩ | ⟨rfl, rfl⟩ <;> refine ⟨?_, rfl⟩
  · constructor
    · exact ⟨id, Nat.le_refl _, Nat.le_refl _, Nat.le_refl _⟩
    all_goals simp [LSQ.specialRequest, LSQRequest.new, noFault]
  · exact Counts.complete ⟨id, Nat.le_refl _, Nat.le_refl _, Nat.le_refl _⟩ rfl

end

end LSQRequest

end Gem5.MyMinor
