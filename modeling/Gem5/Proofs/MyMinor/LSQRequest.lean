import Gem5.MyMinor.LSQ

/-!
# `Gem5.Proofs.MyMinor.LSQRequest`: what the methods of a request leave alone

One frame lemma per method. A request is its instruction, its direction, its `Request` and
its data. Most methods change only the state and the counters.
-/

namespace Gem5.MyMinor

open LSQ

namespace LSQRequest
variable (r : LSQRequest)

/-- What identifies a request and never changes. -/
structure SameAccess (r r' : LSQRequest) : Prop where
  kind : r'.kind = r.kind
  inst : r'.inst = r.inst
  isLoad : r'.isLoad = r.isLoad
  writeData : r'.writeData = r.writeData

theorem SameAccess.refl : SameAccess r r := ⟨rfl, rfl, rfl, rfl⟩

variable {r' : LSQRequest}

variable {r} in
theorem SameAccess.trans {r'' : LSQRequest} (h : SameAccess r r') (h' : SameAccess r' r'') :
    SameAccess r r'' :=
  ⟨h'.kind.trans h.kind, h'.inst.trans h.inst, h'.isLoad.trans h.isLoad,
    h'.writeData.trans h.writeData⟩

variable {r} in
/-- Whether a request is a barrier depends on the access only. -/
theorem SameAccess.isBarrier (h : SameAccess r r') : r'.isBarrier = r.isBarrier := by
  simp [LSQRequest.isBarrier, h.kind, h.inst]

variable (fresh : Buffer)

/-- What a new packet changes. -/
theorem makePacket_eq :
    ∃ packet data, r.makePacket fresh = { r with packet := packet, data := data } := by
  unfold makePacket
  split <;> exact ⟨_, _, rfl⟩

@[simp] theorem state_makePacket : (r.makePacket fresh).state = r.state := by
  obtain ⟨_, _, h⟩ := r.makePacket_eq fresh
  rw [h]

variable {r} in
theorem SameAccess.setState (h : SameAccess r r') (state : LSQRequestState) :
    SameAccess r (r'.setState state) :=
  { h with }

variable (t : Translation)

/-- The request with the fragment in translation translated. -/
def translateFragment : LSQRequest :=
  { r with
    fragmentRequests := r.fragmentRequests.modify r.numTranslatedFragments fun f => f.translate t
    numTranslatedFragments := r.numTranslatedFragments + 1 }

/-- The results of `finish`: no packet after a fault, the packet of a single request, the
packets of a split request, or a split request with fragments to go. A split request gets its
packets with the last fragment, or when a later fragment has a fault that is suppressed. -/
theorem finish_cases (fresh : Buffer) : (t.fault ≠ noFault ∧ ∃ fault n state, r.finish t fresh
        = { r with translationFault := fault, numTranslatedFragments := n, state := state } ∧
      (state = .translated ∨ state = .complete)) ∨
    (r.kind = .singleData ∧ r.finish t fresh
      = { r with request := r.request.translate t, state := .translated }.makePacket fresh) ∨
    (r.kind = .splitData ∧ t.fault ≠ noFault ∧ 0 < r.numTranslatedFragments ∧ r.finish t fresh
      = { r with translationFault := noFault, state := .translated }.makeFragmentPackets fresh) ∨
    (r.kind = .splitData ∧ r.numTranslatedFragments + 1 = r.numFragments ∧ r.finish t fresh
      = ((r.translateFragment t).setState .translated).makeFragmentPackets fresh) ∨
    (r.kind = .splitData ∧ r.numTranslatedFragments + 1 ≠ r.numFragments ∧
      r.finish t fresh = r.translateFragment t) ∨
    (r.kind ≠ .singleData ∧ r.kind ≠ .splitData ∧ r.finish t fresh = r) := by
  have hsome : t.fault.isSome = true → t.fault ≠ noFault := by
    intro h hnone
    rw [hnone] at h
    cases h
  unfold finish
  split
  · rename_i hkind
    unfold finishSingle
    split
    · rename_i hfault
      exact .inl ⟨hsome hfault, _, _, _, rfl, .inl rfl⟩
    · exact .inr (.inl ⟨hkind, rfl⟩)
  · rename_i hkind
    unfold finishFragment
    split
    · rename_i hfault
      unfold finishFaultingFragment
      generalize hafter : (if (decide (r.numTranslatedFragments > 0) || r.isTranslationDelayed) = true
        then faultAfter t else t.fault) = fault
      split
      · refine .inl ⟨hsome hfault, _, _, _, rfl, ?_⟩
        split
        · exact .inr rfl
        · exact .inl rfl
      · rename_i hpos
        cases fault with
        | none =>
          exact .inr (.inr (.inl
            ⟨hkind, hsome hfault, Nat.pos_of_ne_zero hpos, rfl⟩))
        | some => exact .inl ⟨hsome hfault, _, _, _, rfl, .inl rfl⟩
    · dsimp only
      split
      · rename_i hlast
        refine .inr (.inr (.inr (.inl ⟨hkind, hlast, ?_⟩)))
        unfold makeFragmentPackets makePacket
        dsimp only [setState, translateFragment]
        split <;> rfl
      · rename_i hlast
        exact .inr (.inr (.inr (.inr (.inl ⟨hkind, hlast, rfl⟩))))
  · rename_i hsingle hsplit
    exact .inr (.inr (.inr (.inr (.inr ⟨hsingle, hsplit, rfl⟩))))

/-- What the end of a translation changes. -/
theorem finish_eq (fresh : Buffer) :
    ∃ request fault fragments packets n state packet data, r.finish t fresh = { r with
          request := request, translationFault := fault, fragmentRequests := fragments
          fragmentPackets := packets, numTranslatedFragments := n, state := state
          packet := packet, data := data } := by
  rcases r.finish_cases t fresh with ⟨-, fault, n, state, h, -⟩ | ⟨-, h⟩ | ⟨-, -, -, h⟩ |
    ⟨-, -, h⟩ | ⟨-, -, h⟩ | ⟨-, -, h⟩ <;> rw [h]
  case' inr.inl | inr.inr.inl | inr.inr.inr.inl =>
    obtain ⟨_, _, hpacket⟩ := makePacket_eq _ fresh
    first | rw [hpacket] | rw [makeFragmentPackets, hpacket]
  all_goals exact ⟨_, _, _, _, _, _, _, _, rfl⟩

theorem sameAccess_finish (fresh : Buffer) : SameAccess r (r.finish t fresh) := by
  obtain ⟨_, _, _, _, _, _, _, _, h⟩ := r.finish_eq t fresh
  rw [h]
  exact ⟨rfl, rfl, rfl, rfl⟩

/-- A translation leaves the state, ends it, or completes a request without a packet. -/
theorem state_finish (fresh : Buffer) :
    (r.finish t fresh).state = r.state ∨ (r.finish t fresh).state = .translated ∨
      ((r.finish t fresh).state = .complete ∧ (r.finish t fresh).packet = r.packet) := by
  rcases r.finish_cases t fresh with ⟨-, fault, n, state, heq, hstate⟩ | ⟨-, heq⟩ |
    ⟨-, -, -, heq⟩ | ⟨-, -, heq⟩ | ⟨-, -, heq⟩ | ⟨-, -, heq⟩ <;> rw [heq]
  · rcases hstate with hs | hs
    · exact .inr (.inl hs)
    · exact .inr (.inr ⟨hs, rfl⟩)
  · exact .inr (.inl (state_makePacket _ fresh))
  · exact .inr (.inl (by simp [makeFragmentPackets]))
  · exact .inr (.inl (by simp [makeFragmentPackets, setState]))
  · exact .inl rfl
  · exact .inl rfl

/-- The `Request` of a request, its packet and its fault stay when a packet is sent. -/
theorem stepToNextPacket_frame :
    SameAccess r r.stepToNextPacket ∧ r.stepToNextPacket.request = r.request ∧
      r.stepToNextPacket.packet = r.packet ∧ r.stepToNextPacket.state = r.state ∧
      r.stepToNextPacket.skipped = r.skipped ∧ r.stepToNextPacket.data = r.data ∧
      r.stepToNextPacket.translationFault = r.translationFault := by
  unfold stepToNextPacket
  split <;> exact ⟨⟨rfl, rfl, rfl, rfl⟩, rfl, rfl, rfl, rfl, rfl, rfl⟩

/-- A local access changes data only. -/
theorem accessLocally_frame (data : Buffer) :
    SameAccess r (accessLocally r data) ∧ (accessLocally r data).request = r.request ∧
      (accessLocally r data).translationFault = r.translationFault := by
  unfold accessLocally
  split <;> exact ⟨⟨rfl, rfl, rfl, rfl⟩, rfl, rfl⟩

/-- A split request after its response is complete: its last fragment is back, or it was
skipped and nothing is in flight. -/
def splitDone : Bool :=
  (r.skipped && r.numIssuedFragments == r.numRetiredFragments + 1) ||
    r.numRetiredFragments + 1 == r.numTranslatedFragments

variable (response : Packet)

/-- The data of a split request with the data of a response pasted in. -/
def pasted (fresh : Buffer) : Buffer :=
  memcpy (r.data.getD fresh) (response.vaddr - r.request.vaddr) response.data response.size

/-- A response for a split request, field by field. -/
theorem retireSplit_eq (hkind : r.kind = .splitData) (response : Packet) (fresh : Buffer) :
    r.retireResponse response fresh = { r with
      numRetiredFragments := r.numRetiredFragments + 1
      state := if r.splitDone then .complete else r.state
      data := if r.skipped = false ∧ r.isLoad = true then some (r.pasted response fresh)
        else if r.skipped = false ∧ (r.splitDone ∨ r.isComplete) then some (r.data.getD fresh)
        else r.data
      packet := if r.skipped = false ∧ r.isLoad = true ∧ (r.splitDone ∨ r.isComplete) then
          r.packet.map fun packet =>
            { packet with data := memcpy packet.data 0 (r.pasted response fresh) r.request.size }
        else r.packet } := by
  -- The tests of both parts are on four booleans.
  cases hskipped : r.skipped <;> cases hload : r.isLoad <;> cases hd : r.splitDone <;>
    cases hc : r.isComplete <;>
    simp_all [retireResponse, retireFragment, finishSplit, splitDone, hasPacketsInMemSystem,
      setState, isComplete, pasted]

/-- A response for a request of another kind than split. -/
theorem retireResponse_of_not_split (hkind : r.kind ≠ .splitData) (response : Packet)
    (fresh : Buffer) :
    (r.kind = .singleData ∧ r.retireResponse response fresh = r.retireSingle response) ∨
      r.retireResponse response fresh = r := by
  unfold retireResponse
  split
  · rename_i hsingle
    exact .inl ⟨hsingle, rfl⟩
  · rename_i hsplit
    exact absurd hsplit hkind
  · exact .inr rfl

/-- The `Request` of a request and its fault stay when a response arrives. -/
theorem retireResponse_frame (fresh : Buffer) :
    let r' := r.retireResponse response fresh
    SameAccess r r' ∧ r'.request = r.request ∧ r'.translationFault = r.translationFault ∧
      r'.skipped = r.skipped := by
  by_cases hkind : r.kind = .splitData
  · rw [retireSplit_eq r hkind]
    exact ⟨⟨rfl, rfl, rfl, rfl⟩, rfl, rfl, rfl⟩
  · rcases r.retireResponse_of_not_split hkind response fresh with ⟨-, h⟩ | h <;> rw [h]
    · exact ⟨⟨rfl, rfl, rfl, rfl⟩, rfl, rfl, rfl⟩
    · exact ⟨SameAccess.refl r, rfl, rfl, rfl⟩

/-- A response completes a request or leaves its state. -/
theorem state_retireResponse (fresh : Buffer) : (r.retireResponse response fresh).state = r.state ∨
      (r.retireResponse response fresh).state = .complete := by
  by_cases hkind : r.kind = .splitData
  · rw [retireSplit_eq r hkind]
    dsimp only
    split
    · exact .inr rfl
    · exact .inl rfl
  · rcases r.retireResponse_of_not_split hkind response fresh with ⟨-, h⟩ | h <;> rw [h]
    · exact .inr rfl
    · exact .inl rfl

end LSQRequest

variable (args : PushArgs)

/-- `pushRequest` makes single and split requests. -/
theorem kind_newRequest (cvu : CVU) (lineWidth : Nat) (fresh : Buffer) :
    (args.newRequest cvu lineWidth fresh).kind = .singleData ∨
      (args.newRequest cvu lineWidth fresh).kind = .splitData := by
  unfold PushArgs.newRequest
  cases transferNeedsBurst args.addr args.size lineWidth
  · exact .inl rfl
  · exact .inr rfl

/-- A request of `pushRequest`: the start of the translation sets the fragments and the state. -/
theorem startAddrTranslation_newRequest (cvu : CVU) (lineWidth : Nat) (fresh : Buffer) :
    ∃ fragments n state, (args.newRequest cvu lineWidth fresh).startAddrTranslation lineWidth
        = { args.newRequest cvu lineWidth fresh with
            fragmentRequests := fragments, numFragments := n, state := state } ∧
      (state = .inTranslation ∨ state = .complete) := by
  unfold LSQRequest.startAddrTranslation
  dsimp only
  split
  · split
    · exact ⟨_, _, _, rfl, .inl rfl⟩
    · exact ⟨_, _, _, rfl, .inr rfl⟩
  · split
    · exact ⟨_, _, _, rfl, .inl rfl⟩
    · exact ⟨_, _, _, rfl, .inr rfl⟩
  · rename_i hsingle hsplit
    exact absurd (kind_newRequest args cvu lineWidth fresh) (not_or.mpr ⟨hsingle, hsplit⟩)

end Gem5.MyMinor
