import Gem5.MyMinor.SplitLoad
import Gem5.Proofs.MyMinor.PlainTranslation
import Mathlib.Data.List.Perm.Subperm

/-!
# `Gem5.Proofs.MyMinor.SplitLoad`: the order of the responses does not matter

`Collects` is the invariant of a split load with respect to the request `r` it started with. The
counters say how many fragments were sent and are back. While no response had an error, the bytes of
all responses are in the collected data, for the fragments have no byte in common. `reassembled` is
the result for runs, under the condition that `makeFragmentRequests` partitions the access.

A load that ends in the last line of the address space gets a fragment that is too long, and its
response is copied past the end of the data (`response_overruns`).
-/

namespace Gem5.MyMinor

open List Request
open Option (map_eq_some_iff map_some)

namespace LSQRequest

theorem getElem?_of_take {fs : List Request} {n i : Nat} {f : Request}
    (h : (fs.take n)[i]? = some f) : fs[i]? = some f := by
  rw [getElem?_take] at h
  split at h
  · exact h
  · cases h

/-- A split load whose translation is over: some of its fragments are translated, and nothing is
sent yet. -/
structure TranslatedLoad (a : SplitAccess) (r : LSQRequest) : Prop where
  kind : r.kind = .splitData
  isLoad : r.isLoad = true
  request : r.request = a.request
  shapes : r.fragmentRequests.map shape = (a.request.fragmentRequests a.lineWidth).map shape
  translated : r.numTranslatedFragments ≤ r.fragmentRequests.length
  some : 0 < r.numTranslatedFragments
  noPacket : r.packet = none
  unsent : r.numIssuedFragments = 0 ∧ r.numRetiredFragments = 0 ∧ r.skipped = false

section
variable {a : SplitAccess} {r : LSQRequest}

/-- The packets of the fragments: where they lie in the access. -/
structure Laid (r : LSQRequest) : Prop where
  inside : ∀ p ∈ r.fragmentPackets, r.request.vaddr ≤ p.vaddr ∧
    p.vaddr + p.size ≤ r.request.vaddr + r.request.size
  apart : ∀ (i j : Nat) (p q : Packet), i ≠ j → r.fragmentPackets[i]? = some p →
    r.fragmentPackets[j]? = some q →
    p.vaddr + p.size ≤ q.vaddr ∨ q.vaddr + q.size ≤ p.vaddr

/-- The request that `finish` leaves. -/
def withPackets (r : LSQRequest) (fresh : Buffer) : LSQRequest :=
  (r.makeFragmentPackets fresh).setState .translated

/-- `makeFragmentPackets` makes one packet for each translated fragment. -/
theorem withPackets_frame (h : r.TranslatedLoad a) (fresh : Buffer) :
    (r.withPackets fresh).fragmentPackets
        = (r.fragmentRequests.take r.numTranslatedFragments).map (r.fragmentPacket fresh) ∧
      (r.withPackets fresh).request.vaddr = r.request.vaddr ∧
      (r.withPackets fresh).request.size = r.request.size ∧
      (r.withPackets fresh).kind = .splitData ∧ (r.withPackets fresh).isLoad = true ∧
      (r.withPackets fresh).numTranslatedFragments = r.numTranslatedFragments ∧
      (r.withPackets fresh).numIssuedFragments = 0 ∧
      (r.withPackets fresh).numRetiredFragments = 0 ∧ (r.withPackets fresh).skipped = false ∧
      (r.withPackets fresh).packet.isSome = true := by
  obtain ⟨hissued, hretired, hskipped⟩ := h.unsent
  unfold withPackets makeFragmentPackets makePacket
  rw [h.noPacket]
  exact ⟨rfl, rfl, rfl, h.kind, h.isLoad, rfl, hissued, hretired, hskipped, rfl⟩

/-- The packets lie inside the access and do not overlap. -/
theorem laid_withPackets (hroom : a.Room) (h : r.TranslatedLoad a) (fresh : Buffer) :
    (r.withPackets fresh).Laid := by
  obtain ⟨hpackets, hvaddr, hsize, -⟩ := withPackets_frame h fresh
  -- a packet has the place of its fragment, and a fragment the place it was made with
  have hplace {i : Nat} {p : Packet} (hp : (r.withPackets fresh).fragmentPackets[i]? = some p) :
      ∃ g, (a.request.fragmentRequests a.lineWidth)[i]? = some g ∧ p.vaddr = g.vaddr ∧
        p.size = g.size := by
    rw [hpackets, List.getElem?_map, map_eq_some_iff] at hp
    obtain ⟨f, hf, rfl⟩ := hp
    have hf := getElem?_of_take hf
    have hshape := congrArg (fun l => l[i]?) h.shapes
    simp only [List.getElem?_map, hf] at hshape
    obtain ⟨g, hg, heq⟩ := map_eq_some_iff.mp hshape.symm
    simp only [shape, Prod.mk.injEq] at heq
    exact ⟨g, hg, heq.1.symm, heq.2.1.symm⟩
  have hpair := a.pairwise_fragments hroom
  rw [List.pairwise_iff_getElem] at hpair
  refine ⟨fun p hp => ?_, fun i j p q hij hp hq => ?_⟩
  · obtain ⟨i, hi⟩ := List.getElem?_of_mem hp
    obtain ⟨g, hg, hpv, hps⟩ := hplace hi
    obtain ⟨hstart, hend, -⟩ := a.mem_fragmentRequests hroom (List.mem_of_getElem? hg)
    rw [hvaddr, hsize, h.request, hpv, hps]
    exact ⟨hstart, hend⟩
  · obtain ⟨g, hg, hpv, hps⟩ := hplace hp
    obtain ⟨g', hg', hqv, hqs⟩ := hplace hq
    obtain ⟨hi, rfl⟩ := List.getElem?_eq_some_iff.mp hg
    obtain ⟨hj, rfl⟩ := List.getElem?_eq_some_iff.mp hg'
    rw [hpv, hps, hqv, hqs]
    rcases Nat.lt_or_gt_of_ne hij with hlt | hlt
    · exact .inl (hpair i j hi hj hlt)
    · exact .inr (hpair j i hj hi hlt)

end

/-- An error for a split request, field by field. -/
theorem retireErrorSplit_eq {r : LSQRequest} (hkind : r.kind = .splitData) (response : Packet)
    (fresh : Buffer) :
    r.retireError response fresh = { r with
      numRetiredFragments := r.numRetiredFragments + 1
      skipped := true
      state := if r.numIssuedFragments = r.numRetiredFragments + 1 ∨
          r.numRetiredFragments + 1 = r.numTranslatedFragments then .complete else r.state } := by
  by_cases hnone : r.numIssuedFragments = r.numRetiredFragments + 1 <;>
    by_cases hlast : r.numRetiredFragments + 1 = r.numTranslatedFragments <;>
    simp [retireError, hkind, finishSplit, hasPacketsInMemSystem, setState, hnone, hlast]

end LSQRequest

namespace SplitLoad

open LSQRequest

/-- The state of a split load in flight that started with the packets of `r`. -/
structure Collects (r : LSQRequest) (s : SplitLoad) : Prop where
  kind : s.request.kind = .splitData
  isLoad : s.request.isLoad = true
  request : s.request.request = r.request
  packets : s.request.fragmentPackets = r.fragmentPackets
  translated : s.request.numTranslatedFragments = r.numTranslatedFragments
  hasPacket : s.request.packet.isSome = true
  inBounds : s.overran = false
  issued : s.request.numIssuedFragments ≤ r.numTranslatedFragments
  retired : s.retired.length = s.request.numRetiredFragments
  nodup : (s.retired.map (·.1)).Nodup
  sent : ∀ e ∈ s.retired, e.1 < s.request.numIssuedFragments ∧
    ∃ p, r.fragmentPackets[e.1]? = some p ∧ e.2.1 = { p with data := e.2.1.data }
  skipped : s.request.skipped = s.hasError ∧ s.hasError = s.retired.any (·.2.2)
  complete : s.request.state = .complete ↔
    if s.hasError then s.request.numIssuedFragments = s.request.numRetiredFragments
    else s.request.numRetiredFragments = r.numTranslatedFragments
  data : s.hasError = false → ∀ e ∈ s.retired, ∀ i < e.2.1.size,
    (s.request.data.map fun d => d (e.2.1.vaddr - r.request.vaddr + i)) = some (e.2.1.data i)
  final : s.hasError = false → s.request.state = .complete → ∀ e ∈ s.retired, ∀ i < e.2.1.size,
    (s.request.packet.map fun k => k.data (e.2.1.vaddr - r.request.vaddr + i))
      = some (e.2.1.data i)

section
variable {r : LSQRequest} {s s' : SplitLoad} {packet response : Packet} {k n : Nat}

/-- Different fragments below `n` are at most `n` many. -/
theorem length_le_of_nodup {ks : List Nat} (hnodup : ks.Nodup) (hlt : ∀ k ∈ ks, k < n) :
    ks.length ≤ n := by
  have hsub := subperm_of_subset hnodup fun k hk => mem_range.mpr (hlt k hk)
  exact hsub.length_le.trans_eq length_range

theorem Collects.retired_le (h : Collects r s) :
    s.request.numRetiredFragments ≤ s.request.numIssuedFragments := by
  rw [← h.retired, ← length_map]
  refine length_le_of_nodup h.nodup fun k hk => ?_
  obtain ⟨e, he, rfl⟩ := mem_map.mp hk
  exact (h.sent e he).1

/-- A fragment that is not back: fewer fragments are back than there are. -/
theorem Collects.retired_lt (h : Collects r s) (hn : s.request.numIssuedFragments ≤ n) (hk : k < n)
    (hnew : k ∉ s.retired.map (·.1)) : s.request.numRetiredFragments < n := by
  rw [← h.retired, ← length_map]
  refine length_le_of_nodup (nodup_cons.mpr ⟨hnew, h.nodup⟩) fun i hi => ?_
  rcases mem_cons.mp hi with rfl | hi
  · exact hk
  · obtain ⟨e, he, rfl⟩ := mem_map.mp hi
    exact (h.sent e he).1.trans_le hn

/-- Nothing has been sent at first. -/
theorem collects_start {a : SplitAccess} (h : r.TranslatedLoad a) (fresh : Buffer) :
    Collects (r.withPackets fresh) (start (r.withPackets fresh)) := by
  obtain ⟨-, -, -, hkind, hload, htranslated, hissued, hretired, hskipped, hpacket⟩ :=
    withPackets_frame h fresh
  have hpos := h.some
  refine ⟨hkind, hload, rfl, rfl, rfl, hpacket, rfl, ?_, hretired.symm, nodup_nil,
    fun e he => (by cases he), ⟨hskipped, rfl⟩, ?_, fun _ e he => (by cases he),
    fun _ _ e he => (by cases he)⟩
  · show (r.withPackets fresh).numIssuedFragments ≤ _
    omega
  · refine ⟨fun hstate => (by cases hstate), fun hzero => ?_⟩
    have hzero : (r.withPackets fresh).numRetiredFragments
        = (r.withPackets fresh).numTranslatedFragments := hzero
    omega

/-- The next fragment is sent. -/
theorem Collects.send (h : Collects r s) (hstate : s.request.state ≠ .complete)
    (hmore : s.request.numIssuedFragments ≠ s.request.numTranslatedFragments) :
    Collects r { s with request := s.request.stepToNextPacket } := by
  have hstep : s.request.stepToNextPacket
      = { s.request with numIssuedFragments := s.request.numIssuedFragments + 1 } := by
    simp only [stepToNextPacket, h.kind]
  have hissued := h.issued
  have htranslated := h.translated
  have hback := h.retired_le
  rw [hstep]
  refine { h with
    issued := show s.request.numIssuedFragments + 1 ≤ _ by omega
    sent := fun e he => ⟨Nat.lt_succ_of_lt (h.sent e he).1, (h.sent e he).2⟩
    complete := ?_ }
  refine ⟨fun hc => absurd hc hstate, fun hc => absurd ?_ hstate⟩
  -- a skipped request with something in flight is not complete
  cases herror : s.hasError with
  | true =>
    have hc : s.request.numIssuedFragments + 1 = s.request.numRetiredFragments := by
      simpa [herror] using hc
    omega
  | false =>
    refine h.complete.mpr ?_
    simpa [herror] using hc

/-- The data of a response goes where no other response has its data. -/
theorem Collects.paste (h : Collects r s) (hlaid : r.Laid) (herror : s.hasError = false)
    (hpacket : r.fragmentPackets[k]? = some packet)
    (hform : response = { packet with data := response.data }) (hnew : k ∉ s.retired.map (·.1))
    (fresh : Buffer) : ∀ e ∈ (k, response, false) :: s.retired, ∀ i < e.2.1.size,
      s.request.pasted response fresh (e.2.1.vaddr - r.request.vaddr + i) = e.2.1.data i := by
  intro e he i hi
  rcases mem_cons.mp he with rfl | he
  · rw [pasted, h.request, memcpy, if_pos ⟨Nat.le_add_right _ _, Nat.add_lt_add_left hi _⟩,
      Nat.add_sub_cancel_left]
  · obtain ⟨-, p, hp, hold⟩ := h.sent e he
    have hne : k ≠ e.1 := fun hk => hnew (hk ▸ mem_map_of_mem he)
    have happart := hlaid.apart k e.1 packet p hne hpacket hp
    have hinside := hlaid.inside packet (mem_of_getElem? hpacket)
    have hinside' := hlaid.inside p (mem_of_getElem? hp)
    obtain ⟨d, hd, hbyte⟩ := map_eq_some_iff.mp (h.data herror e he i hi)
    rw [pasted, hd, Option.getD_some, h.request, ← hbyte, memcpy, if_neg]
    rw [hold] at hi ⊢
    rw [hform]
    dsimp only at hi ⊢
    omega

/-- A response arrives. -/
theorem Collects.respond (h : Collects r s) (hlaid : r.Laid)
    (hpacket : s.request.fragmentPackets[k]? = some packet)
    (hform : response = { packet with data := response.data })
    (hsent : k < s.request.numIssuedFragments) (hnew : k ∉ s.retired.map (·.1)) (error : Bool)
    (fresh : Buffer) :
    Collects r
      { request := if error then s.request.retireError response fresh
          else s.request.retireResponse response fresh
        hasError := s.hasError || (error && !s.request.skipped)
        overran := s.overran || (!error && s.request.copiesPastEnd response)
        retired := (k, response, error) :: s.retired } := by
  have hlt := h.retired_lt (Nat.le_refl _) hsent hnew
  have hissued := h.issued
  have htranslated := h.translated
  have hnodup : (k :: s.retired.map (·.1)).Nodup := nodup_cons.mpr ⟨hnew, h.nodup⟩
  have hfragment : r.fragmentPackets[k]? = some packet := h.packets ▸ hpacket
  have hsent' : ∀ e ∈ (k, response, error) :: s.retired, e.1 < s.request.numIssuedFragments ∧
      ∃ p, r.fragmentPackets[e.1]? = some p ∧ e.2.1 = { p with data := e.2.1.data } := by
    intro e he
    rcases mem_cons.mp he with rfl | he
    · exact ⟨hsent, packet, hfragment, hform⟩
    · exact h.sent e he
  have hbounds : (s.overran || (!error && s.request.copiesPastEnd response)) = false := by
    obtain ⟨hstart, hend⟩ := hlaid.inside packet (mem_of_getElem? hfragment)
    have hfits : ¬ r.request.size < packet.vaddr - r.request.vaddr + packet.size := by omega
    rw [h.inBounds, copiesPastEnd, h.request, hform]
    simp [hfits]
  have hlength : ((k, response, error) :: s.retired).length
      = s.request.numRetiredFragments + 1 := by
    rw [length_cons, h.retired]
  by_cases hquiet : s.hasError = false ∧ error = false
  · -- no error so far
    obtain ⟨herror, rfl⟩ := hquiet
    have hskipped : s.request.skipped = false := h.skipped.1.trans herror
    have hnot : s.request.state ≠ .complete := by
      intro hc
      have := h.complete.mp hc
      simp only [herror, Bool.false_eq_true, if_false] at this
      omega
    have hall := h.paste hlaid herror hfragment hform hnew fresh
    have hdone : s.request.splitDone = true ↔
        s.request.numRetiredFragments + 1 = r.numTranslatedFragments := by
      simp [splitDone, hskipped, htranslated]
    simp only [Bool.false_eq_true, if_false, herror, Bool.false_and, Bool.or_false]
    rw [retireSplit_eq _ h.kind]
    refine { h with
      hasPacket := ?_, inBounds := hbounds, retired := hlength, nodup := hnodup, sent := hsent'
      skipped := ⟨hskipped, ?_⟩, complete := ?_, data := fun _ e he i hi => ?_
      final := fun _ hc e he i hi => ?_ }
    · dsimp only
      split
      · rw [Option.isSome_map]
        exact h.hasPacket
      · exact h.hasPacket
    · rw [any_cons, Bool.false_or, ← h.skipped.2, herror]
    · by_cases hd : s.request.splitDone = true
      · simp [hd, hdone.mp hd]
      · simp only [hd]
        exact ⟨fun hc => absurd hc hnot, fun hc => absurd (hdone.mpr hc) hd⟩
    · rw [if_pos ⟨hskipped, h.isLoad⟩, map_some, hall e he i hi]
    · dsimp only at hc ⊢
      have hd : s.request.splitDone = true := by
        by_contra hd
        simp only [hd] at hc
        exact hnot hc
      obtain ⟨whole, hwhole⟩ := Option.isSome_iff_exists.mp h.hasPacket
      rw [if_pos ⟨hskipped, h.isLoad, .inl hd⟩, hwhole]
      show some (memcpy whole.data 0 (s.request.pasted response fresh) s.request.request.size
        (e.2.1.vaddr - r.request.vaddr + i)) = some (e.2.1.data i)
      obtain ⟨-, p, hp, hpart⟩ := hsent' e he
      have hev : e.2.1.vaddr = p.vaddr := by rw [hpart]
      have hes : e.2.1.size = p.size := by rw [hpart]
      obtain ⟨hstart, hend⟩ := hlaid.inside p (mem_of_getElem? hp)
      -- the copy into the packet takes all bytes of the access
      rw [memcpy, h.request, if_pos ⟨Nat.zero_le _, by omega⟩, Nat.sub_zero, hall e he i hi]
  · -- the request is skipped from here on
    have hloud : s.hasError = true ∨ error = true := by
      rwa [not_and_or, Bool.not_eq_false, Bool.not_eq_false] at hquiet
    have herror : (s.hasError || (error && !s.request.skipped)) = true := by
      rw [h.skipped.1]
      rcases hloud with hl | hl <;> simp [hl]
    have hany : ((k, response, error) :: s.retired).any (·.2.2) = true := by
      rw [any_cons, ← h.skipped.2]
      rcases hloud with hl | hl <;> simp [hl]
    have hstate : ∀ state : LSQRequestState, state = s.request.state →
        ((if s.request.numIssuedFragments = s.request.numRetiredFragments + 1 ∨
            s.request.numRetiredFragments + 1 = s.request.numTranslatedFragments then
            .complete else state) = LSQRequestState.complete ↔
          s.request.numIssuedFragments = s.request.numRetiredFragments + 1) := by
      rintro state rfl
      by_cases hnone : s.request.numIssuedFragments = s.request.numRetiredFragments + 1
      · simp [hnone]
      · rw [if_neg (by omega)]
        refine ⟨fun hc => ?_, fun hc => absurd hc hnone⟩
        have := h.complete.mp hc
        split at this <;> omega
    rw [herror]
    cases error with
    | true =>
      rw [retireErrorSplit_eq h.kind]
      refine { h with
        inBounds := hbounds, retired := hlength, nodup := hnodup, sent := hsent'
        skipped := ⟨rfl, hany.symm⟩, complete := ?_, data := by simp, final := by simp }
      exact hstate _ rfl
    | false =>
      have hskipped : s.request.skipped = true :=
        h.skipped.1.trans (hloud.resolve_right Bool.false_ne_true)
      rw [if_neg Bool.false_ne_true, retireSplit_eq _ h.kind]
      refine { h with
        hasPacket := ?_, inBounds := hbounds, retired := hlength, nodup := hnodup, sent := hsent'
        skipped := ⟨hskipped, hany.symm⟩, complete := ?_, data := by simp, final := by simp }
      · dsimp only
        rw [if_neg (by simp [hskipped])]
        exact h.hasPacket
      · have hdone : s.request.splitDone = true ↔
            (s.request.numIssuedFragments = s.request.numRetiredFragments + 1 ∨
              s.request.numRetiredFragments + 1 = s.request.numTranslatedFragments) := by
          simp [splitDone, hskipped]
        simp only [hdone]
        exact hstate _ rfl

/-- Every event keeps the invariant. -/
theorem collects_step (hlaid : r.Laid) {e : Event} (h : Collects r s) (hstep : s.step e = some s') :
    Collects r s' := by
  cases e with
  | send =>
    simp only [step] at hstep
    split at hstep
    · cases hstep
    · rename_i hgo
      cases hstep
      simp only [isComplete, sentAllPackets, h.kind, Bool.or_eq_true, beq_iff_eq, not_or] at hgo
      exact h.send hgo.1 hgo.2
  | respond k data error fresh =>
    simp only [step] at hstep
    split at hstep
    · cases hstep
    · rename_i packet hpacket
      split at hstep
      · cases hstep
      · rename_i hgo
        cases hstep
        simp only [Bool.or_eq_true, decide_eq_true_eq, any_eq_true, beq_iff_eq, not_or,
          not_exists, not_and] at hgo
        refine h.respond hlaid hpacket rfl (Nat.not_le.mp hgo.1) (fun hmem => ?_) error fresh
        obtain ⟨e, he, hk⟩ := mem_map.mp hmem
        exact hgo.2 e he hk

/-- What a split load is after its responses. No response was copied past the end of its data.
Without an error it is complete exactly when all fragments are back, and each byte of its packet is
the one of the response that covers it: every enabled byte has one, if all fragments were
translated. With an error it is complete exactly when nothing is in flight, and its packet has the
error. -/
structure Reassembled (r : LSQRequest) (s : SplitLoad) : Prop where
  inBounds : s.overran = false
  complete : s.retired.any (·.2.2) = false →
    (s.request.isComplete = true ↔ s.retired.length = r.numTranslatedFragments)
  bytes : s.retired.any (·.2.2) = false → s.request.isComplete = true →
    ∃ packet, s.request.packet = some packet ∧
      (∀ e ∈ s.retired, ∀ i < e.2.1.size,
        packet.data (e.2.1.vaddr - r.request.vaddr + i) = e.2.1.data i) ∧
      (r.numTranslatedFragments = r.fragmentRequests.length →
        ∀ i < r.request.size, r.request.enabled i = true → ∃ e ∈ s.retired,
          e.2.1.vaddr ≤ r.request.vaddr + i ∧ r.request.vaddr + i < e.2.1.vaddr + e.2.1.size)
  error : s.retired.any (·.2.2) = true → (s.request.isComplete = true ↔
    s.request.numIssuedFragments = s.request.numRetiredFragments) ∧ s.hasError = true

/-- A split load that does not end in the last line of the address space is reassembled, in any
order of its responses. -/
theorem reassembled (a : SplitAccess) (hroom : a.Room) (r : LSQRequest)
    (hload : r.TranslatedLoad a) (fresh : Buffer) (events : List Event) (s : SplitLoad)
    (hrun : Lib.run step (start (r.withPackets fresh)) events = some s) : Reassembled r s := by
  obtain ⟨hpackets, hvaddr, hsize, -, -, htranslated, -⟩ := withPackets_frame hload fresh
  have h : Collects (r.withPackets fresh) s := Lib.run_invariant
      (fun _ _ _ hs hstep => collects_step (laid_withPackets hroom hload fresh) hs hstep)
      (collects_start hload fresh) hrun
  have hcomplete := h.complete
  rw [h.skipped.2, htranslated] at hcomplete
  have hstate : s.request.isComplete = true ↔ s.request.state = .complete := by
    rw [isComplete, beq_iff_eq]
  refine ⟨h.inBounds, fun hnone => ?_, fun hnone hc => ?_, fun hsome => ?_⟩
  · simp only [hnone, Bool.false_eq_true, if_false] at hcomplete
    rw [hstate, hcomplete, h.retired]
  · simp only [hnone, Bool.false_eq_true, if_false] at hcomplete
    obtain ⟨packet, hpacket⟩ := Option.isSome_iff_exists.mp h.hasPacket
    refine ⟨packet, hpacket, fun e he i hi => ?_, fun hall i hi henabled => ?_⟩
    · have hbyte := h.final (h.skipped.2.trans hnone) (hstate.mp hc) e he i hi
      rw [hpacket, map_some, Option.some.injEq, hvaddr] at hbyte
      exact hbyte
    · -- all fragments are back, so the one with the byte is
      rw [hload.request] at hi henabled ⊢
      obtain ⟨g, hg, hcovers⟩ := a.exists_fragment hroom hi henabled
      obtain ⟨k, hk⟩ := List.getElem?_of_mem hg
      have hshape := congrArg (fun l => l[k]?) hload.shapes
      simp only [List.getElem?_map, hk] at hshape
      obtain ⟨f, hf, heq⟩ := map_eq_some_iff.mp hshape
      simp only [shape, Prod.mk.injEq] at heq
      have hlt : k < r.numTranslatedFragments := by
        rw [hall]
        exact (List.getElem?_eq_some_iff.mp hf).1
      have hmem : k ∈ s.retired.map (·.1) := by
        by_contra hnew
        have hless := h.retired_lt (htranslated ▸ h.issued) hlt hnew
        exact absurd (hcomplete.mp (hstate.mp hc)) (Nat.ne_of_lt hless)
      obtain ⟨e, he, rfl⟩ := List.mem_map.mp hmem
      obtain ⟨-, p, hp, hform⟩ := h.sent e he
      rw [hpackets, List.getElem?_map, map_eq_some_iff] at hp
      obtain ⟨f', hf', rfl⟩ := hp
      have hf' := getElem?_of_take hf'
      rw [hf, Option.some.injEq] at hf'
      subst hf'
      have hev : e.2.1.vaddr = f.vaddr := by rw [hform]; rfl
      have hes : e.2.1.size = f.size := by rw [hform]; rfl
      refine ⟨e, he, ?_⟩
      rw [hev, hes, heq.1, heq.2.1]
      exact hcovers
  · simp only [hsome, if_true] at hcomplete
    exact ⟨by rw [hstate, hcomplete], h.skipped.2.trans hsome⟩

/-- A load of 16 bytes with lines of 64 bytes, after the translation of both fragments. -/
def crossingLoad (a : SplitAccess) : LSQRequest :=
  let inst : DynInst :=
    { staticInst := { StaticInst.null with isLoad := true }
      id := InstId.zero, pc := { instAddr := 0x1000, microPC := 0 }
      fault := noFault, lvptOut := LvptOut.zero }
  { (new .splitData inst true none (fun _ => 0) a.request
      .inTranslation).makeFragmentRequests a.lineWidth with
    numTranslatedFragments := 2 }

/-- The second fragment comes back first. -/
def crossingEvents : List Event :=
  [.send, .send, .respond 1 (fun _ => 9) false fun _ => 0, .respond 0 (fun _ => 7) false fun _ => 0]

/-- A load at 56. -/
theorem reassembled_crossing :
    let a := SplitAccess.sixteenBytes 56 (by decide) (by decide)
    ∃ s, Lib.run step (start ((crossingLoad a).withPackets fun _ => 0)) crossingEvents = some s ∧
      s.retired.map (fun e => (e.1, e.2.1.data 0)) = [(0, 7), (1, 9)] ∧
      s.request.isComplete = true ∧ ∃ packet, s.request.packet = some packet ∧
        ∀ e ∈ s.retired, ∀ i < e.2.1.size, packet.data (e.2.1.vaddr - 56 + i) = e.2.1.data i := by
  intro a
  obtain ⟨s, hrun, hnone, hlength, horder⟩ :
      ∃ s ∈ Lib.run step (start ((crossingLoad a).withPackets fun _ => 0)) crossingEvents,
        s.retired.any (·.2.2) = false ∧ s.retired.length = 2 ∧
        s.retired.map (fun e => (e.1, e.2.1.data 0)) = [(0, 7), (1, 9)] := by
    decide +kernel
  have hload : (crossingLoad a).TranslatedLoad a :=
    ⟨rfl, rfl, rfl, rfl, by decide +kernel, by decide, rfl, ⟨rfl, rfl, rfl⟩⟩
  have hroom : a.Room := show 56 + 16 + 64 ≤ 2 ^ 64 by decide
  have hall := reassembled a hroom (crossingLoad a) hload (fun _ => 0) crossingEvents s hrun
  have hdone := (hall.complete hnone).mpr hlength
  obtain ⟨packet, hpacket, hdata, -⟩ := hall.bytes hnone hdone
  exact ⟨s, hrun, horder, hdone, packet, hpacket, hdata⟩

/-- A load at `2 ^ 64 - 72`. Its second fragment has 64 bytes, and they are copied to offset 8 of
the 16 bytes of the request. -/
theorem response_overruns :
    (crossingLoad SplitAccess.intoLastLine).TranslatedLoad SplitAccess.intoLastLine ∧
      ∃ s, Lib.run step (start ((crossingLoad SplitAccess.intoLastLine).withPackets fun _ => 0))
          crossingEvents = some s ∧ ¬ Reassembled (crossingLoad SplitAccess.intoLastLine) s := by
  refine ⟨⟨rfl, rfl, rfl, rfl, by decide +kernel, by decide, rfl, ⟨rfl, rfl, rfl⟩⟩, ?_⟩
  obtain ⟨s, hrun, hover⟩ : ∃ s ∈ Lib.run step (start
      ((crossingLoad SplitAccess.intoLastLine).withPackets fun _ => 0)) crossingEvents,
      s.overran = true := by
    decide +kernel
  exact ⟨s, hrun, fun h => Bool.false_ne_true (h.inBounds.symm.trans hover)⟩

end

end SplitLoad

end Gem5.MyMinor
