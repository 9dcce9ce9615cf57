import Gem5.Proofs.MyMinor.Fragments
import Gem5.Proofs.MyMinor.PlainRequest

/-!
# `Gem5.Proofs.MyMinor.PlainTranslation`: how a plain request gets its packets

A single request gets its packet from one translation. A split request has one translation per
fragment, and its packets are made at the end. `Split` is what holds of its fragments in
between: they are those of `makeFragmentRequests`, and the translated ones lie at one distance
from their virtual addresses. The source takes the physical address of the first fragment for
that of the whole access, so without the second fact the address range of a split request is
not the range it writes.
-/

namespace Gem5.MyMinor

open List Request RequestFlags Option LSQ

/-- The part of a fragment that its translation leaves alone. -/
def Request.shape (f : Request) : Nat × Nat × List Bool :=
  (f.vaddr, f.size, f.byteEnable)

namespace LSQRequest

/-- The physical address that `makeFragmentPackets` gives the whole access. -/
def firstPaddr (r : LSQRequest) : Nat :=
  (r.fragmentRequests.head?.map fun f => f.paddr).getD 0

/-- The fragments of a split request, some of them translated. -/
structure Split (a : SplitAccess) (r : LSQRequest) : Prop where
  request : r.request = a.request
  room : a.Room
  shapes : r.fragmentRequests.map shape = (a.request.fragmentRequests a.lineWidth).map shape
  number : r.numFragments = r.fragmentRequests.length
  flags : ∀ f ∈ r.fragmentRequests, f.flags.plain = true ∧ f.useCVUValue = false
  translated : r.numTranslatedFragments ≤ r.fragmentRequests.length
  contiguous : ∀ j < r.numTranslatedFragments, ∀ f, r.fragmentRequests[j]? = some f →
    f.paddr = r.firstPaddr + (f.vaddr - r.request.vaddr)
  bound : 0 < r.numTranslatedFragments → r.firstPaddr + r.request.size < 2 ^ 64

/-- What a translation has to bring for a plain request: bufferable memory, an access that does
not wrap around, and for a fragment the distance of the first one. A store loses no fragment to
a fault that is suppressed. -/
structure PlainTranslation (r : LSQRequest) (t : Translation) : Prop where
  flags : t.flags.plain = true
  localAccess : t.localAccess = false
  bound : (if r.kind = .splitData ∧ 0 < r.numTranslatedFragments then r.firstPaddr
    else t.paddr) + r.request.size < 2 ^ 64
  contiguous : r.kind = .splitData → ∀ f ∈ r.fragmentRequests[r.numTranslatedFragments]?,
    t.paddr = (if 0 < r.numTranslatedFragments then r.firstPaddr else t.paddr) +
      (f.vaddr - r.request.vaddr)
  noLoss : r.kind = .splitData → 0 < r.numTranslatedFragments → r.isLoad = false →
    t.fault = noFault

instance (r : LSQRequest) (t : Translation) : Decidable (PlainTranslation r t) :=
  decidable_of_iff
    (t.flags.plain = true ∧ t.localAccess = false ∧
      (if r.kind = .splitData ∧ 0 < r.numTranslatedFragments then r.firstPaddr
        else t.paddr) + r.request.size < 2 ^ 64 ∧
      (r.kind = .splitData → ∀ f ∈ r.fragmentRequests[r.numTranslatedFragments]?,
        t.paddr = (if 0 < r.numTranslatedFragments then r.firstPaddr else t.paddr) +
          (f.vaddr - r.request.vaddr)) ∧
      (r.kind = .splitData → 0 < r.numTranslatedFragments → r.isLoad = false →
        t.fault = noFault))
    ⟨fun h => ⟨h.1, h.2.1, h.2.2.1, h.2.2.2.1, h.2.2.2.2⟩,
      fun h => ⟨h.flags, h.localAccess, h.bound, h.contiguous, h.noLoss⟩⟩

section
variable {r : LSQRequest} {a : SplitAccess} {t : Translation} {tid : ThreadID} {f : Request}

/-- A fragment lies inside the access and has its part of the mask. -/
theorem Split.mem (h : Split a r) (hf : f ∈ r.fragmentRequests) :
    r.request.vaddr ≤ f.vaddr ∧ f.vaddr + f.size ≤ r.request.vaddr + r.request.size ∧
      f.byteEnable = (r.request.byteEnable.drop (f.vaddr - r.request.vaddr)).take f.size := by
  have hshape : f.shape ∈ r.fragmentRequests.map shape := mem_map_of_mem hf
  rw [h.shapes] at hshape
  obtain ⟨g, hg, heq⟩ := mem_map.mp hshape
  obtain ⟨hstart, hend, hform⟩ := a.mem_fragmentRequests h.room hg
  simp only [shape, Prod.mk.injEq] at heq
  obtain ⟨hvaddr, hsize, hmask⟩ := heq
  rw [← hvaddr, ← hsize, ← hmask, h.request]
  refine ⟨hstart, hend, ?_⟩
  conv_lhs => rw [hform]
  rfl

/-- Every enabled byte lies in a fragment. -/
theorem Split.exists_fragment (h : Split a r) {i : Nat} (hi : i < r.request.size)
    (henabled : r.request.enabled i = true) :
    ∃ f ∈ r.fragmentRequests,
      f.vaddr ≤ r.request.vaddr + i ∧ r.request.vaddr + i < f.vaddr + f.size := by
  rw [h.request] at hi henabled ⊢
  obtain ⟨g, hg, hcovers⟩ := a.exists_fragment h.room hi henabled
  have hshape : g.shape ∈ (a.request.fragmentRequests a.lineWidth).map shape := mem_map_of_mem hg
  rw [← h.shapes] at hshape
  obtain ⟨f, hf, heq⟩ := mem_map.mp hshape
  simp only [shape, Prod.mk.injEq] at heq
  refine ⟨f, hf, ?_⟩
  rw [heq.1, heq.2.1]
  exact hcovers

/-- The fragments after `startAddrTranslation`. -/
theorem split_makeFragmentRequests (hrequest : r.request = a.request) (hroom : a.Room)
    (hflags : r.request.flags.plain = true) (hnone : r.numTranslatedFragments = 0) :
    Split a (r.makeFragmentRequests a.lineWidth) := by
  have hzero : (r.makeFragmentRequests a.lineWidth).numTranslatedFragments = 0 := hnone
  have hfragments : (r.makeFragmentRequests a.lineWidth).fragmentRequests
      = a.request.fragmentRequests a.lineWidth := by
    rw [makeFragmentRequests, hrequest]
  refine ⟨hrequest, hroom, by rw [hfragments], numFragments_eq _ _, fun f hf => ?_, ?_, ?_, ?_⟩
  · rw [hfragments] at hf
    obtain ⟨-, -, hform⟩ := a.mem_fragmentRequests hroom hf
    rw [hform]
    exact ⟨hrequest ▸ hflags, rfl⟩
  all_goals rw [hzero]
  · exact Nat.zero_le _
  · intro j hj
    exact absurd hj (Nat.not_lt_zero j)
  · intro hpos
    exact absurd hpos (Nat.lt_irrefl 0)

/-- The first fragment after a translation. -/
theorem firstPaddr_translateFragment (h : r.numTranslatedFragments < r.fragmentRequests.length)
    (t : Translation) :
    (r.translateFragment t).firstPaddr
      = if 0 < r.numTranslatedFragments then r.firstPaddr else t.paddr := by
  cases hfragments : r.fragmentRequests with
  | nil =>
    rw [hfragments] at h
    exact absurd h (Nat.not_lt_zero _)
  | cons =>
    cases hn : r.numTranslatedFragments with
    | zero => simp [firstPaddr, translateFragment, hfragments, hn, Request.translate]
    | succ => simp [firstPaddr, translateFragment, hfragments, hn]

/-- A translated fragment. -/
theorem Split.translateFragment (h : Split a r) (hkind : r.kind = .splitData)
    (hlt : r.numTranslatedFragments < r.fragmentRequests.length) (ht : PlainTranslation r t) :
    Split a (r.translateFragment t) where
  request := h.request
  room := h.room
  shapes := by
    refine Eq.trans ?_ h.shapes
    simp only [LSQRequest.translateFragment]
    apply ext_getElem?
    intro j
    rw [getElem?_map, getElem?_map, getElem?_modify]
    -- The translation keeps the shape of the fragment that it changes.
    split
    · cases r.fragmentRequests[j]? <;> rfl
    · simp
  number := by
    simp only [LSQRequest.translateFragment, length_modify]
    exact h.number
  flags := by
    intro f hf
    obtain ⟨j, hj⟩ := getElem?_of_mem hf
    simp only [LSQRequest.translateFragment, getElem?_modify] at hj
    obtain ⟨g, hg, rfl⟩ := map_eq_some_iff.mp hj
    obtain ⟨hflags, hcvu⟩ := h.flags g (mem_of_getElem? hg)
    split
    · exact ⟨plain_union hflags ht.flags, hcvu⟩
    · exact ⟨hflags, hcvu⟩
  translated := by
    simp only [LSQRequest.translateFragment, length_modify]
    exact hlt
  contiguous := by
    rw [firstPaddr_translateFragment hlt]
    intro j hj f hf
    simp only [LSQRequest.translateFragment] at hj
    simp only [LSQRequest.translateFragment, getElem?_modify] at hf ⊢
    obtain ⟨g, hg, rfl⟩ := map_eq_some_iff.mp hf
    split
    · rename_i heq
      subst heq
      exact ht.contiguous hkind g hg
    · rw [if_pos (by omega)]
      exact h.contiguous j (by omega) g hg
  bound := by
    rw [firstPaddr_translateFragment hlt]
    intro _
    have hbound := ht.bound
    simp only [hkind, true_and] at hbound
    exact hbound

/-! ### The packets -/

/-- A packet for a part of the access. -/
theorem part_makePacketForRequest {offset : Nat} {data fresh : Buffer}
    (hvaddr : f.vaddr = r.request.vaddr + offset) (hpaddr : f.paddr = r.request.paddr + offset)
    (hsize : offset + f.size ≤ r.request.size)
    (hmask : ∀ i < f.size, f.byteEnable.getD i false = r.request.enabled (offset + i))
    (hflags : f.flags.plain = true) (hcvu : f.useCVUValue = false)
    (hdata : r.isLoad = false → ∀ i < f.size, data i = r.writeData (offset + i)) :
    r.Part offset (makePacketForRequest f r.isLoad data fresh) := by
  simp only [plain, Bool.not_eq_true', Bool.or_eq_false_iff] at hflags
  refine ⟨hvaddr, hpaddr, hsize, hmask, rfl, ?_, ?_, ?_, hcvu, ?_⟩
  · simp [makePacketForRequest, hflags]
  · simp [makePacketForRequest, hflags]
  · simp [makePacketForRequest, hflags]
  · intro hstore i hi
    simp only [hstore]
    exact hdata hstore i hi

/-- A single request with its packet, before it is sent. -/
theorem reqOk_single {k : Packet} (hkind : r.kind = .singleData) (hplain : Plain tid r)
    (hbound : r.request.paddr + r.request.size < 2 ^ 64) (hk : r.packet = some k)
    (hwhole : r.Part 0 k) (hsize : k.size = r.request.size) (hsent : r.packetSent = false) :
    ReqOk tid r [] := by
  have hpackets : r.packets = [k] := by simp [packets, hkind, hk]
  have hphys : ∀ i, r.physAddr i = some (r.request.paddr + i) := by
    intro i
    simp [physAddr, hkind]
  refine ⟨fun _ => hplain, ?_, ?_, ?_, ?_, ?_⟩
  · intro k' hk'
    rw [hk, some.injEq] at hk'
    subst hk'
    refine ⟨.inl hkind, hwhole, hsize, hbound, ?_, ?_, ?_, ?_, ?_, ?_⟩
    · rw [hpackets]
      intro f hf
      rw [mem_singleton] at hf
      subst hf
      exact ⟨0, hwhole⟩
    · rw [hpackets]
      exact Nat.one_pos
    · intro i a ha
      rw [hphys, some.injEq] at ha
      exact ha.symm
    · intro i hi a _
      rw [hpackets]
      refine ⟨k, mem_singleton_self k, ?_⟩
      rw [hwhole.vaddr]
      omega
    · intro _ i _ _
      rw [hphys]
      simp
    · intro hsplit
      rw [hkind] at hsplit
      cases hsplit
  · intro hn
    rw [hk] at hn
    cases hn
  · simp [numBack, numSent, hkind, hsent]
  · simp [numSent, hkind, hsent]
  · intro a ha
    cases ha

/-- The packet of a single request. -/
theorem ReqOk.finishSingle (h : ReqOk tid r []) (hkind : r.kind = .singleData)
    (hnone : r.packet = none) (hdata : r.isLoad = false → r.data = some r.writeData)
    (ht : PlainTranslation r t) (fresh : Buffer) :
    ReqOk tid ({ r with request := r.request.translate t, state := .translated }.makePacket
      fresh) [] := by
  have hplain := h.plain (.inl hkind)
  have hbound := ht.bound
  simp only [hkind] at hbound
  have hsent : r.packetSent = false := by
    have hzero := (h.empty hnone).2
    simp only [numSent, hkind] at hzero
    cases hp : r.packetSent with
    | false => rfl
    | true =>
      rw [hp] at hzero
      cases hzero
  have hflags : (r.request.translate t).flags.plain = true := plain_union hplain.flags ht.flags
  have hlocal : (r.request.translate t).localAccess = false := by
    simp [Request.translate, hplain.localAccess, ht.localAccess]
  simp only [hnone]
  refine reqOk_single hkind { hplain with flags := hflags, localAccess := hlocal } hbound rfl ?_
    rfl hsent
  refine part_makePacketForRequest rfl rfl (Nat.zero_add _).le ?_ hflags hplain.useCVUValue ?_
  · intro i _
    rw [Nat.zero_add]
    rfl
  · intro hstore i _
    have hstore' : r.isLoad = false := hstore
    rw [hdata hstore', Nat.zero_add]
    rfl

/-- The flags of all fragments together. -/
theorem plain_foldl_union {fragments : List Request} {flags : RequestFlags}
    (hflags : flags.plain = true) (h : ∀ f ∈ fragments, f.flags.plain = true) :
    (fragments.foldl (fun flags f => flags.union f.flags) flags).plain = true := by
  induction fragments generalizing flags with
  | nil => exact hflags
  | cons f fs ih =>
    exact ih (plain_union hflags (h f mem_cons_self))
      fun g hg => h g (mem_cons_of_mem f hg)

/-- The packet of a translated fragment is a part of the access. `r'` is the request with its
packets. -/
theorem Split.part {r' : LSQRequest} (h : Split a r)
    (hdata : r.isLoad = false → r.data = some r.writeData) (hsame : SameAccess r r')
    (hvaddr : r'.request.vaddr = r.request.vaddr) (hpaddr : r'.request.paddr = r.firstPaddr)
    (hsize : r'.request.size = r.request.size)
    (hmask : r'.request.byteEnable = r.request.byteEnable)
    (hf : f ∈ r.fragmentRequests.take r.numTranslatedFragments) (fresh : Buffer) :
    r'.Part (f.vaddr - r.request.vaddr) (r.fragmentPacket fresh f) := by
  obtain ⟨j, hj⟩ := List.getElem?_of_mem hf
  have hjn : j < r.numTranslatedFragments := by
    have hlt := (List.getElem?_eq_some_iff.mp hj).1
    rw [List.length_take] at hlt
    omega
  rw [List.getElem?_take_of_lt hjn] at hj
  have hmem := List.mem_of_getElem? hj
  obtain ⟨hstart, hend, henable⟩ := h.mem hmem
  obtain ⟨hflags, hcvu⟩ := h.flags f hmem
  unfold fragmentPacket
  rw [← hsame.isLoad]
  refine part_makePacketForRequest ?_ ?_ ?_ ?_ hflags hcvu ?_
  · omega
  · rw [hpaddr]
    exact h.contiguous j hjn f hj
  · omega
  · intro i hi
    rw [henable, enabled, hmask, List.getD_eq_getElem?_getD,
      List.getElem?_take_of_lt hi, List.getElem?_drop, List.getD_eq_getElem?_getD]
  · intro hstore i _
    rw [hdata (hsame.isLoad.symm.trans hstore), hsame.writeData]
    rfl

/-- The packets of a split request. A store has all its fragments. -/
theorem Split.reqOk (h : Split a r) (hkind : r.kind = .splitData)
    (hplain : Plain tid r) (hnone : r.packet = none) (hissued : r.numIssuedFragments = 0)
    (hretired : r.numRetiredFragments = 0) (hdata : r.isLoad = false → r.data = some r.writeData)
    (hpos : 0 < r.numTranslatedFragments)
    (hall : r.isLoad = false → r.numTranslatedFragments = r.fragmentRequests.length)
    (fresh : Buffer) : ReqOk tid (r.makeFragmentPackets fresh) [] := by
  have hsame : SameAccess r (r.makeFragmentPackets fresh) := by
    simp only [makeFragmentPackets, hnone]
    exact ⟨rfl, rfl, rfl, rfl⟩
  have hpart : ∀ f ∈ r.fragmentRequests.take r.numTranslatedFragments,
      (r.makeFragmentPackets fresh).Part (f.vaddr - r.request.vaddr)
        (r.fragmentPacket fresh f) := by
    intro f hf
    refine h.part hdata hsame ?_ ?_ ?_ ?_ hf fresh <;>
      simp [makeFragmentPackets, makePacket, hnone, firstPaddr]
  have hflags : (r.makeFragmentPackets fresh).request.flags.plain = true := by
    simp only [makeFragmentPackets, hnone]
    exact plain_foldl_union hplain.flags fun f hf => (h.flags f (mem_of_mem_take hf)).1
  have hpackets : (r.makeFragmentPackets fresh).packets
      = (r.fragmentRequests.take r.numTranslatedFragments).map (r.fragmentPacket fresh) := by
    simp [packets, makeFragmentPackets, makePacket, hnone, hkind]
  have hlength : (r.makeFragmentPackets fresh).packets.length = r.numTranslatedFragments := by
    rw [hpackets, length_map, length_take, Nat.min_eq_left h.translated]
  -- A byte has a physical address when a translated fragment covers it.
  have hphys : ∀ i a, (r.makeFragmentPackets fresh).physAddr i = some a →
      ∃ f ∈ r.fragmentRequests.take r.numTranslatedFragments,
        (f.vaddr ≤ r.request.vaddr + i ∧ r.request.vaddr + i < f.vaddr + f.size) ∧
          f.paddr + (r.request.vaddr + i - f.vaddr) = a := by
    intro i a ha
    simp only [makeFragmentPackets, hnone, hkind] at ha
    obtain ⟨f, hf, hfa⟩ := exists_of_findSome?_eq_some ha
    split at hfa
    · rename_i hcovers
      cases hfa
      exact ⟨f, hf, hcovers, rfl⟩
    · cases hfa
  refine ⟨fun _ => ?_, ?_, ?_, ?_, ?_, ?_⟩
  · refine ⟨hsame.inst ▸ hplain.thread, hflags, ?_, ?_, ?_, ?_⟩
    · simpa [makeFragmentPackets, makePacket, hnone] using hplain.localAccess
    · simpa [makeFragmentPackets, makePacket, hnone] using hplain.useCVUValue
    · rw [hsame.isLoad, hsame.inst]
      exact hplain.constant
    · simpa [makeFragmentPackets, makePacket, hnone] using hplain.mask
  · intro k hk
    have hsizes : ∀ m, r.makeFragmentPackets fresh = m → m.request.vaddr = r.request.vaddr ∧
        m.request.size = r.request.size ∧ m.request.paddr = r.firstPaddr ∧
        m.request.byteEnable = r.request.byteEnable := by
      rintro _ rfl
      simp [makeFragmentPackets, makePacket, hnone, firstPaddr]
    obtain ⟨hvaddr, hsize, hpaddr, hmask⟩ := hsizes _ rfl
    have hpacket : (r.makeFragmentPackets fresh).packet = some (makePacketForRequest
        (r.makeFragmentPackets fresh).request (r.makeFragmentPackets fresh).isLoad
        (r.data.getD fresh) fresh) := by
      simp [makeFragmentPackets, makePacket, hnone]
    rw [hpacket, some.injEq] at hk
    subst hk
    refine ⟨.inr (hsame.kind.trans hkind), ?_, rfl, ?_, ?_, ?_, ?_, ?_, ?_, ?_⟩
    · refine part_makePacketForRequest rfl rfl (Nat.zero_add _).le ?_ hflags ?_ ?_
      · intro i _
        rw [Nat.zero_add]
        rfl
      · simpa [makeFragmentPackets, makePacket, hnone] using hplain.useCVUValue
      · intro hstore i _
        rw [hdata (hsame.isLoad.symm.trans hstore), hsame.writeData, Nat.zero_add]
        rfl
    · rw [hpaddr, hsize]
      exact h.bound hpos
    · rw [hpackets]
      intro q hq
      obtain ⟨f, hf, rfl⟩ := mem_map.mp hq
      exact ⟨_, hpart f hf⟩
    · rw [hlength]
      exact hpos
    · intro i a ha
      obtain ⟨f, hf, hcovers, rfl⟩ := hphys i a ha
      have hfpaddr := (hpart f hf).paddr
      have hfstart := (h.mem (mem_of_mem_take hf)).1
      have hfp : (r.fragmentPacket fresh f).paddr = f.paddr := rfl
      omega
    · intro i _ a ha
      obtain ⟨f, hf, hcovers, -⟩ := hphys i a ha
      rw [hpackets, hvaddr]
      exact ⟨_, mem_map_of_mem hf, hcovers⟩
    · intro hstore i hi henabled hnot
      -- A store has translated all its fragments, so one covers the byte.
      have hstore' : r.isLoad = false := hsame.isLoad.symm.trans hstore
      rw [hsize] at hi
      rw [enabled, hmask] at henabled
      obtain ⟨f, hf, hcovers⟩ := h.exists_fragment hi henabled
      simp only [physAddr, makeFragmentPackets, makePacket, hnone, hkind,
        findSome?_eq_none_iff] at hnot
      rw [hall hstore', take_length] at hnot
      have hfn := hnot f hf
      rw [if_pos hcovers] at hfn
      cases hfn
    · intro _
      simp [makeFragmentPackets, makePacket, hnone, Nat.min_eq_left h.translated]
  · intro hn
    simp [makeFragmentPackets, makePacket, hnone] at hn
  · simp [numBack, numSent, makeFragmentPackets, makePacket, hnone, hkind, hissued, hretired]
  · simp [numSent, makeFragmentPackets, makePacket, hnone, hkind, hissued]
  · intro a ha
    cases ha

/-! ### The outcomes of a translation -/

/-- A request in translation. A split one has fragments to go. -/
def Untranslated (r : LSQRequest) : Prop :=
  r.kind = .splitData →
    (∃ a, Split a r) ∧ r.numTranslatedFragments < r.fragmentRequests.length

/-- A translation sends nothing. -/
theorem numSent_finish (r : LSQRequest) (t : Translation) (fresh : Buffer) :
    (r.finish t fresh).numSent = r.numSent := by
  obtain ⟨_, _, _, _, _, _, _, _, h⟩ := r.finish_eq t fresh
  rw [h]
  rfl

/-- A split request that has sent nothing. -/
theorem ReqOk.unsent (h : ReqOk tid r []) (hkind : r.kind = .splitData) (hnone : r.packet = none) :
    r.numIssuedFragments = 0 ∧ r.numRetiredFragments = 0 := by
  have hcount := h.count
  have hsent := (h.empty hnone).2
  simp only [numBack, numSent, hkind, length_nil] at hcount hsent
  omega

/-- The state does not matter for the fragments. -/
theorem Split.setState (h : Split a r) (fault : Fault) (state : LSQRequestState) :
    Split a { r with translationFault := fault, state := state } :=
  { h with }

/-- `finish` keeps a plain request. -/
theorem ReqOk.finish (h : ReqOk tid r []) (huntranslated : Untranslated r) (hnone : r.packet = none)
    (hdata : r.isLoad = false → r.data = some r.writeData) (ht : PlainTranslation r t)
    (fresh : Buffer) :
    ReqOk tid (r.finish t fresh) [] ∧
      ((r.finish t fresh).state = .inTranslation → Untranslated (r.finish t fresh)) := by
  rcases r.finish_cases t fresh with ⟨-, fault, n, state, heq, hstate⟩ | ⟨hkind, heq⟩ |
    ⟨hkind, hfault, hpos, heq⟩ | ⟨hkind, hlast, heq⟩ | ⟨hkind, hmore, heq⟩ |
    ⟨hsingle, hsplit, heq⟩ <;> rw [heq]
  · -- After a fault there is no packet.
    obtain ⟨hpackets, hsent⟩ := h.empty hnone
    have hback : r.numBack = 0 := by
      have hcount := h.count
      rw [hsent] at hcount
      exact Nat.eq_zero_of_add_eq_zero_left hcount
    refine ⟨ReqOk.of_none (fun hkind => ?_) hnone hpackets hsent hback, fun hs => ?_⟩
    · exact { h.plain hkind with }
    · have hs' : state = .inTranslation := hs
      rw [hs'] at hstate
      rcases hstate with hs | hs <;> cases hs
  · refine ⟨h.finishSingle hkind hnone hdata ht fresh, fun hs => ?_⟩
    rw [state_makePacket] at hs
    cases hs
  · -- A later fragment has a fault that is suppressed, so the request is a load.
    obtain ⟨⟨_, hsp⟩, -⟩ := huntranslated hkind
    have hload : r.isLoad = true := by
      by_contra hstore
      exact hfault (ht.noLoss hkind hpos (Bool.eq_false_iff.mpr hstore))
    obtain ⟨hissued, hretired⟩ := h.unsent hkind hnone
    have hplain : Plain tid { r with translationFault := noFault, state := .translated } :=
      { h.plain (.inr hkind) with }
    refine ⟨(hsp.setState noFault .translated).reqOk hkind hplain hnone hissued hretired
      hdata hpos ?_ fresh, ?_⟩
    · intro hstore
      cases hload.symm.trans hstore
    · intro hs
      unfold makeFragmentPackets at hs
      rw [state_makePacket] at hs
      cases hs
  · -- The last fragment.
    obtain ⟨⟨_, hsp⟩, hlt⟩ := huntranslated hkind
    have hsp' := hsp.translateFragment hkind hlt ht
    obtain ⟨hissued, hretired⟩ := h.unsent hkind hnone
    have hplain : Plain tid ((r.translateFragment t).setState .translated) :=
      { h.plain (.inr hkind) with }
    refine ⟨(hsp'.setState _ .translated).reqOk hkind hplain hnone hissued hretired
      hdata (Nat.succ_pos _) ?_ fresh, ?_⟩
    · intro _
      have hnumber := hsp'.number
      have hfragments : (r.translateFragment t).numFragments = r.numFragments := rfl
      exact hlast.trans hnumber
    · intro hs
      unfold makeFragmentPackets at hs
      rw [state_makePacket] at hs
      cases hs
  · -- A fragment in the middle.
    obtain ⟨⟨_, hsp⟩, hlt⟩ := huntranslated hkind
    have hsp' := hsp.translateFragment hkind hlt ht
    obtain ⟨hpackets, hsent⟩ := h.empty hnone
    refine ⟨ReqOk.of_none (fun _ => { h.plain (.inr hkind) with }) hnone ?_ hsent ?_,
      fun _ _ => ⟨⟨_, hsp'⟩, ?_⟩⟩
    · simpa [packets, translateFragment] using hpackets
    · have hretired := (h.unsent hkind hnone).2
      simpa [numBack, translateFragment, hkind] using hretired
    · have hnumber := hsp.number
      simp only [translateFragment, length_modify]
      omega
  · refine ⟨h, fun _ hkind => absurd hkind hsplit⟩

/-- A new request of `pushRequest`. -/
theorem reqOk_push (args : PushArgs) (cvu : CVU) (lineWidth : Nat) (fresh : Buffer)
    (hthread : args.inst.id.threadId = tid) (hflags : args.flags.plain = true)
    (hconstant : args.isLoad = true → args.inst.lvptOut.constant = false)
    (hmask : args.byteEnable.length = args.size)
    (hwidth : ∃ k < 32, lineWidth = 2 ^ k)
    (hroom : transferNeedsBurst args.addr args.size lineWidth = true →
      args.size < 2 ^ 32 ∧ args.addr + args.size + lineWidth ≤ 2 ^ 64) :
    let r := (args.newRequest cvu lineWidth fresh).startAddrTranslation lineWidth
    ReqOk tid r [] ∧ (r.state = .inTranslation → Untranslated r) := by
  have hcvu : args.usesCVU cvu = false := by
    cases hload : args.isLoad with
    | false => simp [PushArgs.usesCVU, hload]
    | true => simp [PushArgs.usesCVU, hconstant hload]
  have hlocal : args.flags.noAccess = false := by
    simp only [plain, Bool.not_eq_true', Bool.or_eq_false_iff] at hflags
    exact hflags.2
  obtain ⟨fragments, n, state, heq, -⟩ := startAddrTranslation_newRequest args cvu lineWidth fresh
  refine ⟨?_, fun hstate hkind => ?_⟩
  · rw [heq]
    refine ReqOk.of_none (fun _ => ⟨hthread, hflags, hlocal, hcvu, hconstant, hmask⟩) rfl ?_ ?_ ?_ <;>
      rcases kind_newRequest args cvu lineWidth fresh with hkind | hkind <;>
      simp only [hkind] <;> rfl
  · -- The access crosses a line, and some byte of it is enabled.
    have hkind : (args.newRequest cvu lineWidth fresh).kind = .splitData := by
      rw [heq] at hkind
      exact hkind
    have hburst : transferNeedsBurst args.addr args.size lineWidth = true := by
      by_contra hnot
      simp [PushArgs.newRequest, LSQRequest.new, hnot] at hkind
    obtain ⟨k, hk, rfl⟩ := hwidth
    obtain ⟨hsize, hroom⟩ := hroom hburst
    have hpos : 0 < 2 ^ k := Nat.two_pow_pos k
    let a : SplitAccess :=
      ⟨(args.newRequest cvu (2 ^ k) fresh).request, k, hk, hsize, hmask, hburst,
        show args.addr + args.size < 2 ^ 64 by omega⟩
    have hsp : Split a ((args.newRequest cvu (2 ^ k) fresh).makeFragmentRequests a.lineWidth) :=
      split_makeFragmentRequests rfl hroom hflags rfl
    simp only [startAddrTranslation, hkind] at hstate ⊢
    split at hstate
    · rename_i hpos
      rw [if_pos hpos]
      exact ⟨⟨a, hsp.setState _ .inTranslation⟩, hpos.trans_eq hsp.number⟩
    · cases hstate

end

end LSQRequest

end Gem5.MyMinor
