import Gem5.Proofs.MyMinor.StoreCommit

/-!
# `Gem5.Proofs.MyMinor.StoreCoverage`: the store buffer and physical memory

`containsAddrRangeOf` compares one interval per request, `[paddr, paddr + size)`. A request
that was split has the physical address of its first fragment, so the interval says where its
bytes are only if the fragments follow each other in physical memory too.

`Exact` is what the search of the store buffer should mean in physical memory, and `SlotsExact`
what the intervals have to get right for it. They do when every slot is `Contiguous` and the
load is `Straight`, and neither condition can be dropped.
-/

namespace Gem5.MyMinor

open List LSQ LvptOut

namespace LSQRequest

variable {r slot load : LSQRequest} {i j a : Nat}

/-! ### The bytes of an access -/

/-- Byte `i` of the access takes part in it and is at the physical address `a`. -/
def At (r : LSQRequest) (i a : Nat) : Prop :=
  i < r.request.size ∧ r.request.enabled i = true ∧ r.physAddr i = some a

instance : Decidable (r.At i a) :=
  inferInstanceAs (Decidable (_ ∧ _ ∧ _))

/-- The two accesses have no physical byte in common. -/
def Apart (r other : LSQRequest) : Prop :=
  ∀ i j a, r.At i a → ¬ other.At j a

/-- The interval of the access ends below the end of the address space. -/
def InRange (r : LSQRequest) : Prop :=
  r.request.paddr + r.request.size < 2 ^ 64

/-- The bytes that a store writes are in its interval, and if it has no mask they are all of
it, in order. -/
structure Contiguous (r : LSQRequest) : Prop where
  within : ∀ i a, r.At i a → r.request.paddr ≤ a ∧ a < r.request.paddr + r.request.size
  placed : r.request.isMasked = false →
    ∀ i < r.request.size, r.At i (r.request.paddr + i)

/-- The bytes that a load reads are in its interval, in order. -/
def Straight (r : LSQRequest) : Prop :=
  ∀ i a, r.At i a → a = r.request.paddr + i

/-- An access within one line and without a mask. -/
structure OneLine (r : LSQRequest) : Prop where
  kind : r.kind = .singleData
  byteEnable : r.request.byteEnable = List.replicate r.request.size true
  inRange : r.InRange

/-- A request inside a line has consecutive physical addresses. -/
theorem OneLine.at_iff (h : r.OneLine) :
    r.At i a ↔ i < r.request.size ∧ a = r.request.paddr + i := by
  have henabled : i < r.request.size → r.request.enabled i = true := by
    intro hi
    simp [Request.enabled, h.byteEnable, hi]
  constructor
  · rintro ⟨hi, -, haddr⟩
    simp only [physAddr, h.kind, Option.some.injEq] at haddr
    exact ⟨hi, haddr.symm⟩
  · rintro ⟨hi, rfl⟩
    exact ⟨hi, henabled hi, by simp [physAddr, h.kind]⟩

theorem OneLine.straight (h : r.OneLine) : r.Straight := fun _ _ hat => (h.at_iff.mp hat).2

theorem OneLine.contiguous (h : r.OneLine) : r.Contiguous where
  within i a hat := by
    obtain ⟨hi, rfl⟩ := h.at_iff.mp hat
    omega
  placed _ i hi := h.at_iff.mpr ⟨hi, rfl⟩

/-! ### One slot -/

/-- The slots that the search looks at: those of the thread that have a packet and are not a
cache maintenance operation. -/
def Considered (slot load : LSQRequest) : Prop :=
  slot.packet.isSome = true ∧ slot.inst.id.threadId = load.inst.id.threadId ∧
    slot.request.flags.cacheMaintenance = false

instance : Decidable (slot.Considered load) :=
  inferInstanceAs (Decidable (_ ∧ _ ∧ _))

/-- `forwardStoreData` takes byte `j` of the load from byte `i` of the store, whatever the
bytes of the store are. -/
def Forwards (store load : LSQRequest) (i j : Nat) : Prop :=
  ∀ written packet : Packet,
    ((forwardStoreData { store with packet := some written } load packet).packet.map
      fun k => k.data j) = some (written.data i)

/-- `forwardStoreData` copies with the offset between the two addresses. -/
theorem forwards_iff (hj : j < load.request.size) :
    Forwards slot load i j ↔ i = load.request.paddr - slot.request.paddr + j := by
  have hcopy (written packet : Packet) :
      ((forwardStoreData { slot with packet := some written } load packet).packet.map
        fun k => k.data j) =
        some (written.data (load.request.paddr - slot.request.paddr + j)) := by
    simp [forwardStoreData, memcpy, hj]
  constructor
  · intro h
    -- a store whose bytes tell its offsets apart
    let written : Packet :=
      { isLoad := false, isLLSC := false, isSwap := false, isMaintenance := false, vaddr := 0
        paddr := 0, size := 0, byteEnable := [], useCVUValue := false
        data := fun k => if k = i then 1 else 0 }
    have heq := (h written written).symm.trans (hcopy written written)
    simp only [written, if_true, Option.some.injEq] at heq
    by_contra hne
    rw [if_neg fun h => hne h.symm] at heq
    exact absurd heq (by decide)
  · rintro rfl
    exact hcopy

theorem slotCoverage_of_considered (h : slot.Considered load) :
    slotCoverage slot load = slot.containsAddrRangeOf load := by
  obtain ⟨hpacket, hthread, hmaintenance⟩ := h
  simp [slotCoverage, hpacket, hthread, hmaintenance]

theorem considered_of_slotCoverage (h : slotCoverage slot load ≠ .noCoverage) :
    slot.Considered load := by
  unfold slotCoverage at h
  split at h
  case isTrue hc => simpa [Considered, and_assoc] using hc
  case isFalse => exact absurd rfl h

/-- Below the end of the address space, no coverage means that the intervals are disjoint. -/
theorem containsAddrRangeOf_eq_noCoverage (hslot : slot.InRange) (hload : load.InRange) :
    slot.containsAddrRangeOf load = .noCoverage ↔
      load.request.paddr + load.request.size ≤ slot.request.paddr ∨
        slot.request.paddr + slot.request.size ≤ load.request.paddr := by
  rw [containsAddrRangeOf, addrRangeCoverage, Nat.mod_eq_of_lt hslot, Nat.mod_eq_of_lt hload]
  simp only [Bool.or_eq_true, decide_eq_true_eq]
  by_cases h : load.request.paddr + load.request.size ≤ slot.request.paddr ∨
      slot.request.paddr + slot.request.size ≤ load.request.paddr
  · simp [h]
  · rw [if_neg h]
    split <;> split_ifs <;> simp_all

/-- And full coverage that the slot has no mask and the interval of the load is inside. -/
theorem containsAddrRangeOf_eq_fullCoverage (hslot : slot.InRange) (hload : load.InRange) :
    slot.containsAddrRangeOf load = .fullCoverage ↔
      (load.request.paddr + load.request.size > slot.request.paddr ∧
        slot.request.paddr + slot.request.size > load.request.paddr) ∧
      (slot.request.paddr ≤ load.request.paddr ∧
        load.request.paddr + load.request.size ≤ slot.request.paddr + slot.request.size) ∧
      slot.request.isMasked = false := by
  rw [containsAddrRangeOf, addrRangeCoverage, Nat.mod_eq_of_lt hslot, Nat.mod_eq_of_lt hload]
  simp only [Bool.or_eq_true, Bool.and_eq_true, decide_eq_true_eq]
  by_cases hout : load.request.paddr + load.request.size ≤ slot.request.paddr ∨
      slot.request.paddr + slot.request.size ≤ load.request.paddr
  · rw [if_pos hout]
    simp only [reduceCtorEq, false_iff]
    omega
  · rw [if_neg hout]
    by_cases hin : slot.request.paddr ≤ load.request.paddr ∧
        load.request.paddr + load.request.size ≤ slot.request.paddr + slot.request.size
    · rw [if_pos hin]
      cases hmask : slot.request.isMasked <;> simp
      omega
    · simp [hin]

end LSQRequest

namespace LSQ

open LSQRequest

variable {l : LSQ} {load : LSQRequest}

/-! ### The search -/

/-- The slots that are younger than `s`. -/
def youngerThan (l : LSQ) (s : Nat) : List Nat :=
  l.slots.reverse.takeWhile fun q => q != s

/-- What the answer of `canForwardDataToLoad` should mean. No coverage: no slot writes a byte
that the load reads. Full coverage: every byte that the load reads is written by the slot and
by no younger one, and `forwardStoreData` takes it from there. -/
structure Exact (l : LSQ) (load : LSQRequest) : Prop where
  apart : (l.canForwardDataToLoad load).1 = .noCoverage →
    ∀ q ∈ l.slots, (l.heap q).Considered load → (l.heap q).Apart load
  covered : ∀ s, l.canForwardDataToLoad load = (.fullCoverage, s) →
    s ∈ l.slots ∧
      (∀ q ∈ l.youngerThan s, (l.heap q).Considered load → (l.heap q).Apart load) ∧
      ∀ j a, load.At j a → ∃ i, (l.heap s).At i a ∧ (l.heap s).Forwards load i j

/-- The slots from the youngest one whose interval overlaps that of the load. -/
def overlapping (l : LSQ) (load : LSQRequest) : List Nat :=
  l.slots.reverse.dropWhile fun q => slotCoverage (l.heap q) load == .noCoverage

/-- What the intervals have to get right. The slots that they rule out, up to the youngest one
that overlaps, are apart from the load. If that one contains the interval of the load, its bytes
are where the two intervals put them. -/
def SlotsExact (l : LSQ) (load : LSQRequest) : Prop :=
  match l.overlapping load with
  | [] => ∀ q ∈ l.slots, (l.heap q).Considered load → (l.heap q).Apart load
  | s :: _ => slotCoverage (l.heap s) load = .fullCoverage →
      (∀ q ∈ l.youngerThan s, (l.heap q).Considered load → (l.heap q).Apart load) ∧
      ∀ j a, load.At j a →
        (l.heap s).At (load.request.paddr - (l.heap s).request.paddr + j) a

/-- The search stops at the youngest slot that overlaps the load. -/
theorem findCoverage_cases (l : LSQ) (load : LSQRequest) (qs : List Nat) :
    ((l.findCoverage load qs).1 = .noCoverage ∧
      (qs.dropWhile fun q => slotCoverage (l.heap q) load == .noCoverage) = [] ∧
      ∀ q ∈ qs, slotCoverage (l.heap q) load = .noCoverage) ∨
    ∃ s older, (qs.dropWhile fun q => slotCoverage (l.heap q) load == .noCoverage) = s :: older ∧
      s ∈ qs ∧ (∀ q ∈ qs.takeWhile fun q => q != s, slotCoverage (l.heap q) load = .noCoverage) ∧
      slotCoverage (l.heap s) load ≠ .noCoverage ∧
      l.findCoverage load qs = (slotCoverage (l.heap s) load, s) := by
  induction qs with
  | nil => exact .inl ⟨rfl, rfl, by simp⟩
  | cons q rest ih =>
    by_cases hq : slotCoverage (l.heap q) load = .noCoverage
    · rw [findCoverage, hq, dropWhile_cons_of_pos (by simp [hq])]
      obtain ⟨hnone, hdrop, hall⟩ | ⟨s, older, hdrop, hmem, hall, hs, hfind⟩ := ih
      · exact .inl ⟨hnone, hdrop, forall_mem_cons.mpr ⟨hq, hall⟩⟩
      · refine .inr ⟨s, older, hdrop, mem_cons_of_mem q hmem, fun x hx => ?_, hs, hfind⟩
        have hne : q ≠ s := fun h => hs (h ▸ hq)
        rw [takeWhile_cons_of_pos (by simpa using hne)] at hx
        rcases mem_cons.mp hx with rfl | hx
        · exact hq
        · exact hall x hx
    · refine .inr ⟨q, rest, by simp [hq], by simp, by simp, hq, ?_⟩
      cases hc : slotCoverage (l.heap q) load <;> simp_all [findCoverage]

/-- The answer of the search is exact just if the intervals get the slots right. -/
theorem exact_iff_slotsExact : l.Exact load ↔ l.SlotsExact load := by
  unfold SlotsExact overlapping
  obtain ⟨hnone, hdrop, -⟩ | ⟨s, older, hdrop, hmem, -, hs, hfind⟩ :=
    l.findCoverage_cases load l.slots.reverse
  · rw [hdrop]
    refine ⟨fun h => h.apart hnone, fun h => ⟨fun _ => h, fun s hs => ?_⟩⟩
    rw [canForwardDataToLoad] at hs
    simp [hs] at hnone
  · rw [hdrop]
    constructor
    · intro h hfull
      obtain ⟨-, hyounger, hcovers⟩ := h.covered s (by rw [canForwardDataToLoad, hfind, hfull])
      refine ⟨hyounger, fun j a hread => ?_⟩
      obtain ⟨i, hat, hforwards⟩ := hcovers j a hread
      exact (forwards_iff hread.1).mp hforwards ▸ hat
    · intro h
      refine ⟨fun hnone => ?_, fun s' hs' => ?_⟩
      · rw [canForwardDataToLoad, hfind] at hnone
        exact absurd hnone hs
      · rw [canForwardDataToLoad, hfind] at hs'
        obtain ⟨hfull, rfl⟩ := Prod.mk.inj hs'
        obtain ⟨hyounger, hcovers⟩ := h hfull
        exact ⟨mem_reverse.mp hmem, hyounger, fun j a hread =>
          ⟨_, hcovers j a hread, (forwards_iff hread.1).mpr rfl⟩⟩

/-- The search is exact over contiguous slots for a straight load. -/
theorem exact_of_contiguous (hslots : ∀ q ∈ l.slots, (l.heap q).Considered load →
      (l.heap q).InRange ∧ (l.heap q).Contiguous)
    (hload : load.InRange) (hstraight : load.Straight) : l.Exact load := by
  have hpasses : ∀ q ∈ l.slots, slotCoverage (l.heap q) load = .noCoverage →
      (l.heap q).Considered load → (l.heap q).Apart load := by
    intro q hq hnone hc
    obtain ⟨hrange, hcontiguous⟩ := hslots q hq hc
    rw [slotCoverage_of_considered hc] at hnone
    -- The intervals are disjoint, so they share no byte.
    have hdisjoint := (containsAddrRangeOf_eq_noCoverage hrange hload).mp hnone
    intro i j a hwrite hread
    have hwithin := hcontiguous.within i a hwrite
    have haddr := hstraight j a hread
    have hj := hread.1
    omega
  rw [exact_iff_slotsExact, SlotsExact, overlapping]
  obtain ⟨-, hdrop, hall⟩ | ⟨s, older, hdrop, hmem, hall, hs, -⟩ :=
    l.findCoverage_cases load l.slots.reverse
  · rw [hdrop]
    exact fun q hq => hpasses q hq (hall q (mem_reverse.mpr hq))
  · rw [hdrop]
    intro hfull
    have hc := considered_of_slotCoverage hs
    obtain ⟨hrange, hcontiguous⟩ := hslots s (mem_reverse.mp hmem) hc
    rw [slotCoverage_of_considered hc] at hfull
    refine ⟨fun q hq => ?_, fun j a hread => ?_⟩
    · have hq' := mem_reverse.mp ((takeWhile_sublist _).subset hq)
      exact hpasses q hq' (hall q hq)
    · -- The slot writes every byte of the load, at the offset of the copy.
      obtain ⟨-, ⟨hle, hend⟩, hmask⟩ := (containsAddrRangeOf_eq_fullCoverage hrange hload).mp hfull
      have haddr := hstraight j a hread
      have hj := hread.1
      have hplaced := hcontiguous.placed hmask
        (load.request.paddr - (l.heap s).request.paddr + j) (by omega)
      rw [show (l.heap s).request.paddr + (load.request.paddr - (l.heap s).request.paddr + j) = a
        by omega] at hplaced
      exact hplaced

/-! ### The conditions are needed -/

variable {q : Nat}

/-- The search over one slot. -/
theorem canForwardDataToLoad_singleton (hslots : l.slots = [q]) :
    (l.canForwardDataToLoad load).1 = slotCoverage (l.heap q) load ∧
      (slotCoverage (l.heap q) load ≠ .noCoverage →
        l.canForwardDataToLoad load = (slotCoverage (l.heap q) load, q)) := by
  rw [canForwardDataToLoad, hslots]
  cases h : slotCoverage (l.heap q) load <;> simp [findCoverage, h]

/-- A load of one byte within one line, as the thread of `slot` makes it. -/
def byteLoad (slot : LSQRequest) (a : Nat) : LSQRequest :=
  { slot with
    kind := .singleData, isLoad := true
    request := { slot.request with paddr := a, size := 1, byteEnable := [true] } }

theorem byteLoad_oneLine {slot : LSQRequest} {a : Nat} (ha : a + 1 < 2 ^ 64) :
    (byteLoad slot a).OneLine := ⟨rfl, rfl, ha⟩

/-- If the search is exact over one slot for every load within one line, the slot is
contiguous: loads of one byte find out. -/
theorem contiguous_of_exact (hslots : l.slots = [q]) (hpacket : (l.heap q).packet.isSome = true)
    (hmaintenance : (l.heap q).request.flags.cacheMaintenance = false) (hrange : (l.heap q).InRange)
    (hbelow : ∀ i a, (l.heap q).At i a → a + 1 < 2 ^ 64)
    (h : ∀ load : LSQRequest, load.OneLine →
      (l.heap q).inst.id.threadId = load.inst.id.threadId → l.Exact load) :
    (l.heap q).Contiguous := by
  have hc (a : Nat) : (l.heap q).Considered (byteLoad (l.heap q) a) := ⟨hpacket, rfl, hmaintenance⟩
  have hreads {a : Nat} (ha : a + 1 < 2 ^ 64) : (byteLoad (l.heap q) a).At 0 a :=
    (byteLoad_oneLine ha).at_iff.mpr ⟨Nat.one_pos, rfl⟩
  refine ⟨fun i a hat => ?_, fun hmask i hi => ?_⟩
  · have ha := hbelow i a hat
    by_contra hout
    have hnone : (l.heap q).containsAddrRangeOf (byteLoad (l.heap q) a) = .noCoverage := by
      refine (containsAddrRangeOf_eq_noCoverage hrange (byteLoad_oneLine ha).inRange).mpr ?_
      show a + 1 ≤ _ ∨ _ ≤ a
      omega
    have hexact := h _ (byteLoad_oneLine ha) rfl
    refine hexact.apart ?_ q (by simp [hslots]) (hc a) i 0 a hat (hreads ha)
    rw [(canForwardDataToLoad_singleton hslots).1, slotCoverage_of_considered (hc a), hnone]
  · have ha : (l.heap q).request.paddr + i + 1 < 2 ^ 64 := by
      have : (l.heap q).request.paddr + (l.heap q).request.size < 2 ^ 64 := hrange
      omega
    have hfull : slotCoverage (l.heap q) (byteLoad (l.heap q) ((l.heap q).request.paddr + i)) =
        .fullCoverage := by
      rw [slotCoverage_of_considered (hc _)]
      refine (containsAddrRangeOf_eq_fullCoverage hrange (byteLoad_oneLine ha).inRange).mpr
        ⟨?_, ?_, hmask⟩ <;> simp only [byteLoad] <;> omega
    have hfind := (canForwardDataToLoad_singleton hslots).2 (by rw [hfull]; simp)
    rw [hfull] at hfind
    obtain ⟨-, -, hcovers⟩ := (h _ (byteLoad_oneLine ha) rfl).covered q hfind
    -- the copy takes the byte from offset `i`, so that is where the slot has it
    obtain ⟨k, hat, hforwards⟩ := hcovers 0 _ (hreads ha)
    have hk : k = i := by
      rw [(forwards_iff Nat.one_pos).mp hforwards]
      show (l.heap q).request.paddr + i - (l.heap q).request.paddr + 0 = i
      omega
    exact hk ▸ hat

/-- The store within one line that covers the interval of a load. -/
def lineStore (load : LSQRequest) : LSQRequest :=
  { load with
    kind := .singleData, isLoad := false
    request :=
      { load.request with
        byteEnable := List.replicate load.request.size true
        flags := { load.request.flags with cacheMaintenance := false } }
    packet := some
      (makePacketForRequest load.request false load.writeData load.writeData) }

/-- If the search is exact for a load over every store within one line, the load is
straight: the store of its own interval finds out. -/
theorem straight_of_exact (hload : load.InRange)
    (h : ∀ l : LSQ, (∀ q ∈ l.slots, (l.heap q).OneLine) → l.Exact load) : load.Straight := by
  intro j a hread
  have hsize : 0 < load.request.size := Nat.zero_lt_of_lt hread.1
  have hline : (lineStore load).OneLine := ⟨rfl, rfl, hload⟩
  have hc : (lineStore load).Considered load := ⟨rfl, rfl, rfl⟩
  let params : LSQParams :=
    { lineBits := 0, inMemorySystemLimit := 1, transfersQueueSize := 1
      numSlots := 1, storeLimitPerCycle := 1, thresholdLCT := 1, tableSizeCVU := 1 }
  let l : LSQ := { new params with heap := fun _ => lineStore load, slots := [0] }
  have hfull : slotCoverage (l.heap 0) load = .fullCoverage := by
    show slotCoverage (lineStore load) load = .fullCoverage
    rw [slotCoverage_of_considered hc]
    refine (containsAddrRangeOf_eq_fullCoverage hline.inRange hload).mpr
      ⟨?_, ?_, by simp [Request.isMasked, hline.byteEnable]⟩ <;> simp only [lineStore] <;> omega
  have hfind := (canForwardDataToLoad_singleton rfl).2 (by rw [hfull]; simp)
  rw [hfull] at hfind
  obtain ⟨-, -, hcovers⟩ := (h l fun _ _ => hline).covered 0 hfind
  obtain ⟨i, hat, hforwards⟩ := hcovers j a hread
  have hi : i = j := by
    rw [(forwards_iff hread.1).mp hforwards]
    show load.request.paddr - load.request.paddr + j = j
    omega
  exact hi ▸ (hline.at_iff.mp hat).2

/-- The answer of the search is exact for contiguous slots and a straight load, below the end of
the address space. Neither can be dropped: a single slot is exact for every load within one line
just if it is contiguous, and a load is exact over all stores within one line just if it is
straight. For any slots and any load, the answer is exact just if the intervals get right what they
say about the slots up to the youngest one that overlaps. -/
theorem coverage_exact_iff (l : LSQ) (load : LSQRequest) : (l.Exact load ↔ l.SlotsExact load) ∧
    ((∀ q ∈ l.slots, (l.heap q).Considered load → (l.heap q).InRange ∧ (l.heap q).Contiguous) →
      load.InRange → load.Straight → l.Exact load) ∧
    (∀ q, l.slots = [q] → (l.heap q).packet.isSome = true →
      (l.heap q).request.flags.cacheMaintenance = false → (l.heap q).InRange →
      (∀ i a, (l.heap q).At i a → a + 1 < 2 ^ 64) →
      ((∀ load' : LSQRequest, load'.OneLine →
        (l.heap q).inst.id.threadId = load'.inst.id.threadId → l.Exact load') ↔
        (l.heap q).Contiguous)) ∧
    (load.InRange → ((∀ l' : LSQ, (∀ q ∈ l'.slots, (l'.heap q).OneLine) → l'.Exact load) ↔
        load.Straight)) := by
  refine ⟨exact_iff_slotsExact, exact_of_contiguous, ?_, ?_⟩
  · intro q hslots hpacket hmaintenance hrange hbelow
    refine ⟨contiguous_of_exact hslots hpacket hmaintenance hrange hbelow, ?_⟩
    intro hcontiguous load hline _
    refine exact_of_contiguous (fun q' hq' _ => ?_) hline.inRange hline.straight
    obtain rfl : q' = q := by simpa [hslots] using hq'
    exact ⟨hrange, hcontiguous⟩
  · intro hload
    refine ⟨straight_of_exact hload, fun hstraight l hlines => ?_⟩
    exact exact_of_contiguous (fun q hq _ => ⟨(hlines q hq).inRange, (hlines q hq).contiguous⟩)
      hload hstraight

/-- The search for a load within one line over the store of the same interval. -/
theorem coverage_exact_oneLine :
    let load := byteLoad (lineStore ((LSQ.new LSQSystem.smallParams).heap 0)) 0x100
    { LSQ.new LSQSystem.smallParams with heap := fun _ => lineStore load, slots := [0] }.Exact
      load := by
  intro load
  have hload : load.OneLine := byteLoad_oneLine (by decide)
  have hstore : (lineStore load).OneLine := ⟨rfl, rfl, hload.inRange⟩
  exact (coverage_exact_iff _ load).2.1 (fun _ _ _ => ⟨hstore.inRange, hstore.contiguous⟩)
    hload.inRange hload.straight

open LSQSystem

/-- A store of 8 bytes over the end of a page. The two pages are at 0x5000 and 0x9000 in physical
memory. It waits in the store buffer while a load reads the first 4 bytes of the second page. -/
def splitStore : List Event :=
  [smallPush 0 false zero 0xffc 8 0xaa noFlags, smallTranslation 0 0 0x5ffc,
    smallTranslation 0 0 0x9000, .commit smallCommit,
    smallPush 1 true zero 0x1000 4 0 noFlags, smallTranslation 1 1 0x9000]

/-- A store of 8 bytes at the end of the address space, and a load of the same bytes. -/
def lastStore : List Event :=
  [smallPush 0 false zero (2 ^ 64 - 8) 8 0xaa noFlags, smallTranslation 0 0 (2 ^ 64 - 8),
    .commit smallCommit,
    smallPush 1 true zero (2 ^ 64 - 8) 8 0 noFlags, smallTranslation 1 1 (2 ^ 64 - 8)]

/-- Both times the search finds no coverage, although the store writes a byte that the load
reads. -/
theorem coverage_misses_fragment :
    (∃ s, afterOnes splitStore = some s ∧ ¬ s.lsq.Exact (s.lsq.heap 1)) ∧
      ∃ s, afterOnes lastStore = some s ∧ ¬ s.lsq.Exact (s.lsq.heap 1) := by
  have hmissed {es : List Event} {i a : Nat} (htest : ∃ s ∈ afterOnes es,
      (s.lsq.canForwardDataToLoad (s.lsq.heap 1)).1 = .noCoverage ∧ 0 ∈ s.lsq.slots ∧
        (s.lsq.heap 0).Considered (s.lsq.heap 1) ∧ (s.lsq.heap 0).At i a ∧
        (s.lsq.heap 1).At 0 a) :
      ∃ s, afterOnes es = some s ∧ ¬ s.lsq.Exact (s.lsq.heap 1) := by
    obtain ⟨s, hrun, hnone, hmem, hc, hwrite, hread⟩ := htest
    exact ⟨s, hrun, fun h => h.apart hnone 0 hmem hc i 0 a hwrite hread⟩
  exact ⟨hmissed (i := 4) (a := 0x9000) (by decide +kernel),
    hmissed (i := 0) (a := 2 ^ 64 - 8) (by decide +kernel)⟩

end LSQ

end Gem5.MyMinor
