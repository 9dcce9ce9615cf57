import Gem5.MyMinor.ValuePrediction
import Gem5.Proofs.MyMinor.MemResponse

/-!
# `Gem5.Proofs.MyMinor.ValuePrediction`: when a CVU hit returns the committed bytes

A CVU hit replaces the data of a load by the predicted value. This is transparent when
the bytes of the matching entry still are the committed bytes at its physical address.
`EntriesCurrent` is that invariant, for the bytes that the inserting access read.

The source does not keep it in every run. `storeInvalidate` compares start addresses only, and only
stores that pass through the store buffer call it. The lookup compares virtual addresses, and no
size is recorded. `CommitSafe` names the conditions under which none of this matters:
`hit_returns_committed_bytes` is the result for runs, and `hit_returns_stale_byte` is a run of plain
loads and stores that breaks it.

The last section asks when a confirmed constant is in the CVU. A commit inserts it at a counter that
equals the threshold, so a constant that a store has invalidated stays out once its counter is above
(`confirmed_constant_lost`).
-/

namespace Gem5.MyMinor.ValuePrediction

open MemResponse State Lib Option

/-- The bytes that a valid entry guards are the committed bytes at its physical
address, and they are bytes of its 8-byte value. -/
structure EntriesCurrent (s : State) : Prop where
  guardSize_le : ∀ i, s.guardSize i ≤ 8
  bytes : ∀ i < s.cvu.tableSize, (s.cvu.entry i).valid = true → ∀ j < s.guardSize i,
    byteOfWord (s.cvu.entry i).data j = s.mem ((s.cvu.entry i).paddr + j)

/-- When the access writes a byte that a valid entry guards, it goes through the store
buffer and has the start address of the entry, virtual or physical. -/
def WriteSafe (s : State) (a : Access) (packet : Packet) : Prop :=
  s.writes a = true → ∀ i < s.cvu.tableSize, (s.cvu.entry i).valid = true →
    ∀ j < s.guardSize i, a.effect ((s.cvu.entry i).paddr + j) ≠ none →
      a.response.needsToBeSentToStoreBuffer = true ∧
        (s.cvu.entry i).hasAddr packet.vaddr packet.paddr = true

/-- An access that fills a slot fills a slot of the table, and the bytes it read are the
committed bytes at its physical address. -/
def InsertSafe (s : State) (a : Access) (packet : Packet) : Prop :=
  s.inserts a packet = true →
    s.cvu.newEntryIndex a.env.rand < s.cvu.tableSize ∧
      ∀ j < min packet.size 8, packet.data j = s.memAfter a (packet.paddr + j)

/-- The bytes of a load that hits are consecutive in physical memory, and some matching
entry has the load's physical address and guards all its bytes. -/
def HitSafe (s : State) (a : Access) (packet : Packet) : Prop :=
  a.response.isLoad = true → entryInCVU s.cvu a.response.inst packet = true →
    (∀ j < packet.size, a.physAddr j = packet.paddr + j) ∧
      ∃ i < s.cvu.tableSize, (s.cvu.entry i).valid = true ∧
        (s.cvu.entry i).data = a.response.inst.lvptOut.value ∧
        (s.cvu.entry i).paddr = packet.paddr ∧ packet.size ≤ s.guardSize i

/-- The conditions on the commit of an access with the packet `packet`. -/
structure CommitSafe (s : State) (a : Access) (packet : Packet) : Prop where
  write : WriteSafe s a packet
  insert : InsertSafe s a packet
  hit : HitSafe s a packet

section
variable (s : State) (a : Access) (packet : Packet)

instance : Decidable (WriteSafe s a packet) := by
  unfold WriteSafe
  infer_instance

instance : Decidable (InsertSafe s a packet) := by
  unfold InsertSafe
  infer_instance

instance : Decidable (HitSafe s a packet) := by
  unfold HitSafe
  infer_instance

instance : Decidable (CommitSafe s a packet) :=
  decidable_of_iff (WriteSafe s a packet ∧ InsertSafe s a packet ∧ HitSafe s a packet)
    ⟨fun h => ⟨h.1, h.2.1, h.2.2⟩, fun h => ⟨h.write, h.insert, h.hit⟩⟩

end

/-- The condition on an event: a commit of an access with a packet is safe. -/
def EventSafe (s : State) : Event → Prop
  | .commit a =>
    match a.response.translationFault, a.response.packet with
    | none, some packet => CommitSafe s a packet
    | _, _ => True
  | _ => True

instance (s : State) (e : Event) : Decidable (EventSafe s e) := by
  unfold EventSafe
  split
  · split <;> infer_instance
  · infer_instance

variable {s s' : State} {a : Access} {e : Event} {packet : Packet}

theorem EventSafe.commitSafe (h : EventSafe s (.commit a))
    (hfault : a.response.translationFault = none) (hpacket : a.response.packet = some packet) :
    CommitSafe s a packet := by
  simpa only [EventSafe, hfault, hpacket] using h

/-- The inversion of a commit step. -/
theorem step_commit (h : step s (.commit a) = some s') :
    s' = { s with cvu := (s.result a).cvu, mem := s.memAfter a,
                  guardSize := s.guardSizeAfter a } := by
  simp only [step] at h
  split at h
  · exact (some.inj h).symm
  · cases h

/-- An access without a packet, or with a translation fault, changes nothing. -/
theorem commit_of_no_access (h : a.response.translationFault ≠ none ∨ a.response.packet = none) :
    (s.result a).cvu = s.cvu ∧ s.memAfter a = s.mem ∧ s.guardSizeAfter a = s.guardSize := by
  refine ⟨handleMemResponse_cvu_of_no_access h, ?_, ?_⟩
  · have hwrites : s.writes a = false := by
      rcases h with h | h
      · cases hf : a.response.translationFault with
        | none => exact absurd hf h
        | some => simp [writes, hf]
      · simp [writes, h]
    simp [memAfter, hwrites]
  · unfold guardSizeAfter
    rcases h with h | h
    · cases hf : a.response.translationFault with
      | none => exact absurd hf h
      | some => rfl
    · cases a.response.translationFault <;> simp [h]

section
variable {s : State} {a : Access} {packet : Packet}

/-- A safe commit of an access with a packet keeps the entries current. -/
theorem entriesCurrent_commit (hinv : EntriesCurrent s)
    (hfault : a.response.translationFault = none)
    (hpacket : a.response.packet = some packet) (hsafe : CommitSafe s a packet) :
    EntriesCurrent { s with cvu := (s.result a).cvu, mem := s.memAfter a,
                            guardSize := s.guardSizeAfter a } := by
  have hresult : s.result a = completeAccess s.lvpt.threshold a.env s.cvu a.response packet :=
    handleMemResponse_of_access hfault hpacket
  have hguard : ∀ i, s.guardSizeAfter a i
      = if s.inserts a packet = true ∧ i = s.cvu.newEntryIndex a.env.rand then
          min packet.size 8
        else s.guardSize i := by
    intro i
    simp only [guardSizeAfter, hfault, hpacket]
    by_cases hins : s.inserts a packet = true <;> simp [hins]
  refine ⟨fun i => ?_, fun i hi hvalid j hj => ?_⟩
  · dsimp only
    rw [hguard]
    split
    · omega
    · exact hinv.guardSize_le i
  replace hi : i < s.cvu.tableSize := by
    have hsize : (s.result a).cvu.tableSize = s.cvu.tableSize := handleMemResponse_tableSize
    exact hsize ▸ hi
  dsimp only at hvalid hj ⊢
  rw [hguard] at hj
  rw [hresult] at hvalid
  obtain ⟨hentry, hmatch⟩ := completeAccess_valid hvalid
  rw [hentry] at hvalid
  rw [hresult, hentry]
  rw [entry_cvuLoaded] at hvalid hmatch ⊢
  by_cases hnew : s.inserts a packet = true ∧ i = s.cvu.newEntryIndex a.env.rand
  · -- The slot was filled by this access.
    obtain ⟨hbound, hbytes⟩ := hsafe.insert hnew.1
    rw [if_pos hnew] at hj
    rw [if_pos ⟨hnew.1, hnew.2.symm, hbound⟩]
    rw [packetData, byteOfWord_wordOfBytes _ (by omega), if_pos (by omega)]
    exact hbytes j hj
  · have hold : ¬ (insertsEntry s.lvpt.threshold s.cvu a.response.inst
          (substitute s.cvu a.response.inst packet a.env.pastValue)
          (packetData (substitute s.cvu a.response.inst packet a.env.pastValue)
            a.env.pastData) = true ∧
        s.cvu.newEntryIndex a.env.rand = i ∧
        s.cvu.newEntryIndex a.env.rand < s.cvu.tableSize) :=
      fun h => hnew ⟨h.1, h.2.1.symm⟩
    rw [if_neg hnew] at hj
    rw [if_neg hold] at hvalid hmatch ⊢
    rw [hinv.bytes i hi hvalid j hj, memAfter]
    split
    · rename_i hwrites
      by_cases heffect : a.effect ((s.cvu.entry i).paddr + j) = none
      · rw [Patch.apply_of_none heffect]
      · -- A write to a guarded byte goes through the store buffer and invalidates the entry.
        obtain ⟨hstore, haddr⟩ := hsafe.write hwrites i hi hvalid j hj heffect
        simp only [writes, Bool.and_eq_true, isNone_iff_eq_none] at hwrites
        rw [hmatch (hresult ▸ hwrites.2) hstore] at haddr
        cases haddr
    · rfl

end

/-- A safe event keeps the entries current. -/
theorem entriesCurrent_step (hinv : EntriesCurrent s) (hsafe : EventSafe s e)
    (h : step s e = some s') : EntriesCurrent s' := by
  cases e with
  | readLVPT | updateTable =>
    cases h
    exact ⟨hinv.guardSize_le, hinv.bytes⟩
  | commit a =>
    rw [step_commit h]
    by_cases hno : a.response.translationFault ≠ none ∨ a.response.packet = none
    · obtain ⟨hcvu, hmem, hguard⟩ := commit_of_no_access hno
      rw [hcvu, hmem, hguard]
      exact hinv
    · obtain ⟨hfault, hnone⟩ := not_or.mp hno
      obtain ⟨packet, hpacket⟩ := ne_none_iff_exists'.mp hnone
      have hfault : a.response.translationFault = none := by simpa using hfault
      exact entriesCurrent_commit hinv hfault hpacket (hsafe.commitSafe hfault hpacket)

/-- In a run of safe events, a load that hits in the CVU at a safe commit gets the bytes
that the youngest older committed writes left at its physical addresses. -/
theorem hit_returns_committed_bytes (tableSizeLVPT thresholdLCT maxValueLCT tableSizeCVU : Nat)
    (mem : Addr → Byte) (events : List Event) (s : State) (a : Access) (packet : Packet)
    (hsafe : Lib.RunMeets step EventSafe
      (State.new tableSizeLVPT thresholdLCT maxValueLCT tableSizeCVU mem) events)
    (hrun : Lib.run step
      (State.new tableSizeLVPT thresholdLCT maxValueLCT tableSizeCVU mem) events = some s)
    (hcommit : EventSafe s (.commit a)) (hload : a.response.isLoad = true)
    (hfault : a.response.translationFault = none) (hpacket : a.response.packet = some packet)
    (hhit : entryInCVU s.cvu a.response.inst packet = true) :
    ∃ committed, (s.result a).packet = some committed ∧
      ∀ j < packet.size, committed.data j = s.mem (a.physAddr j) := by
  have hinv : EntriesCurrent s :=
    run_invariant_of_meets (fun _ _ _ hs hok hstep => entriesCurrent_step hs hok hstep)
      ⟨fun _ => Nat.zero_le 8, fun _ _ hvalid => by
        simp [new, CVU.entry_new, CVU.TableEntry.zero] at hvalid⟩ hsafe hrun
  obtain ⟨hphys, i, hi, hvalid, hdata, hpaddr, hguard⟩ :=
    (hcommit.commitSafe hfault hpacket).hit hload hhit
  refine ⟨substitute s.cvu a.response.inst packet a.env.pastValue, ?_, ?_⟩
  · rw [result, handleMemResponse_of_access hfault hpacket, completeAccess_packet]
  intro j hj
  have hj8 : j < 8 := by have := hinv.guardSize_le i; omega
  have hbyte := hinv.bytes i hi hvalid j (by omega)
  rw [substitute_of_hit _ hhit, hphys j hj, ← hpaddr, ← hbyte, hdata]
  simp [valueBytes, hj8]

/-! ### A load and a store inside its bytes -/

/-- The 8-byte load at `0x1000` of the runs below, with the prediction `lvptOut`. Its
packet holds the bytes of a memory of ones. -/
def onesLoad (lvptOut : LvptOut) : Access :=
  { response := smallResponse true 0x1000 lvptOut 0x100 8 0 fun _ => 1
    physAddr := fun i => 0x100 + i, effect := fun _ => none, env := smallCommit }

/-- A store of one byte. -/
def byteStore (addr : Addr) (value : Byte) : Access :=
  { response := smallResponse false 0x1004 LvptOut.zero addr 1 value fun _ => 0
    physAddr := fun i => addr + i
    effect := fun a => if a = addr then some value else none, env := smallCommit }

variable (counter : Nat)

/-- What the LVPT returns for the load when its counter is `counter`. -/
def onesOut : LvptOut :=
  { predict := true, constant := decide (3 ≤ counter), value := 0x0101010101010101,
    pc := 0x1000, index := 0, addr := 0x100, counter := counter }

/-- The training message of the load. -/
def onesMessage (predict : Bool) : LvptIn :=
  { pc := 0x1000, addr := 0x100, value := 0x0101010101010101, predict := predict,
    constant := true }

/-- The load commits five times. Each commit trains the LVPT before the next read. The
last one is predicted constant and fills a CVU slot. -/
def trainingRun : List Event :=
  [.commit (onesLoad LvptOut.zero), .updateTable (onesMessage false),
    .readLVPT 0x1000, .commit (onesLoad (onesOut 0)), .updateTable (onesMessage true),
    .readLVPT 0x1000, .commit (onesLoad (onesOut 1)), .updateTable (onesMessage true),
    .readLVPT 0x1000, .commit (onesLoad (onesOut 2)), .updateTable (onesMessage true),
    .readLVPT 0x1000, .commit (onesLoad (onesOut 3))]

/-- The default configuration over a memory of ones. -/
def onesState : State :=
  new 1024 3 3 32 fun _ => 1

/-- The training run is safe, and the next instance of the load hits and gets the
committed bytes. -/
theorem hit_returns_committed_bytes_trained :
    ∃ s, Lib.run step onesState trainingRun = some s ∧
      entryInCVU s.cvu (onesLoad (onesOut 3)).response.inst
        (makePacketForRequest (onesLoad (onesOut 3)).response.request true (fun _ => 0)
          fun _ => 1) = true ∧
      ∃ committed, (s.result (onesLoad (onesOut 3))).packet = some committed ∧
        ∀ j < 8, committed.data j = s.mem (0x100 + j) :=
  ⟨_, rfl, by decide, hit_returns_committed_bytes 1024 3 3 32 (fun _ => 1) trainingRun _
    (onesLoad (onesOut 3)) _ (by decide) rfl (by decide) rfl rfl rfl (by decide)⟩

/-- After the training run a 1-byte store to `0x101` commits. It matches neither address
of the entry, so the entry stays valid. The next instance of the load hits, and its second
byte is the old 1, while the committed byte at `0x101` is 255. -/
theorem hit_returns_stale_byte :
    ∃ s, Lib.run step onesState (trainingRun ++ [.commit (byteStore 0x101 255)]) = some s ∧
      entryInCVU s.cvu (onesLoad (onesOut 3)).response.inst
        (makePacketForRequest (onesLoad (onesOut 3)).response.request true (fun _ => 0)
          fun _ => 1) = true ∧
      (onesLoad (onesOut 3)).response.inst.lvptOut ∈ s.fetched ∧
      ∃ committed, (s.result (onesLoad (onesOut 3))).packet = some committed ∧
        committed.data 1 = 1 ∧ s.mem ((onesLoad (onesOut 3)).physAddr 1) = 255 :=
  ⟨_, rfl, by decide +kernel, by decide +kernel, _, rfl, by decide +kernel, by decide +kernel⟩

/-! ### Constants that are confirmed -/

/-- A load that the LVPT reported constant commits without a fault, and `packetdata` is the
predicted value. Only stores are sent to the store buffer. -/
structure Confirms (s : State) (a : Access) (packet : Packet) : Prop where
  isLoad : a.response.inst.staticInst.isLoad = true
  constant : a.response.inst.lvptOut.constant = true
  translated : a.response.translationFault = none
  hasPacket : a.response.packet = some packet
  fault : (s.result a).fault = none
  matching : predictedRight a.response.inst
    (packetData (substitute s.cvu a.response.inst packet a.env.pastValue) a.env.pastData) = true
  notStore : a.response.needsToBeSentToStoreBuffer = false

/-- The CVU holds a valid entry with the address, the index and the value of the load. -/
def HoldsEntry (cvu : CVU) (inst : DynInst) (packet : Packet) : Prop :=
  cvu.verifyEntryInCVU packet.vaddr inst.lvptOut.index inst.lvptOut.value true = true

instance (cvu : CVU) (inst : DynInst) (packet : Packet) : Decidable (HoldsEntry cvu inst packet) :=
  inferInstanceAs (Decidable (_ = _))

/-- No event changes the threshold. -/
theorem threshold_step (h : step s e = some s') : s'.lvpt.threshold = s.lvpt.threshold := by
  cases e with
  | readLVPT =>
    cases h
    rfl
  | updateTable m =>
    cases h
    show (s.lvpt.updateTable m.value m.addr m.pc m.predict m.constant).threshold = _
    unfold LVPT.updateTable
    repeat' split
    all_goals rfl
  | commit =>
    rw [step_commit h]

/-- The commit of a confirmed constant inserts it only at the threshold, and only a slot of the
table takes it. -/
theorem holdsEntry_commit (h : Confirms s a packet) :
    HoldsEntry (s.result a).cvu a.response.inst packet ↔ HoldsEntry s.cvu a.response.inst packet ∨
        a.response.inst.lvptOut.counter = s.lvpt.threshold ∧
          s.cvu.newEntryIndex a.env.rand < s.cvu.tableSize := by
  have hcvu : (s.result a).cvu = cvuLoaded s.lvpt.threshold a.env s.cvu a.response.inst packet := by
    rw [result, handleMemResponse_of_access h.translated h.hasPacket, completeAccess_cvu,
      if_neg fun hstore => by rw [h.notStore] at hstore; exact absurd hstore.2 (by simp)]
  have hinserts : insertsEntry s.lvpt.threshold s.cvu a.response.inst
      (substitute s.cvu a.response.inst packet a.env.pastValue)
      (packetData (substitute s.cvu a.response.inst packet a.env.pastValue) a.env.pastData) = true ↔
      a.response.inst.lvptOut.counter = s.lvpt.threshold ∧
        ¬ HoldsEntry s.cvu a.response.inst packet := by
    simp [insertsEntry, h.isLoad, h.matching, HoldsEntry]
  rw [hcvu]
  by_cases hins : a.response.inst.lvptOut.counter = s.lvpt.threshold ∧
      ¬ HoldsEntry s.cvu a.response.inst packet
  · -- no entry matched, so the packet is the one of the memory system
    have hmiss := entryInCVU_of_insertsEntry a.env.pastValue (hinserts.mpr hins)
    have hvalue : packetData packet a.env.pastData = a.response.inst.lvptOut.value := by
      have hmatching := h.matching
      rw [substitute_of_miss _ hmiss, predictedRight, Bool.and_eq_true, beq_iff_eq] at hmatching
      exact hmatching.2
    have hloaded : cvuLoaded s.lvpt.threshold a.env s.cvu a.response.inst packet
        = s.cvu.addEntryToCVU a.response.inst.lvptOut.value a.response.inst.lvptOut.index
            packet.vaddr packet.paddr a.env.rand := by
      have hinserted := hinserts.mpr hins
      unfold cvuLoaded cvuAfterLoad
      rw [substitute_of_miss _ hmiss] at hinserted ⊢
      rw [if_pos hinserted, hvalue]
    rw [hloaded]
    refine ⟨fun hfound => .inr ⟨hins.1, ?_⟩, fun hslot => ?_⟩
    · by_contra hout
      refine hins.2 ?_
      unfold HoldsEntry at hfound ⊢
      rw [CVU.verifyEntryInCVU_eq_true] at hfound ⊢
      simpa only [CVU.entry_addEntryToCVU, hout, and_false, if_false,
        CVU.tableSize_addEntryToCVU] using hfound
    · exact CVU.verifyEntryInCVU_addEntryToCVU (hslot.resolve_left hins.2).2 _ _ _ _
  · have hsame : cvuLoaded s.lvpt.threshold a.env s.cvu a.response.inst packet = s.cvu := by
      exact if_neg fun hinserted => hins (hinserts.mp hinserted)
    rw [hsame]
    refine ⟨Or.inl, fun hor => hor.elim id fun hslot => ?_⟩
    by_contra hnot
    exact hins ⟨hslot.1, hnot⟩

/-- In every run, a confirmed constant ends in the CVU exactly if it was there before, or if its
counter was read at the threshold and the insertion draws a slot of the table. -/
theorem confirmed_constant_held_iff (tableSizeLVPT thresholdLCT maxValueLCT tableSizeCVU : Nat)
    (mem : Addr → Byte) (events : List Event) (s s' : State) (a : Access) (packet : Packet)
    (hrun : Lib.run step
      (State.new tableSizeLVPT thresholdLCT maxValueLCT tableSizeCVU mem) events = some s)
    (hcommit : step s (.commit a) = some s') (hconfirms : Confirms s a packet) :
    HoldsEntry s'.cvu a.response.inst packet ↔ HoldsEntry s.cvu a.response.inst packet ∨
        a.response.inst.lvptOut.counter = thresholdLCT ∧
          s.cvu.newEntryIndex a.env.rand < s.cvu.tableSize := by
  have hthreshold : s.lvpt.threshold = thresholdLCT := run_invariant
      (fun _ _ _ ht hstep => (threshold_step hstep).trans ht) rfl hrun
  have hcvu : s'.cvu = (s.result a).cvu := by rw [step_commit hcommit]
  rw [hcvu, holdsEntry_commit hconfirms, hthreshold]

/-- What the LVPT returns for the load with a threshold of 1. -/
def lowOut : LvptOut := { onesOut counter with constant := decide (1 ≤ counter) }

/-- With a threshold of 1 and a maximum of 3, the load commits at the threshold and fills a slot.
Then it is trained once more, and a store to its address commits that writes the byte which is
there. -/
def invalidatedRun : List Event :=
  [.updateTable (onesMessage false), .updateTable (onesMessage true), .readLVPT 0x1000,
    .commit (onesLoad (lowOut 1)), .updateTable (onesMessage true), .readLVPT 0x1000,
    .commit (byteStore 0x100 1)]

/-- The constant of the training run is confirmed and stays in the CVU. -/
theorem confirmed_constant_held_trained :
    ∃ s s' packet, Lib.run step onesState trainingRun = some s ∧
      step s (.commit (onesLoad (onesOut 3))) = some s' ∧
      HoldsEntry s'.cvu (onesLoad (onesOut 3)).response.inst packet :=
  ⟨_, _, _, rfl, rfl, (confirmed_constant_held_iff 1024 3 3 32 (fun _ => 1) trainingRun _ _
    (onesLoad (onesOut 3)) _ rfl rfl
    ⟨rfl, rfl, rfl, rfl, rfl, by decide +kernel, rfl⟩).mpr (.inl (by decide +kernel))⟩

/-- After the store the load is predicted with a counter of 2, which is above the threshold. Its
value is right, and it is not inserted again. -/
theorem confirmed_constant_lost :
    ∃ s s' packet, Lib.run step (State.new 1024 1 3 32 fun _ => 1) invalidatedRun = some s ∧
      step s (.commit (onesLoad (lowOut 2))) = some s' ∧
      Confirms s (onesLoad (lowOut 2)) packet ∧
      ¬ HoldsEntry s'.cvu (onesLoad (lowOut 2)).response.inst packet :=
  ⟨_, _, _, rfl, rfl, ⟨rfl, rfl, rfl, rfl, rfl, by decide +kernel, rfl⟩, by decide +kernel⟩

end Gem5.MyMinor.ValuePrediction
