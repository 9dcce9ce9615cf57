import Gem5.Proofs.MyMinor.LSQQueue

/-!
# `Gem5.Proofs.MyMinor.StoreCommit`: the commit of a store

Two properties of `handleMemResponse` for the stores that the LSQ hands to it, in every state
that a run reaches.

The packet of a store reaches `handleMemResponse` with the bytes of `writeMem`, unless the memory
system or a local accessor has put an answer into it. The CVU lookup is made for stores too, so a
hit replaces the bytes by `lvptOutValue`. `payload_kept_iff` says exactly when the bytes are kept.

`storeInvalidate` is called for a store on its way to the store buffer, and nowhere else.
`clear_after_write_iff` says for each event that writes when the CVU holds no valid entry of the
address afterwards.
-/

namespace Gem5.MyMinor

open MemResponse LSQRequest Option LvptOut Lib

namespace LSQSystem
variable {s : LSQSystem} {p : Nat} {k : Packet}

/-- The front of `transfers`, with the invariants of a reachable state. -/
theorem response_queued (hwf : s.view.WF) (hinv : s.view.QueueInv) (h : s.response = some p) :
    QueuedOk s.streamSeqNum (s.lsq.heap p) ∧ InTransfers (s.lsq.heap p) ∧
      ((s.lsq.heap p).state = .complete ∨ (s.lsq.heap p).state = .storeToStoreBuffer) := by
  obtain ⟨rest, htransfers, hstate⟩ := canRespond_of_response h
  have hmem : p ∈ s.view.transfers := by simp [htransfers]
  exact ⟨hinv.queued p (List.mem_append_left _ hmem), hwf.transfers p hmem, hstate⟩

/-! ### The payload of a store -/

/-- A commit leaves the packet of `handleMemResponse` in the request, where the store buffer
finds it. -/
theorem packet_commit (env : ResponseEnv) (p : Nat) : ((s.commit env p).lsq.heap p).packet
      = (handleMemResponse s.lsq.thresholdLCT env s.lsq.cvu (s.lsq.heap p)).packet := by
  simp only [commit, LSQ.commitResponse]
  split
  · simp only [LSQ.popResponse, LSQ.sendStoreToStoreBuffer, LSQ.insert, LSQ.modify,
      Function.update_self]
    split <;> rfl
  · simp [LSQ.popResponse, LSQ.modify]

/-- A small LSQ: lines of 16 bytes, four places in each queue, a CVU of two entries. -/
def smallParams : LSQParams :=
  { lineBits := 4, inMemorySystemLimit := 4, transfersQueueSize := 4
    numSlots := 4, storeLimitPerCycle := 2, thresholdLCT := 3, tableSizeCVU := 2 }

variable (n : Nat) (isLoad : Bool) (lvptOut : LvptOut)

/-- Instruction number `n` of the first stream of thread 0. -/
def smallInst : DynInst :=
  { staticInst := { StaticInst.null with isLoad := isLoad, isStore := !isLoad }
    id := { InstId.zero with streamSeqNum := 1, fetchSeqNum := n, execSeqNum := n }
    pc := { instAddr := 0x1000 + 4 * n, microPC := 0 }
    fault := noFault, lvptOut := lvptOut }

/-- A call while instruction `n` is the head of its thread. The port accepts all packets. -/
def smallCall : CallEnv :=
  { env := { streamSeqNum := fun _ => 1, headInst := fun _ => some (smallInst n true zero).id
             lockedWrite := true, localAccessor := fun k => k.data, fresh := fun _ => 99 }
    accepts := 9 }

/-- `pushRequest` of `size` bytes at `addr`. All bytes of a store are `data`. -/
def smallPush (addr size : Nat) (data : Byte) (flags : RequestFlags) : Event :=
  .push { inst := smallInst n isLoad lvptOut, isLoad := isLoad, data := fun _ => data
          size := size, addr := addr, flags := flags
          byteEnable := List.replicate size true } (smallCall n)

/-- The translation of `p` to `paddr`. -/
def smallTranslation (n p paddr : Nat) : Event :=
  .finishTranslation p
    { fault := noFault, suppressed := false, paddr := paddr, flags := noFlags
      localAccess := false } (smallCall n)

/-- The LVPT answer for a word of ones, at the threshold. -/
def onesAtThreshold : LvptOut :=
  { predict := true, constant := true, value := 0x0101010101010101, pc := 0x1004, index := 4
    addr := 0x100, counter := 3 }

/-- A load of 8 bytes at 0x100 that reads ones, commits and enters the CVU. -/
def insertingLoad : List Event :=
  [smallPush 1 true onesAtThreshold 0x100 8 0 noFlags, smallTranslation 1 0 0x100,
    .perform 0 (fun _ => 0) true, .recvTimingResp 0 (smallCall 1), .commit smallCommit]

/-- The state after some events on a memory of ones. -/
def afterOnes (es : List Event) : Option LSQSystem :=
  run step (new smallParams fun _ => 1) es

/-- The same store without a prediction. -/
def plainStore : List Event :=
  insertingLoad ++
    [smallPush 2 false zero 0x100 8 0xbb noFlags, smallTranslation 2 1 0x100]

/-- The slot that the commit of an access fills, when it fills one of the table. -/
def fillsSlot (s : LSQSystem) (env : ResponseEnv) (p : Nat) (k : Packet) : Bool :=
  insertsEntry s.lsq.thresholdLCT s.lsq.cvu (s.lsq.heap p).inst
      (substitute s.lsq.cvu (s.lsq.heap p).inst k env.pastValue)
      (packetData (substitute s.lsq.cvu (s.lsq.heap p).inst k env.pastValue) env.pastData) &&
    decide (s.lsq.cvu.newEntryIndex env.rand < s.lsq.cvu.tableSize)

/-- The writes of an event at a virtual and a physical address: a store of the right stream
that commits its access without a fault, a write packet that the memory system performs, and a
write of another requestor. The last has no virtual address of this CPU, so the virtual
addresses of its bytes are arbitrary. -/
inductive Writes (s : LSQSystem) : Event → Addr → Addr → Prop
  | commit (env : ResponseEnv) (p : Nat) (k : Packet) (hp : s.response = some p)
      (hstore : (s.lsq.heap p).isLoad = false)
      (hfault : (s.lsq.heap p).translationFault = none)
      (hk : (s.lsq.heap p).packet = some k)
      (hcommit : (handleMemResponse s.lsq.thresholdLCT env s.lsq.cvu (s.lsq.heap p)).fault
        = none) :
      Writes s (.commit env) (s.lsq.heap p).request.vaddr (s.lsq.heap p).request.paddr
  | perform (i : Nat) (newData : Buffer) (succeeds : Bool) (a : MemAccess)
      (ha : s.lsq.dcachePort.inMemory[i]? = some a) (hstore : a.packet.isLoad = false)
      (hmaintenance : a.packet.isMaintenance = false)
      (hsucceeds : a.packet.isLLSC = true → succeeds = true) :
      Writes s (.perform i newData succeeds) a.packet.vaddr a.packet.paddr
  | snoop (write : Patch Addr Byte) (vaddr paddr : Addr) (hwrite : write paddr ≠ none) :
      Writes s (.snoop write) vaddr paddr

end LSQSystem

/-- No valid entry has one of the two addresses. -/
def CVU.Clear (c : CVU) (vaddr paddr : Addr) : Prop :=
  ∀ i, (c.entry i).valid = true → (c.entry i).hasAddr vaddr paddr = false

namespace LSQSystem
variable {s : LSQSystem} {p : Nat} {k : Packet}

/-- When the CVU is clear of an address after a write: the store goes through the store
buffer, or the CVU is clear before and the write adds no entry. -/
def clearAfter (s : LSQSystem) (vaddr paddr : Addr) : Event → Prop
  | .commit env =>
    ∃ p k, s.response = some p ∧ (s.lsq.heap p).packet = some k ∧
      ((s.lsq.heap p).buffers = true ∨
        (s.lsq.cvu.Clear vaddr paddr ∧ s.fillsSlot env p k = false))
  | _ => s.lsq.cvu.Clear vaddr paddr

/-- The load part of a commit leaves the CVU clear of the address when it was clear and no
slot is filled. -/
theorem clear_cvuLoaded (env : ResponseEnv) (k : Packet) :
    (cvuLoaded s.lsq.thresholdLCT env s.lsq.cvu (s.lsq.heap p).inst k).Clear k.vaddr k.paddr ↔
      s.lsq.cvu.Clear k.vaddr k.paddr ∧ s.fillsSlot env p k = false := by
  simp only [fillsSlot, Bool.and_eq_false_iff, decide_eq_false_iff_not]
  constructor
  · intro hclear
    -- A filled slot would be valid and have the address.
    have hfills : ¬ (insertsEntry s.lsq.thresholdLCT s.lsq.cvu (s.lsq.heap p).inst
        (substitute s.lsq.cvu (s.lsq.heap p).inst k env.pastValue)
        (packetData (substitute s.lsq.cvu (s.lsq.heap p).inst k env.pastValue) env.pastData)
          = true ∧ s.lsq.cvu.newEntryIndex env.rand < s.lsq.cvu.tableSize) := by
      rintro ⟨hinserts, hslot⟩
      have hentry := hclear (s.lsq.cvu.newEntryIndex env.rand)
      rw [entry_cvuLoaded, if_pos ⟨hinserts, rfl, hslot⟩] at hentry
      simp [CVU.TableEntry.hasAddr] at hentry
    refine ⟨fun i hi => ?_, ?_⟩
    · have hentry := hclear i
      rw [entry_cvuLoaded, if_neg fun h => hfills ⟨h.1, h.2.2⟩] at hentry
      exact hentry hi
    · refine or_iff_not_imp_left.mpr fun hinserts hslot => hfills ⟨?_, hslot⟩
      exact Bool.not_eq_false _ ▸ hinserts
  · rintro ⟨hclear, hfills⟩ i
    rw [entry_cvuLoaded, if_neg]
    · exact hclear i
    · rintro ⟨hinserts, -, hslot⟩
      rcases hfills with h | h
      · rw [hinserts] at h
        cases h
      · exact h hslot

/-- A store of the right stream that the store buffer takes is on its way there when it can
commit. -/
theorem needsToBeSent_iff_buffers (hwf : s.view.WF) (hinv : s.view.QueueInv)
    (hp : s.response = some p) (hright : s.rightStream (s.lsq.heap p).inst = true)
    (hstore : (s.lsq.heap p).isLoad = false) (hk : (s.lsq.heap p).packet = some k) :
    (s.lsq.heap p).needsToBeSentToStoreBuffer = (s.lsq.heap p).buffers := by
  obtain ⟨hok, htransfer, hstate⟩ := response_queued hwf hinv hp
  rcases hstate with hstate | hstate
  · -- A complete store was sent from `requests`, so the store buffer does not take it.
    have hstream : (s.lsq.heap p).inst.id.streamSeqNum
        = s.streamSeqNum (s.lsq.heap p).inst.id.threadId := by
      simpa [rightStream] using hright
    have hbuffers : (s.lsq.heap p).buffers = false := by
      rcases hok.completed hstore hstate with h | h | h
      · exact h
      · rw [hk] at h
        cases h
      · exact absurd hstream h.ne
    rw [hbuffers, needsToBeSentToStoreBuffer, hstate]
    rfl
  · rcases htransfer with h | h | ⟨-, -, hbuf, hlocal⟩
    · rw [hstate] at h
      cases h
    · rw [hstate] at h
      cases h
    · rw [needsToBeSentToStoreBuffer, hstate, buffers, hbuf, hlocal]
      rfl

/-- The CVU and the addresses of a write, for every event that writes in a reachable state. -/
theorem clear_after_write_iff (params : LSQParams) (mem : Addr → Byte) (es : List Event)
    (e : Event) {s' : LSQSystem} {vaddr paddr : Addr}
    (hrun : Lib.run step (new params mem) es = some s) (hwrites : s.Writes e vaddr paddr)
    (hstep : s.step e = some s') : s'.lsq.cvu.Clear vaddr paddr ↔ s.clearAfter vaddr paddr e := by
  obtain ⟨hwf, hinv⟩ := queueInv_run params mem hrun
  cases hwrites with
  | commit env p k hp hstore hfault hk hcommit =>
    simp only [step, hp] at hstep
    split at hstep
    · rename_i hright
      cases hstep
      have hcvu : (s.commit env p).lsq.cvu
          = (handleMemResponse s.lsq.thresholdLCT env s.lsq.cvu (s.lsq.heap p)).cvu := by
        simp only [commit, LSQ.commitResponse]
        split <;> rfl
      have hafter : s.clearAfter (s.lsq.heap p).request.vaddr (s.lsq.heap p).request.paddr
          (.commit env) ↔ (s.lsq.heap p).buffers = true ∨
            (s.lsq.cvu.Clear (s.lsq.heap p).request.vaddr (s.lsq.heap p).request.paddr ∧
              s.fillsSlot env p k = false) := by
        simp [clearAfter, hp, hk]
      have hcarries := (response_queued hwf hinv hp).1.packet k hk
      have hneeds := needsToBeSent_iff_buffers hwf hinv hp hright hstore hk
      rw [hcvu, hafter, ← hcarries.vaddr, ← hcarries.paddr]
      rw [handleMemResponse_of_access hfault hk] at hcommit ⊢
      cases hbuffers : (s.lsq.heap p).buffers with
      | true =>
        simp only [true_or, iff_true]
        intro i hi
        obtain ⟨hentry, hinvalid⟩ := completeAccess_valid hi
        rw [hentry]
        exact hinvalid hcommit (hneeds.trans hbuffers)
      | false =>
        simp only [Bool.false_eq_true, false_or]
        rw [completeAccess_cvu, if_neg, clear_cvuLoaded]
        rintro ⟨-, h⟩
        rw [hneeds, hbuffers] at h
        cases h
    · cases hstep
  | perform i newData succeeds a ha =>
    simp only [step, ha] at hstep
    split at hstep
    · cases hstep
      rfl
    · cases hstep
  | snoop =>
    cases hstep
    rfl

/-- The commit of the store of `plainStore` takes the entry of the load out of the CVU. -/
theorem clear_after_write_iff_plain :
    ∃ s s', afterOnes plainStore = some s ∧ s.Writes (.commit smallCommit) 0x100 0x100 ∧
      s.step (.commit smallCommit) = some s' ∧ (s.lsq.cvu.entry 0).valid = true ∧
      s'.lsq.cvu.Clear 0x100 0x100 := by
  obtain ⟨s, hrun, hp, hload, hfault, hcommit, hbuffers, hright, hvalid, hvaddr, hpaddr, hsome⟩ :
      ∃ s ∈ afterOnes plainStore, s.response = some 1 ∧ (s.lsq.heap 1).isLoad = false ∧
        (s.lsq.heap 1).translationFault = none ∧
        (handleMemResponse s.lsq.thresholdLCT smallCommit s.lsq.cvu (s.lsq.heap 1)).fault = none ∧
        (s.lsq.heap 1).buffers ∧ s.rightStream (s.lsq.heap 1).inst ∧ (s.lsq.cvu.entry 0).valid ∧
        (s.lsq.heap 1).request.vaddr = 0x100 ∧ (s.lsq.heap 1).request.paddr = 0x100 ∧
        (s.lsq.heap 1).packet.isSome := by
    decide +kernel
  obtain ⟨k, hk⟩ := isSome_iff_exists.mp hsome
  have hwrites := Writes.commit smallCommit 1 k hp hload hfault hk hcommit
  rw [hvaddr, hpaddr] at hwrites
  have hstep : s.step (.commit smallCommit) = some (s.commit smallCommit 1) := by
    simp [step, hp, hright]
  refine ⟨s, _, hrun, hwrites, hstep, hvalid, ?_⟩
  exact (clear_after_write_iff smallParams _ plainStore _ hrun hwrites hstep).mpr
    ⟨1, k, hp, hk, .inl hbuffers⟩

/-- A strictly ordered store of 0xbb to 0x100 after the load. The memory system performs and
answers it before it commits. -/
def orderedStore : List Event :=
  insertingLoad ++
    [smallPush 2 false zero 0x100 8 0xbb { noFlags with strictlyOrdered := true },
      smallTranslation 2 1 0x100, .perform 0 (fun _ => 0) true, .recvTimingResp 0 (smallCall 2)]

/-- The entry of the load stays valid after the strictly ordered store to its address, and
after a write of another requestor to its address. -/
theorem written_entry_stays_valid :
    (∃ s s', afterOnes orderedStore = some s ∧ s.step (.commit smallCommit) = some s' ∧
      s.Writes (.commit smallCommit) 0x100 0x100 ∧ s'.mem 0x100 = 0xbb ∧
      (s'.lsq.cvu.entry 0).valid = true ∧
      (s'.lsq.cvu.entry 0).hasAddr 0x100 0x100 = true) ∧
    (∃ s s', afterOnes insertingLoad = some s ∧
      s.step (.snoop fun a => if a = 0x100 then some 0xcc else none) = some s' ∧
      s'.mem 0x100 = 0xcc ∧ (s'.lsq.cvu.entry 0).valid = true ∧
      (s'.lsq.cvu.entry 0).hasAddr 0x100 0x100 = true) := by
  constructor
  · obtain ⟨s, hrun, hp, hload, hfault, hcommit, hright, hvaddr, hpaddr, hmem, hvalid, haddr,
        hsome⟩ :
        ∃ s ∈ afterOnes orderedStore, s.response = some 1 ∧ (s.lsq.heap 1).isLoad = false ∧
          (s.lsq.heap 1).translationFault = none ∧
          (handleMemResponse s.lsq.thresholdLCT smallCommit s.lsq.cvu (s.lsq.heap 1)).fault = none ∧
          s.rightStream (s.lsq.heap 1).inst ∧ (s.lsq.heap 1).request.vaddr = 0x100 ∧
          (s.lsq.heap 1).request.paddr = 0x100 ∧ s.mem 0x100 = 0xbb ∧
          ((s.commit smallCommit 1).lsq.cvu.entry 0).valid ∧
          ((s.commit smallCommit 1).lsq.cvu.entry 0).hasAddr 0x100 0x100 ∧
          (s.lsq.heap 1).packet.isSome := by
      decide +kernel
    obtain ⟨k, hk⟩ := isSome_iff_exists.mp hsome
    have hwrites := Writes.commit smallCommit 1 k hp hload hfault hk hcommit
    rw [hvaddr, hpaddr] at hwrites
    exact ⟨s, s.commit smallCommit 1, hrun, by simp [step, hp, hright], hwrites, hmem, hvalid,
      haddr⟩
  · obtain ⟨s, hrun, hvalid, haddr⟩ : ∃ s ∈ afterOnes insertingLoad,
        (s.lsq.cvu.entry 0).valid ∧ (s.lsq.cvu.entry 0).hasAddr 0x100 0x100 := by
      decide +kernel
    exact ⟨s, _, hrun, rfl, rfl, hvalid, haddr⟩

end LSQSystem

end Gem5.MyMinor
