import Gem5.MyMinor.MemResponse
import Gem5.Proofs.MyMinor.CVU

/-!
# `Gem5.Proofs.MyMinor.MemResponse`: what one commit does to the CVU

`handleMemResponse` as a function of the CVU and of the request it completes. The lemmas
say which entries survive a commit and which one is new. Proofs about runs use them and
do not unfold the function.
-/

namespace Gem5.MyMinor

open CVU

namespace MemResponse

section
variable (cvu : CVU) (inst : DynInst) (packet : Packet) (pastValue : Buffer)

@[simp] theorem substitute_vaddr : (substitute cvu inst packet pastValue).vaddr = packet.vaddr := by
  unfold substitute
  split <;> rfl

@[simp] theorem substitute_paddr : (substitute cvu inst packet pastValue).paddr = packet.paddr := by
  unfold substitute
  split <;> rfl

@[simp] theorem substitute_size : (substitute cvu inst packet pastValue).size = packet.size := by
  unfold substitute
  split <;> rfl

variable {cvu inst packet}

theorem substitute_of_hit (h : entryInCVU cvu inst packet = true) :
    (substitute cvu inst packet pastValue).data = valueBytes inst.lvptOut.value pastValue := by
  simp [substitute, h]

theorem substitute_of_miss (h : entryInCVU cvu inst packet = false) :
    substitute cvu inst packet pastValue = packet := by
  simp [substitute, h]

/-- A hit has an entry that verifies. -/
theorem entryInCVU_eq_true :
    entryInCVU cvu inst packet = true ↔
      inst.lvptOut.constant = true ∧ ∃ i < cvu.tableSize, (cvu.entry i).valid = true ∧
        (cvu.entry i).vaddr = packet.vaddr ∧ (cvu.entry i).index = inst.lvptOut.index ∧
        (cvu.entry i).data = inst.lvptOut.value :=
  verifyEntryInCVU_eq_true cvu inst.lvptOut.value inst.lvptOut.index packet.vaddr _

/-- An access that fills a slot did not hit, so its packet is the one the memory system
returned. -/
theorem entryInCVU_of_insertsEntry {threshold : Nat} {word : Word}
    (h : insertsEntry threshold cvu inst (substitute cvu inst packet pastValue) word = true) :
    entryInCVU cvu inst packet = false := by
  have hmiss : cvu.verifyEntryInCVU packet.vaddr inst.lvptOut.index inst.lvptOut.value true
      = false := by
    simp only [insertsEntry, substitute_vaddr, Bool.and_eq_true, Bool.not_eq_true'] at h
    exact h.2
  by_contra hhit
  obtain ⟨hconst, hentry⟩ := entryInCVU_eq_true.mp (by simpa using hhit)
  rw [entryInCVU, hconst] at hhit
  exact hhit hmiss

end

/-- The CVU after the load part of a commit with this packet. -/
def cvuLoaded (threshold : Nat) (env : ResponseEnv) (cvu : CVU) (inst : DynInst)
    (packet : Packet) : CVU :=
  let packet := substitute cvu inst packet env.pastValue
  cvuAfterLoad threshold cvu inst packet (packetData packet env.pastData) env.rand

section
variable {threshold : Nat} {env : ResponseEnv} {cvu : CVU} {inst : DynInst}
  {packet : Packet}

@[simp] theorem tableSize_cvuAfterLoad (word : Word) (rand : Nat) :
    (cvuAfterLoad threshold cvu inst packet word rand).tableSize = cvu.tableSize := by
  unfold cvuAfterLoad
  split <;> rfl

/-- The slots after the load part: the written one, when the access fills a slot of the
table, and the old ones. -/
theorem entry_cvuLoaded (i : Nat) : (cvuLoaded threshold env cvu inst packet).entry i
      = if insertsEntry threshold cvu inst (substitute cvu inst packet env.pastValue)
            (packetData (substitute cvu inst packet env.pastValue) env.pastData) = true ∧
          cvu.newEntryIndex env.rand = i ∧ cvu.newEntryIndex env.rand < cvu.tableSize then
          { valid := true, vaddr := packet.vaddr, paddr := packet.paddr,
            index := inst.lvptOut.index, data := packetData packet env.pastData }
        else cvu.entry i := by
  unfold cvuLoaded cvuAfterLoad
  by_cases hins : insertsEntry threshold cvu inst (substitute cvu inst packet env.pastValue)
      (packetData (substitute cvu inst packet env.pastValue) env.pastData) = true
  · have hmiss := entryInCVU_of_insertsEntry env.pastValue hins
    rw [substitute_of_miss _ hmiss] at hins ⊢
    simp only [hins, if_true, true_and, entry_addEntryToCVU]
  · simp only [hins, Bool.false_eq_true, if_false, false_and]

end

end MemResponse

open MemResponse

section
variable {threshold : Nat} {env : ResponseEnv} {cvu : CVU} {response : LSQRequest}

/-- Without a packet, or with a translation fault, the CVU stays as it is. -/
theorem handleMemResponse_cvu_of_no_access
    (h : response.translationFault ≠ none ∨ response.packet = none) :
    (handleMemResponse threshold env cvu response).cvu = cvu := by
  unfold handleMemResponse
  cases hfault : response.translationFault with
  | some => dsimp only; split <;> rfl
  | none =>
    rcases h with h | h
    · exact absurd hfault h
    · rw [h]

variable {packet : Packet}

theorem handleMemResponse_of_access (hfault : response.translationFault = none)
    (hpacket : response.packet = some packet) :
    handleMemResponse threshold env cvu response
      = completeAccess threshold env cvu response packet := by
  simp [handleMemResponse, hfault, hpacket]

/-- The packet of an access is the one after the CVU substitution. -/
theorem completeAccess_packet : (completeAccess threshold env cvu response packet).packet
      = some (substitute cvu response.inst packet env.pastValue) := by
  unfold completeAccess
  dsimp only
  cases env.completeAcc (substitute cvu response.inst packet env.pastValue) with
  | some => rfl
  | none => dsimp only; split <;> rfl

/-- The CVU after a commit: the load part, then the invalidation for a store that goes to
the store buffer without a fault. -/
theorem completeAccess_cvu : (completeAccess threshold env cvu response packet).cvu
      = if (completeAccess threshold env cvu response packet).fault = none ∧
            response.needsToBeSentToStoreBuffer = true then
          (cvuLoaded threshold env cvu response.inst packet).storeInvalidate
            packet.vaddr packet.paddr
        else cvuLoaded threshold env cvu response.inst packet := by
  have hfault : (completeAccess threshold env cvu response packet).fault
      = env.completeAcc (substitute cvu response.inst packet env.pastValue) := by
    unfold completeAccess
    dsimp only
    split
    · next h => exact h.symm
    · next h => rw [h]; split <;> rfl
  rw [hfault]
  unfold completeAccess cvuLoaded
  dsimp only
  cases env.completeAcc (substitute cvu response.inst packet env.pastValue) with
  | some => simp
  | none =>
    dsimp only
    split <;> simp_all

/-- A valid entry after a commit was left by the load part, and a store that went to the
store buffer does not match it. -/
theorem completeAccess_valid {i : Nat}
    (h : ((completeAccess threshold env cvu response packet).cvu.entry i).valid = true) :
    (completeAccess threshold env cvu response packet).cvu.entry i
        = (cvuLoaded threshold env cvu response.inst packet).entry i ∧
      ((completeAccess threshold env cvu response packet).fault = none →
        response.needsToBeSentToStoreBuffer = true →
        ((cvuLoaded threshold env cvu response.inst packet).entry i).hasAddr
          packet.vaddr packet.paddr = false) := by
  rw [completeAccess_cvu] at h ⊢
  split at h
  · rename_i hstore
    rw [valid_storeInvalidate, Bool.and_eq_true, Bool.not_eq_true'] at h
    refine ⟨?_, fun _ _ => h.2⟩
    rw [if_pos hstore, entry_storeInvalidate, TableEntry.invalidated, h.2]
    simp
  · rename_i hstore
    rw [if_neg hstore]
    exact ⟨rfl, fun hf hs => absurd ⟨hf, hs⟩ hstore⟩

/-- What goes on to the store buffer: a store on its way there that completes its access
without a fault. -/
theorem handleMemResponse_toStoreBuffer :
    (handleMemResponse threshold env cvu response).toStoreBuffer = true ↔
      response.translationFault = none ∧ response.packet ≠ none ∧
        (handleMemResponse threshold env cvu response).fault = none ∧
        response.needsToBeSentToStoreBuffer = true := by
  unfold handleMemResponse
  cases hfault : response.translationFault with
  | some => dsimp only; split <;> simp
  | none =>
    cases hpacket : response.packet with
    | none => simp
    | some packet =>
      unfold completeAccess
      dsimp only
      cases env.completeAcc (substitute cvu response.inst packet env.pastValue) with
      | some => simp
      | none => dsimp only; split <;> simp_all [noFault]

theorem state_of_toStoreBuffer
    (h : (handleMemResponse threshold env cvu response).toStoreBuffer = true) :
    response.state = .storeToStoreBuffer := by
  simpa [LSQRequest.needsToBeSentToStoreBuffer] using (handleMemResponse_toStoreBuffer.mp h).2.2.2

theorem handleMemResponse_tableSize :
    (handleMemResponse threshold env cvu response).cvu.tableSize = cvu.tableSize := by
  by_cases h : response.translationFault ≠ none ∨ response.packet = none
  · rw [handleMemResponse_cvu_of_no_access h]
  · obtain ⟨hfault, hnone⟩ := not_or.mp h
    obtain ⟨packet, hpacket⟩ := Option.ne_none_iff_exists'.mp hnone
    rw [handleMemResponse_of_access (by simpa using hfault) hpacket, completeAccess_cvu]
    split <;> simp [cvuLoaded]

end

/-! ### Small accesses -/

/-- The commit of an access without a fault. -/
def smallCommit : ResponseEnv :=
  { completeAcc := fun _ => noFault, pastData := fun _ => 0, pastValue := fun _ => 0, rand := 0 }

/-- The response for `size` bytes at `addr`. All bytes of a store are `data`, and `fresh` is the
data of a load. -/
def smallResponse (isLoad : Bool) (instAddr : Addr) (lvptOut : LvptOut) (addr size : Nat)
    (data : Byte) (fresh : Buffer) : LSQRequest :=
  let inst : DynInst :=
    { staticInst := { StaticInst.null with isLoad := isLoad, isStore := !isLoad }
      id := InstId.zero, pc := { instAddr := instAddr, microPC := 0 }
      fault := noFault, lvptOut := lvptOut }
  let request : Request :=
    { vaddr := addr, size := size, paddr := addr, flags := noFlags, localAccess := false
      byteEnable := List.replicate size true, useCVUValue := false }
  { LSQRequest.new .singleData inst isLoad none (fun _ => data) request
      (if isLoad then .complete else .storeToStoreBuffer) with
    packet := some (makePacketForRequest request isLoad (fun _ => data) fresh) }

end Gem5.MyMinor
