import Gem5.MyMinor.Training
import Gem5.Proofs.MyMinor.Attribution
import Gem5.Proofs.MyMinor.MemResponse

/-!
# `Gem5.Proofs.MyMinor.Training`: when each committed load trains the LVPT once

Execute writes one `BranchData` per cycle, and Fetch1 makes one `updateTable` call per
cycle. So the calls with `constant` set match the loads exactly when each cycle passes on
the message of its load, and no cycle without a load passes such a message on.

`SafeCycle` is the condition. A cycle without a load leaves no set `constant` flag in the fields
that no constructor initialises. A cycle with a load has no other one, and nothing writes the record
after it: no later access, no branch, no drain and no halt. The load has an address below 2^32, and
the bytes behind a short packet are zero, for the message cuts the address and reads eight bytes
(`training_from_loaded_bytes_iff`).

`calls_eq_loads` is the result for runs of such cycles. In `load_lost_to_branch` a taken branch
commits after the load and its `BranchData` replaces the message.
-/

namespace Gem5.MyMinor

open List Pipeline Lib BranchData

/-! ### Fetch1 trains once per cycle -/

/-- A cycle of Fetch1 makes one `updateTable` call, with the fields of Execute's branch. -/
theorem Fetch1.lvpt_evaluate (f : Fetch1) (inp : Fetch1Input) :
    (f.evaluate inp).1.lvpt = Training.trainLVPT f.lvpt inp.executeBranch.lvptIn := by
  have hlvpt : (f.beforeLine inp).takeLine.1.lvpt = f.lvpt := by
    rw [← (f.beforeLine_frame inp).1]
    unfold takeLine
    repeat' split
    all_goals rfl
  have htrain : (f.evaluate inp).1 = (f.beforeLine inp).takeLine.1.train inp.executeBranch := rfl
  rw [htrain, ← hlvpt]
  rfl

namespace Training

/-! ### The record through a cycle -/

/-- The message of an access that completes without a fault. -/
theorem lvptIn_handleMemResponse (thresholdLCT : Nat) (env : ResponseEnv) (cvu : CVU)
    (response : LSQRequest) :
    (handleMemResponse thresholdLCT env cvu response).lvptIn
      = match response.translationFault, response.packet with
        | none, some packet =>
          let packet := MemResponse.substitute cvu response.inst packet env.pastValue
          if (env.completeAcc packet).isNone then
            some (MemResponse.trainingMessage response.inst packet
              (MemResponse.packetData packet env.pastData))
          else none
        | _, _ => none := by
  unfold handleMemResponse
  cases hfault : response.translationFault with
  | some => dsimp only; split <;> rfl
  | none =>
    cases hpacket : response.packet with
    | none => rfl
    | some packet =>
      unfold MemResponse.completeAccess
      dsimp only
      cases hacc : env.completeAcc
          (MemResponse.substitute cvu response.inst packet env.pastValue) with
      | some f => rfl
      | none => dsimp only; split <;> rfl

/-- The CVU after an instruction does not depend on the record. -/
theorem commitStep_cvu (thresholdLCT : Nat) (cvu : CVU) (b b' : BranchData) (c : CommitStep) :
    (commitStep thresholdLCT (cvu, b) c).1 = (commitStep thresholdLCT (cvu, b') c).1 := by
  cases c <;> rfl

variable {c : CommitStep} {cvu : CVU} {thresholdLCT : Nat} {commits : List CommitStep}

/-- An instruction for which no message is due leaves no set flag behind, unless it finds one
or its branch has one. -/
theorem commitStep_quiet {b : BranchData} (hb : b.lvptIn.constant = false)
    (hdue : dueMessage cvu c = none) (hbranch : ∀ u ∈ c.branch, u.lvptIn.constant = false) :
    (commitStep thresholdLCT (cvu, b) c).2.lvptIn.constant = false := by
  cases c with
  | otherInst update =>
    cases update with
    | none => exact hb
    | some u => exact hbranch u rfl
  | memResponse response env update =>
    cases update with
    | some u => exact hbranch u rfl
    | none =>
      simp only [commitStep, updateBranchData]
      unfold dueMessage at hdue
      rw [lvptIn_handleMemResponse]
      cases hfault : response.translationFault with
      | some => simpa [writeLvptIn] using hb
      | none =>
        cases hpacket : response.packet with
        | none => simpa [writeLvptIn] using hb
        | some =>
          simp only [hfault, hpacket] at hdue
          dsimp only
          split
          · -- A message is written, but not for a load.
            rename_i hacc
            simp only [hacc, Bool.and_true, ite_eq_right_iff, reduceCtorEq, imp_false,
              Bool.not_eq_true] at hdue
            exact hdue
          · exact hb

/-- The same for all instructions of a cycle. -/
theorem commits_quiet :
    ∀ {cvu : CVU} {b : BranchData}, b.lvptIn.constant = false →
      dueMessages thresholdLCT cvu commits = [] →
      (∀ c ∈ commits, ∀ u ∈ c.branch, u.lvptIn.constant = false) →
      (commits.foldl (commitStep thresholdLCT) (cvu, b)).2.lvptIn.constant = false := by
  induction commits with
  | nil => exact fun hb _ _ => hb
  | cons c rest ih =>
    intro cvu b hb hdue hbranch
    rw [dueMessages, append_eq_nil_iff] at hdue
    have hnone : dueMessage cvu c = none := by simpa using hdue.1
    have hhead : (commitStep thresholdLCT (cvu, b) c).2.lvptIn.constant = false :=
      commitStep_quiet hb hnone (hbranch c mem_cons_self)
    rw [commitStep_cvu thresholdLCT cvu _ b c] at hdue
    exact ih hhead hdue.2 fun c' hc' => hbranch c' (mem_cons_of_mem c hc')

/-! ### The condition -/

/-- Nothing is written into the record: another instruction without a branch, or a memory
instruction without an access. -/
def Silent : CommitStep → Prop
  | .memResponse response _ none => response.translationFault ≠ none ∨ response.packet = none
  | .otherInst none => True
  | _ => False

/-- A load that completes without a branch, and whose message says what it should: the
address fits into 32 bits, and eight bytes are enough and not too many. -/
def SendsLoad (cvu : CVU) : CommitStep → Prop
  | .memResponse response env none =>
    dueMessage cvu (.memResponse response env none) ≠ none ∧
      ∀ packet ∈ response.packet, packet.vaddr < 2 ^ 32 ∧ packet.size ≤ 8 ∧
        ∀ i < 8, packet.size ≤ i → env.pastData i = 0
  | _ => False

/-- One load completes in the cycle, and nothing writes the record after it. -/
def LoadLast (thresholdLCT : Nat) : CVU → List CommitStep → Prop
  | _, [] => False
  | cvu, c :: rest =>
    (SendsLoad cvu c ∧ ∀ later ∈ rest, Silent later) ∨
      (dueMessage cvu c = none ∧
        LoadLast thresholdLCT (commitStep thresholdLCT (cvu, bubble default) c).1
          rest)

/-- No garbage that the cycle can pass on has the flag set. -/
def QuietGarbage (c : ExecuteCycle) : Prop :=
  c.slotGarbage.constant = false ∧ (∀ u ∈ c.interrupt, u.lvptIn.constant = false) ∧
    (∀ step ∈ c.commits, ∀ u ∈ step.branch, u.lvptIn.constant = false) ∧
    (∀ g ∈ c.drainBubble, g.constant = false) ∧ ∀ u ∈ c.haltFetch, u.lvptIn.constant = false

/-- A cycle that passes on exactly the messages that are due in it. -/
def SafeCycle (thresholdLCT : Nat) (cvu : CVU) (c : ExecuteCycle) : Prop :=
  (cycleLoads thresholdLCT cvu c = [] ∧ QuietGarbage c) ∨
    (c.interrupt = none ∧ c.drainBubble = none ∧ c.haltFetch = none ∧
      LoadLast thresholdLCT cvu c.commits)

/-- The condition on an event of the system. -/
def SafeEvent (s : State) : Event → Prop
  | .cycle execute _ => SafeCycle s.thresholdLCT s.cvu execute
  | .callback _ => True

instance : DecidablePred Silent
  | .memResponse _ _ none => inferInstanceAs (Decidable (_ ∨ _))
  | .otherInst none => isTrue trivial
  | .memResponse _ _ (some _) => isFalse id
  | .otherInst (some _) => isFalse id

instance (cvu : CVU) : DecidablePred (SendsLoad cvu)
  | .memResponse response _ none =>
    inferInstanceAs (Decidable (_ ∧ ∀ packet ∈ response.packet, _))
  | .memResponse _ _ (some _) => isFalse id
  | .otherInst _ => isFalse id

instance LoadLast.decidable (thresholdLCT : Nat) :
    ∀ (cvu : CVU) (commits : List CommitStep), Decidable (LoadLast thresholdLCT cvu commits)
  | _, [] => isFalse id
  | cvu, c :: rest =>
    have := LoadLast.decidable thresholdLCT
      (commitStep thresholdLCT (cvu, bubble default) c).1 rest
    inferInstanceAs (Decidable (_ ∨ _))

instance : DecidablePred QuietGarbage := fun c => by
  unfold QuietGarbage
  infer_instance

instance (s : State) : DecidablePred (SafeEvent s)
  | .cycle execute _ => by
    unfold SafeEvent SafeCycle
    infer_instance
  | .callback _ => isTrue trivial

/-- A silent instruction writes nothing and is due nothing. -/
theorem commitStep_silent (h : Silent c) (thresholdLCT : Nat) (cvu : CVU) (b : BranchData) :
    (commitStep thresholdLCT (cvu, b) c).2 = b ∧ dueMessage cvu c = none := by
  match c, h with
  | .otherInst none, _ => exact ⟨rfl, rfl⟩
  | .memResponse response env none, h =>
    have hmessage : (handleMemResponse thresholdLCT env cvu response).lvptIn = none ∧
        dueMessage cvu (.memResponse response env none) = none := by
      rw [lvptIn_handleMemResponse]
      unfold dueMessage
      rcases h with h | h
      · obtain ⟨f, hf⟩ := Option.ne_none_iff_exists'.mp h
        simp [hf]
      · cases response.translationFault <;> simp [h]
    refine ⟨?_, hmessage.2⟩
    simp [commitStep, updateBranchData, hmessage.1, writeLvptIn]

/-- Silent commits leave the branch record, and no message is due. -/
theorem commits_silent :
    ∀ {cvu : CVU} {b : BranchData}, (∀ c ∈ commits, Silent c) →
      (commits.foldl (commitStep thresholdLCT) (cvu, b)).2 = b ∧
        dueMessages thresholdLCT cvu commits = [] := by
  induction commits with
  | nil => exact fun _ => ⟨rfl, rfl⟩
  | cons c rest ih =>
    intro cvu b h
    obtain ⟨hkeep, hdue⟩ := commitStep_silent (h c mem_cons_self) thresholdLCT cvu b
    have hrest := fun c' hc' => h c' (mem_cons_of_mem c hc')
    refine ⟨?_, ?_⟩
    · rw [foldl_cons]
      exact (ih hrest).1.trans hkeep
    · rw [dueMessages, hdue, (ih (b := b) hrest).2]
      rfl

/-- A load that sends its message leaves it in the record. -/
theorem commitStep_load (h : SendsLoad cvu c) (thresholdLCT : Nat) (b : BranchData) :
    ∃ m, dueMessage cvu c = some m ∧ m.constant = true ∧
      (commitStep thresholdLCT (cvu, b) c).2.lvptIn = m := by
  match c, h with
  | .memResponse response env none, ⟨hdue, hpacket⟩ =>
    obtain ⟨m, hm⟩ := Option.ne_none_iff_exists'.mp hdue
    refine ⟨m, hm, ?_⟩
    simp only [commitStep, updateBranchData, Option.getD_none]
    unfold dueMessage at hm
    rw [lvptIn_handleMemResponse]
    cases hfault : response.translationFault with
    | some => simp [hfault] at hm
    | none =>
      cases hsome : response.packet with
      | none => simp [hsome] at hm
      | some packet =>
        obtain ⟨haddr, _, hzero⟩ := hpacket packet hsome
        simp only [hfault, hsome, Option.ite_none_right_eq_some, Bool.and_eq_true,
          Option.some.injEq] at hm
        obtain ⟨⟨hload, hacc⟩, rfl⟩ := hm
        refine ⟨rfl, ?_⟩
        have hvalue : MemResponse.packetData
            (MemResponse.substitute cvu response.inst packet env.pastValue) env.pastData
            = loadValue (MemResponse.substitute cvu response.inst packet env.pastValue) := by
          refine wordOfBytes_congr fun i hi => ?_
          by_cases hsize : i < packet.size
          · simp [hsize]
          · simp [hzero i hi (Nat.le_of_not_lt hsize)]
        simpa [hacc, writeLvptIn, MemResponse.trainingMessage, loadMessage, hload, hvalue]
          using haddr

/-- In a cycle with one load and nothing behind it, the record ends with the message of the
load. -/
theorem commits_loadLast :
    ∀ {cvu : CVU} {b : BranchData}, LoadLast thresholdLCT cvu commits →
      ∃ m, dueMessages thresholdLCT cvu commits = [m] ∧ m.constant = true ∧
        (commits.foldl (commitStep thresholdLCT) (cvu, b)).2.lvptIn = m := by
  induction commits with
  | nil => exact fun h => absurd h (by simp [LoadLast])
  | cons c rest ih =>
    intro cvu b h
    rcases h with ⟨hload, hsilent⟩ | ⟨hnone, hlast⟩
    · obtain ⟨m, hdue, hconst, hrec⟩ := commitStep_load hload thresholdLCT b
      refine ⟨m, ?_, hconst, ?_⟩
      · rw [dueMessages, hdue, (commits_silent (b := b) hsilent).2]
        rfl
      · rw [← hrec]
        exact congrArg lvptIn (commits_silent hsilent).1
    · obtain ⟨m, hdue, hconst, hrec⟩ := ih hlast
      refine ⟨m, ?_, hconst, ?_⟩
      · rw [dueMessages, hnone, hdue]
        rfl
      · rw [foldl_cons, ← hrec]
        rw [commitStep_cvu thresholdLCT cvu _ b c]

/-- A safe cycle passes on the messages that are due in it. -/
theorem evaluateBranch_safe {c : ExecuteCycle} (h : SafeCycle thresholdLCT cvu c) :
    [(evaluateBranch thresholdLCT cvu c).2.lvptIn].filter (fun m => m.constant)
      = cycleLoads thresholdLCT cvu c := by
  rcases h with ⟨hnone, hslot, hint, hbranch, hdrain, hhalt⟩ | ⟨hint, hdrain, hhalt, hlast⟩
  · have hconst : (evaluateBranch thresholdLCT cvu c).2.lvptIn.constant = false := by
      unfold evaluateBranch
      cases hinterrupt : c.interrupt with
      | some u => exact hint u hinterrupt
      | none =>
        have hdue : dueMessages thresholdLCT cvu c.commits = [] := by
          simpa [cycleLoads, hinterrupt] using hnone
        cases hfetch : c.haltFetch with
        | some u => exact hhalt u hfetch
        | none =>
          cases hbubble : c.drainBubble with
          | some g => exact hdrain g hbubble
          | none => exact commits_quiet hslot hdue hbranch
    simp [hnone, hconst]
  · obtain ⟨m, hdue, hconst, hrec⟩ := commits_loadLast hlast
    have hsent : (evaluateBranch thresholdLCT cvu c).2.lvptIn = m := by
      unfold evaluateBranch
      rw [hint, hdrain, hhalt]
      exact hrec
    simp [cycleLoads, hint, hdue, hsent, hconst]

/-! ### Runs -/

/-- The calls so far with the flag set, followed by the messages still in the latch, are the
messages of the loads. The LVPT is what all calls make of the first one. -/
structure Trained (lvpt : LVPT) (s : State) : Prop where
  lvpt : s.pipeline.fetch1.lvpt = s.calls.foldl trainLVPT lvpt
  loads : s.calls.filter (fun m => m.constant)
    ++ (s.pipeline.eToF1.map fun b => b.lvptIn).filter (fun m => m.constant) = s.loads

/-- A safe event keeps the calls and the messages in step. -/
theorem trained_step {lvpt : LVPT} {s s' : State} {e : Event} (hinv : Trained lvpt s)
    (hsafe : SafeEvent s e) (h : step s e = some s') : Trained lvpt s' := by
  cases e with
  | callback e =>
    cases e with
    | evaluate => cases h
    | _ =>
      simp only [step, Option.map_eq_some_iff] at h
      obtain ⟨p, hp, rfl⟩ := h
      obtain ⟨inp, hcycle⟩ | ⟨f, hf, rfl⟩ := step_cases hp
      · cases hcycle
      · exact ⟨hf.lvpt.trans hinv.lvpt, hinv.loads⟩
  | cycle execute =>
    obtain ⟨p, hp, rfl⟩ := Option.map_eq_some_iff.mp h
    simp only [Pipeline.evaluate, Option.bind_eq_bind, Option.bind_eq_some_iff, Option.pure_def,
      Option.some.injEq] at hp
    obtain ⟨_, _, rfl⟩ := hp
    refine ⟨?_, ?_⟩
    · rw [foldl_append, ← hinv.lvpt]
      exact Fetch1.lvpt_evaluate _ _
    · -- The latch passes the record on, and a safe cycle puts in what is due.
      have hline := congrArg (fun line => (line.map fun b => b.lvptIn).filter fun m => m.constant)
        (DelayLine.push_spec s.pipeline.eToF1 (evaluateBranch s.thresholdLCT s.cvu execute).2)
      simp only [map_append, filter_append, map_cons, map_nil, evaluateBranch_safe hsafe] at hline
      rw [← hinv.loads, append_assoc, ← hline, filter_append, append_assoc, ← filter_append]
      rfl

/-- In every run whose cycles are all safe, the calls with `constant` set, followed by the
messages that are still in the latch, are the messages of the committed loads in commit
order: none is lost, doubled, reordered or made up, and each carries the PC, the full
address, the value and the outcome of its load. The LVPT is the result of these calls. -/
theorem calls_eq_loads (isa : Isa) (params : PipelineParams) (tableSizeCVU : Nat) (garbage : LvptIn)
    (hgarbage : garbage.constant = false) (events : List Event) (s : State)
    (hsafe : Lib.RunMeets step SafeEvent (new isa params tableSizeCVU garbage) events)
    (hrun : Lib.run step (new isa params tableSizeCVU garbage) events = some s) :
    s.pipeline.fetch1.lvpt = s.calls.foldl trainLVPT
          (LVPT.new params.tableSizeLVPT params.thresholdLCT params.maxValueLCT) ∧
      s.calls.filter (fun m => m.constant)
          ++ (s.pipeline.eToF1.map fun b => b.lvptIn).filter (fun m => m.constant)
        = s.loads := by
  -- before the first cycle there is no call, no load, and only garbage in the latch
  have hinv := run_invariant_of_meets (fun _ _ _ => trained_step)
    ⟨rfl, by simp [new, Pipeline.new, bubble, hgarbage]⟩ hsafe hrun
  exact ⟨hinv.lvpt, hinv.loads⟩

/-! ### A lost message -/

/-- A load of 8 bytes at `0x100` that reads 7. -/
def loadOfSeven : LSQRequest :=
  smallResponse true 0x1000 LvptOut.zero 0x100 8 0 fun i => if i = 0 then 7 else 0

/-- The load commits without a fault and makes no branch. -/
def commitLoad : CommitStep :=
  .memResponse loadOfSeven smallCommit none

/-- The message of the load. -/
def sevenMessage : LvptIn :=
  { pc := 0x1000, addr := 0x100, value := 7, predict := false, constant := true }

/-- A cycle that commits these instructions, with no interrupt and no drain. -/
def commitCycle (commits : List CommitStep) : Event :=
  .cycle { slotGarbage := Pipeline.noTraining, interrupt := none, commits := commits
           drainBubble := none, haltFetch := none } Pipeline.quietCycle

/-- The load commits, and in the same cycle a branch that was not predicted. -/
def loadThenBranch : List Event :=
  [commitCycle [commitLoad, .otherInst (some
      { reason := .unpredictedBranch, threadId := some 0, newStreamSeqNum := 2
        newPredictionSeqNum := 1, target := { instAddr := 0x2000, microPC := 0 }
        lvptIn := Pipeline.noTraining })],
    commitCycle []]

/-- The message of the load is lost: no call has the flag set, and the latch is empty. -/
theorem load_lost_to_branch :
    ∃ s, Lib.run step (new Pipeline.noMacroops Pipeline.lineParams 32 Pipeline.noTraining)
        loadThenBranch = some s ∧ s.loads = [sevenMessage] ∧
      s.calls.filter (fun m => m.constant)
        ++ (s.pipeline.eToF1.map fun b => b.lvptIn).filter (fun m => m.constant) = [] := by
  show ∃ s ∈ run step (new noMacroops lineParams 32 noTraining) loadThenBranch,
    s.loads = [sevenMessage] ∧ s.calls.filter (fun m => m.constant)
      ++ (s.pipeline.eToF1.map fun b => b.lvptIn).filter (fun m => m.constant) = []
  decide +kernel

/-- The load commits alone, and its message arrives. -/
theorem calls_eq_loads_alone :
    ∃ s, Lib.run step (new Pipeline.noMacroops Pipeline.lineParams 32 Pipeline.noTraining)
        [commitCycle [commitLoad, .otherInst none], commitCycle []] = some s ∧
      s.loads = [sevenMessage] ∧
      s.calls.filter (fun m => m.constant)
          ++ (s.pipeline.eToF1.map fun b => b.lvptIn).filter (fun m => m.constant)
        = s.loads := by
  obtain ⟨s, hrun, hloads⟩ : ∃ s ∈ run step (new noMacroops lineParams 32 noTraining)
      [commitCycle [commitLoad, .otherInst none], commitCycle []], s.loads = [sevenMessage] := by
    decide +kernel
  exact ⟨s, hrun, hloads,
    (calls_eq_loads noMacroops lineParams 32 noTraining rfl _ s (by decide +kernel)
      hrun).2⟩

/-! ### The bytes that the training looks at -/

open MemResponse

/-- Two packets that agree on the bytes of the access, and on everything but their data. -/
structure SameLoadedBytes (packet packet' : Packet) : Prop where
  header : packet' = { packet with data := packet'.data }
  bytes : ∀ i < packet.size, packet'.data i = packet.data i

/-- Two runs of `handleMemResponse` on the response, from packets that agree on the bytes of the
access and with any bytes behind them, send the same message and leave the same CVU. -/
def DependsOnLoadedBytes (thresholdLCT : Nat) (env : ResponseEnv) (cvu : CVU)
    (response : LSQRequest) (packet : Packet) : Prop :=
  ∀ (packet' : Packet) (pastData' : Buffer), SameLoadedBytes packet packet' →
    env.completeAcc (substitute cvu response.inst packet' env.pastValue)
      = env.completeAcc (substitute cvu response.inst packet env.pastValue) →
    let r := handleMemResponse thresholdLCT env cvu response
    let r' := handleMemResponse thresholdLCT { env with pastData := pastData' } cvu
      { response with packet := some packet' }
    r'.lvptIn = r.lvptIn ∧ r'.cvu = r.cvu

section
variable {cvu : CVU} {inst : DynInst} {packet packet' : Packet} {pastData pastData' : Buffer}

/-- The substitution writes the same bytes into both packets, or none. -/
theorem SameLoadedBytes.substitute (h : SameLoadedBytes packet packet') (pastValue : Buffer) :
    SameLoadedBytes (substitute cvu inst packet pastValue)
      (substitute cvu inst packet' pastValue) := by
  have hhit : entryInCVU cvu inst packet' = entryInCVU cvu inst packet := by
    rw [h.header]
    rfl
  unfold MemResponse.substitute
  rw [hhit]
  split
  · rw [h.header]
    exact ⟨rfl, fun _ _ => rfl⟩
  · exact h

/-- From eight bytes on, `packetdata` is made of bytes of the access. -/
theorem SameLoadedBytes.packetData (h : SameLoadedBytes packet packet') (hsize : 8 ≤ packet.size) :
    packetData packet' pastData' = packetData packet pastData := by
  refine wordOfBytes_congr fun i hi => ?_
  have hi : i < packet.size := hi.trans_le hsize
  have hsame : packet'.size = packet.size := by rw [h.header]
  rw [hsame, if_pos hi, if_pos hi]
  exact h.bytes i hi

/-- A shorter access takes the last bytes of `packetdata` from behind its packet. -/
theorem packetData_ne (hsize : packet.size < 8)
    (hpast : pastData' packet.size ≠ pastData packet.size) :
    packetData packet pastData' ≠ packetData packet pastData := by
  intro heq
  have hbyte (past : Buffer) :
      byteOfWord (packetData packet past) packet.size = past packet.size := by
    rw [packetData, byteOfWord_wordOfBytes _ hsize, if_neg (Nat.lt_irrefl _)]
  exact hpast (by rw [← hbyte pastData', ← hbyte pastData, heq])

end

section
variable {thresholdLCT : Nat} {env : ResponseEnv} {cvu : CVU} {response : LSQRequest}
  {packet : Packet}

variable (hfault : response.translationFault = none)
include hfault

variable (hpacket : response.packet = some packet)
include hpacket

/-- With eight bytes, the message and the CVU see the packets through their headers and
`packetdata`. -/
theorem dependsOnLoadedBytes_of_le (hsize : 8 ≤ packet.size) :
    DependsOnLoadedBytes thresholdLCT env cvu response packet := by
  intro packet' pastData' hsame hacc
  have hsub : SameLoadedBytes (substitute cvu response.inst packet env.pastValue)
      (substitute cvu response.inst packet' env.pastValue) := hsame.substitute env.pastValue
  have hword : packetData (substitute cvu response.inst packet' env.pastValue) pastData'
      = packetData (substitute cvu response.inst packet env.pastValue) env.pastData :=
    hsub.packetData (by rw [substitute_size]; exact hsize)
  have hresult : handleMemResponse thresholdLCT env cvu response
      = completeAccess thresholdLCT env cvu response packet :=
    handleMemResponse_of_access hfault hpacket
  have hresult' : handleMemResponse thresholdLCT { env with pastData := pastData' } cvu
      { response with packet := some packet' }
      = completeAccess thresholdLCT { env with pastData := pastData' } cvu
          { response with packet := some packet' } packet' :=
    handleMemResponse_of_access hfault rfl
  rw [hresult, hresult']
  unfold completeAccess
  dsimp only
  generalize substitute cvu response.inst packet env.pastValue = q at *
  generalize substitute cvu response.inst packet' env.pastValue = q' at *
  have hvaddr : q'.vaddr = q.vaddr := by rw [hsub.header]
  have hpaddr : q'.paddr = q.paddr := by rw [hsub.header]
  have hcvu : cvuAfterLoad thresholdLCT cvu response.inst q' (packetData q env.pastData) env.rand
      = cvuAfterLoad thresholdLCT cvu response.inst q (packetData q env.pastData) env.rand := by
    rw [cvuAfterLoad, cvuAfterLoad, insertsEntry, insertsEntry, hvaddr, hpaddr]
  rw [hword, hcvu, hacc, hpaddr, trainingMessage, hvaddr]
  cases env.completeAcc q with
  | some => exact ⟨rfl, rfl⟩
  | none =>
    have hstore : ({ response with packet := some packet' } : LSQRequest).needsToBeSentToStoreBuffer
        = response.needsToBeSentToStoreBuffer := rfl
    rw [hstore]
    cases response.needsToBeSentToStoreBuffer <;> exact ⟨rfl, rfl⟩

/-- A shorter access that completes sends bytes from behind its packet. -/
theorem not_dependsOnLoadedBytes (hsize : packet.size < 8)
    (hacc : env.completeAcc (substitute cvu response.inst packet env.pastValue) = none) :
    ¬ DependsOnLoadedBytes thresholdLCT env cvu response packet := by
  intro h
  have hsame := (h packet (fun i => env.pastData i + 1) ⟨rfl, fun _ _ => rfl⟩ rfl).1
  simp only [lvptIn_handleMemResponse, hfault, hpacket, hacc, Option.isNone_none, if_true,
    Option.some.injEq] at hsame
  have hpast : ∀ n, env.pastData n + 1 ≠ env.pastData n := by simp
  exact packetData_ne (by rw [substitute_size]; exact hsize) (hpast _) (congrArg LvptIn.value hsame)

end

/-- The training of the LVPT and the insertion into the CVU depend on the bytes of the access
only, and the read of `packetdata` stays inside the data of the packet, exactly if there are eight
bytes of data. For an access that completes without a fault, the first part alone needs an access
of eight bytes. -/
theorem training_from_loaded_bytes_iff (thresholdLCT : Nat) (env : ResponseEnv) (cvu : CVU)
    (response : LSQRequest) (packet : Packet) (hfault : response.translationFault = none)
    (hpacket : response.packet = some packet) :
    ((DependsOnLoadedBytes thresholdLCT env cvu response packet ∧
      ∀ i ∈ packetDataOffsets, i < dataLength cvu response.inst packet) ↔
      8 ≤ dataLength cvu response.inst packet) ∧
    (env.completeAcc (substitute cvu response.inst packet env.pastValue) = none →
      (DependsOnLoadedBytes thresholdLCT env cvu response packet ↔ 8 ≤ packet.size)) := by
  have hle : dataLength cvu response.inst packet ≤ packet.size := by
    unfold dataLength
    split <;> omega
  refine ⟨⟨fun h => h.2 7 (by decide), fun hlength => ?_⟩, fun hacc => ⟨fun h => ?_, fun h => ?_⟩⟩
  · exact ⟨dependsOnLoadedBytes_of_le hfault hpacket (hlength.trans hle),
      fun i hi => (mem_range.mp hi).trans_le hlength⟩
  · by_contra hlt
    exact not_dependsOnLoadedBytes hfault hpacket (Nat.not_le.mp hlt) hacc h
  · exact dependsOnLoadedBytes_of_le hfault hpacket h

/-- The load of `loadOfSeven` has eight bytes. -/
theorem training_from_loaded_bytes_seven :
    ∃ packet, loadOfSeven.packet = some packet ∧
      DependsOnLoadedBytes 3 smallCommit (CVU.new 4) loadOfSeven packet :=
  ⟨_, rfl, ((training_from_loaded_bytes_iff 3 smallCommit (CVU.new 4) loadOfSeven _ rfl rfl).1.mpr
    (by decide)).1⟩

/-- A load of four bytes sends what lies behind its packet: two runs that differ in the fifth byte
from `packet->data` send different values. -/
theorem training_reads_past_packet :
    ∃ packet : Packet, packet.size = 4 ∧ packet.isLoad = true ∧
      (handleMemResponse 3 smallCommit (CVU.new 4)
        { loadOfSeven with packet := some packet }).lvptIn.map (·.value) = some 0 ∧
      (handleMemResponse 3 { smallCommit with pastData := fun i => if i = 4 then 1 else 0 }
        (CVU.new 4)
        { loadOfSeven with packet := some packet }).lvptIn.map (·.value) = some 0x100000000 :=
  ⟨{ isLoad := true, isLLSC := false, isSwap := false, isMaintenance := false, vaddr := 0x100,
     paddr := 0x100, size := 4, byteEnable := replicate 4 true, useCVUValue := false,
     data := fun _ => 0 },
    rfl, rfl, by decide +kernel, by decide +kernel⟩

end Training

end Gem5.MyMinor
