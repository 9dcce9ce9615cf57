import Gem5.Proofs.MyMinor.DecodePath
import Gem5.Proofs.MyMinor.FrontEnd
import Mathlib.Data.List.Nodup

/-!
# `Gem5.Proofs.MyMinor.Attribution`: which instruction a prediction belongs to

Fetch1 reads the LVPT once per line, at the fetch address of the line, and Fetch2 copies the
answer to every instruction it takes from the line. `Attributed` says what a prediction on an
instruction should mean: it is the LVPT's answer for the instruction's own PC.

`FrontInv` is the invariant of the pipeline. Every instruction that left Fetch2 carries the
number of exactly one processed line and the LVPT answer of that line. The path to Execute keeps
both, also for micro-ops. So `attributed_iff` says exactly when an instruction's prediction is its
own: the instruction sits at the fetch address of its line, or the LVPT had no entry for it.
`second_instruction_predicted` is a run where the second instruction of a line gets the
prediction of the first.
-/

namespace Gem5.MyMinor

open List Lib StaticInst LvptOut ForwardLatch

/-- The prediction on `inst` is the answer of the LVPT `t` for the PC of `inst`. -/
def Attributed (t : LVPT) (inst : DynInst) : Prop :=
  (inst.lvptOut.predict = true →
    inst.lvptOut.pc = inst.pc.instAddr ∧
    inst.lvptOut.value = (t.read inst.pc.instAddr).value ∧
    inst.lvptOut.index = (t.read inst.pc.instAddr).index ∧
    inst.lvptOut.counter = (t.read inst.pc.instAddr).counter) ∧
  (t.hasEntry inst.pc.instAddr = false → inst.lvptOut.predict = false)

namespace LVPT
variable (t : LVPT) (pc : Addr)

theorem read_of_hasEntry (h : t.hasEntry pc = true) :
    (t.read pc).predict = true ∧ (t.read pc).pc = pc := by
  simp [read, h]

theorem read_of_not_hasEntry (h : t.hasEntry pc = false) : t.read pc = zero := by
  simp [read, h]

end LVPT

/-- An instruction that carries the LVPT's answer for `fetchAddr` is attributed exactly
when it sits there or the LVPT had no entry. -/
theorem attributed_of_read_iff {t : LVPT} {inst : DynInst} {fetchAddr : Addr}
    (h : inst.lvptOut = t.read fetchAddr) :
    Attributed t inst ↔ inst.pc.instAddr = fetchAddr ∨ t.hasEntry fetchAddr = false := by
  constructor
  · intro hattr
    cases hentry : t.hasEntry fetchAddr with
    | false => exact .inr rfl
    | true =>
      obtain ⟨hpredict, hpc⟩ := t.read_of_hasEntry fetchAddr hentry
      have hown := (hattr.1 (by rw [h]; exact hpredict)).1
      rw [h, hpc] at hown
      exact .inl hown.symm
  · rintro (hpc | hentry)
    · subst hpc
      refine ⟨fun hpredict => ?_, fun hentry => ?_⟩
      · have hentry : t.hasEntry inst.pc.instAddr = true := by
          by_contra hno
          rw [h, t.read_of_not_hasEntry _ (by simpa using hno)] at hpredict
          cases hpredict
        rw [h]
        exact ⟨(t.read_of_hasEntry _ hentry).2, rfl, rfl, rfl⟩
      · rw [h, t.read_of_not_hasEntry _ hentry]
        rfl
    · rw [t.read_of_not_hasEntry _ hentry] at h
      refine ⟨fun hpredict => ?_, fun _ => ?_⟩
      · rw [h] at hpredict
        cases hpredict
      · rw [h]
        rfl

namespace Pipeline

/-- `line` is one of the recorded lines. -/
def LineOf (records : List LineRecord) (line : ForwardLineData) : Prop :=
  ∃ r ∈ records, r.line = line

/-- `inst` carries the number of a recorded line and the LVPT fields of that line. A fetch
fault carries the default fields. -/
def InstOf (records : List LineRecord) (inst : DynInst) : Prop :=
  ∃ r ∈ records, r.line.id.lineSeqNum = inst.id.lineSeqNum ∧
    r.line.id.threadId = inst.id.threadId ∧
    inst.lvptOut = if inst.isFault then zero else r.line.lvptOut

variable {records : List LineRecord} {p p' : Pipeline}

theorem LineOf.mono {line : ForwardLineData} (h : LineOf records line) (more : List LineRecord) :
    LineOf (records ++ more) line := by
  obtain ⟨r, hr, hline⟩ := h
  exact ⟨r, mem_append_left more hr, hline⟩

theorem InstOf.mono {inst : DynInst} (h : InstOf records inst) (more : List LineRecord) :
    InstOf (records ++ more) inst := by
  obtain ⟨r, hr, hfields⟩ := h
  exact ⟨r, mem_append_left more hr, hfields⟩

/-- Fetch2 takes instructions from recorded lines. -/
theorem carried_instOf (records : List LineRecord) :
    CarriedByFetch2 (LineOf records) (InstOf records) where
  fault := by
    rintro t line ⟨r, hr, rfl⟩ hfault
    have hinst : (Fetch2Thread.faultInst t r.line).isFault = true := hfault
    exact ⟨r, hr, rfl, rfl, by rw [hinst]; rfl⟩
  decoded := by
    rintro t line d ⟨r, hr, rfl⟩
    exact ⟨r, hr, rfl, rfl, rfl⟩

/-- A micro-op has the line number and the LVPT fields of its macro-op. -/
theorem instOf_microOp (i : DynInst) (pc : PCState) (m : MicroOp) (hi : i.decomposed = true)
    (h : InstOf records i) : InstOf records (i.microOp pc m) := by
  obtain ⟨r, hr, hnum, htid, hout⟩ := h
  have hfault : i.isFault = false := by
    cases hf : i.isFault with
    | false => rfl
    | true => simp [DynInst.decomposed, hf] at hi
  rw [hfault] at hout
  exact ⟨r, hr, hnum, htid, hout⟩

/-- The invariant of the front of the pipeline. -/
structure FrontInv (isa : Isa) (p : Pipeline) : Prop where
  nodup : (p.processed.map (fun r => r.line.id.lineSeqNum) ++ p.fetch1.lineNums).Nodup
  lt : ∀ n ∈ p.processed.map (fun r => r.line.id.lineSeqNum) ++ p.fetch1.lineNums,
    n < p.fetch1.lineSeqNum
  records : ∀ r ∈ p.processed, r.line.lvptOut = r.lvpt.read r.line.fetchAddr
  f1ToF2 : ∀ line, some line ∈ p.f1ToF2 → LineOf p.processed line
  fetch2 : ∀ tid, ∀ line ∈ (p.fetch2.threads tid).inputBuffer, LineOf p.processed line
  path : ∀ t, p.path.Tracks isa t
  sent : ∀ t, ∀ inst ∈ p.path.sent t, InstOf p.processed inst

variable {isa : Isa}

/-- The output of a latch was inside it. -/
theorem mem_of_mem_read {α : Type} {latch : ForwardLatch α} {d : α} (h : d ∈ latch.read) :
    some d ∈ latch := by
  cases latch with
  | nil => cases h
  | cons x =>
    have hx : x = some d := h
    rw [hx]
    exact mem_cons_self

variable {inp : CycleInput}

/-- The line numbers after a cycle do not repeat and are below the next number. -/
theorem frontInv_nums (hinv : FrontInv isa p) (inp : Fetch1Input) {processed : List LineRecord}
    (hprocessed : processed = p.processed ++ (p.fetch1.evaluate inp).2.toList.map fun l =>
      { line := l, lvpt := p.fetch1.lvpt }) :
    let num := fun r : LineRecord => r.line.id.lineSeqNum
    (processed.map num ++ (p.fetch1.evaluate inp).1.lineNums).Nodup ∧
      ∀ n ∈ processed.map num ++ (p.fetch1.evaluate inp).1.lineNums,
        n < (p.fetch1.evaluate inp).1.lineSeqNum := by
  intro num
  obtain ⟨nums, hnums, hsub, _⟩ := p.fetch1.evaluate_spec inp
  have hall : (processed.map num ++ (p.fetch1.evaluate inp).1.lineNums).Sublist
      (p.processed.map num ++ nums) := by
    have hlast : processed.map num = p.processed.map num
        ++ (p.fetch1.evaluate inp).2.toList.map (fun l => l.id.lineSeqNum) := by
      simp [hprocessed, num]
    rw [hlast, append_assoc]
    exact Sublist.append_left hsub _
  -- The numbers in flight, with the new one if a line was requested.
  have hbase : (p.processed.map num ++ nums).Nodup ∧
      ∀ n ∈ p.processed.map num ++ nums, n < (p.fetch1.evaluate inp).1.lineSeqNum := by
    rcases hnums with ⟨rfl, hseq⟩ | ⟨rfl, hseq⟩
    · rw [hseq]
      exact ⟨hinv.nodup, hinv.lt⟩
    · rw [hseq, ← append_assoc]
      refine ⟨concat_eq_append ▸ hinv.nodup.concat fun hn => Nat.lt_irrefl _ (hinv.lt _ hn), ?_⟩
      exact forall_mem_append.mpr ⟨fun n hn => Nat.lt_succ_of_lt (hinv.lt n hn), by simp⟩
  exact ⟨hbase.1.sublist hall, fun n hn => hbase.2 n (hall.subset hn)⟩

/-- A cycle keeps the invariant. -/
theorem frontInv_evaluate (hinv : FrontInv isa p) (h : p.evaluate inp = some p') :
    FrontInv isa p' := by
  simp only [evaluate, Option.bind_eq_bind, Option.bind_eq_some_iff, Option.pure_def,
    Option.some.injEq] at h
  obtain ⟨⟨fetch2, fetch2Out, prediction⟩, hfetch2, rfl⟩ := h
  obtain ⟨hfetch2Buf, hfetch2Out⟩ := Fetch2.evaluate_spec p.fetch2 (carried_instOf p.processed)
    _ hinv.fetch2 (fun line hmem => hinv.f1ToF2 line (mem_of_mem_read hmem)) hfetch2
  exact
    { nodup := (frontInv_nums hinv _ rfl).1
      lt := (frontInv_nums hinv _ rfl).2
      records := by
        intro r hr
        rcases mem_append.mp hr with hold | hnew
        · exact hinv.records r hold
        · obtain ⟨line, hmem, rfl⟩ := mem_map.mp hnew
          exact (p.fetch1.evaluate_spec _).elim fun _ h => h.2.2 line (by simpa using hmem)
      f1ToF2 := by
        intro line hmem
        rcases mem_append.mp hmem with hold | hnew
        · exact (hinv.f1ToF2 line (mem_of_mem_tail hold)).mono _
        · refine ⟨{ line := line, lvpt := p.fetch1.lvpt }, ?_, rfl⟩
          simp [← mem_singleton.mp hnew]
      fetch2 := fun tid line hmem => (hfetch2Buf tid line hmem).mono _
      path := fun t => (hinv.path t).cycle _
      sent := fun t => forall_mem_append.mpr ⟨fun inst hinst => (hinv.sent t inst hinst).mono _,
        fun inst hinst => (hfetch2Out t inst hinst).mono _⟩ }

/-- Every event keeps the invariant. -/
theorem frontInv_step {e : Event} (hinv : FrontInv isa p) (h : step p e = some p') :
    FrontInv isa p' := by
  obtain ⟨inp, rfl⟩ | ⟨f, hf, rfl⟩ := step_cases h
  · exact frontInv_evaluate hinv h
  · exact
      { hinv with
        nodup := by
          rw [f.lineNums_eq, hf.ids, ← p.fetch1.lineNums_eq]
          exact hinv.nodup
        lt := by
          rw [f.lineNums_eq, hf.ids, ← p.fetch1.lineNums_eq, hf.lineSeqNum]
          exact hinv.lt }

/-- The pipeline starts empty. -/
theorem frontInv_new (isa : Isa) (params : PipelineParams) (garbage : LvptIn) :
    FrontInv isa (new isa params garbage) where
  nodup := nodup_nil
  lt := by simp [new, Fetch1.lineNums]
  records := by simp [new]
  f1ToF2 := by simp [new, ForwardLatch.new]
  fetch2 := by simp [new]
  path := DecodePath.init_tracks isa params.toPathParams
  sent := by simp [new, DecodePath.init]

/-- Every instruction that reaches Execute comes from exactly one processed line, and its
prediction is its own exactly when it is a fetch fault, when it sits at the fetch address of
the line, or when the LVPT had no entry for that address in the cycle of the line. -/
theorem attributed_iff (isa : Isa) (params : PipelineParams) (garbage : LvptIn)
    (events : List Event) (p : Pipeline)
    (hrun : Lib.run step (new isa params garbage) events = some p) (t : ThreadID)
    (inst : DynInst) (hinst : inst ∈ p.path.received t) :
    ∃ r ∈ p.processed, r.line.id.lineSeqNum = inst.id.lineSeqNum ∧
      r.line.id.threadId = inst.id.threadId ∧
      (∀ r' ∈ p.processed, r'.line.id.lineSeqNum = inst.id.lineSeqNum → r' = r) ∧
      (Attributed r.lvpt inst ↔ inst.isFault = true ∨ inst.pc.instAddr = r.line.fetchAddr ∨
          r.lvpt.hasEntry r.line.fetchAddr = false) := by
  have hinv : FrontInv isa p := run_invariant (fun _ _ _ hs hstep => frontInv_step hs hstep)
      (frontInv_new isa params garbage) hrun
  obtain ⟨r, hr, hnum, htid, hout⟩ := (hinv.path t).forall_received instOf_microOp
    (fun _ _ h => h) (hinv.sent t) inst hinst
  refine ⟨r, hr, hnum, htid, ?_, ?_⟩
  · intro r' hr' hnum'
    have hnodup := (nodup_append.mp hinv.nodup).1
    exact inj_on_of_nodup_map hnodup hr' hr (hnum'.trans hnum.symm)
  · cases hfault : inst.isFault with
    | true =>
      rw [hfault] at hout
      simp [Attributed, hout, zero]
    | false =>
      rw [hfault] at hout
      simp only [Bool.false_eq_true, if_false] at hout
      rw [hinv.records r hr] at hout
      simpa using attributed_of_read_iff hout

/-! ### A line with two loads -/

/-- Lines of 16 bytes, two instructions per cycle, delays of one cycle, and the default
tables. -/
def lineParams : PipelineParams :=
  { fetch1LineSnapWidth := 16, fetch1LineWidth := 16, fetch1FetchLimit := 1
    fetch2CycleInput := true, instAlign := 4, decodeInputWidth := 2, decodeCycleInput := true
    executeDummyInputWidth := 2, executeInputWidth := 2, executeDummyCycleInput := true
    fetch1ToFetch2ForwardDelay := 1, fetch1ToFetch2BackwardDelay := 1
    fetch2ToDecodeForwardDelay := 1, decodeToExecuteForwardDelay := 1
    executeDummyToExecuteForwardDelay := 1, executeBranchDelay := 1
    tableSizeLVPT := 1024, thresholdLCT := 3, maxValueLCT := 3 }

/-- A message that trains nothing. -/
def noTraining : LvptIn :=
  { pc := 0, addr := 0, value := 0, predict := false, constant := false }

/-- A cycle in which nothing is fetched or scheduled. -/
def quietCycle : CycleInput :=
  { executeOut := BranchData.bubble noTraining, canReserve := fun _ => true
    priorityList := [0], active := fun _ => false, itlbAnswer := none, icacheAccepts := true
    fetch2Scheduled := none, decoder := [], predictionGarbage := noTraining
    decodeScheduled := none, dummyScheduled := none }

/-- The decoder finds a 4-byte load at `pc`. -/
def decodeLoad (pc : Addr) : DecoderStep :=
  { decoded := some { staticInst := { null with isLoad := true }
                      pc := { instAddr := pc, microPC := 0 }
                      nextPc := { instAddr := pc + 4, microPC := 0 }
                      predictedTarget := none }
    needMoreBytes := true, moreBytesSize := 4 }

/-- No instruction is a macro-op here. -/
def noMacroops : Isa := fun _ pc =>
  { staticInst := null, isLastMicroop := true, nextPC := pc }

/-- The line `n` at `0x1000` with the loads at `0x1000` and `0x1004` goes from the icache to
Execute. -/
def lineToExecute (n : InstSeqNum) : List Event :=
  [.finishTranslation n noFault true, .recvTimingResp n, .evaluate quietCycle,
    .evaluate { quietCycle with
      fetch2Scheduled := some 0, decoder := [decodeLoad 0x1000, decodeLoad 0x1004] },
    .evaluate { quietCycle with decodeScheduled := some 0 },
    .evaluate { quietCycle with dummyScheduled := some 0 },
    .evaluate quietCycle]

/-- The line at `0x1000` executes. The load at `0x1000` reads 7 and trains the LVPT, and a
branch goes back to `0x1000`. The line is fetched and executes again. -/
def lineTwice : List Event :=
  [.wakeupFetch 0 { instAddr := 0x1000, microPC := 0 },
    .evaluate { quietCycle with active := fun _ => true }]
  ++ lineToExecute 1
  ++ [.evaluate { quietCycle with
        executeOut :=
          { reason := .unpredictedBranch, threadId := some 0, newStreamSeqNum := 2
            newPredictionSeqNum := 1, target := { instAddr := 0x1000, microPC := 0 }
            lvptIn := { pc := 0x1000, addr := 0x100, value := 7, predict := false
                        constant := true } } },
      .evaluate { quietCycle with active := fun _ => true }]
  ++ lineToExecute 2

/-- The second instruction of the second line, as it reaches Execute. -/
def secondInst : DynInst :=
  { staticInst := { null with isLoad := true }
    id := { threadId := 0, streamSeqNum := 2, predictionSeqNum := 1, lineSeqNum := 2
            fetchSeqNum := 4, execSeqNum := 5 }
    pc := { instAddr := 0x1004, microPC := 0 }, fault := noFault
    lvptOut := { predict := true, constant := false, value := 7, pc := 0x1000, index := 0
                 addr := 0x100, counter := 0 } }

/-- Both lines execute, and the second instruction of the second one is `secondInst`. -/
theorem lineTwice_receives :
    ∃ p, run step (new noMacroops lineParams noTraining) lineTwice = some p ∧
      secondInst ∈ p.path.received 0 := by
  show ∃ p ∈ run step (new noMacroops lineParams noTraining) lineTwice,
    secondInst ∈ p.path.received 0
  decide +kernel

/-- The load at `0x1004` never trained the LVPT, and it reaches Execute with the prediction
of the load at `0x1000`. -/
theorem second_instruction_predicted :
    ∃ p, Lib.run step (new noMacroops lineParams noTraining) lineTwice = some p ∧
      secondInst ∈ p.path.received 0 ∧ secondInst.pc.instAddr = 0x1004 ∧
      secondInst.lvptOut.pc = 0x1000 ∧ ∀ t, ¬ Attributed t secondInst := by
  obtain ⟨p, hrun, hmem⟩ := lineTwice_receives
  refine ⟨p, hrun, hmem, rfl, rfl, ?_⟩
  intro t hattr
  exact absurd (hattr.1 rfl).1 (by decide)

/-- The same run, seen through `attributed_iff`. -/
theorem attributed_iff_lineTwice :
    ∃ p, Lib.run step (new noMacroops lineParams noTraining) lineTwice = some p ∧
      ∃ r ∈ p.processed, r.line.id.lineSeqNum = 2 ∧ (Attributed r.lvpt secondInst ↔
          secondInst.isFault = true ∨ secondInst.pc.instAddr = r.line.fetchAddr ∨
            r.lvpt.hasEntry r.line.fetchAddr = false) := by
  obtain ⟨p, hrun, hmem⟩ := lineTwice_receives
  obtain ⟨r, hr, hnum, _, _, hiff⟩ :=
    attributed_iff noMacroops lineParams noTraining lineTwice p hrun 0 secondInst hmem
  exact ⟨p, hrun, r, hr, hnum, hiff⟩

end Pipeline

end Gem5.MyMinor
