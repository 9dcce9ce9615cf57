import Gem5.MyMinor.Buffers
import Gem5.Proofs.MyMinor.Decode

/-!
# `Gem5.Proofs.MyMinor.FrontEnd`: what Fetch1 and Fetch2 pass on

One lemma per stage. `Fetch1.evaluate_spec` and the lemmas on `lineNums` are about Fetch1: a
line is numbered once, and the numbers of the lines in flight do not repeat.
`Fetch2.evaluate_spec` says that what holds of the lines of Fetch2 is carried to the
instructions that it takes from them.
-/

namespace Gem5.MyMinor

open List Fetch2Thread

/-! ### Fetch1 -/

namespace Fetch1
variable (f : Fetch1)

/-- The line numbers of the requests in flight, oldest first. -/
def lineNums : List InstSeqNum :=
  (f.transfers ++ f.requests).map fun r => r.id.lineSeqNum

/-- The ids of the requests in flight, oldest first. -/
def ids : List InstId :=
  (f.transfers ++ f.requests).map fun r => r.id

theorem lineNums_eq : f.lineNums = f.ids.map fun id => id.lineSeqNum := by
  rw [ids, map_map]
  rfl

/-- The parts of the state that stay when only thread records change. -/
theorem reactToBranches_frame (execute fetch2 : BranchData) :
    let g := f.reactToBranches execute fetch2
    g.requests = f.requests ∧ g.transfers = f.transfers ∧ g.lineSeqNum = f.lineSeqNum ∧
      g.lvpt = f.lvpt ∧ ∀ t, (g.fetchInfo t).blocked = (f.fetchInfo t).blocked := by
  have hchange : ∀ (g : Fetch1) (tid : ThreadID) (branch : BranchData) (t : ThreadID),
      ((g.changeStream tid branch).fetchInfo t).blocked = (g.fetchInfo t).blocked := by
    intro g tid branch t
    simp only [changeStream, modifyThread]
    split <;> rfl
  unfold reactToBranches reactToExecute reactToFetch2
  repeat' split
  all_goals exact ⟨rfl, rfl, rfl, rfl, fun t => by simp only [hchange]⟩

/-- The same lines are in flight in `g`, with the same LVPT. -/
structure SameLines (g : Fetch1) : Prop where
  ids : g.ids = f.ids
  lineSeqNum : g.lineSeqNum = f.lineSeqNum
  lvpt : g.lvpt = f.lvpt

variable (accepts : Bool)

/-- Moving a request from one queue to the next keeps the ids. -/
theorem sameLines_tryToSend {r : FetchRequest} {rest : List FetchRequest}
    (h : f.requests = r :: rest) : f.SameLines (f.tryToSend r rest accepts) := by
  unfold tryToSend
  split <;> exact ⟨by simp [ids, h], rfl, rfl⟩

/-- The send to `transfers` keeps them, too. -/
theorem sameLines_tryToSendToTransfers : f.SameLines (f.tryToSendToTransfers accepts) := by
  unfold tryToSendToTransfers
  split
  · exact ⟨rfl, rfl, rfl⟩
  · rename_i r rest hreq
    split
    · exact ⟨rfl, rfl, rfl⟩
    · split
      · exact ⟨by simp [ids, hreq], rfl, rfl⟩
      · split
        · exact f.sameLines_tryToSend accepts hreq
        · exact ⟨rfl, rfl, rfl⟩

theorem sameLines_stepQueues : f.SameLines (f.stepQueues accepts) := by
  unfold stepQueues
  split
  · exact ⟨rfl, rfl, rfl⟩
  · exact f.sameLines_tryToSendToTransfers accepts

/-- An answer of the ITLB keeps the lines. -/
theorem sameLines_finishTranslation (n : InstSeqNum) (fault : Fault) (accepts : Bool) :
    f.SameLines (f.finishTranslation n fault accepts) := by
  unfold finishTranslation
  dsimp only
  generalize hnew : f.requests.map (fun r => if r.id.lineSeqNum = n ∧ r.state = .inTranslation then
    { r with fault := fault, state := .translated } else r) = requests
  have hids : { f with requests := requests }.ids = f.ids := by
    simp only [ids, ← hnew, map_append, map_map]
    congr 1
    apply map_congr_left
    intro r _
    simp only [Function.comp]
    split <;> rfl
  split
  · have h := sameLines_tryToSendToTransfers { f with requests := requests } accepts
    exact ⟨h.ids.trans hids, h.lineSeqNum, h.lvpt⟩
  · exact ⟨hids, rfl, rfl⟩

/-- A new request is the youngest, with the numbers of its thread and the next line number,
whether the ITLB answers at once or not. -/
theorem fetchLine_ids (tid : ThreadID) (answer : Option ItlbAnswer) :
    (f.fetchLine tid answer).ids = f.ids ++ [(f.lineRequest tid).id] ∧
      (f.fetchLine tid answer).lvpt = f.lvpt := by
  cases answer with
  | none => simp [ids, fetchLine]
  | some a =>
    have hkept := sameLines_finishTranslation
      { f with requests := f.requests ++ [f.lineRequest tid] } f.lineSeqNum a.fault a.icacheAccepts
    exact ⟨hkept.ids.trans (by simp [ids]), hkept.lvpt⟩

variable (inp : Fetch1Input)

/-- Before a line is taken, the stage has the same lines in flight, or one new line with
the next number. -/
theorem beforeLine_frame : (f.beforeLine inp).lvpt = f.lvpt ∧
      ((f.fetchThread inp = none ∧ (f.beforeLine inp).ids = f.ids ∧
          (f.beforeLine inp).lineSeqNum = f.lineSeqNum) ∨
        ∃ id : InstId, f.fetchThread inp = some id.threadId ∧ id.lineSeqNum = f.lineSeqNum ∧
          (f.beforeLine inp).ids = f.ids ++ [id] ∧
          (f.beforeLine inp).lineSeqNum = f.lineSeqNum + 1) := by
  unfold beforeLine fetchThread
  obtain ⟨h1, h2, h3, h4, -⟩ := reactToBranches_frame
    { f with fetchInfo := fun t => { f.fetchInfo t with blocked := !inp.canReserve t } }
    inp.executeBranch inp.fetch2Branch
  dsimp only
  generalize reactToBranches _ inp.executeBranch inp.fetch2Branch = g at h1 h2 h3 h4
  have hids : g.ids = f.ids := by simp [ids, h1, h2]
  split
  · split
    · rename_i tid htid
      obtain ⟨s1, s2, s3⟩ :=
        (g.fetchLine tid inp.itlbAnswer).sameLines_stepQueues inp.icacheAccepts
      obtain ⟨hnew, hlvpt⟩ := g.fetchLine_ids tid inp.itlbAnswer
      refine ⟨(s3.trans hlvpt).trans h4, .inr ⟨_, htid, ?_, by rw [s1, hnew, hids], ?_⟩⟩
      · exact h3
      · rw [s2]
        simp [fetchLine, h3]
    · rename_i htid
      obtain ⟨s1, s2, s3⟩ := g.sameLines_stepQueues inp.icacheAccepts
      exact ⟨s3.trans h4, .inl ⟨htid, s1.trans hids, s2.trans h3⟩⟩
  · obtain ⟨s1, s2, s3⟩ := g.sameLines_stepQueues inp.icacheAccepts
    exact ⟨s3.trans h4, .inl ⟨rfl, s1.trans hids, s2.trans h3⟩⟩

/-- Taking a line removes the oldest id at most, and discards it or passes it on. A line that
comes out has that id, and its LVPT fields are the answer for its fetch address. -/
theorem takeLine_spec :
    f.takeLine.1.lineSeqNum = f.lineSeqNum ∧
    match f.takeLine.2 with
    | none => (f.takeLine.1.ids = f.ids ∧ f.discardedResponse = none) ∨
        ∃ id, id :: f.takeLine.1.ids = f.ids ∧ f.discardedResponse = some id.threadId
    | some line => line.id :: f.takeLine.1.ids = f.ids ∧ f.discardedResponse = none ∧
        line.lvptOut = f.lvpt.read line.fetchAddr := by
  unfold takeLine
  split
  · rename_i htrans
    exact ⟨rfl, .inl ⟨rfl, by simp [discardedResponse, htrans]⟩⟩
  · rename_i response rest htrans
    split
    · rename_i hstate
      exact ⟨rfl, .inl ⟨rfl, by simp [discardedResponse, htrans, hstate]⟩⟩
    · rename_i hstate
      split
      · rename_i hdiscard
        exact ⟨rfl, .inr ⟨response.id, by simp [ids, htrans],
          by simp [discardedResponse, htrans, not_not.mp hstate, hdiscard]⟩⟩
      · rename_i hkeep
        have hnone : f.discardedResponse = none := by simp [discardedResponse, htrans, hkeep]
        split
        · exact ⟨rfl, by simp [ids, htrans, processResponse, modifyThread], hnone, rfl⟩
        · exact ⟨rfl, by simp [ids, htrans, processResponse], hnone, rfl⟩

/-- A cycle numbers at most one new line, takes at most the oldest line out, and reads the
LVPT for the line that it passes on at the line's fetch address. -/
theorem evaluate_spec :
    ∃ nums, ((nums = f.lineNums ∧ (f.evaluate inp).1.lineSeqNum = f.lineSeqNum) ∨
        (nums = f.lineNums ++ [f.lineSeqNum] ∧ (f.evaluate inp).1.lineSeqNum = f.lineSeqNum + 1)) ∧
      ((f.evaluate inp).2.toList.map (fun l => l.id.lineSeqNum)
        ++ (f.evaluate inp).1.lineNums).Sublist nums ∧
      ∀ line ∈ (f.evaluate inp).2, line.lvptOut = f.lvpt.read line.fetchAddr := by
  obtain ⟨hlvpt, hbefore⟩ := f.beforeLine_frame inp
  obtain ⟨hseq, htake⟩ := (f.beforeLine inp).takeLine_spec
  have hnums : (f.evaluate inp).1.lineNums = (f.beforeLine inp).takeLine.1.lineNums := rfl
  have hnext : (f.evaluate inp).1.lineSeqNum = (f.beforeLine inp).lineSeqNum := hseq
  have hline : (f.evaluate inp).2 = (f.beforeLine inp).takeLine.2 := rfl
  refine ⟨(f.beforeLine inp).lineNums, ?_, ?_, ?_⟩
  · rcases hbefore with ⟨-, h1, h2⟩ | ⟨id, -, hid, h1, h2⟩
    · exact .inl ⟨by rw [lineNums_eq, h1, lineNums_eq], hnext.trans h2⟩
    · exact .inr ⟨by rw [lineNums_eq, h1, map_append, lineNums_eq, ← hid]; rfl, hnext.trans h2⟩
  · rw [hline, hnums, lineNums_eq, lineNums_eq]
    cases htaken : (f.beforeLine inp).takeLine.2 with
    | none =>
      rw [htaken] at htake
      rcases htake with ⟨h, -⟩ | ⟨n, h, -⟩
      · simp [h]
      · simp [← h]
    | some =>
      rw [htaken] at htake
      simp [← htake.1]
  · intro line hmem
    rw [hline] at hmem
    rw [Option.mem_def.mp hmem] at htake
    rw [← hlvpt]
    exact htake.2.2

variable (n : InstSeqNum)

/-- The callbacks between cycles keep the lines. -/
theorem sameLines_recvTimingResp : f.SameLines (f.recvTimingResp n) := by
  refine ⟨?_, rfl, rfl⟩
  simp only [recvTimingResp, ids, map_append, map_map]
  congr 1
  apply map_congr_left
  intro r _
  simp only [Function.comp]
  split <;> rfl

theorem sameLines_recvReqRetry : f.SameLines (f.recvReqRetry accepts) := by
  unfold recvReqRetry
  split
  · exact ⟨rfl, rfl, rfl⟩
  · next hreq =>
    exact { sameLines_tryToSend { f with icacheNeedsRetry := false } accepts hreq with }

end Fetch1

/-- An event is a cycle, or a callback that changes Fetch1 only and keeps its lines. -/
theorem Pipeline.step_cases {p p' : Pipeline} {e : Event} (h : p.step e = some p') :
    (∃ inp, e = .evaluate inp) ∨ ∃ f, p.fetch1.SameLines f ∧ p' = { p with fetch1 := f } := by
  cases e with
  | evaluate inp => exact .inl ⟨inp, rfl⟩
  | finishTranslation n fault accepts =>
    exact .inr ⟨_, p.fetch1.sameLines_finishTranslation n fault accepts, (Option.some.inj h).symm⟩
  | recvTimingResp n =>
    exact .inr ⟨_, p.fetch1.sameLines_recvTimingResp n, (Option.some.inj h).symm⟩
  | recvReqRetry accepts =>
    exact .inr ⟨_, p.fetch1.sameLines_recvReqRetry accepts, (Option.some.inj h).symm⟩
  | wakeupFetch tid pc =>
    exact .inr ⟨p.fetch1.wakeupFetch tid pc, ⟨rfl, rfl, rfl⟩, (Option.some.inj h).symm⟩

/-! ### Fetch2 -/

/-- A predicate on lines and one on instructions that Fetch2 carries from lines to the
instructions it takes from them. -/
structure CarriedByFetch2 (Q : ForwardLineData → Prop) (R : DynInst → Prop) : Prop where
  fault : ∀ t line, Q line → line.isFault = true → R (faultInst t line)
  decoded : ∀ t line d, Q line → R (decodedInst t line d)

namespace Fetch2
variable {Q : ForwardLineData → Prop} {R : DynInst → Prop}

/-- The input buffer after any step of a thread is the end of the one before. -/
theorem dropOldLines_suffix (more : Bool) (lines : List ForwardLineData) (t : Fetch2Thread) :
    (t.dropOldLines more lines).inputBuffer <:+ t.inputBuffer := by
  induction lines generalizing t with
  | nil => exact suffix_refl _
  | cons head rest ih =>
    unfold dropOldLines
    split
    · split
      · exact (ih _).trans (tail_suffix _)
      · exact tail_suffix _
    · exact suffix_refl _

variable (t : Fetch2Thread)

theorem setPC_inputBuffer (align : Nat) (line : ForwardLineData) :
    (t.setPC align line).inputBuffer = t.inputBuffer := by
  unfold setPC
  split <;> rfl

variable (line : ForwardLineData)

/-- The extraction of an instruction leaves the input buffer. -/
theorem extract_inputBuffer (prediction : BranchData) (d : DecoderStep) (garbage : LvptIn) :
    (extract t line prediction d garbage).1.inputBuffer = t.inputBuffer := by
  unfold extract
  split
  · rfl
  · cases d.decoded with
    | none =>
      dsimp only
      split <;> rfl
    | some decoded =>
      dsimp only
      cases decoded.predictedTarget with
      | none | some =>
        split <;> rfl

/-- An extracted instruction comes from the line. -/
theorem extract_spec (hcarry : CarriedByFetch2 Q R) (t : Fetch2Thread)
    (line : ForwardLineData) (prediction : BranchData) (d : DecoderStep) (garbage : LvptIn)
    (hline : Q line) : ∀ inst ∈ (extract t line prediction d garbage).2.1, R inst := by
  unfold extract
  split
  · rename_i hfault
    rintro inst ⟨⟩
    exact hcarry.fault t line hline hfault
  · cases d.decoded with
    | none => simp
    | some decoded =>
      have hinst := hcarry.decoded t line decoded hline
      dsimp only
      cases decoded.predictedTarget <;> simpa using hinst

/-- Stepping the input only removes lines at the front. -/
theorem stepInput_suffix (discard : Bool) (prediction : BranchData) :
    (stepInput t line discard prediction).1.inputBuffer <:+ t.inputBuffer := by
  unfold stepInput
  split
  · exact nil_suffix
  · split
    · exact tail_suffix _
    · split
      · exact tail_suffix _
      · exact suffix_refl _

variable (f : Fetch2)

/-- One iteration of the packing loop only removes lines at the front. -/
theorem iterate_suffix (l : Fetch2Loop) (line : ForwardLineData) (d : DecoderStep)
    (garbage : LvptIn) :
    (f.iterate l line d garbage).thread.inputBuffer <:+ l.thread.inputBuffer := by
  unfold iterate
  by_cases hdiscard : l.thread.discardLine line = true
  · simp only [hdiscard]
    exact stepInput_suffix _ line true l.prediction
  · simp only [hdiscard, Bool.false_eq_true, if_false]
    have hbuf := extract_inputBuffer (l.thread.setPC f.instAlign line) line l.prediction d garbage
    rw [setPC_inputBuffer] at hbuf
    generalize extract (l.thread.setPC f.instAlign line) line l.prediction d garbage = x at hbuf
    obtain ⟨t, inst, prediction⟩ := x
    rw [← hbuf]
    exact stepInput_suffix _ line false prediction

/-- One iteration of the packing loop: a new instruction comes from the line in hand. -/
theorem iterate_spec (hcarry : CarriedByFetch2 Q R) (l : Fetch2Loop) (line : ForwardLineData)
    (d : DecoderStep) (garbage : LvptIn) (hline : Q line) (hinsts : ∀ inst ∈ l.insts, R inst) :
    ∀ inst ∈ (f.iterate l line d garbage).insts, R inst := by
  unfold iterate
  by_cases hdiscard : l.thread.discardLine line = true
  · simpa only [hdiscard, if_true, Option.toList_none, append_nil] using hinsts
  · simp only [hdiscard, Bool.false_eq_true]
    have hinst := extract_spec hcarry (l.thread.setPC f.instAlign line) line
      l.prediction d garbage hline
    exact forall_mem_append.mpr ⟨hinsts, by simpa using hinst⟩

/-- The packing loop keeps what each round keeps. The induction is on the answers of the decoder. -/
theorem pack_invariant {f : Fetch2} {garbage : LvptIn} {P : Fetch2Loop → Prop}
    (hround : ∀ l, ∀ line ∈ l.thread.inputBuffer, ∀ d, P l → P (f.iterate l line d garbage))
    {steps : List DecoderStep} {l l' : Fetch2Loop} (hP : P l)
    (h : f.pack garbage steps l = some l') : P l' := by
  induction steps generalizing l with
  | nil =>
    unfold pack at h
    split at h
    · cases h
      exact hP
    · split at h
      · cases h
      · cases h
        exact hP
  | cons d steps ih =>
    unfold pack at h
    split at h
    · cases h
      exact hP
    · rename_i line rest hbuf
      split at h
      · exact ih (hround l line (by rw [hbuf]; exact mem_cons_self) d hP) h
      · cases h
        exact hP

theorem pushLine_spec (input : Option ForwardLineData)
    (hbuf : ∀ tid, ∀ line ∈ (f.threads tid).inputBuffer, Q line) (hin : ∀ line ∈ input, Q line)
    (tid : ThreadID) : ∀ line ∈ (f.pushLine input tid).inputBuffer, Q line := by
  unfold pushLine
  split
  · split
    · exact forall_mem_append.mpr ⟨hbuf tid, forall_mem_singleton.mpr (hin _ rfl)⟩
    · exact hbuf tid
  · exact hbuf tid

variable (inp : Fetch2Input)

theorem beforeLoop_suffix (tid : ThreadID) :
    (f.beforeLoop inp tid).inputBuffer <:+ (f.pushLine inp.line tid).inputBuffer := by
  refine (dropOldLines_suffix _ _ _).trans ?_
  split
  · exact nil_suffix
  · exact suffix_refl _

variable {f' : Fetch2} {prediction : BranchData} {out : Option ForwardInstData}

/-- An evaluation of Fetch2 takes lines off the front of its buffers. -/
theorem evaluate_suffix (h : f.evaluate inp = some (f', out, prediction)) (tid : ThreadID) :
    (f'.threads tid).inputBuffer <:+ (f.pushLine inp.line tid).inputBuffer := by
  unfold evaluate at h
  split at h
  · cases h
    exact beforeLoop_suffix f inp tid
  · obtain ⟨l, hl, heq⟩ := Option.map_eq_some_iff.mp h
    cases heq
    dsimp only
    split
    · rename_i ht
      subst ht
      refine IsSuffix.trans ?_ (beforeLoop_suffix f inp tid)
      exact pack_invariant (P := fun l => l.thread.inputBuffer <:+ _)
        (fun l line _ d h => (iterate_suffix f l line d _).trans h) (suffix_refl _) hl
    · exact beforeLoop_suffix f inp tid

/-- An evaluation of Fetch2 carries the predicate of its lines to the instructions it
passes on. -/
theorem evaluate_spec (hcarry : CarriedByFetch2 Q R) (inp : Fetch2Input)
    (hbuf : ∀ tid, ∀ line ∈ (f.threads tid).inputBuffer, Q line) (hin : ∀ line ∈ inp.line, Q line)
    (h : f.evaluate inp = some (f', out, prediction)) :
    (∀ tid, ∀ line ∈ (f'.threads tid).inputBuffer, Q line) ∧
      ∀ tid, ∀ inst ∈ packetInsts tid out, R inst := by
  have hbefore : ∀ tid, ∀ line ∈ (f.beforeLoop inp tid).inputBuffer, Q line := fun tid line hline =>
    pushLine_spec f inp.line hbuf hin tid line ((beforeLoop_suffix f inp tid).subset hline)
  unfold evaluate at h
  split at h
  · cases h
    exact ⟨hbefore, by simp [packetInsts]⟩
  · rename_i tid _
    obtain ⟨l, hl, heq⟩ := Option.map_eq_some_iff.mp h
    obtain ⟨hlines, hinsts⟩ := pack_invariant
      (P := fun l => (∀ k ∈ l.thread.inputBuffer, Q k) ∧ ∀ inst ∈ l.insts, R inst)
      (fun l line hline d h => ⟨fun k hk => h.1 k ((iterate_suffix f l line d _).subset hk),
        iterate_spec f hcarry l line d _ (h.1 line hline) h.2⟩) ⟨hbefore tid, by simp⟩ hl
    cases heq
    refine ⟨fun t line hline => ?_, fun t inst hinst => ?_⟩
    · dsimp only at hline
      split at hline
      · exact hlines line hline
      · exact hbefore t line hline
    · exact hinsts inst (mem_of_mem_packetInsts_sized hinst)

end Fetch2

end Gem5.MyMinor
