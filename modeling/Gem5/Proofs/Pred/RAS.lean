import Gem5.Lib.Ring
import Gem5.Proofs.Pred.BPredUnit
import Mathlib.Data.List.TakeWhile

/-!
# `Gem5.Proofs.Pred.RAS`: a squash restores the return address stack

The records of the branches younger than `b` are an undo log of the return address stack.
`Undoable base c ras log` says that the log leads from `ras` back to `base`: the top comes
back, and so do the entries that at most `c` pushes cannot have overwritten. The moves of
`predict` extend the log (`Undoable.move`) and a squash consumes it (`Undoable.undo`).

A push above the top writes a slot above the top of `base`, or a slot that an earlier return
has popped. The record of that return restores the slot (`exists_popped`).

One correction breaks the log: a return that was predicted not taken and is corrected to taken pops
the stack, but its record has no saved top. The squash of that record restores slot 0
(`squash_clears_top`). In runs without such a correction, `squash_restores_RAS` gives the restored
stack.
-/

namespace Gem5.Pred

open Function List ReturnAddrStack Lib

open MyMinor (Addr ThreadID InstSeqNum)

namespace ReturnAddrStack

variable {PC : Type} {N : Nat} (tos : Fin N)

theorem incrTos_eq : incrTos tos = ringSlot tos 1 := by
  apply Fin.ext
  rw [ringSlot_one, incrTos]
  split <;> rfl

theorem decrTos_eq : decrTos tos = ringSlot tos (-1) := by
  apply Fin.ext
  rw [ringSlot_neg_one, decrTos]
  split <;> rfl

/-- The entry `j` places below the top. -/
def below (ras : ReturnAddrStack PC N) (j : Nat) : Option PC :=
  ras.addrStack (decrTos^[j] ras.tos)

theorem iterate_decrTos (j : Nat) : decrTos^[j] tos = ringSlot tos (-(j : Int)) := by
  induction j with
  | zero => simp
  | succ j ih =>
    rw [iterate_succ_apply', ih, decrTos_eq, ringSlot_ringSlot]
    congr 1
    omega

end ReturnAddrStack

namespace BPredUnit

open ReturnAddrStack (incrTos decrTos)

variable {PC : Type} {N : Nat}

/-! ### The undo log -/

/-- How many slots a use moves the top up. -/
def RASUse.height : RASUse PC N → Int
  | .untouched => 0
  | .popped _ _ => -1
  | .pushed => 1

/-- How many slots the uses of a log move the top up. -/
def depth : List (RASUse PC N) → Int
  | [] => 0
  | use :: log => use.height + depth log

/-- Each pop of the log has saved the slot that was the top before it, and no part of the
log reaches more than `c` slots above `base`. -/
def Linked (base : Fin N) (c : Nat) : List (RASUse PC N) → Prop
  | [] => True
  | use :: log =>
    (∀ index target, use = .popped index target → index = ringSlot base (depth log)) ∧
      depth (use :: log) ≤ c ∧ Linked base c log

variable {c : Nat} {base : Fin N}

theorem Linked.mono {c' : Nat} (hc : c ≤ c') :
    ∀ {log : List (RASUse PC N)}, Linked base c log → Linked base c' log
  | [], _ => trivial
  | _ :: _, h => ⟨h.1, h.2.1.trans (by exact_mod_cast hc), Linked.mono hc h.2.2⟩

theorem Linked.depth_le :
    ∀ {log : List (RASUse PC N)}, Linked base c log → depth log ≤ c
  | [], _ => Int.natCast_nonneg c
  | _ :: _, h => h.2.1

/-- A log that leads below `base` has saved every slot on the way. -/
theorem exists_popped {o : Int} (ho : o ≤ 0) :
    ∀ {log : List (RASUse PC N)}, Linked base c log → depth log < o →
      ∃ target, RASUse.popped (ringSlot base o) target ∈ log
  | [], _, hlt => absurd hlt (not_lt.mpr ho)
  | use :: log, hlog, hlt => by
    by_cases hrest : depth log < o
    · obtain ⟨target, hmem⟩ := exists_popped ho hlog.2.2 hrest
      exact ⟨target, mem_cons_of_mem _ hmem⟩
    · -- The top passes `o` at this use, so the use is a pop from `o`.
      cases use with
      | untouched | pushed => simp only [depth, RASUse.height] at hlt; omega
      | popped index target =>
        simp only [depth, RASUse.height] at hlt
        have hindex := hlog.1 index target rfl
        have hdepth : depth log = o := by omega
        rw [hdepth] at hindex
        exact ⟨target, by rw [hindex]; exact mem_cons_self⟩

/-- The content of a slot after the undo of a log depends on its content before only if no
pop of the log has saved the slot. -/
theorem undo_addrStack_congr {slot : Fin N} :
    ∀ {log : List (RASUse PC N)} {ras ras' : ReturnAddrStack PC N},
      ((∃ target, RASUse.popped slot target ∈ log) ∨ ras.addrStack slot = ras'.addrStack slot) →
      (log.foldl RASUse.undo ras).addrStack slot = (log.foldl RASUse.undo ras').addrStack slot
  | [], _, _, h => h.resolve_left (by simp)
  | use :: log, ras, ras', h => by
    rw [foldl_cons, foldl_cons]
    apply undo_addrStack_congr
    cases use with
    | untouched => simpa [RASUse.undo] using h
    | pushed => simpa [RASUse.undo, pop] using h
    | popped index =>
      by_cases hslot : slot = index
      · subst hslot
        exact Or.inr (by simp [RASUse.undo, restore])
      · simpa [RASUse.undo, restore, hslot] using h

/-- The log leads from `ras` back to `base`. `c` is the number of calls pushed on the way. -/
structure Undoable (base : ReturnAddrStack PC N) (c : Nat) (ras : ReturnAddrStack PC N)
    (log : List (RASUse PC N)) : Prop where
  tos : ras.tos = ringSlot base.tos (depth log)
  linked : Linked base.tos c log
  entries : ∀ j : Nat, j + c < N →
    (log.foldl RASUse.undo ras).addrStack (ringSlot base.tos (-(j : Int)))
      = base.addrStack (ringSlot base.tos (-(j : Int)))

namespace Undoable

variable {base ras : ReturnAddrStack PC N} {c : Nat} {log : List (RASUse PC N)}

theorem refl (base : ReturnAddrStack PC N) : Undoable base 0 base [] :=
  ⟨by simp [depth], trivial, fun _ _ => rfl⟩

variable {n : Nat} {ras' : ReturnAddrStack PC N} {use : RASUse PC N}

/-- A squash consumes the youngest use. -/
theorem undo (h : Undoable base c ras (use :: log)) : Undoable base c (use.undo ras) log := by
  refine ⟨?_, h.linked.2.2, h.entries⟩
  cases use with
  | untouched => simpa [RASUse.undo, depth, RASUse.height] using h.tos
  | popped index target => exact h.linked.1 index target rfl
  | pushed =>
    simp only [RASUse.undo, pop, decrTos_eq, h.tos, ringSlot_ringSlot, depth, RASUse.height]
    congr 1
    omega

theorem undoAll {uses : List (RASUse PC N)} (h : Undoable base c ras (uses ++ log)) :
    Undoable base c (uses.foldl RASUse.undo ras) log := by
  induction uses generalizing ras with
  | nil => exact h
  | cons use uses ih => exact ih h.undo


/-- A move of `predict` moves the top by the height of its use. -/
theorem tos_of_move (hmove : RASMove ras use ras' n) :
    ras'.tos = ringSlot ras.tos use.height := by
  cases hmove with
  | keep => simp [RASUse.height]
  | pop => exact decrTos_eq ras.tos
  | push => exact incrTos_eq ras.tos
  | pushPop =>
    simp [pop, push, decrTos_eq, incrTos_eq, ringSlot_ringSlot, RASUse.height]

/-- A move that is undone at once leaves every slot, but for the one that a push wrote. -/
theorem addrStack_of_move (hmove : RASMove ras use ras' n) (slot : Fin N) :
    (use.undo ras').addrStack slot = ras.addrStack slot ∨ n = 1 ∧ slot = ringSlot ras.tos 1 := by
  cases hmove with
  | keep => exact .inl rfl
  | pop =>
    left
    simp [RASUse.undo, restore, pop, top]
  | push | pushPop =>
    by_cases hslot : slot = incrTos ras.tos
    · exact .inr ⟨rfl, hslot.trans (incrTos_eq ras.tos)⟩
    · left
      simp [RASUse.undo, pop, push, hslot]

/-- A move of `predict` extends the log. -/
theorem move (h : Undoable base c ras log) (hmove : RASMove ras use ras' n) :
    Undoable base (c + n) ras' (use :: log) := by
  have hheight : use.height ≤ n := by cases hmove <;> simp [RASUse.height]
  have hdepth := h.linked.depth_le
  refine ⟨?_, ⟨?_, ?_, h.linked.mono (Nat.le_add_right c n)⟩, ?_⟩
  · rw [tos_of_move hmove, h.tos, ringSlot_ringSlot, add_comm]
    rfl
  · intro index target huse
    cases hmove <;> cases huse
    exact h.tos
  · simp only [depth]
    omega
  · intro j hj
    rw [foldl_cons, ← h.entries j (by omega)]
    apply undo_addrStack_congr
    rcases addrStack_of_move hmove (ringSlot base.tos (-(j : Int))) with hkept | ⟨hn, hslot⟩
    · exact .inr hkept
    · left
      rw [h.tos, ringSlot_ringSlot] at hslot
      by_cases hbelow : depth log + 1 ≤ 0
      · -- The push writes a slot that a return of the log has popped.
        rw [hslot]
        exact exists_popped hbelow h.linked (by omega)
      · -- The push writes one of the `c + 1` slots above the top of `base`.
        have := ringSlot_inj base.tos hslot (by omega) (by omega)
        omega

end Undoable

/-! ### Runs of younger branches -/

variable [PCStateBase PC] {P : DirectionPredictor PC} {I : IndirectPredictor PC} [NeZero N]

omit [PCStateBase PC] in
theorem undoAll_eq (ras : ReturnAddrStack PC N) (recs : List (PredictorHistory P I N)) :
    undoAll ras recs = (recs.map rasUse).foldl RASUse.undo ras := by
  rw [undoAll, foldl_map]
  congr 1
  funext ras r
  unfold undoRAS rasUse
  split
  · rfl
  · split <;> rfl

omit [PCStateBase PC] in
/-- A correction keeps the log, unless it pops for a return whose record has saved another
top. -/
theorem Undoable.correctRAS {base ras : ReturnAddrStack PC N} {log : List (RASUse PC N)}
    {r : PredictorHistory P I N} (h : Undoable base c ras (rasUse r :: log)) (taken : Bool)
    (hr : RecordOk r)
    (hsaved : taken = true → r.wasReturn = true → r.usedRAS = false →
      r.RASIndex = ras.tos ∧ r.RASTarget = ras.top) :
    Undoable base c (BPredUnit.correctRAS ras taken r).1
      (rasUse (BPredUnit.correctRAS ras taken r).2 :: log) := by
  unfold BPredUnit.correctRAS
  split
  · next htaken =>
      split
      · next hret =>
          -- The return pops now. Its record is untouched so far.
          rw [Bool.and_eq_true, Bool.not_eq_true'] at hret
          obtain ⟨hindex, htarget⟩ := hsaved htaken hret.1 hret.2
          have huse : rasUse r = .untouched := by simp [rasUse, hret.2, hr.call hret.1]
          rw [huse] at h
          have hpop := h.undo.move .pop
          simpa [rasUse, RASUse.undo, hindex, htarget] using hpop
      · exact h
  · split
    · next hused =>
        -- A return that was not taken puts its top back.
        have huse : rasUse r = .popped r.RASIndex r.RASTarget := by simp [rasUse, hused]
        rw [huse] at h
        have hkeep := h.undo.move .keep
        simpa [rasUse, RASUse.undo, hr.call (hr.used hused)] using hkeep
    · next hused =>
        split
        · next hpushed =>
            -- A call that was not taken takes its push back.
            have huse : rasUse r = .pushed := by simp [rasUse, hused, hpushed]
            rw [huse] at h
            have hkeep := h.undo.move .keep
            simpa [rasUse, RASUse.undo, hused] using hkeep
        · exact h

omit [PCStateBase PC] in
/-- A squash stops at a record that is not younger. -/
theorem younger_rest_append {sn : InstSeqNum} {b : PredictorHistory P I N}
    (hb : b.seqNum ≤ sn) (recs older : List (PredictorHistory P I N)) :
    younger sn (recs ++ b :: older) = younger sn recs ∧
      rest sn (recs ++ b :: older) = rest sn recs ++ b :: older := by
  induction recs with
  | nil => simp [younger, rest, hb]
  | cons r recs ih =>
    by_cases hr : sn < r.seqNum
    · simpa [younger, rest, hr] using ih
    · simp [younger, rest, hr]

end BPredUnit

namespace Session

open BPredUnit

variable {PC : Type} [PCStateBase PC] {P : DirectionPredictor PC} {I : IndirectPredictor PC}
  {N : Nat} [NeZero N]

/-- A call that, for the thread `tid`, predicts, squashes or corrects only branches younger
than `sn`, and that commits none. -/
def OfYounger (sn : InstSeqNum) (tid : ThreadID) : Event PC → Prop
  | .predict _ seqNum _ t _ => t = tid → sn < seqNum
  | .update _ t => t ≠ tid
  | .squash squashedSn t => t = tid → sn ≤ squashedSn
  | .squashMispredicted squashedSn _ _ t => t = tid → sn < squashedSn

/-- A correction to taken that pops the stack late, for a return whose record does not use
it, finds in the record the top that it pops. -/
def PopSaved (s : Session P I N) : Event PC → Prop
  | .squashMispredicted squashedSn _ taken tid =>
    taken = true → ∀ r ∈ (rest squashedSn (s.unit.predHist tid)).head?,
      r.wasReturn = true → r.usedRAS = false →
        r.RASIndex
            = (undoAll (s.unit.RAS tid) (younger squashedSn (s.unit.predHist tid))).tos ∧
          r.RASTarget
            = (undoAll (s.unit.RAS tid) (younger squashedSn (s.unit.predHist tid))).top
  | _ => True

/-- The history of the thread is the one of `s₀` below records of younger branches, and
these records lead back to the return address stack of `s₀`. -/
structure Tracks (s₀ : Session P I N) (b : PredictorHistory P I N) (tid : ThreadID)
    (recs : List (PredictorHistory P I N)) (s : Session P I N) : Prop where
  hist : s.unit.predHist tid = recs ++ s₀.unit.predHist tid
  young : ∀ r ∈ recs, b.seqNum < r.seqNum
  ok : ∀ r ∈ recs, RecordOk r
  pushes : s₀.pushes tid ≤ s.pushes tid
  undo : Undoable (s₀.unit.RAS tid) (s.pushes tid - s₀.pushes tid) (s.unit.RAS tid)
    (recs.map rasUse)

namespace Tracks

variable {s₀ s : Session P I N} {b : PredictorHistory P I N}
  {older recs : List (PredictorHistory P I N)} {tid : ThreadID}
variable {p : BPredParams} {s' : Session P I N} {sn : InstSeqNum}

omit [PCStateBase PC] in
/-- A squash of records younger than `b` consumes the front of the log. -/
theorem squash (hb : s₀.unit.predHist tid = b :: older) (h : Tracks s₀ b tid recs s)
    (hsn : b.seqNum ≤ sn) :
    Tracks s₀ b tid (rest sn recs) { s with unit := s.unit.squash p sn tid } := by
  obtain ⟨hyounger, hrest⟩ := younger_rest_append hsn recs older
  have hmem : ∀ r ∈ rest sn recs, r ∈ recs := fun r hr => (dropWhile_suffix _).subset hr
  refine ⟨?_, fun r hr => h.young r (hmem r hr), fun r hr => h.ok r (hmem r hr), h.pushes, ?_⟩
  · rw [predHist_squash, update_self, h.hist, hb, hrest]
  · have hundo := h.undo
    rw [← younger_append_rest sn recs, map_append] at hundo
    rw [RAS_squash, update_self, h.hist, hb, hyounger, undoAll_eq]
    exact hundo.undoAll

/-- A correction of a younger branch replaces the front of the log. -/
theorem correct {corrTarget : PC} {taken : Bool} {u : BPredUnit P I N}
    (hb : s₀.unit.predHist tid = b :: older) (h : Tracks s₀ b tid recs s) (hsn : b.seqNum < sn)
    (hsaved : PopSaved s (.squashMispredicted sn corrTarget taken tid))
    (hu : s.unit.squashMispredicted p sn corrTarget taken tid = some u) :
    ∃ recs', Tracks s₀ b tid recs' { s with unit := u } := by
  obtain ⟨hyounger, hrest⟩ := younger_rest_append hsn.le recs older
  have hsq := h.squash hb hsn.le (p := p)
  have hhist : s.unit.predHist tid = recs ++ b :: older := by rw [h.hist, hb]
  rw [← hhist] at hyounger hrest
  rcases squashMispredicted_cases p tid hu with ⟨hnil, rfl⟩ | ⟨r, rs, hcons, hr, rfl⟩
  · exact ⟨_, hsq⟩
  · -- The corrected record is not the one of `b`, so it is a younger one.
    cases hrecs : rest sn recs with
    | nil =>
      rw [hrest, hrecs, nil_append, cons.injEq] at hcons
      rw [hcons.1, hr] at hsn
      exact absurd hsn (lt_irrefl sn)
    | cons r' recs' =>
      rw [hrest, hrecs, cons_append, cons.injEq] at hcons
      obtain ⟨rfl, rfl⟩ := hcons
      rw [hrecs] at hsq
      have hras : (s.unit.squash p sn tid).RAS tid
          = undoAll (s.unit.RAS tid) (younger sn (s.unit.predHist tid)) := by
        rw [RAS_squash, update_self]
      have hundo := hsq.undo.correctRAS taken (hsq.ok r' mem_cons_self) (by
          intro htaken hret hused
          simp only [hras]
          exact hsaved htaken r' (by rw [hrest, hrecs]; rfl) hret hused)
      obtain ⟨-, hras', hseq, huse, hok, -⟩ :=
        correctRecord_spec p tid (s.unit.squash p sn tid) corrTarget taken r'
      refine ⟨((s.unit.squash p sn tid).correctRecord p corrTarget taken tid r').1 :: recs',
        ?_, ?_, ?_, h.pushes, ?_⟩
      · simp [hb]
      · have hyoung := forall_mem_cons.mp hsq.young
        exact forall_mem_cons.mpr ⟨hseq ▸ hyoung.1, hyoung.2⟩
      · have hkind := forall_mem_cons.mp hsq.ok
        exact forall_mem_cons.mpr ⟨hok hkind.1, hkind.2⟩
      · rw [map_cons, huse]
        simp only [RAS_setHist, hras', update_self]
        exact hundo

/-- A prediction of a younger branch extends the log. -/
theorem predict {inst : StaticInst PC} {seqNum : InstSeqNum} {pc : PC} {draw : Fin 101}
    (h : Tracks s₀ b tid recs s) (hsn : b.seqNum < seqNum)
    (hs' : step p s (.predict inst seqNum pc tid draw) = some s') :
    ∃ r, Tracks s₀ b tid (r :: recs) s' := by
  rw [step_predict, Option.some.injEq] at hs'
  subst hs'
  obtain ⟨r, ras, hhist, hras, hseq, hok, hmove⟩ :=
    predictWith_moves p tid (adjust p draw) s.unit inst seqNum pc
  have hundo := h.undo.move hmove
  have hpushes := h.pushes
  refine ⟨r, ?_, ?_, ?_, ?_, ?_⟩
  · rw [hhist, update_self, h.hist, cons_append]
  · exact forall_mem_cons.mpr ⟨hseq ▸ hsn, h.young⟩
  · exact forall_mem_cons.mpr ⟨hok, h.ok⟩
  · split
    · simp only [update_self]
      omega
    · exact hpushes
  · rw [hras, update_self, map_cons]
    dsimp only at hundo ⊢
    split at hundo
    · next hcall =>
        rw [if_pos hcall, update_self, Nat.sub_add_comm hpushes]
        exact hundo
    · next hcall =>
        rw [if_neg hcall]
        exact hundo

/-- Every call for younger branches keeps the log. -/
theorem step {e : Event PC} (hb : s₀.unit.predHist tid = b :: older) (h : Tracks s₀ b tid recs s)
    (hyoung : OfYounger b.seqNum tid e) (hsaved : PopSaved s e)
    (hs' : Session.step p s e = some s') : ∃ recs', Tracks s₀ b tid recs' s' := by
  by_cases htid : tid = e.tid
  · cases e with
    | predict inst seqNum pc t =>
      obtain rfl : tid = t := htid
      obtain ⟨r, hr⟩ := h.predict (hyoung rfl) hs'
      exact ⟨_, hr⟩
    | update => exact absurd htid.symm hyoung
    | squash squashedSn t =>
      obtain rfl : tid = t := htid
      cases hs'
      exact ⟨_, h.squash hb (hyoung rfl)⟩
    | squashMispredicted squashedSn corrTarget taken t =>
      obtain rfl : tid = t := htid
      obtain ⟨u, hu, rfl⟩ := Option.map_eq_some_iff.mp hs'
      exact h.correct hb (hyoung rfl) hsaved hu
  · obtain ⟨hhist, hras, hpushes⟩ := step_other htid hs'
    refine ⟨recs, ?_, h.young, h.ok, ?_, ?_⟩
    · rw [hhist, h.hist]
    · rw [hpushes]
      exact h.pushes
    · rw [hras, hpushes]
      exact h.undo

end Tracks

/-- Take a session in which `b` is the youngest branch of its thread, and any run of
predictions, squashes and corrections of younger branches. The squash of everything younger
than `b` then brings back the top of the return address stack, and all entries below it but
for as many as the run has pushed calls. -/
theorem squash_restores_RAS (p : BPredParams) (s t : Session P I N) (tid : ThreadID)
    (b : PredictorHistory P I N) (older : List (PredictorHistory P I N)) (es : List (Event PC))
    (hb : s.unit.predHist tid = b :: older)
    (hes : Lib.RunMeets (step p) (fun s e => OfYounger b.seqNum tid e ∧ PopSaved s e) s es)
    (hrun : Lib.run (step p) s es = some t) :
    ((t.unit.squash p b.seqNum tid).RAS tid).tos = (s.unit.RAS tid).tos ∧
      ∀ j, j + (t.pushes tid - s.pushes tid) < N →
        ((t.unit.squash p b.seqNum tid).RAS tid).below j = (s.unit.RAS tid).below j := by
  have hstart : ∃ recs, Tracks s b tid recs s :=
    ⟨[], rfl, by simp, by simp, le_rfl, by simpa using Undoable.refl (s.unit.RAS tid)⟩
  obtain ⟨recs, ht⟩ := run_invariant_of_meets (P := fun t => ∃ recs, Tracks s b tid recs t)
    (fun _ _ _ ⟨_, h⟩ hok hs' => h.step hb hok.1 hok.2 hs') hstart hes hrun
  have hnil : rest b.seqNum recs = [] :=
    dropWhile_eq_nil_iff.mpr fun r hr => by simpa using ht.young r hr
  have hsq := ht.squash hb le_rfl (p := p)
  rw [hnil] at hsq
  have htos : ((t.unit.squash p b.seqNum tid).RAS tid).tos = (s.unit.RAS tid).tos := by
    simpa [depth] using hsq.undo.tos
  refine ⟨htos, fun j hj => ?_⟩
  rw [below, below, htos, iterate_decrTos]
  exact hsq.undo.entries j hj

instance OfYounger.decidable (sn : InstSeqNum) (tid : ThreadID) :
    ∀ e : Event PC, Decidable (OfYounger sn tid e)
  | .predict _ seqNum _ t _ => inferInstanceAs (Decidable (t = tid → sn < seqNum))
  | .update _ t => inferInstanceAs (Decidable (t ≠ tid))
  | .squash squashedSn t => inferInstanceAs (Decidable (t = tid → sn ≤ squashedSn))
  | .squashMispredicted squashedSn _ _ t =>
    inferInstanceAs (Decidable (t = tid → sn < squashedSn))

instance PopSaved.decidable [DecidableEq PC] (s : Session P I N) :
    ∀ e : Event PC, Decidable (PopSaved s e)
  | .squashMispredicted _ _ _ _ => inferInstanceAs (Decidable (_ → ∀ r ∈ _, _))
  | .predict _ _ _ _ _ => isTrue trivial
  | .update _ _ => isTrue trivial
  | .squash _ _ => isTrue trivial

/-- The session after a call at `0x100` and a conditional branch at `0x200`. -/
def afterBranch : Session (TournamentBP.predictor FlatPC smallTournament) noIndirect 2 :=
  (run (step smallUnit) small
    [.predict directCall 1 ⟨0x100⟩ 0 0, .predict condBranch 2 ⟨0x200⟩ 0 0]).getD small

/-- The conditional branch is the youngest one of its thread. -/
theorem exists_youngest : ∃ b older, afterBranch.unit.predHist 0 = b :: older ∧ b.seqNum = 2 := by
  have htest : (afterBranch.unit.predHist 0).head?.any (fun b => b.seqNum == 2) = true := by
    decide +kernel
  cases hhist : afterBranch.unit.predHist 0 with
  | nil => simp [hhist] at htest
  | cons b older => exact ⟨b, older, rfl, by simpa [hhist] using htest⟩

/-- A conditional call that is taken once. The next time, a draw of 100 turns its prediction into
taken, and it is corrected to not taken. -/
def droppedCall : List (Event FlatPC) :=
  [.predict condCall 3 ⟨0x204⟩ 0 0, .squashMispredicted 3 ⟨0x400⟩ true 0,
    .predict condCall 4 ⟨0x204⟩ 0 100, .squashMispredicted 4 ⟨0x208⟩ false 0]

/-- A younger call is pushed and taken back. The squash gives the stack from before. -/
theorem squash_restores_RAS_droppedCall :
    ∃ t b older, afterBranch.unit.predHist 0 = b :: older ∧
      Lib.run (step smallUnit) afterBranch droppedCall = some t ∧
      t.predictions.head? = some (true, ⟨0x400⟩) ∧
      ((t.unit.squash smallUnit b.seqNum 0).RAS 0).tos = (afterBranch.unit.RAS 0).tos ∧
      ((t.unit.squash smallUnit b.seqNum 0).RAS 0).below 0 = (afterBranch.unit.RAS 0).below 0 := by
  obtain ⟨b, older, hb, hsn⟩ := exists_youngest
  obtain ⟨t, ht, htaken, hone⟩ : ∃ t ∈ run (step smallUnit) afterBranch droppedCall,
      t.predictions.head? = some (true, ⟨0x400⟩) ∧ t.pushes 0 - afterBranch.pushes 0 = 1 := by
    decide +kernel
  have hmeets : RunMeets (step smallUnit)
      (fun s e => OfYounger b.seqNum 0 e ∧ PopSaved s e) afterBranch droppedCall := by
    rw [hsn]
    decide +kernel
  obtain ⟨htos, hbelow⟩ :=
    squash_restores_RAS smallUnit afterBranch t 0 b older droppedCall hb hmeets ht
  exact ⟨t, b, older, hb, ht, htaken, htos, hbelow 0 (by omega)⟩

/-- A conditional return that is predicted not taken and turns out taken. -/
def lateReturn : List (Event FlatPC) :=
  [.predict condReturn 3 ⟨0x204⟩ 0 0, .squashMispredicted 3 ⟨0x104⟩ true 0]

/-- The stack after the call has its top in slot 1. A younger return is corrected to taken
and then squashed: the top is now slot 0, although nothing was pushed in between. -/
theorem squash_clears_top :
    ∃ t b older, afterBranch.unit.predHist 0 = b :: older ∧
      (∀ e ∈ lateReturn, OfYounger b.seqNum 0 e) ∧
      Lib.run (step smallUnit) afterBranch lateReturn = some t ∧
      t.pushes 0 = afterBranch.pushes 0 ∧
      ((t.unit.squash smallUnit b.seqNum 0).RAS 0).tos ≠ (afterBranch.unit.RAS 0).tos := by
  obtain ⟨b, older, hb, hsn⟩ := exists_youngest
  obtain ⟨t, ht, hpushes, htos⟩ : ∃ t ∈ run (step smallUnit) afterBranch lateReturn,
      t.pushes 0 = afterBranch.pushes 0 ∧
        ((t.unit.squash smallUnit 2 0).RAS 0).tos ≠ (afterBranch.unit.RAS 0).tos := by
    decide +kernel
  refine ⟨t, b, older, hb, ?_, ht, hpushes, ?_⟩
  · rw [hsn]
    decide
  · rw [hsn]
    exact htos

end Session

end Gem5.Pred
