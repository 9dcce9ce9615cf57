import Gem5.Lib.Register
import Gem5.Proofs.Mem.MemCheckerInvariant
import Mathlib.Tactic.NormNum

/-!
# `Gem5.Proofs.Mem.MemChecker`: the memory checker and linearizable histories

A history is linearizable if each operation that is not aborted can be given an instant between its
start and its completion, such that each read returns the latest write before it or the initial
value. The call at position `i` of the history takes place at the time `i`.

`accepts_of_untied` says that the checker accepts every read of a linearizable history, and that no
assertion fails, if two kinds of ties do not occur (`Untied`): a write that completes in the tick in
which a read started before, and a read that completes in the tick in which a write started before.
`tied_read_rejected` has a linearizable history for each. In the first one the checker takes the
write to be complete before the read starts, and in the second one an assertion fails.

The argument looks at the latest write before a read. If the scan passes over it, then the last
observation came later and has seen it.
-/

namespace Gem5.Mem.MemChecker

open List ByteTracker Always Gem5.Lib

/-- No write completes in the tick of the start of an earlier read, and no read completes in the
tick of the start of an earlier write. -/
def Untied (past : List Event) (e : Event) : Prop :=
  match e with
  | .completeWrite _ tick => ∀ f ∈ past, f.isStartRead = true → f.tick ≠ tick
  | .completeRead _ tick _ => ∀ f ∈ past, f.isStartWrite = true → f.tick ≠ tick
  | _ => True

instance (past : List Event) : (e : Event) → Decidable (Untied past e)
  | .startRead _ _ => inferInstanceAs (Decidable True)
  | .startWrite _ _ _ => inferInstanceAs (Decidable True)
  | .completeRead _ tick _ =>
    inferInstanceAs (Decidable (∀ f ∈ past, f.isStartWrite = true → f.tick ≠ tick))
  | .completeWrite _ tick =>
    inferInstanceAs (Decidable (∀ f ∈ past, f.isStartRead = true → f.tick ≠ tick))
  | .abortWrite _ _ => inferInstanceAs (Decidable True)

/-- A history without these ties. -/
def TieFree (h : List Event) : Prop := Always Untied [] h

instance (h : List Event) : Decidable (TieFree h) := inferInstanceAs (Decidable (Always _ _ _))

/-- The write is aborted. -/
def Aborted (h : List Event) (serial : Serial) : Prop := ∃ j tick, At h j (.abortWrite serial tick)

/-- A write that is not aborted, and its data. -/
def Wrote (h : List Event) (serial : Serial) (data : Data) : Prop :=
  (∃ i tick, At h i (.startWrite serial tick data)) ∧ ¬ Aborted h serial

/-- A read that completes, and its data. -/
def Observed (h : List Event) (serial : Serial) (data : Data) : Prop :=
  ∃ j tick, At h j (.completeRead serial tick data)

/-- Instants for the operations of a history. -/
structure Linearization (h : List Event) (init : Data) (instant : Serial → ℚ) : Prop where
  after : ∀ {i e serial}, At h i e → e.starts = some serial → ¬ Aborted h serial →
    (i : ℚ) < instant serial
  before : ∀ {j e serial}, At h j e → e.ends = some serial → ¬ Aborted h serial →
    instant serial < (j : ℚ)
  atomic : Atomic (Wrote h) (Observed h) init instant

/-- The history is linearizable for some initial value. -/
def Linearizable (h : List Event) : Prop := ∃ init instant, Linearization h init instant

/-! ### The scan -/

section
variable {lastObs : Transaction} {start : Tick} {data : Data}

/-- A write that the scan does not skip and that completed before the read started. -/
def Passed (lastObs : Transaction) (start : Tick) (w : Transaction) : Prop :=
  ¬ w.complete < lastObs.start ∧ w.complete ≤ start

/-- What the inner loop has found out when it ends. -/
theorem scanWrites_spec (writes : List Transaction) : ∀ {s s' : Scan},
    scanWrites lastObs start data writes s = (false, s') →
      (∀ w ∈ writes, w.complete < lastObs.start ∨ w.data ≠ data) ∧
      (s'.wcOverlap = true ↔ s.wcOverlap = true ∧ ∀ w ∈ writes, ¬ Passed lastObs start w) ∧
      (s'.lastObsValid = true ↔ s.lastObsValid = true ∧
        ∀ w ∈ writes, ¬ (Passed lastObs start w ∧ lastObs.complete < w.start)) := by
  induction writes with
  | nil =>
    intro s s' hscan
    cases hscan
    simp
  | cons w rest ih =>
    intro s s' hscan
    rw [scanWrites] at hscan
    -- the loop ends at a write with the data of the read, and goes past the others
    split_ifs at hscan with hskip hdata hlate
    pick_goal 2
    · cases hscan
    all_goals
      obtain ⟨h₁, h₂, h₃⟩ := ih hscan
      simp only [forall_mem_cons, h₂]
      grind [Passed]

/-- What the outer loop has found out when it ends. It has looked at the clusters `front`, and ends
before the last one only when a write passed. -/
theorem scanClusters_spec (clusters : List WriteCluster) : ∀ {s s' : Scan},
    scanClusters lastObs start data clusters s = (false, s') → s.wcOverlap = true →
      ∃ front back, clusters = front ++ back ∧ (back ≠ [] → s'.wcOverlap = false) ∧
        (∀ c ∈ front, ∀ w ∈ c.writes, w.complete < lastObs.start ∨ w.data ≠ data) ∧
        (s'.wcOverlap = true ↔ ∀ c ∈ front, ∀ w ∈ c.writes, ¬ Passed lastObs start w) ∧
        (s'.lastObsValid = true ↔ s.lastObsValid = true ∧
          ∀ c ∈ front, ∀ w ∈ c.writes, ¬ (Passed lastObs start w ∧ lastObs.complete < w.start)) := by
  induction clusters with
  | nil =>
    intro s s' hscan hoverlap
    cases hscan
    exact ⟨[], [], rfl, by simp, by simp, by simp [hoverlap], by simp⟩
  | cons c rest ih =>
    intro s s' hscan hoverlap
    rw [scanClusters, if_pos hoverlap] at hscan
    split at hscan
    case h_1 => cases hscan
    case h_2 s₁ hwrites =>
    obtain ⟨hfree, hover, hvalid⟩ := scanWrites_spec c.writes hwrites
    cases hgo : s₁.wcOverlap with
    | true =>
      obtain ⟨front, back, rfl, hback, hfree', hover', hvalid'⟩ := ih hscan hgo
      refine ⟨c :: front, back, rfl, hback, forall_mem_cons.mpr ⟨hfree, hfree'⟩, ?_, ?_⟩
      · rw [forall_mem_cons, hover']
        exact ⟨fun h => ⟨(hover.mp hgo).2, h⟩, And.right⟩
      · rw [forall_mem_cons, hvalid', hvalid, and_assoc]
    | false =>
      -- the loop ends here
      have hend : s₁ = s' := by
        cases rest with
        | nil =>
          cases hscan
          rfl
        | cons =>
          rw [scanClusters, if_neg (by simp [hgo])] at hscan
          cases hscan
          rfl
      subst hend
      rw [hoverlap] at hover
      exact ⟨[c], rest, rfl, fun _ => hgo, by simpa using hfree, by simpa using hover,
        by simpa using hvalid⟩

end

/-! ### Instants -/

section
variable {h past rest : List Event} {init : Data} {instant : Serial → ℚ} {e f : Event}
  {serial : Serial}

/-- A read or write is completed or aborted once. -/
theorem Legal.ends_once (hl : Legal h) (he : e.ends = some serial) (hf : f.ends = some serial) :
    ¬ Before h e f := by
  intro hb
  obtain ⟨before, ⟨_, _, hnext⟩, hmem⟩ := Always.before hl hb
  cases f with
  | startRead | startWrite => cases hf
  | completeRead | completeWrite | abortWrite =>
    cases hf
    exact hnext.2 e hmem he

theorem not_aborted (hl : Legal h) (hmem : e ∈ h) (he : e.ends = some serial)
    (hne : ∀ tick, e ≠ .abortWrite serial tick) : ¬ Aborted h serial := by
  rintro ⟨k, tick, hk⟩
  rcases before_total hmem (mem_of_getElem? hk) (hne tick) with hb | hb
  · exact hl.ends_once he rfl hb
  · exact hl.ends_once rfl he hb

/-- An operation that completes before another one starts has the smaller instant. -/
theorem Linearization.lt_of_before (hlin : Linearization h init instant) (hb : Before h e f)
    {a b : Serial} (he : e.ends = some a) (ha : ¬ Aborted h a) (hf : f.starts = some b)
    (hb' : ¬ Aborted h b) : instant a < instant b := by
  obtain ⟨j, i, hj, hi, hji⟩ := hb
  have h₁ := hlin.before hj he ha
  have h₂ := hlin.after hi hf hb'
  have h₃ : (j : ℚ) < (i : ℚ) := by exact_mod_cast hji
  exact lt_trans h₁ (lt_trans h₃ h₂)

variable {t : ByteTracker} {r : Transaction} {tick : Tick} {data : Data}

/-- The read that completes at a position of the history, and the tracker before it. -/
structure Reading (h past rest : List Event) (init : Data) (instant : Serial → ℚ) (t : ByteTracker)
    (r : Transaction) (tick : Tick) (data : Data) : Prop where
  legal : Legal h
  tieFree : TieFree h
  lin : Linearization h init instant
  inv : Inv past t
  outstanding : r ∈ t.outstandingReads
  split : h = past ++ .completeRead r.serial tick data :: rest

namespace Reading

variable (hr : Reading h past rest init instant t r tick data)
include hr

theorem mem (he : e ∈ past) : e ∈ h := by
  rw [hr.split]
  exact mem_append_left _ he

theorem before (hb : Before past e f) : Before h e f := by
  rw [hr.split]
  exact hb.append _

theorem completes : At h past.length (.completeRead r.serial tick data) := by
  simp [At, hr.split]

theorem started : .startRead r.serial r.start ∈ h :=
  hr.mem (hr.inv.reading r hr.outstanding)

theorem not_aborted : ¬ Aborted h r.serial :=
  MemChecker.not_aborted hr.legal (mem_of_getElem? hr.completes) rfl (by simp)

variable {w : Transaction}

/-- A write that completed before the read started, in the ticks, did so in the history. -/
theorem write_lt (hw : w.completeCall ∈ past) (hle : w.complete ≤ r.start) :
    ¬ Aborted h w.serial ∧ instant w.serial < instant r.serial := by
  have hnot := MemChecker.not_aborted hr.legal (hr.mem hw) rfl nofun
  have hbefore : Before h w.completeCall (.startRead r.serial r.start) := by
    refine (before_total (hr.mem hw) hr.started nofun).resolve_right fun hb => ?_
    -- the ticks are equal, and the read started first
    obtain ⟨before, hnext, hmem⟩ := Always.before hr.tieFree hb
    exact hnext _ hmem rfl (Nat.le_antisymm (hr.legal.tick_le hb) hle)
  exact ⟨hnot, hr.lin.lt_of_before hbefore rfl hnot rfl hr.not_aborted⟩

/-- A write of the clusters that passed is a write before the read. -/
theorem passed_lt {c : WriteCluster} {o : Transaction} (hc : c ∈ t.writeClusters)
    (hw : w ∈ c.writes) (hpassed : Passed o r.start w) :
    Wrote h w.serial w.data ∧ instant w.serial < instant r.serial := by
  have hne : w.complete ≠ tickFuture :=
    Nat.ne_of_lt (Nat.lt_of_le_of_lt hpassed.2 (hr.legal.tick_lt hr.started))
  obtain ⟨k, hk⟩ := getElem?_of_mem (hr.mem ((hr.inv.clusters c hc).started w hw))
  obtain ⟨hnot, hlt⟩ := hr.write_lt ((hr.inv.clusters c hc).done w hw hne) hpassed.2
  exact ⟨⟨⟨k, _, hk⟩, hnot⟩, hlt⟩

/-- A write that is followed by another write before the read is not the latest one. -/
theorem not_latest {w w' : Serial} {x : Data} (hb : Before past e f) (he : e.ends = some w)
    (hw : ¬ Aborted h w) (hf : f.starts = some w') (hw' : Wrote h w' x)
    (hlt : instant w' < instant r.serial) : ¬ Latest (Wrote h) instant w (instant r.serial) := by
  rintro ⟨_, hlatest⟩
  have hgt := hr.lin.lt_of_before (hr.before hb) he hw hf hw'.2
  exact absurd hgt (not_lt.mpr (hlatest w' x hw' hlt))

variable {o : Transaction}

/-- An observation that completed before the read started. -/
theorem observation_lt (ho : .completeRead o.serial o.complete o.data ∈ past)
    (hlt : o.complete < r.start) : ¬ Aborted h o.serial ∧ Observed h o.serial o.data ∧
      instant o.serial < instant r.serial := by
  have hnot := MemChecker.not_aborted hr.legal (hr.mem ho) rfl nofun
  have hbefore := hr.legal.before_of_tick_lt (hr.mem ho) hr.started hlt
  obtain ⟨j, hj⟩ := getElem?_of_mem (hr.mem ho)
  exact ⟨hnot, ⟨j, _, hj⟩, hr.lin.lt_of_before hbefore rfl hnot rfl hr.not_aborted⟩

/-- The latest write before the read is one that the scan skips, if the scan does not find its
data. The observation came after it then. -/
theorem latest_skipped {s : Scan} (hscan : scanClusters o r.start data t.writeClusters.reverse
      { wcOverlap := true, lastObsValid := decide (o.complete ≠ tickInitial), expected := [] }
        = (false, s))
    {w : Serial} (hw : Wrote h w data) (hlatest : Latest (Wrote h) instant w (instant r.serial)) :
    ∃ c ∈ t.writeClusters, ∃ x ∈ c.writes, x.serial = w ∧ x.complete < o.start := by
  obtain ⟨⟨i, tk, hi⟩, hnot⟩ := hw
  -- the write has started before the read completes
  have hstart : .startWrite w tk data ∈ past := by
    have h₁ := hr.lin.after hi rfl hnot
    have h₂ := hr.lin.before hr.completes rfl hr.not_aborted
    have hlt : i < past.length := by exact_mod_cast lt_trans h₁ (lt_trans hlatest.1 h₂)
    rw [At, hr.split, getElem?_append_left hlt] at hi
    exact mem_of_getElem? hi
  have hkept : Kept past w := fun tick' hmem => by
    obtain ⟨j, hj⟩ := getElem?_of_mem (hr.mem hmem)
    exact hnot ⟨j, tick', hj⟩
  rcases hr.inv.stored hstart hkept with ⟨c, hc, x, hx, hcall⟩ | ⟨x, ⟨tick', hb⟩, hdone, hold⟩
  · cases hcall
    obtain ⟨front, back, hsplit, hback, hfree, hover, _⟩ := scanClusters_spec _ hscan rfl
    have hapart : (front ++ back).Pairwise fun a b => Apart past b a := by
      rw [← hsplit, pairwise_reverse]
      exact hr.inv.apart
    have hmem : c ∈ front ++ back := by
      rw [← hsplit]
      exact mem_reverse.mpr hc
    rcases mem_append.mp hmem with hfront | hbehind
    · exact ⟨c, hc, x, hx, rfl, (hfree c hfront x hx).resolve_right fun hne => hne rfl⟩
    · -- a write of a later cluster passed
      obtain ⟨c', hc', y, hy, hpassed⟩ : ∃ c' ∈ front, ∃ y ∈ c'.writes, Passed o r.start y := by
        simpa [hback (ne_nil_of_mem hbehind)] using hover
      have hc'mem : c' ∈ t.writeClusters := by
        rw [← mem_reverse, hsplit]
        exact mem_append_left _ hc'
      obtain ⟨hwrote, hlt⟩ := hr.passed_lt hc'mem hy hpassed
      have hb := ((pairwise_append.mp hapart).2.2 c' hc' c hbehind).2 x hx y hy
      exact absurd hlatest (hr.not_latest hb rfl hnot rfl hwrote hlt)
  · obtain ⟨hnot', hlt⟩ := hr.write_lt hdone (Nat.le_of_lt (hold.1 r hr.outstanding))
    obtain ⟨k, hk⟩ := getElem?_of_mem (hr.mem hb.mem_right)
    exact absurd hlatest (hr.not_latest hb rfl hnot rfl ⟨⟨k, _, hk⟩, hnot'⟩ hlt)

/-- The check accepts the read, and its assertions hold. -/
theorem expectedData_eq : ∃ l, expectedData t r.start tick data = .ok (true, l) := by
  obtain ⟨front, o, back, hsplit, hlast, hlt⟩ := lastCompletedTransaction_spec Transaction.complete
    r.start hr.inv.nonempty
  -- the observation is the initial one, or it completed before the read started
  have hobs : o = initialObservation ∨ (o.complete < r.start ∧
      Before past (.startRead o.serial o.start) (.completeRead o.serial o.complete o.data)) := by
    rcases hr.inv.observed o (by rw [hsplit]; simp) with hinit | hreal
    · exact .inl hinit
    · rcases hlt with hfront | hlt
      · exact (hr.inv.headObs o (by rw [hsplit, hfront]; rfl)).imp_right fun hold =>
          ⟨hold.1 r hr.outstanding, hreal⟩
      · exact .inr ⟨hlt, hreal⟩
  unfold expectedData
  rw [hlast]
  dsimp only
  cases hscan : scanClusters o r.start data t.writeClusters.reverse
      { wcOverlap := true, lastObsValid := decide (o.complete ≠ tickInitial), expected := [] } with
  | mk found s =>
  cases found with
  | true => exact ⟨s.expected, rfl⟩
  | false =>
  obtain ⟨seen, unseen, hseen, hend, _, hover, hvalid⟩ := scanClusters_spec _ hscan rfl
  have hmem : ∀ c ∈ seen, c ∈ t.writeClusters := fun c hc => by
    rw [← mem_reverse, hseen]
    exact mem_append_left _ hc
  have hread : Observed h r.serial data := ⟨_, _, hr.completes⟩
  -- a skipped write has completed before the observation started
  have hskip : ∀ {c x}, c ∈ t.writeClusters → x ∈ c.writes → x.complete < o.start →
      ¬ Aborted h x.serial → .completeRead o.serial o.complete o.data ∈ past ∧
        o.complete < r.start ∧ instant x.serial < instant o.serial ∧ o.complete ≠ tickInitial := by
    intro c x hc hx hxo hnot
    rcases hobs with rfl | ⟨holt, hb⟩
    · exact absurd hxo (Nat.not_lt_zero _)
    · have hostart := hr.mem hb.mem_left
      have hne : x.complete ≠ tickFuture :=
        Nat.ne_of_lt (Nat.lt_trans hxo (hr.legal.tick_lt hostart))
      have hdone := hr.mem ((hr.inv.clusters c hc).done x hx hne)
      have hle : o.start ≤ o.complete := hr.legal.tick_le (hr.before hb)
      exact ⟨hb.mem_right, holt, hr.lin.lt_of_before (hr.legal.before_of_tick_lt hdone hostart hxo)
        rfl hnot rfl (hr.observation_lt hb.mem_right holt).1,
        Nat.ne_of_gt (Nat.lt_of_le_of_lt (Nat.zero_le _) (Nat.lt_of_lt_of_le hxo hle))⟩
  cases hval : s.lastObsValid with
  | true =>
    -- the observation and the read have seen the same write
    have hne : o.complete ≠ tickInitial := of_decide_eq_true (hvalid.mp hval).1
    obtain ⟨holt, hb⟩ := hobs.resolve_left fun heq => hne (by rw [heq]; rfl)
    obtain ⟨_, hobserved, hor⟩ := hr.observation_lt hb.mem_right holt
    have hsame : o.data = data := by
      refine hr.lin.atomic.eq_of_no_write_between hobserved hread hor fun w v hw hwr => ?_
      rcases hr.lin.atomic.reads hread with ⟨w', hw', hlatest⟩ | ⟨hnone, _⟩
      · obtain ⟨c, hc, x, hx, rfl, hxo⟩ := hr.latest_skipped hscan hw' hlatest
        exact lt_of_le_of_lt (hlatest.2 w v hw hwr) (hskip hc hx hxo hw'.2).2.2.1
      · exact absurd hwr (hnone w v hw)
    refine ⟨s.expected, ?_⟩
    dsimp only
    rw [if_pos hval, if_pos hsame, assert, if_pos (decide_eq_true (Nat.le_of_lt holt))]
    rfl
  | false =>
    have hinvalid : o.complete = tickInitial ∨ ∃ c ∈ seen, ∃ w ∈ c.writes,
        Passed o r.start w ∧ o.complete < w.start := by
      by_contra hnone
      rw [not_or] at hnone
      rw [hvalid.mpr ⟨decide_eq_true hnone.1, fun c hc w hw hp => hnone.2 ⟨c, hc, w, hw, hp⟩⟩] at hval
      cases hval
    cases hclusters : t.writeClusters with
    | nil =>
      -- nothing is known about the byte
      rw [hclusters] at hscan
      cases hscan
      have hzero : o.complete = tickInitial := by simpa using hval
      refine ⟨[], ?_⟩
      simp [assert, hzero]
    | cons first others =>
      cases hgo : s.wcOverlap with
      | true =>
        -- every write overlaps the read
        have hfree := hover.mp hgo
        have hzero : o.complete = tickInitial :=
          hinvalid.resolve_right (by rintro ⟨c, hc, w, hw, hp, -⟩; exact hfree c hc w hw hp)
        have hstart : o.start = tickInitial := by
          rcases hobs with rfl | ⟨_, hb⟩
          · rfl
          · have hle : o.start ≤ o.complete := hr.legal.tick_le (hr.before hb)
            rw [hzero] at hle
            exact Nat.le_zero.mp hle
        have hfirst : first.start < tick := by
          obtain ⟨_, _, hmem⟩ := (hr.inv.clusters first (by rw [hclusters]; simp)).first
          have hb := before_of_mem hmem (.completeRead r.serial tick data) rest
          rw [← hr.split] at hb
          obtain ⟨before, hnext, hmem'⟩ := Always.before hr.tieFree hb
          exact Nat.lt_of_le_of_ne (hr.legal.tick_le hb) (hnext _ hmem' rfl)
        have hlastc : ∀ last ∈ t.writeClusters, r.start < last.complete := by
          intro last hlast
          by_cases hopen : last.complete = tickFuture
          · rw [hopen]
            exact hr.legal.tick_lt hr.started
          · obtain ⟨_, y, hy, heq⟩ := (hr.inv.clusters last hlast).of_complete hopen
            have hnil : unseen = [] := by
              by_contra hne
              rw [hend hne] at hgo
              cases hgo
            rw [← mem_reverse, hseen, hnil, append_nil] at hlast
            rw [← heq]
            by_contra hge
            refine hfree last hlast y hy ⟨?_, Nat.not_lt.mp hge⟩
            rw [hstart]
            exact Nat.not_lt_zero _
        obtain ⟨last, hget⟩ : ∃ last, (first :: others).getLast? = some last :=
          ⟨_, getLast?_eq_some_getLast (cons_ne_nil _ _)⟩
        have hlt' := hlastc last (by rw [hclusters]; exact mem_of_getLast? hget)
        refine ⟨s.expected, ?_⟩
        dsimp only
        rw [if_neg (by rw [hval]; simp), hget, hgo]
        simp [assert, hfirst, hlt']
      | false =>
        -- a write that passed contradicts the value of the read
        exfalso
        obtain ⟨c, hc, w, hw, hp⟩ : ∃ c ∈ seen, ∃ w ∈ c.writes, Passed o r.start w := by
          simpa [hgo] using hover
        obtain ⟨hwrote, hwlt⟩ := hr.passed_lt (hmem c hc) hw hp
        rcases hr.lin.atomic.reads hread with ⟨w', hw', hlatest⟩ | ⟨hnone, _⟩
        · obtain ⟨c', hc', x, hx, rfl, hxo⟩ := hr.latest_skipped hscan hw' hlatest
          obtain ⟨hodone, holt, hxlt, hne⟩ := hskip hc' hx hxo hw'.2
          obtain ⟨c₂, hc₂, w₂, hw₂, hp₂, hlate⟩ := hinvalid.resolve_left hne
          obtain ⟨hwrote₂, hw₂lt⟩ := hr.passed_lt (hmem c₂ hc₂) hw₂ hp₂
          have hstart := hr.mem ((hr.inv.clusters c₂ (hmem c₂ hc₂)).started w₂ hw₂)
          have how := hr.lin.lt_of_before (hr.legal.before_of_tick_lt (hr.mem hodone) hstart hlate)
            rfl (hr.observation_lt hodone holt).1 rfl hwrote₂.2
          exact absurd (lt_trans hxlt how) (not_lt.mpr (hlatest.2 _ _ hwrote₂ hw₂lt))
        · exact hnone _ _ hwrote hwlt

end Reading

end

/-! ### Histories -/

section
variable {h : List Event} {init : Data} {instant : Serial → ℚ}

/-- A call that has no result of its own. -/
theorem returns_true {m : TrackerM Unit} {t : ByteTracker} {Q : ByteTracker → Prop}
    (hm : Returns m t fun _ t' => Q t') :
    Returns (m >>= fun _ => pure true) t fun b t' => b = true ∧ Q t' := by
  rw [returns_bind]
  refine hm.mono fun _ t' h' => ?_
  rw [returns_pure]
  exact ⟨rfl, h'⟩

/-- One call of a linearizable history without ties. -/
theorem call_returns (hl : Legal h) (hu : TieFree h) (hlin : Linearization h init instant)
    {past rest : List Event} {e : Event} (hsplit : h = past ++ e :: rest) {t : ByteTracker}
    (hinv : Inv past t) : Returns (call e) t fun b t' => b = true ∧ Inv (past ++ [e]) t' := by
  have hlegal : Legal (past ++ [e]) := by
    have hh : Legal ((past ++ [e]) ++ rest) := by
      rw [append_assoc]
      exact hsplit ▸ hl
    exact take hh
  cases e with
  | startRead => exact returns_true (startRead_returns hlegal hinv)
  | startWrite => exact returns_true (startWrite_returns hlegal hinv)
  | completeWrite => exact returns_true (completeWrite_returns hlegal hinv)
  | abortWrite => exact returns_true (abortWrite_returns hlegal hinv)
  | completeRead =>
    refine completeRead_returns hlegal hinv fun r hr hserial => ?_
    subst hserial
    exact Reading.expectedData_eq ⟨hl, hu, hlin, hinv, hr, hsplit⟩

/-- The rest of a linearizable history without ties. -/
theorem accepts_returns (hl : Legal h) (hu : TieFree h) (hlin : Linearization h init instant)
    (rest : List Event) : ∀ (past : List Event) {t : ByteTracker}, h = past ++ rest → Inv past t →
      Returns (accepts rest) t fun b _ => b = true := by
  induction rest with
  | nil =>
    intro past t _ _
    rw [accepts, returns_pure]
  | cons e rest ih =>
    intro past t hsplit hinv
    rw [accepts, returns_bind]
    refine (call_returns hl hu hlin hsplit hinv).mono ?_
    rintro b t' ⟨rfl, hinv'⟩
    rw [returns_bind]
    refine (ih (past ++ [e]) (by rw [hsplit]; simp) hinv').mono ?_
    rintro b' t'' rfl
    rw [returns_pure]
    rfl

end

/-- The checker raises no false alarm on histories without the two ties: on every legal and
linearizable history, reads and writes that are aborted or still outstanding included, every
`completeRead` returns true and no assertion fails. -/
theorem accepts_of_untied (h : List Event) (hl : Legal h) (hlin : Linearizable h) (hu : TieFree h) :
    ∃ t, accepts h ByteTracker.new = .ok (true, t) := by
  obtain ⟨init, instant, hlin⟩ := hlin
  obtain ⟨b, t, hrun, rfl⟩ := accepts_returns hl hu hlin h [] rfl inv_new
  exact ⟨t, hrun⟩

/-- What the call number `i` satisfies in a history with one write, `w` of `x`: instants lie
between start and end, and a read has seen the write if it comes later. -/
def Fits (w : Serial) (x init : Data) (instant : Serial → ℚ) : Event × Nat → Prop
  | (.startRead serial _, i) => (i : ℚ) < instant serial
  | (.startWrite serial _ data, i) => (i : ℚ) < instant serial ∧ serial = w ∧ data = x
  | (.completeRead serial _ data, i) =>
    instant serial < (i : ℚ) ∧ data = if instant w < instant serial then x else init
  | (.completeWrite serial _, i) => instant serial < (i : ℚ)
  | (.abortWrite _ _, _) => False

/-- A history with one write. -/
theorem Linearization.of_one_write {init x : Data} {instant : Serial → ℚ} {h : List Event}
    {w : Serial} {t : Tick} (hw : .startWrite w t x ∈ h)
    (hfits : ∀ c ∈ h.zipIdx, Fits w x init instant c) : Linearization h init instant := by
  have hat : ∀ {i e}, At h i e → Fits w x init instant (e, i) := fun hi =>
    hfits _ (mk_mem_zipIdx_iff_getElem?.mpr hi)
  have hwrote : ∀ {w' y}, Wrote h w' y → w' = w ∧ y = x := by
    rintro w' y ⟨⟨i, _, hi⟩, -⟩
    exact (hat hi).2
  refine ⟨fun {i e serial} hi hs _ => ?_, fun {j e serial} hj hs _ => ?_, fun hy hz => ?_,
    fun hw hw' _ => ?_, fun {r d} hr => ?_⟩
  · have hfit := hat hi
    cases e <;> cases hs
    · exact hfit
    · exact hfit.1
  · have hfit := hat hj
    cases e <;> cases hs
    · exact hfit.1
    · exact hfit
    · exact hfit.elim
  · rw [(hwrote hy).2, (hwrote hz).2]
  · rw [(hwrote hw).1, (hwrote hw').1]
  · obtain ⟨j, _, hj⟩ := hr
    obtain ⟨-, hd⟩ := hat hj
    split at hd
    · rename_i hlt
      obtain ⟨i, hi⟩ := getElem?_of_mem hw
      have hnot : ¬ Aborted h w := by
        rintro ⟨k, _, hk⟩
        exact hat hk
      exact .inl ⟨w, hd ▸ ⟨⟨i, t, hi⟩, hnot⟩, hlt, fun w' y hw' _ => by rw [(hwrote hw').1]⟩
    · rename_i hnot
      exact .inr ⟨fun w' y hw' => by rw [(hwrote hw').1]; exact hnot, hd⟩

/-- A read that overlaps a write and returns its data. -/
theorem accepts_of_untied_overlap : ∃ t, accepts [.startWrite 1 1 7, .startRead 2 2,
    .completeWrite 1 3, .completeRead 2 4 7] ByteTracker.new = .ok (true, t) := by
  refine accepts_of_untied _ (by decide) ⟨0, fun s => if s = 1 then 1 / 2 else 3 / 2, ?_⟩ (by decide)
  exact .of_one_write (w := 1) (x := 7) (t := 1) (by simp) (by norm_num [Fits])

/-- Two linearizable histories. In the first one a read starts and then a write completes, both in
tick 20. The read may come first and return the old value, but the check rejects it. In the second
one a write starts and then the first read completes, both in tick 10, and an assertion fails. -/
theorem tied_read_rejected :
    (Legal [.startRead 1 1, .completeRead 1 2 5, .startWrite 2 10 7, .startRead 3 20,
        .completeWrite 2 20, .completeRead 3 30 5] ∧
      Linearizable [.startRead 1 1, .completeRead 1 2 5, .startWrite 2 10 7, .startRead 3 20,
        .completeWrite 2 20, .completeRead 3 30 5] ∧
      ∃ t, accepts [.startRead 1 1, .completeRead 1 2 5, .startWrite 2 10 7, .startRead 3 20,
        .completeWrite 2 20, .completeRead 3 30 5] ByteTracker.new = .ok (false, t)) ∧
    Legal [.startRead 1 5, .startWrite 2 10 7, .completeRead 1 10 5] ∧
      Linearizable [.startRead 1 5, .startWrite 2 10 7, .completeRead 1 10 5] ∧
      accepts [.startRead 1 5, .startWrite 2 10 7, .completeRead 1 10 5] ByteTracker.new
        = .error (.assertion
          "writeClusters.begin()->start < complete && writeClusters.rbegin()->complete > start") := by
  refine ⟨⟨by decide, ⟨5, fun s => if s = 1 then 1 / 2 else if s = 2 then 7 / 2 else 16 / 5, ?_⟩,
    _, rfl⟩, by decide, ⟨5, fun s => if s = 1 then 1 / 2 else 3, ?_⟩, rfl⟩
  · exact .of_one_write (w := 2) (x := 7) (t := 10) (by simp) (by norm_num [Fits])
  · exact .of_one_write (w := 2) (x := 7) (t := 10) (by simp) (by norm_num [Fits])

end Gem5.Mem.MemChecker
