import Gem5.Mem.MemChecker
import Mathlib.Data.List.Nodup

/-!
# `Gem5.Proofs.Mem.MemCheckerInvariant`: what a byte tracker knows

A history is the list of the calls for one byte. `Legal` says what `MemCheckerMonitor` guarantees:
ticks do not decrease, serials increase, and a read or write is completed or aborted once, after its
start. `Inv h t` says what the tracker `t` knows after the history `h`. It orders the calls by their
positions (`Before`), because several calls can have the same tick.

- The observations are reads that completed. The first one is the initial one, or it is `Old`: it
  completed before the start of every read that is outstanding or comes later.
- The clusters hold writes of the history. All writes of a cluster complete before the first one of
  the next cluster starts.
- A write that is in no cluster any more is covered by a write that followed it and is `Old`.
-/

namespace Gem5.Mem.MemChecker

open List ByteTracker Gem5.Lib

namespace Event

/-- The tick of a call. -/
def tick : Event → Tick
  | startRead _ tick => tick
  | startWrite _ tick _ => tick
  | completeRead _ tick _ => tick
  | completeWrite _ tick => tick
  | abortWrite _ tick => tick

/-- The read or write that a call starts. -/
def starts : Event → Option Serial
  | startRead serial _ => some serial
  | startWrite serial _ _ => some serial
  | _ => none

/-- The read or write that a call completes or aborts. -/
def ends : Event → Option Serial
  | completeRead serial _ _ => some serial
  | completeWrite serial _ => some serial
  | abortWrite serial _ => some serial
  | _ => none

def isStartRead : Event → Bool
  | startRead _ _ => true
  | _ => false

def isStartWrite : Event → Bool
  | startWrite _ _ _ => true
  | _ => false

end Event

/-- Each call of a history is related to those before it. -/
def Always (P : List Event → Event → Prop) : List Event → List Event → Prop
  | _, [] => True
  | past, e :: rest => P past e ∧ Always P (past ++ [e]) rest

instance Always.decidable (P : List Event → Event → Prop) [∀ past e, Decidable (P past e)] :
    ∀ past h, Decidable (Always P past h)
  | _, [] => isTrue trivial
  | past, e :: rest =>
    have : Decidable (Always P (past ++ [e]) rest) := Always.decidable P (past ++ [e]) rest
    inferInstanceAs (Decidable (P past e ∧ Always P (past ++ [e]) rest))

/-- What a call that starts a transaction needs. -/
def Starts (past : List Event) (serial : Serial) : Prop :=
  ∀ f ∈ past, ∀ s ∈ f.starts, s < serial

/-- What a call that completes or aborts a transaction needs. -/
def Ends (past : List Event) (serial : Serial) (kind : Event → Bool) : Prop :=
  (∃ f ∈ past, f.starts = some serial ∧ kind f = true) ∧ ∀ f ∈ past, f.ends ≠ some serial

/-- A call that may come next. -/
def Next (past : List Event) (e : Event) : Prop :=
  (∀ f ∈ past, f.tick ≤ e.tick) ∧ e.tick < tickFuture ∧
  match e with
  | .startRead serial _ => Starts past serial
  | .startWrite serial _ _ => Starts past serial
  | .completeRead serial _ _ => Ends past serial Event.isStartRead
  | .completeWrite serial _ => Ends past serial Event.isStartWrite
  | .abortWrite serial _ => Ends past serial Event.isStartWrite

instance (past : List Event) (serial : Serial) : Decidable (Starts past serial) :=
  inferInstanceAs (Decidable (∀ f ∈ past, ∀ s ∈ f.starts, s < serial))

instance (past : List Event) (serial : Serial) (kind : Event → Bool) :
    Decidable (Ends past serial kind) :=
  inferInstanceAs (Decidable (_ ∧ _))

instance (past : List Event) : (e : Event) → Decidable (Next past e)
  | .startRead _ _ => inferInstanceAs (Decidable (_ ∧ _ ∧ _))
  | .startWrite _ _ _ => inferInstanceAs (Decidable (_ ∧ _ ∧ _))
  | .completeRead _ _ _ => inferInstanceAs (Decidable (_ ∧ _ ∧ _))
  | .completeWrite _ _ => inferInstanceAs (Decidable (_ ∧ _ ∧ _))
  | .abortWrite _ _ => inferInstanceAs (Decidable (_ ∧ _ ∧ _))

/-- A legal history. -/
def Legal (h : List Event) : Prop := Always Next [] h

instance (h : List Event) : Decidable (Legal h) := inferInstanceAs (Decidable (Always _ _ _))

/-- The call at a position of a history. -/
def At (h : List Event) (i : Nat) (e : Event) : Prop := h[i]? = some e

/-- The call `e` comes before the call `f`. -/
def Before (h : List Event) (e f : Event) : Prop := ∃ i j, At h i e ∧ At h j f ∧ i < j

section
variable {h : List Event} {i : Nat} {e f : Event}

theorem At.lt (hi : At h i e) : i < h.length := (List.getElem?_eq_some_iff.mp hi).1

theorem At.append (hi : At h i e) (rest : List Event) : At (h ++ rest) i e := by
  unfold At
  rw [getElem?_append_left hi.lt]
  exact hi

/-- A history that goes on keeps the order of its calls. -/
theorem Before.append (hb : Before h e f) (rest : List Event) : Before (h ++ rest) e f := by
  obtain ⟨i, j, hi, hj, hij⟩ := hb
  exact ⟨i, j, hi.append _, hj.append _, hij⟩

/-- A call of the past comes before a new one. -/
theorem before_of_mem (he : e ∈ h) (f : Event) (rest : List Event) :
    Before (h ++ f :: rest) e f := by
  obtain ⟨i, hi⟩ := getElem?_of_mem he
  refine ⟨i, h.length, At.append hi _, ?_, At.lt hi⟩
  unfold At
  rw [getElem?_append_right (Nat.le_refl _), Nat.sub_self]
  rfl

theorem Before.mem_left (hb : Before h e f) : e ∈ h := by
  obtain ⟨i, -, hi, -⟩ := hb
  exact mem_of_getElem? hi

theorem Before.mem_right (hb : Before h e f) : f ∈ h := by
  obtain ⟨-, j, -, hj, -⟩ := hb
  exact mem_of_getElem? hj

/-- Of two calls, one comes first. -/
theorem before_total (he : e ∈ h) (hf : f ∈ h) (hne : e ≠ f) : Before h e f ∨ Before h f e := by
  obtain ⟨i, hi⟩ := getElem?_of_mem he
  obtain ⟨j, hj⟩ := getElem?_of_mem hf
  rcases Nat.lt_trichotomy i j with hlt | rfl | hgt
  · exact .inl ⟨i, j, hi, hj, hlt⟩
  · exact absurd (Option.some.inj (hi.symm.trans hj)) hne
  · exact .inr ⟨j, i, hj, hi, hgt⟩

variable {P : List Event → Event → Prop} {prev : List Event}

/-- The relation of a call to those before it, by position. -/
theorem Always.at (hall : Always P prev h) (hi : At h i e) : P (prev ++ h.take i) e := by
  induction h generalizing prev i with
  | nil => cases hi
  | cons f rest ih =>
    cases i with
    | zero =>
      cases hi
      simpa using hall.1
    | succ i =>
      have hrest := ih hall.2 (show At rest i e from hi)
      simpa using hrest

theorem Always.before (hall : Always P [] h) (hb : Before h e f) : ∃ past, P past f ∧ e ∈ past := by
  obtain ⟨i, j, hi, hj, hij⟩ := hb
  refine ⟨_, hall.at hj, mem_of_getElem? (i := i) ?_⟩
  rw [nil_append, getElem?_take_of_lt hij]
  exact hi

theorem Always.take {a b : List Event} (hall : Always P prev (a ++ b)) : Always P prev a := by
  induction a generalizing prev with
  | nil => trivial
  | cons e a ih => exact ⟨hall.1, ih hall.2⟩

theorem Legal.past (hl : Legal (h ++ [e])) : Legal h := Always.take hl

theorem Legal.next (hl : Legal (h ++ [e])) : Next h e := by
  have hlast : At (h ++ [e]) h.length e := by simp [At]
  have hnext := Always.at hl hlast
  rwa [take_left, nil_append] at hnext

variable (hl : Legal h)
include hl

theorem Legal.tick_le (hb : Before h e f) : e.tick ≤ f.tick := by
  obtain ⟨past, hnext, hmem⟩ := Always.before hl hb
  exact hnext.1 e hmem

/-- A call with a smaller tick comes first. -/
theorem Legal.before_of_tick_lt (he : e ∈ h) (hf : f ∈ h) (htick : e.tick < f.tick) :
    Before h e f := by
  have hne : e ≠ f := fun heq => Nat.ne_of_lt htick (by rw [heq])
  exact (before_total he hf hne).resolve_right fun hb => Nat.not_le.mpr htick (hl.tick_le hb)

theorem Legal.tick_lt (he : e ∈ h) : e.tick < tickFuture := by
  obtain ⟨i, hi⟩ := getElem?_of_mem he
  exact (Always.at hl hi).2.1

end

/-- What holds of the elements of a list and of one behind it. -/
theorem forall_mem_concat {α : Type} {P : α → Prop} {l : List α} {a : α} (hl : ∀ x ∈ l, P x)
    (ha : P a) : ∀ x ∈ l ++ [a], P x :=
  forall_mem_append.mpr ⟨hl, forall_mem_singleton.mpr ha⟩

/-! ### The invariant -/

/-- The call that started a write. -/
def Transaction.startCall (x : Transaction) : Event := .startWrite x.serial x.start x.data

/-- The call that completed a write. -/
def Transaction.completeCall (x : Transaction) : Event := .completeWrite x.serial x.complete

/-- The tick lies before the start of every read that is outstanding or comes later. -/
def Old (h : List Event) (reads : List Transaction) (tick : Tick) : Prop :=
  (∀ r ∈ reads, tick < r.start) ∧ ∃ e ∈ h, tick < e.tick

/-- The first cluster is complete, and its writes complete before those of the second one start. -/
def Apart (h : List Event) (a b : WriteCluster) : Prop :=
  a.complete ≠ tickFuture ∧ ∀ x ∈ a.writes, ∀ y ∈ b.writes, Before h x.completeCall y.startCall

/-- The writes of a cluster. -/
structure WritesInv (h : List Event) (c : WriteCluster) : Prop where
  started : ∀ x ∈ c.writes, x.startCall ∈ h
  done : ∀ x ∈ c.writes, x.complete ≠ tickFuture → x.completeCall ∈ h
  named : (c.writes.map Transaction.serial).Nodup
  count : c.numIncomplete = c.writes.countP fun x => x.complete = tickFuture
  bound : ∀ x ∈ c.writes, x.complete ≠ tickFuture → x.complete ≤ c.completeMax
  attained : c.completeMax = tickInitial ∨
    ∃ y ∈ c.writes, y.complete ≠ tickFuture ∧ y.complete = c.completeMax

/-- A cluster of a tracker. -/
structure ClusterInv (h : List Event) (c : WriteCluster) : Prop extends WritesInv h c where
  first : ∃ serial data, .startWrite serial c.start data ∈ h
  closed : c.complete ≠ tickFuture →
    c.numIncomplete = 0 ∧ c.writes ≠ [] ∧ c.complete = c.completeMax
  opened : c.complete = tickFuture → c.numIncomplete ≠ 0 ∨ c.writes = []

/-- The write with this serial is followed by the completed write `x`. -/
structure Covers (h : List Event) (reads : List Transaction) (serial : Serial) (x : Transaction) :
    Prop where
  follows : ∃ tick, Before h (.completeWrite serial tick) x.startCall
  done : x.completeCall ∈ h
  old : Old h reads x.complete

/-- The write with this serial is aborted in no call. -/
def Kept (h : List Event) (serial : Serial) : Prop := ∀ tick, .abortWrite serial tick ∉ h

/-- What the tracker knows about the reads. -/
structure ReadsInv (h : List Event) (t : ByteTracker) : Prop where
  observed : ∀ o ∈ t.readObservations, o = ByteTracker.initialObservation ∨
    Before h (.startRead o.serial o.start) (.completeRead o.serial o.complete o.data)
  headObs : ∀ o ∈ t.readObservations.head?,
    o = ByteTracker.initialObservation ∨ Old h t.outstandingReads o.complete
  nonempty : t.readObservations ≠ []
  reading : ∀ r ∈ t.outstandingReads, .startRead r.serial r.start ∈ h
  sorted : t.outstandingReads.Pairwise fun a b => a.start ≤ b.start

/-- What the tracker knows after a history. -/
structure Inv (h : List Event) (t : ByteTracker) : Prop extends ReadsInv h t where
  clusters : ∀ c ∈ t.writeClusters, ClusterInv h c
  apart : t.writeClusters.Pairwise (Apart h)
  stored : ∀ {serial tick data}, .startWrite serial tick data ∈ h → Kept h serial →
    (∃ c ∈ t.writeClusters, ∃ x ∈ c.writes, x.startCall = .startWrite serial tick data) ∨
      ∃ x, Covers h t.outstandingReads serial x

theorem inv_new : Inv [] ByteTracker.new := by
  refine ⟨⟨fun o ho => .inl (mem_singleton.mp ho), fun o ho => .inl (Option.some.inj ho).symm,
    cons_ne_nil _ _, ?_, List.Pairwise.nil⟩, ?_, List.Pairwise.nil, ?_⟩
  · intro r hr
    cases hr
  · intro c hc
    cases hc
  · intro serial tick data hmem
    cases hmem

section
variable {h : List Event} {t : ByteTracker} {reads reads' : List Transaction} {e : Event}
  {c c' : WriteCluster} {tick : Tick} {data : Data} {start : Tick} {x : Transaction}
  {serial : Serial}

theorem Old.append (hold : Old h reads tick) (e : Event) : Old (h ++ [e]) reads tick := by
  obtain ⟨hreads, f, hf, hlt⟩ := hold
  exact ⟨hreads, f, mem_append_left _ hf, hlt⟩

/-- What is old stays old when reads complete. -/
theorem Old.mono (hold : Old h reads tick) (hreads : ∀ r ∈ reads', r ∈ reads) : Old h reads' tick :=
  ⟨fun r hr => hold.1 r (hreads r hr), hold.2⟩

theorem Apart.append (hab : Apart h c c') (e : Event) : Apart (h ++ [e]) c c' :=
  ⟨hab.1, fun x hx y hy => (hab.2 x hx y hy).append _⟩

theorem WritesInv.append (hc : WritesInv h c) (e : Event) : WritesInv (h ++ [e]) c :=
  { hc with
    started := fun x hx => mem_append_left _ (hc.started x hx)
    done := fun x hx hne => mem_append_left _ (hc.done x hx hne) }

theorem ClusterInv.append (hc : ClusterInv h c) (e : Event) : ClusterInv (h ++ [e]) c := by
  obtain ⟨serial, data, hfirst⟩ := hc.first
  exact ⟨hc.toWritesInv.append e, ⟨serial, data, mem_append_left _ hfirst⟩, hc.closed, hc.opened⟩

theorem writesInv_new (h : List Event) : WritesInv h .new where
  started := by simp [WriteCluster.new]
  done := by simp [WriteCluster.new]
  named := nodup_nil
  count := rfl
  bound := by simp [WriteCluster.new]
  attained := .inl rfl

/-- All writes of a complete cluster are complete, and the last one completed with the cluster. -/
theorem ClusterInv.of_complete (hc : ClusterInv h c) (hcomplete : c.complete ≠ tickFuture) :
    (∀ x ∈ c.writes, x.complete ≠ tickFuture) ∧ ∃ y ∈ c.writes, y.complete = c.complete := by
  obtain ⟨hcount, hne, hmax⟩ := hc.closed hcomplete
  have hall : ∀ x ∈ c.writes, x.complete ≠ tickFuture := by
    intro x hx hfuture
    have hpos : 0 < c.writes.countP fun x => x.complete = tickFuture :=
      countP_pos_iff.mpr ⟨x, hx, decide_eq_true hfuture⟩
    rw [← hc.count, hcount] at hpos
    exact absurd hpos (Nat.lt_irrefl _)
  refine ⟨hall, ?_⟩
  rw [hmax]
  rcases hc.attained with hzero | ⟨y, hy, _, heq⟩
  · obtain ⟨x, hx⟩ := exists_mem_of_ne_nil _ hne
    have hle := hc.bound x hx (hall x hx)
    rw [hzero] at hle ⊢
    exact ⟨x, hx, Nat.le_zero.mp hle⟩
  · exact ⟨y, hy, heq⟩

theorem WritesInv.completeMax_lt (hc : WritesInv h c) (hl : Legal h) :
    c.completeMax < tickFuture := by
  rcases hc.attained with hzero | ⟨y, hy, hne, heq⟩
  · rw [hzero]
    decide
  · rw [← heq]
    exact hl.tick_lt (hc.done y hy hne)

theorem Covers.append (hc : Covers h reads serial x) (e : Event) :
    Covers (h ++ [e]) reads serial x := by
  obtain ⟨tick, hb⟩ := hc.follows
  exact ⟨⟨tick, hb.append _⟩, mem_append_left _ hc.done, hc.old.append e⟩

theorem Covers.mono (hc : Covers h reads serial x) (hreads : ∀ r ∈ reads', r ∈ reads) :
    Covers h reads' serial x :=
  ⟨hc.follows, hc.done, hc.old.mono hreads⟩

theorem ReadsInv.append (hinv : ReadsInv h t) (e : Event) : ReadsInv (h ++ [e]) t :=
  { hinv with
    observed := fun o ho => (hinv.observed o ho).imp_right fun hb => hb.append _
    headObs := fun o ho => (hinv.headObs o ho).imp_right fun hold => hold.append e
    reading := fun r hr => mem_append_left _ (hinv.reading r hr) }

theorem Kept.of_append (hkept : Kept (h ++ [e]) serial) : Kept h serial :=
  fun tick hmem => hkept tick (mem_append_left _ hmem)

/-- The clusters after a call. They hold the writes from before that are not aborted, and the one
that the call starts. -/
theorem Inv.setClusters {clusters : List WriteCluster} (hinv : Inv h t)
    (hclusters : ∀ c ∈ clusters, ClusterInv (h ++ [e]) c)
    (hapart : clusters.Pairwise (Apart (h ++ [e])))
    (hkept : ∀ c ∈ t.writeClusters, ∀ x ∈ c.writes, Kept (h ++ [e]) x.serial →
      ∃ c ∈ clusters, ∃ y ∈ c.writes, y.startCall = x.startCall)
    (hnew : e.isStartWrite = true → ∃ c ∈ clusters, ∃ x ∈ c.writes, x.startCall = e) :
    Inv (h ++ [e]) { t with writeClusters := clusters } := by
  refine ⟨{ hinv.toReadsInv.append e with }, hclusters, hapart, fun {serial tick data} hmem hk => ?_⟩
  rcases mem_append.mp hmem with hmem | hmem
  · rcases hinv.stored hmem hk.of_append with ⟨c, hc, x, hx, hcall⟩ | ⟨x, hx⟩
    · cases hcall
      exact .inl (hkept c hc x hx hk)
    · exact .inr ⟨x, hx.append e⟩
  · cases mem_singleton.mp hmem
    exact .inl (hnew rfl)

/-- A call other than the start of a write does not need a new entry. -/
theorem Inv.append (hinv : Inv h t) (he : e.isStartWrite = false) : Inv (h ++ [e]) t :=
  hinv.setClusters (fun c hc => (hinv.clusters c hc).append e)
    (hinv.apart.imp fun hab => hab.append e) (fun c hc x hx _ => ⟨c, hc, x, hx, rfl⟩)
    fun hs => absurd (he.symm.trans hs) (by simp)

/-! ### Pruning -/

/-- The iterator of `lastCompletedTransaction`. -/
theorem lastCompletedTransaction_spec {α : Type} (complete : α → Tick) (before : Tick) {l : List α}
    (hl : l ≠ []) : ∃ front x back, l = front ++ x :: back ∧
      ByteTracker.lastCompletedTransaction complete before l = x :: back ∧
      (front = [] ∨ complete x < before) := by
  have hscan : ∀ rev seen : List α, rev ≠ [] → ∃ front x back,
      rev.reverse ++ seen = front ++ x :: back ∧ scanBack complete before seen rev = x :: back ∧
      (front = [] ∨ complete x < before) := by
    intro rev
    induction rev with
    | nil => exact fun seen h => absurd rfl h
    | cons x rest ih =>
      intro seen _
      cases rest with
      | nil => exact ⟨[], x, seen, rfl, rfl, .inl rfl⟩
      | cons y rest =>
        rw [scanBack]
        by_cases hle : before ≤ complete x
        · obtain ⟨front, z, back, hsplit, hz, hlt⟩ := ih (x :: seen) (cons_ne_nil _ _)
          refine ⟨front, z, back, ?_, by rw [if_pos hle]; exact hz, hlt⟩
          rw [← hsplit]
          simp
        · exact ⟨(y :: rest).reverse, x, seen, by simp, if_neg hle, .inr (Nat.lt_of_not_le hle)⟩
  obtain ⟨front, x, back, hsplit, hx, hlt⟩ := hscan l.reverse [] (by simpa using hl)
  rw [reverse_reverse, append_nil] at hsplit
  exact ⟨front, x, back, hsplit, hx, hlt⟩

variable {l : List Transaction} {front old : List WriteCluster} {curTick : Tick}

/-- The tick up to which `pruneTransactions` drops. -/
theorem old_of_lt (hinv : Inv h t) (hcur : ∃ e ∈ h, e.tick = curTick)
    (hlt : tick < t.firstOutstanding curTick) : Old h t.outstandingReads tick := by
  have hsorted := hinv.sorted
  have hreading := hinv.reading
  unfold firstOutstanding at hlt
  cases hreads : t.outstandingReads with
  | nil =>
    rw [hreads] at hlt
    obtain ⟨e, he, rfl⟩ := hcur
    exact ⟨by simp, e, he, hlt⟩
  | cons first =>
    rw [hreads] at hlt hsorted hreading
    exact ⟨forall_mem_cons.mpr ⟨hlt, fun r hr =>
      Nat.lt_of_lt_of_le hlt ((pairwise_cons.mp hsorted).1 r hr)⟩, _,
      hreading first mem_cons_self, hlt⟩

/-- Clusters that are dropped are followed by a complete one that stays. Its last write covers
theirs. -/
theorem Inv.dropClusters {back : List WriteCluster} (hl : Legal h) (hinv : Inv h t)
    (hsplit : t.writeClusters = front ++ c :: back)
    (hold : front = [] ∨ Old h t.outstandingReads c.complete) :
    Inv h { t with writeClusters := c :: back } := by
  have hmem : ∀ c' ∈ c :: back, c' ∈ t.writeClusters := fun c' hc' => by
    rw [hsplit]
    exact mem_append_right _ hc'
  have hapart := hinv.apart
  rw [hsplit, pairwise_append] at hapart
  refine { hinv with
    clusters := fun c' hc' => hinv.clusters c' (hmem c' hc'), apart := hapart.2.1
    stored := fun hstart hkept => ?_ }
  rcases hinv.stored hstart hkept with ⟨c', hc', w, hw, hcall⟩ | hcovers
  · rw [hsplit] at hc'
    rcases mem_append.mp hc' with hfront | hstays
    · have hold := hold.resolve_left (ne_nil_of_mem hfront)
      obtain ⟨f, hf, hlt⟩ := hold.2
      have hdone : c.complete ≠ tickFuture := Nat.ne_of_lt (Nat.lt_trans hlt (hl.tick_lt hf))
      have hc := hinv.clusters c (hmem c mem_cons_self)
      obtain ⟨hall, y, hy, heq⟩ := hc.of_complete hdone
      have hbefore := (hapart.2.2 c' hfront c mem_cons_self).2 w hw y hy
      cases hcall
      exact .inr ⟨y, ⟨_, hbefore⟩, hc.done y hy (hall y hy), by rw [heq]; exact hold⟩
    · exact .inl ⟨c', hstays, w, hw, hcall⟩
  · exact .inr hcovers

/-- `pruneTransactions` keeps the invariant. -/
theorem pruneTransactions_returns (hl : Legal h) (hinv : Inv h t)
    (hcur : ∃ e ∈ h, e.tick = curTick) :
    Returns (ByteTracker.pruneTransactions curTick) t fun _ t' => Inv h t' := by
  unfold ByteTracker.pruneTransactions
  rw [returns_modify]
  dsimp only
  generalize hbefore : t.firstOutstanding curTick = before
  have hold : ∀ {tick : Tick}, tick < before → Old h t.outstandingReads tick := fun hlt =>
    old_of_lt hinv hcur (by rw [hbefore]; exact hlt)
  -- the clusters first
  have hclusters : Inv h { t with writeClusters :=
      ByteTracker.lastCompletedTransaction WriteCluster.complete before t.writeClusters } := by
    by_cases hempty : t.writeClusters = []
    · rw [hempty, show lastCompletedTransaction WriteCluster.complete before [] = [] from rfl,
        ← hempty]
      exact hinv
    · obtain ⟨front, c, back, hsplit, hc, hlt⟩ := lastCompletedTransaction_spec
        WriteCluster.complete before hempty
      rw [hc]
      exact hinv.dropClusters hl hsplit (hlt.imp_right hold)
  obtain ⟨front, o, back, hsplit, ho, hlt⟩ := lastCompletedTransaction_spec
    Transaction.complete before hinv.nonempty
  rw [ho]
  refine { hclusters with observed := fun o' ho' => ?_, headObs := fun o' ho' => ?_, nonempty := ?_ }
  · refine hinv.observed o' ?_
    rw [hsplit]
    exact mem_append_right _ ho'
  · cases ho'
    rcases hlt with hfront | hlt
    · refine hinv.headObs o ?_
      rw [hsplit, hfront]
      rfl
    · exact .inr (hold hlt)
  · exact cons_ne_nil _ _

/-! ### The calls -/

/-- A read with a new serial goes to the end of the map. -/
theorem insertRead_of_lt (hlt : ∀ y ∈ l, y.serial < x.serial) :
    ByteTracker.insertRead x l = l ++ [x] := by
  induction l with
  | nil => rfl
  | cons y rest ih =>
    have hy := hlt y mem_cons_self
    rw [insertRead, if_neg (Nat.not_lt.mpr (Nat.le_of_lt hy)),
      if_neg (Nat.ne_of_gt hy), ih fun z hz => hlt z (mem_cons_of_mem _ hz)]
    rfl

/-- A read starts: it is outstanding. -/
theorem startRead_returns (hl : Legal (h ++ [.startRead serial start])) (hinv : Inv h t) :
    Returns (ByteTracker.startRead serial start) t fun _ t' =>
      Inv (h ++ [.startRead serial start]) t' := by
  obtain ⟨htick, _, hserial⟩ := hl.next
  unfold startRead
  rw [returns_modify]
  dsimp only
  rw [insertRead_of_lt fun y hy => hserial _ (hinv.reading y hy) _ rfl]
  have hinv' := hinv.append (e := .startRead serial start) rfl
  -- what is old lies before the new read
  have hold : ∀ {tick : Tick}, Old h t.outstandingReads tick → Old (h ++ [.startRead serial start])
      (t.outstandingReads ++ [⟨serial, start, tickFuture, 0⟩]) tick := by
    intro tick hold
    obtain ⟨e, he, hlt⟩ := hold.2
    exact ⟨forall_mem_concat hold.1 (Nat.lt_of_lt_of_le hlt (htick e he)), (hold.append _).2⟩
  refine { hinv' with
    headObs := fun o ho => (hinv.headObs o ho).imp_right hold
    reading := forall_mem_concat hinv'.reading mem_concat_self
    sorted := ?_, stored := fun hmem hkept => ?_ }
  · rw [pairwise_append]
    refine ⟨hinv.sorted, pairwise_singleton _ _, fun a ha b hb => ?_⟩
    rw [mem_singleton.mp hb]
    exact htick _ (hinv.reading a ha)
  · rcases mem_append.mp hmem with hmem | hmem
    · rcases hinv.stored hmem hkept.of_append with hstored | ⟨x, hx⟩
      · exact .inl hstored
      · obtain ⟨hfollows, hdone, _⟩ := hx.append (.startRead serial start)
        exact .inr ⟨x, hfollows, hdone, hold hx.old⟩
    · cases mem_singleton.mp hmem

/-- The cluster that a call works on: a new one behind complete ones, or the last one. -/
theorem getIncompleteWriteCluster_cases (hinv : Inv h t) :
    ∃ front old c, t.writeClusters = front ++ old ∧
      ByteTracker.getIncompleteWriteCluster t.writeClusters = (front, c) ∧
      (∀ c' ∈ front, c'.complete ≠ tickFuture) ∧ c.complete = tickFuture ∧
      (old = [] ∧ c = .new ∨ old = [c] ∧ ClusterInv h c) := by
  unfold getIncompleteWriteCluster
  have hapart := hinv.apart
  rcases eq_nil_or_concat t.writeClusters with hnil | ⟨front, c, hsplit⟩
  · rw [hnil]
    exact ⟨[], [], .new, rfl, rfl, by simp, rfl, .inl ⟨rfl, rfl⟩⟩
  · rw [concat_eq_append] at hsplit
    rw [hsplit, pairwise_append] at hapart
    have hc := hinv.clusters c (by rw [hsplit]; simp)
    have hfront : ∀ c' ∈ front, c'.complete ≠ tickFuture := fun c' hc' =>
      (hapart.2.2 c' hc' c (mem_singleton.mpr rfl)).1
    rw [hsplit, getLast?_concat]
    dsimp only
    by_cases hcomplete : c.complete = tickFuture
    · rw [if_neg (by simp [WriteCluster.isComplete, hcomplete]), dropLast_concat]
      exact ⟨front, [c], c, rfl, rfl, hfront, hcomplete, .inr ⟨rfl, hc⟩⟩
    · rw [if_pos (by simp [WriteCluster.isComplete, hcomplete])]
      exact ⟨front ++ [c], [], .new, (append_nil _).symm, rfl, forall_mem_concat hfront hcomplete,
        rfl, .inl ⟨rfl, rfl⟩⟩

/-- The last cluster after a call that works on it. -/
theorem Inv.setLast (hinv : Inv h t) (hsplit : t.writeClusters = front ++ old)
    (hfront : ∀ c ∈ front, c.complete ≠ tickFuture) (hc' : ClusterInv (h ++ [e]) c')
    (hback : ∀ y ∈ c'.writes, (∃ c ∈ old, ∃ x ∈ c.writes, x.startCall = y.startCall) ∨
      y.startCall = e)
    (hkept : ∀ c ∈ old, ∀ x ∈ c.writes, Kept (h ++ [e]) x.serial →
      ∃ y ∈ c'.writes, y.startCall = x.startCall)
    (hnew : e.isStartWrite = true → ∃ x ∈ c'.writes, x.startCall = e) :
    Inv (h ++ [e]) { t with writeClusters := front ++ [c'] } := by
  have hapart := hinv.apart
  have hclusters := hinv.clusters
  rw [hsplit] at hclusters
  rw [hsplit, pairwise_append] at hapart
  have hlast : c' ∈ front ++ [c'] := mem_concat_self
  refine hinv.setClusters
    (forall_mem_concat (fun c hc => (hclusters c (mem_append_left _ hc)).append e) hc') ?_
    (fun c hc x hx hk => ?_) fun he => ⟨c', hlast, hnew he⟩
  · rw [pairwise_append]
    refine ⟨hapart.1.imp fun hab => hab.append e, pairwise_singleton _ _, fun a ha b hb =>
      ⟨hfront a ha, fun x hx y hy => ?_⟩⟩
    rw [mem_singleton.mp hb] at hy
    rcases hback y hy with ⟨c, hc, z, hz, hcall⟩ | hcall
    · rw [← hcall]
      exact ((hapart.2.2 a ha c hc).2 x hx z hz).append _
    · -- the writes before the new one have completed
      have hainv := hclusters a (mem_append_left _ ha)
      rw [hcall]
      exact before_of_mem (hainv.done x hx ((hainv.of_complete (hfront a ha)).1 x hx)) e []
  · rw [hsplit] at hc
    rcases mem_append.mp hc with hc | hc
    · exact ⟨c, mem_append_left _ hc, x, hx, rfl⟩
    · exact ⟨c', hlast, hkept c hc x hx hk⟩

/-- A write that starts joins an incomplete cluster. -/
theorem clusterInv_startWrite (hl : Legal (h ++ [.startWrite serial start data]))
    (hc : WritesInv h c) (hopen : c.complete = tickFuture)
    (hfirst : c.start ≠ tickFuture → ∃ serial' data', .startWrite serial' c.start data' ∈ h) :
    ∃ c', c.startWrite serial start data = .ok c' ∧
      ClusterInv (h ++ [.startWrite serial start data]) c' ∧
      c'.writes = c.writes ++ [⟨serial, start, tickFuture, data⟩] := by
  obtain ⟨htick, _, hserial⟩ := hl.next
  have hnew : ∀ x ∈ c.writes, x.serial < serial := fun x hx => hserial _ (hc.started x hx) _ rfl
  have hinsert : WriteCluster.insertWrite c.writes ⟨serial, start, tickFuture, data⟩
      = c.writes ++ [⟨serial, start, tickFuture, data⟩] := by
    refine if_neg ?_
    rw [any_eq_true]
    rintro ⟨x, hx, heq⟩
    exact Nat.ne_of_lt (hnew x hx) (beq_iff_eq.mp heq)
  generalize hstart : (if c.start = tickFuture then start else c.start) = first
  have hfirst' : first ≤ start ∧ ∃ serial' data',
      .startWrite serial' first data' ∈ h ++ [.startWrite serial start data] := by
    split at hstart
    · subst hstart
      exact ⟨Nat.le_refl _, serial, data, mem_concat_self⟩
    · rename_i hne
      obtain ⟨serial', data', hmem⟩ := hfirst hne
      subst hstart
      exact ⟨htick _ hmem, serial', data', mem_append_left _ hmem⟩
  have hc' := hc.append (.startWrite serial start data)
  refine ⟨{ start := first, complete := tickFuture
            writes := c.writes ++ [⟨serial, start, tickFuture, data⟩]
            completeMax := c.completeMax, numIncomplete := c.numIncomplete + 1 },
    ?_, ⟨⟨forall_mem_concat hc'.started mem_concat_self,
      forall_mem_concat hc'.done fun hne => absurd rfl hne, ?_, ?_,
      forall_mem_concat hc.bound fun hne => absurd rfl hne, ?_⟩, hfirst'.2,
      fun hne => absurd rfl hne, fun _ => .inl (Nat.succ_ne_zero _)⟩, rfl⟩
  · simp [WriteCluster.startWrite, WriteCluster.isComplete, hopen, hstart, hfirst'.1, hinsert]
    rfl
  · show (map Transaction.serial (c.writes ++ [_])).Nodup
    rw [map_append, nodup_append]
    refine ⟨hc.named, nodup_singleton _, fun a ha b hb => ?_⟩
    obtain ⟨x, hx, rfl⟩ := mem_map.mp ha
    rw [mem_singleton.mp hb]
    exact Nat.ne_of_lt (hnew x hx)
  · show c.numIncomplete + 1 = (c.writes ++ [_]).countP _
    rw [countP_append, ← hc.count]
    rfl
  · rcases hc.attained with hzero | ⟨y, hy, hne, heq⟩
    · exact .inl hzero
    · exact .inr ⟨y, mem_append_left _ hy, hne, heq⟩

/-- A write starts: it joins the open cluster, or a new one. -/
theorem startWrite_returns (hl : Legal (h ++ [.startWrite serial start data])) (hinv : Inv h t) :
    Returns (ByteTracker.startWrite serial start data) t fun _ t' =>
      Inv (h ++ [.startWrite serial start data]) t' := by
  obtain ⟨front, old, c, hsplit, hget, hfront, hopen, hcase⟩ := getIncompleteWriteCluster_cases hinv
  have hc : WritesInv h c ∧ (c.start ≠ tickFuture → ∃ serial' data',
      .startWrite serial' c.start data' ∈ h) := by
    rcases hcase with ⟨-, rfl⟩ | ⟨-, hc⟩
    · exact ⟨writesInv_new h, fun hne => absurd rfl hne⟩
    · exact ⟨hc.toWritesInv, fun _ => hc.first⟩
  have hold : ∀ x ∈ c.writes, ∃ c ∈ old, x ∈ c.writes := by
    rcases hcase with ⟨-, rfl⟩ | ⟨rfl, -⟩
    · simp [WriteCluster.new]
    · exact fun x hx => ⟨c, mem_singleton.mpr rfl, hx⟩
  obtain ⟨c', hcode, hc', hwrites⟩ := clusterInv_startWrite hl hc.1 hopen hc.2
  unfold startWrite
  rw [returns_bind, returns_get, hget, returns_bind, returns_lift hcode, returns_modify]
  refine hinv.setLast hsplit hfront hc' ?_ (fun c₁ hc₁ x hx _ => ?_) fun _ => ?_
  · rw [hwrites]
    refine forall_mem_concat (fun y hy => .inl ?_) (.inr rfl)
    obtain ⟨c, hc, hy⟩ := hold y hy
    exact ⟨c, hc, y, hy, rfl⟩
  · rcases hcase with ⟨rfl, -⟩ | ⟨rfl, -⟩
    · cases hc₁
    · cases mem_singleton.mp hc₁
      exact ⟨x, by rw [hwrites]; exact mem_append_left _ hx, rfl⟩
  · exact ⟨_, by rw [hwrites]; exact mem_concat_self, rfl⟩

/-- The cluster of a write that is neither completed nor aborted is the last one. -/
theorem pending_cluster (hinv : Inv h t) (hends : Ends h serial Event.isStartWrite) :
    ∃ front c x, t.writeClusters = front ++ [c] ∧ (∀ c' ∈ front, c'.complete ≠ tickFuture) ∧
      ByteTracker.getIncompleteWriteCluster t.writeClusters = (front, c) ∧
      c.complete = tickFuture ∧ x ∈ c.writes ∧ x.serial = serial ∧ x.complete = tickFuture := by
  obtain ⟨⟨f, hf, hstarts, hkind⟩, hnot⟩ := hends
  cases f with
  | startWrite serial' tick data =>
    cases hstarts
    rcases hinv.stored hf fun tick' hmem => hnot _ hmem rfl with ⟨c, hc, x, hx, hcall⟩ | ⟨x, hx⟩
    · cases hcall
      have hpending : x.complete = tickFuture := by
        by_contra hne
        exact hnot _ ((hinv.clusters c hc).done x hx hne) rfl
      have hopen : c.complete = tickFuture := by
        by_contra hne
        exact ((hinv.clusters c hc).of_complete hne).1 x hx hpending
      obtain ⟨front, old, c', hsplit, hget, hfront, hopen', hcase⟩ :=
        getIncompleteWriteCluster_cases hinv
      rw [hsplit] at hc
      have hold := (mem_append.mp hc).resolve_left fun hmem => hfront c hmem hopen
      rcases hcase with ⟨rfl, -⟩ | ⟨rfl, -⟩
      · cases hold
      · cases mem_singleton.mp hold
        exact ⟨front, c, x, hsplit, hfront, hget, hopen, hx, rfl, hpending⟩
    · obtain ⟨tick', hb⟩ := hx.follows
      exact absurd rfl (hnot _ hb.mem_left)
  | _ => cases hkind

/-- The number of incomplete writes without one of them. -/
theorem countP_filter_serial (hx : x ∈ l) (hnodup : (l.map Transaction.serial).Nodup)
    (hpending : x.complete = tickFuture) :
    ((l.filter fun w => w.serial ≠ x.serial).countP fun w => w.complete = tickFuture) + 1
      = l.countP fun w => w.complete = tickFuture := by
  obtain ⟨a, b, rfl⟩ := append_of_mem hx
  rw [map_append, map_cons, nodup_middle, nodup_cons, ← map_append] at hnodup
  have hother : ∀ w ∈ a ++ b, decide (w.serial ≠ x.serial) = true := fun w hw =>
    decide_eq_true fun heq => hnodup.1 (heq ▸ mem_map_of_mem hw)
  rw [filter_append, filter_cons_of_neg (by simp), ← filter_append, filter_eq_self.mpr hother]
  simp [hpending]
  omega

/-- What the completion of a write does to the writes of its cluster. -/
def Transaction.completeAs (serial : Serial) (tick : Tick) (w : Transaction) : Transaction :=
  if w.serial = serial then { w with complete := tick } else w

theorem startCall_completeAs (w : Transaction) :
    (w.completeAs serial tick).startCall = w.startCall := by
  unfold Transaction.completeAs
  split <;> rfl

/-- A write that completes does not count as incomplete any more. -/
theorem countP_completeAs (l : List Transaction) (htick : tick ≠ tickFuture) :
    ((l.map (Transaction.completeAs serial tick)).countP fun w => w.complete = tickFuture)
      = (l.filter fun w => w.serial ≠ serial).countP fun w => w.complete = tickFuture := by
  rw [countP_map, countP_filter]
  refine countP_congr fun w _ => ?_
  by_cases hw : w.serial = serial <;> simp [Transaction.completeAs, hw, htick]

/-- The cluster after the completion of a write. -/
theorem clusterInv_completeWrite (hl : Legal (h ++ [.completeWrite serial tick]))
    (hc : ClusterInv h c) (hopen : c.complete = tickFuture) (hx : x ∈ c.writes)
    (hserial : x.serial = serial) (hpending : x.complete = tickFuture) :
    ∃ c', c.completeWrite serial tick = .ok c' ∧ ClusterInv (h ++ [.completeWrite serial tick]) c' ∧
      c'.writes = c.writes.map (Transaction.completeAs serial tick) := by
  have htick : tick < tickFuture := hl.tick_lt mem_concat_self
  -- the only write with this serial is `x`
  have honly : ∀ w ∈ c.writes, w.serial = serial → w = x := fun w hw heq =>
    inj_on_of_nodup_map hc.named hw hx (heq.trans hserial.symm)
  obtain ⟨w, hw⟩ : ∃ w, c.writes.find? (fun w => w.serial == serial) = some w := by
    rw [← Option.isSome_iff_exists, find?_isSome]
    exact ⟨x, hx, beq_iff_eq.mpr hserial⟩
  obtain rfl : w = x := honly w (mem_of_find?_eq_some hw)
    (beq_iff_eq.mp (by simpa using find?_some hw))
  have hcount : (c.writes.map (Transaction.completeAs serial tick)).countP
      (fun w => w.complete = tickFuture) = c.numIncomplete - 1 := by
    rw [countP_completeAs _ (Nat.ne_of_lt htick), hc.count,
      ← countP_filter_serial hx hc.named hpending, hserial]
    rfl
  generalize hmax : (if c.completeMax < tick then tick else c.completeMax) = completeMax
  have hmax_lt : completeMax < tickFuture := by
    rw [← hmax]
    split
    · exact htick
    · exact hc.completeMax_lt hl.past
  have hle : c.completeMax ≤ completeMax ∧ tick ≤ completeMax := by
    split at hmax <;> subst hmax
    · exact ⟨Nat.le_of_lt ‹_›, Nat.le_refl _⟩
    · exact ⟨Nat.le_refl _, Nat.not_lt.mp ‹_›⟩
  refine ⟨{ c with
    writes := c.writes.map (Transaction.completeAs serial tick)
    completeMax := completeMax, numIncomplete := c.numIncomplete - 1
    complete := if c.numIncomplete - 1 = 0 then completeMax else c.complete }, ?_, ?_, rfl⟩
  · simp [WriteCluster.completeWrite, hw, assert, hpending, hmax, Transaction.completeAs]
  · have hcp := hc.append (.completeWrite serial tick)
    refine ⟨⟨fun y hy => ?_, fun y hy hne => ?_, ?_, hcount.symm, fun y hy hne => ?_, ?_⟩, hcp.first,
      fun hne => ?_, fun heq => ?_⟩
    · obtain ⟨w', hw', rfl⟩ := mem_map.mp hy
      rw [startCall_completeAs]
      exact hcp.started w' hw'
    · obtain ⟨w', hw', rfl⟩ := mem_map.mp hy
      unfold Transaction.completeAs at hne ⊢
      split at hne
      · rename_i hs
        rw [if_pos hs, Transaction.completeCall, hs]
        exact mem_concat_self
      · rename_i hs
        rw [if_neg hs]
        exact hcp.done w' hw' hne
    · rw [map_map]
      convert hc.named using 2
      funext w'
      exact (Event.startWrite.inj (startCall_completeAs w')).1
    · obtain ⟨w', hw', rfl⟩ := mem_map.mp hy
      unfold Transaction.completeAs at hne ⊢
      split at hne
      · rename_i hs
        rw [if_pos hs]
        exact hle.2
      · rename_i hs
        rw [if_neg hs]
        exact Nat.le_trans (hc.bound w' hw' hne) hle.1
    · by_cases hlt : c.completeMax < tick
      · rw [if_pos hlt] at hmax
        exact .inr ⟨{ w with complete := tick }, mem_map.mpr ⟨w, hx, if_pos hserial⟩,
          Nat.ne_of_lt htick, hmax⟩
      · rw [if_neg hlt] at hmax
        rcases hc.attained with hzero | ⟨y, hy, hne, heq⟩
        · exact .inl (hmax.symm.trans hzero)
        · refine .inr ⟨y, mem_map.mpr ⟨y, hy, if_neg fun hs => ?_⟩, hne, heq.trans hmax⟩
          rw [honly y hy hs] at hne
          exact hne hpending
    · split at hne
      · rename_i hzero
        refine ⟨hzero, fun hnil => ?_, by rw [if_pos hzero]⟩
        rw [map_eq_nil_iff.mp hnil] at hx
        cases hx
      · exact absurd hopen hne
    · split at heq
      · exact absurd heq (Nat.ne_of_lt hmax_lt)
      · rename_i hne
        exact .inl hne

/-- A write completes, and its cluster may be complete then. -/
theorem completeWrite_returns (hl : Legal (h ++ [.completeWrite serial tick])) (hinv : Inv h t) :
    Returns (ByteTracker.completeWrite serial tick) t fun _ t' =>
      Inv (h ++ [.completeWrite serial tick]) t' := by
  obtain ⟨front, c, x, hsplit, hfront, hget, hopen, hx, hserial, hpending⟩ :=
    pending_cluster hinv hl.next.2.2
  obtain ⟨c', hcode, hc', hwrites⟩ := clusterInv_completeWrite hl
    (hinv.clusters c (by rw [hsplit]; simp)) hopen hx hserial hpending
  unfold completeWrite
  rw [returns_bind, returns_get, hget]
  rw [returns_bind, returns_lift hcode, returns_bind, returns_modify]
  refine pruneTransactions_returns hl ?_ ⟨_, mem_concat_self, rfl⟩
  refine hinv.setLast hsplit hfront hc' (fun y hy => .inl ⟨c, mem_singleton.mpr rfl, ?_⟩)
    (fun c₁ hc₁ y hy _ => ?_) nofun
  · rw [hwrites] at hy
    obtain ⟨w, hw, rfl⟩ := mem_map.mp hy
    exact ⟨w, hw, (startCall_completeAs w).symm⟩
  · cases mem_singleton.mp hc₁
    rw [hwrites]
    exact ⟨_, mem_map_of_mem hy, startCall_completeAs y⟩

/-- The cluster after a write is aborted. -/
theorem clusterInv_abortWrite (hl : Legal (h ++ [.abortWrite serial tick])) (hc : ClusterInv h c)
    (hopen : c.complete = tickFuture) (hx : x ∈ c.writes) (hserial : x.serial = serial)
    (hpending : x.complete = tickFuture) :
    ClusterInv (h ++ [.abortWrite serial tick]) (c.abortWrite serial) ∧
      (c.abortWrite serial).writes = c.writes.filter fun w => w.serial ≠ serial := by
  have hany : (c.writes.any fun w => w.serial == serial) = true :=
    any_eq_true.mpr ⟨x, hx, beq_iff_eq.mpr hserial⟩
  have hcount : (c.writes.filter fun w => w.serial ≠ serial).countP
      (fun w => w.complete = tickFuture) = c.numIncomplete - 1 := by
    rw [hc.count, ← countP_filter_serial hx hc.named hpending, hserial]
    rfl
  have hsub : ∀ y ∈ c.writes.filter fun w => w.serial ≠ serial, y ∈ c.writes := fun y hy =>
    (mem_filter.mp hy).1
  have hcp := hc.append (.abortWrite serial tick)
  unfold WriteCluster.abortWrite
  rw [if_pos hany]
  refine ⟨⟨⟨fun y hy => hcp.started y (hsub y hy), fun y hy hne => hcp.done y (hsub y hy) hne, ?_,
    hcount.symm, fun y hy hne => hc.bound y (hsub y hy) hne, ?_⟩, hcp.first, fun hne => ?_,
    fun heq => ?_⟩, rfl⟩
  · exact hc.named.sublist (filter_sublist.map _)
  · rcases hc.attained with hzero | ⟨y, hy, hne, heq⟩
    · exact .inl hzero
    · -- the write that is aborted was not complete
      refine .inr ⟨y, mem_filter.mpr ⟨hy, decide_eq_true fun hs => ?_⟩, hne, heq⟩
      rw [inj_on_of_nodup_map hc.named hy hx (hs.trans hserial.symm)] at hne
      exact hne hpending
  · dsimp only at hne ⊢
    split at hne
    · rename_i hcond
      rw [Bool.and_eq_true, decide_eq_true_iff] at hcond
      refine ⟨hcond.1, fun hnil => ?_, by rw [if_pos (by simpa using hcond)]⟩
      rw [hnil] at hcond
      cases hcond.2
    · exact absurd hopen hne
  · dsimp only at heq ⊢
    split at heq
    · exact absurd heq (Nat.ne_of_lt (hc.completeMax_lt hl.past))
    · rename_i hcond
      by_cases hzero : c.numIncomplete - 1 = 0
      · refine .inr ?_
        by_contra hne
        refine hcond ?_
        rw [Bool.and_eq_true, decide_eq_true_iff]
        refine ⟨hzero, ?_⟩
        simpa using hne
      · exact .inl hzero

/-- An aborted write leaves its cluster. -/
theorem abortWrite_returns (hl : Legal (h ++ [.abortWrite serial tick])) (hinv : Inv h t) :
    Returns (ByteTracker.abortWrite serial) t fun _ t' =>
      Inv (h ++ [.abortWrite serial tick]) t' := by
  obtain ⟨front, c, x, hsplit, hfront, hget, hopen, hx, hserial, hpending⟩ :=
    pending_cluster hinv hl.next.2.2
  obtain ⟨hc', hwrites⟩ := clusterInv_abortWrite hl (hinv.clusters c (by rw [hsplit]; simp)) hopen hx
    hserial hpending
  unfold abortWrite
  rw [returns_modify, hget]
  refine hinv.setLast hsplit hfront hc' (fun y hy => .inl ⟨c, mem_singleton.mpr rfl, y, ?_, rfl⟩)
    (fun c₁ hc₁ y hy hkept => ?_) nofun
  · rw [hwrites] at hy
    exact (mem_filter.mp hy).1
  · cases mem_singleton.mp hc₁
    rw [hwrites]
    refine ⟨y, mem_filter.mpr ⟨hy, decide_eq_true fun hs => hkept tick ?_⟩, rfl⟩
    rw [hs]
    exact mem_concat_self

/-- `completeRead` keeps the invariant and returns what `inExpectedData` returns. -/
theorem completeRead_returns (hl : Legal (h ++ [.completeRead serial tick data])) (hinv : Inv h t)
    (hexpected : ∀ r ∈ t.outstandingReads, r.serial = serial →
      ∃ l, ByteTracker.expectedData t r.start tick data = .ok (true, l)) :
    Returns (ByteTracker.completeRead serial tick data) t fun b t' =>
      b = true ∧ Inv (h ++ [.completeRead serial tick data]) t' := by
  have hinv' := hinv.append (e := .completeRead serial tick data) rfl
  unfold completeRead
  rw [returns_bind, returns_get]
  cases hfind : t.outstandingReads.find? fun r => r.serial == serial with
  | none =>
    rw [returns_pure]
    exact ⟨rfl, hinv'⟩
  | some r =>
    have hr : r ∈ t.outstandingReads := mem_of_find?_eq_some hfind
    have hserial : r.serial = serial := beq_iff_eq.mp (by simpa using find?_some hfind)
    obtain ⟨l, hl'⟩ := hexpected r hr hserial
    have hcode : ∀ reads, expectedData { t with outstandingReads := reads } r.start tick
        data = .ok (true, l) := fun _ => hl'
    rw [returns_bind, returns_modify, returns_bind, inExpectedData, returns_bind,
      returns_get, returns_bind, returns_lift (hcode _)]
    rw [returns_bind, returns_modify, returns_pure, returns_bind, returns_modify, returns_bind]
    refine Returns.mono (pruneTransactions_returns hl ?_ ⟨_, mem_concat_self, rfl⟩)
      fun _ t' hfinal => by
        rw [returns_pure]
        exact ⟨rfl, hfinal⟩
    have hstart := hinv.reading r hr
    rw [hserial] at hstart
    have hsub : ∀ r' ∈ t.outstandingReads.filter fun r => r.serial ≠ serial,
        r' ∈ t.outstandingReads := fun r' hr' => (mem_filter.mp hr').1
    refine { hinv' with
      observed := forall_mem_concat hinv'.observed (.inr (before_of_mem hstart _ []))
      headObs := fun o ho => ?_, nonempty := by simp
      reading := fun r' hr' => hinv'.reading r' (hsub r' hr')
      sorted := hinv.sorted.sublist filter_sublist
      stored := fun hmem hkept =>
        (hinv'.stored hmem hkept).imp_right fun ⟨x, hx⟩ => ⟨x, hx.mono hsub⟩ }
    rw [head?_append_of_ne_nil _ hinv.nonempty] at ho
    exact (hinv'.headObs o ho).imp_right fun hold => hold.mono hsub

end

end Gem5.Mem.MemChecker
