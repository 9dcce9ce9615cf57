import Gem5.Lib.Run
import Gem5.Proofs.Sim.EventQueueSpec

/-!
# `Gem5.Proofs.Sim.EventQueueRun`: the event queue is a priority queue

`Inv q bins` is the invariant of the queue: the pointers hold `bins`, the events in the bins are
those with the `Scheduled` flag, and none of them lies in the past. During a call the invariant
is broken for the one event the call works on, and `InvExcept p q bins` is the invariant for the
others.

`refines_priorityQueue` is the result. A run of the queue is a run of an agenda
(`Lib.Agenda`), which serves an entry with a minimal key, and the last one put in among those.
Handlers are part of a run: their calls stand between `serviceOne` and `endService`.
-/

namespace Gem5.Sim

open Function List Flags BitVec Gem5.Lib

namespace Flags

theorem isSet_scheduled (f : Flags) : f.isSet scheduled = f.getLsbD 1 := by
  have h : f &&& scheduled = if f.getLsbD 1 then twoPow 16 1 else 0#16 := and_twoPow f 1
  unfold isSet
  rw [h]
  cases f.getLsbD 1 with
  | true | false => rfl

theorem isSet_squashed (f : Flags) : f.isSet squashed = f.getLsbD 0 := by
  have h : f &&& squashed = if f.getLsbD 0 then twoPow 16 0 else 0#16 := and_twoPow f 0
  unfold isSet
  rw [h]
  cases f.getLsbD 0 with
  | true | false => rfl

@[simp] theorem isSet_set_scheduled (f : Flags) : (f.set scheduled).isSet scheduled = true := by
  rw [isSet_scheduled, set, getLsbD_or]
  show (_ || true) = true
  exact Bool.or_true _

@[simp] theorem isSet_clear_scheduled (f : Flags) :
    (f.clear scheduled).isSet scheduled = false := by
  rw [isSet_scheduled, clear, getLsbD_and]
  show (_ && false) = false
  exact Bool.and_false _

@[simp] theorem isSet_clear_squashed (f : Flags) :
    (f.clear squashed).isSet scheduled = f.isSet scheduled := by
  rw [isSet_scheduled, isSet_scheduled, clear, getLsbD_and]
  show (_ && true) = _
  exact Bool.and_true _

variable {f : Flags}

/-- The flags that code outside the queue may write do not contain `Scheduled`. -/
theorem getLsbD_of_noneSet (h : f.noneSet (~~~publicWrite) = true) : f.getLsbD 1 = false := by
  have hzero : f &&& ~~~publicWrite = 0 := by simpa [noneSet] using h
  have hbit := congrArg (fun x : Flags => x.getLsbD 1) hzero
  simp only [getLsbD_and] at hbit
  have hmask : (~~~publicWrite).getLsbD 1 = true := rfl
  rw [hmask, Bool.and_true] at hbit
  exact hbit

variable {g : Flags}

section
variable (h : g.noneSet (~~~publicWrite) = true)
include h

theorem isSet_set_of_noneSet :
    (f.set g).isSet scheduled = f.isSet scheduled := by
  rw [isSet_scheduled, isSet_scheduled, set, getLsbD_or, getLsbD_of_noneSet h, Bool.or_false]

theorem isSet_clear_of_noneSet :
    (f.clear g).isSet scheduled = f.isSet scheduled := by
  rw [isSet_scheduled, isSet_scheduled, clear, getLsbD_and, getLsbD_not, getLsbD_of_noneSet h]
  simp

end

end Flags

namespace EventQueue

/-- The event exists and has its `Scheduled` flag set. -/
def Scheduled (q : EventQueue) (p : Ptr) : Prop :=
  ∃ e, q.heap p = some e ∧ e.scheduled = true

/-- The invariant of the queue. The `Scheduled` flag of the event `x` may be wrong. -/
structure InvExcept (x : Option Ptr) (q : EventQueue) (bins : List Bin) : Prop where
  rep : Rep q.heap q.head bins
  scheduled : ∀ p, x ≠ some p → (p ∈ members bins ↔ q.Scheduled p)
  pending : ∀ p ∈ members bins, ∀ e, q.heap p = some e → e.queue = true ∧ q.curTick ≤ e.when
  bound : ∀ p e, q.heap p = some e → p < q.addresses

/-- The invariant of the queue. -/
abbrev Inv (q : EventQueue) (bins : List Bin) : Prop := InvExcept none q bins

theorem inv_new : Inv new [] where
  rep := rep_nil _
  scheduled p _ := by simp [Scheduled, new]
  pending := by simp
  bound p e he := by cases he

namespace InvExcept

variable {q q' : EventQueue} {bins bins' : List Bin} {p : Ptr} {e : Event}

/-- There are no more events in the bins than addresses. -/
theorem length_le {x : Option Ptr} (h : InvExcept x q bins) :
    (members bins).length ≤ q.addresses := by
  have hsub : members bins ⊆ range q.addresses := fun p hp => by
    obtain ⟨e, he⟩ := h.rep.live hp
    exact mem_range.mpr (h.bound p e he)
  have hle := (subperm_of_subset h.rep.nodup hsub).length_le
  rwa [length_range] at hle

/-- The flag of one event may be ignored. -/
theorem except (h : Inv q bins) (p : Ptr) : InvExcept (some p) q bins :=
  { h with scheduled := fun r _ => h.scheduled r (by simp) }

section
variable (h : InvExcept (some p) q bins)
include h

/-- The invariant holds again when the flag that was ignored is right. -/
theorem settle (hp : p ∈ members bins ↔ q.Scheduled p) :
    Inv q bins := by
  refine { h with scheduled := fun r _ => ?_ }
  by_cases hrp : r = p
  · rw [hrp]
    exact hp
  · exact h.scheduled r fun heq => hrp (Option.some.inj heq).symm

/-- New links keep the invariant. The event whose flag is ignored may come and go. -/
theorem relinked {ts : List Ptr} (hlink : Relinked ts q q') (hrep : Rep q'.heap q'.head bins')
    (hmembers : ∀ r, r ≠ p → (r ∈ members bins' ↔ r ∈ members bins))
    (hpending : p ∈ members bins' → ∀ e, q.heap p = some e → e.queue = true ∧ q.curTick ≤ e.when) :
    InvExcept (some p) q' bins' := by
  -- an event of the new heap is one of the old heap with other links
  have hback : ∀ r e', q'.heap r = some e' → ∃ e, q.heap r = some e ∧ e.data = e'.data := by
    intro r e' he'
    have hdata := hlink.data r
    rw [he', Option.map_some, eq_comm, Option.map_eq_some_iff] at hdata
    exact hdata
  refine ⟨hrep, fun r hr => ?_, fun r hr e' he' => ?_, fun r e' he' => ?_⟩
  · have hrp : r ≠ p := fun heq => hr (by rw [heq])
    rw [hmembers r hrp, h.scheduled r hr]
    constructor
    · rintro ⟨e, he, hs⟩
      obtain ⟨e', he', hdata⟩ := hlink.exists_data he
      obtain ⟨_, _, hflags, _⟩ := Event.fields_of_data hdata
      exact ⟨e', he', by rw [Event.scheduled, hflags]; exact hs⟩
    · rintro ⟨e', he', hs⟩
      obtain ⟨e, he, hdata⟩ := hback r e' he'
      obtain ⟨_, _, hflags, _⟩ := Event.fields_of_data hdata
      exact ⟨e, he, by rw [Event.scheduled, hflags]; exact hs⟩
  · obtain ⟨e, he, hdata⟩ := hback r e' he'
    obtain ⟨hwhen, _, _, hqueue⟩ := Event.fields_of_data hdata
    rw [hlink.curTick, ← hqueue, ← hwhen]
    by_cases hrp : r = p
    · subst hrp
      exact hpending hr e he
    · exact h.pending r ((hmembers r hrp).mp hr) e he
  · obtain ⟨e, he, _⟩ := hback r e' he'
    rw [hlink.addresses]
    exact h.bound r e he

/-- The event whose flag is ignored may be written, deleted or constructed. Of an event in a bin,
only the flags are written. -/
theorem write (o : Option Event) (n : Nat) (hn : q.addresses ≤ n) (hpn : ∀ e, o = some e → p < n)
    (hp : p ∈ members bins → ∃ e f, q.heap p = some e ∧ o = some { e with flags := f }) :
    InvExcept (some p) { q with heap := Function.update q.heap p o, addresses := n } bins := by
  have hother : ∀ r, r ≠ p → Function.update q.heap p o r = q.heap r :=
    fun r hr => update_of_ne hr _ _
  have hself : Function.update q.heap p o p = o := update_self _ _ _
  refine ⟨h.rep.congr_fields fun r hr e he => ?_, fun r hr => ?_, fun r hr e he => ?_,
    fun r e he => ?_⟩
  · by_cases hrp : r = p
    · subst hrp
      obtain ⟨e', f, he', ho⟩ := hp hr
      cases he.symm.trans he'
      exact ⟨_, hself.trans ho, rfl, rfl, rfl⟩
    · exact ⟨e, (hother r hrp).trans he, rfl, rfl, rfl⟩
  · have hrp : r ≠ p := fun heq => hr (by rw [heq])
    rw [h.scheduled r hr, Scheduled]
    show _ ↔ ∃ e, Function.update q.heap p o r = some e ∧ _
    rw [hother r hrp]
  · by_cases hrp : r = p
    · subst hrp
      obtain ⟨e', f, he', ho⟩ := hp hr
      cases (hself.trans ho).symm.trans he
      exact h.pending r hr e' he'
    · exact h.pending r hr e ((hother r hrp).symm.trans he)
  · show r < n
    by_cases hrp : r = p
    · subst hrp
      exact hpn e (hself.symm.trans he)
    · exact Nat.lt_of_lt_of_le (h.bound r e ((hother r hrp).symm.trans he)) hn

/-- The flags of the event whose flag is ignored may be written. -/
theorem writeFlags (he : q.heap p = some e) (f : Flags) :
    InvExcept (some p)
      { q with heap := Function.update q.heap p (some { e with flags := f }) } bins :=
  h.write _ q.addresses (Nat.le_refl _) (fun _ _ => h.bound p e he) fun _ => ⟨e, f, he, rfl⟩

/-- Flags that say whether the event is in a bin set the invariant right. -/
theorem settleFlags (he : q.heap p = some e) {f : Flags}
    (hf : p ∈ members bins ↔ f.isSet Flags.scheduled = true) :
    Inv { q with heap := Function.update q.heap p (some { e with flags := f }) } bins := by
  refine (h.writeFlags he f).settle (hf.trans ⟨fun hs => ⟨_, update_self _ _ _, hs⟩, ?_⟩)
  rintro ⟨e', he', hs⟩
  cases (update_self p (some { e with flags := f }) q.heap).symm.trans he'
  exact hs

end

end InvExcept

variable {bins : List Bin} {q : EventQueue} {p : Ptr}

/-- `remove` takes a scheduled event out of the bins. Its flag is still set. -/
theorem remove_inv (h : Inv q bins) (hp : q.Scheduled p) :
    Returns (remove p) q fun _ q' =>
      InvExcept (some p) q' (dropEvent p bins) ∧ Relinked (tops bins) q q' := by
  have hmem : p ∈ members bins := (h.scheduled p (by simp)).mpr hp
  obtain ⟨e, he, _⟩ := hp
  refine (remove_spec h.rep he (h.pending p hmem e he).1 hmem h.length_le).mono ?_
  rintro _ q' ⟨hrep, hlink⟩
  refine ⟨(h.except p).relinked hlink hrep (fun r hr => ?_) fun _ => h.pending p hmem, hlink⟩
  rw [members_dropEvent, mem_filter]
  simp [hr]

/-- The end of `schedule` and of `reschedule` puts an event in its bin. -/
theorem insert_inv {e : Event} {w : Tick} {g : Flags → Flags} {Q : EventQueue → Prop}
    (h : InvExcept (some p) q bins) (hp : p ∉ members bins) (he : q.heap p = some e)
    (hw : q.curTick ≤ w) (hg : ∀ f, (g f).isSet Flags.scheduled = true)
    (hQ : ∀ q', Inv q' (place (toLex (w, e.priority)) p bins) → Steady (tops bins) q q' → Q q') :
    Returns (setWhen p w) q fun _ q₁ => Returns (insert p) q₁ fun _ q₂ =>
      Returns (update p fun e => { e with flags := g e.flags }) q₂ fun _ q' => Q q' := by
  rw [setWhen, returns_update he]
  have hself : Function.update q.heap p (some { e with when := w, queue := true }) p
      = some { e with when := w, queue := true } := update_self _ _ _
  have hset := h.write (some { e with when := w, queue := true }) q.addresses (Nat.le_refl _)
    (fun _ _ => h.bound p e he) fun hmem => absurd hmem hp
  refine (insert_spec hset.rep hself hp
    (Nat.le_trans (length_le_members bins) hset.length_le)).mono ?_
  rintro _ q₁ ⟨hrep, hlink⟩
  obtain ⟨e₁, he₁, _⟩ := hlink.exists_data hself
  rw [returns_update he₁]
  have hinv := hset.relinked hlink hrep (fun r hr => by simp [mem_members_place, hr])
    fun _ e' he' => by
    cases hself.symm.trans he'
    exact ⟨rfl, hw⟩
  exact hQ _ (hinv.settleFlags he₁ (iff_of_true (mem_members_place.mpr (.inl rfl)) (hg e₁.flags)))
    { hlink with }

/-- What the assertions of a call ask for, and that it is made on an event that exists. -/
def Pre (q : EventQueue) : Call → Prop
  | .construct p _ f => q.heap p = none ∧ f.noneSet (~~~Flags.publicWrite) = true
  | .destroy p => ∃ e, q.heap p = some e ∧ e.scheduled = false
  | .setFlags p f => (∃ e, q.heap p = some e) ∧ f.noneSet (~~~Flags.publicWrite) = true
  | .clearFlags p f => (∃ e, q.heap p = some e) ∧ f.noneSet (~~~Flags.publicWrite) = true
  | .schedule p w =>
    q.curTick ≤ w ∧ ∃ e, q.heap p = some e ∧ e.scheduled = false ∧ e.initialized = true
  | .deschedule p => ∃ e, q.heap p = some e ∧ e.scheduled = true ∧ e.initialized = true
  | .reschedule p w always =>
    q.curTick ≤ w ∧ ∃ e, q.heap p = some e ∧ (always || e.scheduled) = true ∧
      e.initialized = true
  | .serviceOne => q.head ≠ none ∧ q.inService = none
  | .endService => ∃ p e, q.inService = some p ∧ q.heap p = some e ∧ (e.isExitEvent = true →
      (!e.flags.isSet Flags.managed || !e.flags.isSet Flags.isMainQueue) = true)

section
variable {q : EventQueue} {bins : List Bin} {p : Ptr} {e : Event}

theorem notMem_of_not_scheduled (h : Inv q bins) (he : q.heap p = some e)
    (hs : e.scheduled = false) : p ∉ members bins := by
  intro hmem
  obtain ⟨e', he', hs'⟩ := (h.scheduled p (by simp)).mp hmem
  rw [he] at he'
  cases he'
  rw [hs] at hs'
  cases hs'

/-- An event that is not scheduled can be deleted. -/
theorem free_inv (h : Inv q bins) (hp : p ∉ members bins) :
    Inv { q with heap := Function.update q.heap p none } bins := by
  refine ((h.except p).write none q.addresses (Nat.le_refl _) (by simp)
    fun hmem => absurd hmem hp).settle (iff_of_false hp ?_)
  rintro ⟨e', he', _⟩
  cases (update_self p none q.heap).symm.trans he'

/-- `release` frees a managed event that is not scheduled. -/
theorem release_inv (h : Inv q bins) (he : q.heap p = some e) :
    Returns (release p) q fun _ q' => Inv q' bins ∧ Steady [] q q' := by
  unfold release
  rw [returns_bind, returns_deref he]
  split
  · rename_i hfree
    rw [Bool.and_eq_true, Bool.not_eq_true'] at hfree
    unfold free
    rw [returns_modify]
    exact ⟨free_inv h (notMem_of_not_scheduled h he hfree.2), fun _ hr => .inl hr, rfl, rfl⟩
  · rw [returns_pure]
    exact ⟨h, fun _ hr => .inl hr, rfl, rfl⟩

variable {f : Flags} {w : Tick}

theorem schedule_inv (h : Inv q bins) (hw : q.curTick ≤ w) (he : q.heap p = some e)
    (hs : e.scheduled = false) (hinit : e.initialized = true) :
    Returns (schedule p w) q fun _ q' =>
      Inv q' (place (toLex (w, e.priority)) p bins) ∧ Steady (tops bins) q q' := by
  unfold schedule
  simp only [returns_bind, returns_get, returns_assert, returns_deref he]
  exact ⟨decide_eq_true hw, by rw [hs]; rfl, hinit, insert_inv (g := fun f => f.set scheduled)
    (h.except p) (notMem_of_not_scheduled h he hs) he hw isSet_set_scheduled
    fun q' hinv hsteady => ⟨hinv, hsteady⟩⟩

/-- `deschedule` takes the event out of its bin and may free it. -/
theorem deschedule_inv (h : Inv q bins) (he : q.heap p = some e) (hs : e.scheduled = true)
    (hinit : e.initialized = true) :
    Returns (deschedule p) q fun _ q' =>
      Inv q' (dropEvent p bins) ∧ Steady (tops bins) q q' := by
  unfold deschedule
  simp only [returns_bind, returns_assert, returns_deref he]
  refine ⟨hs, hinit, (remove_inv h ⟨e, he, hs⟩).mono ?_⟩
  rintro _ q₁ ⟨hinv, hlink⟩
  obtain ⟨e₁, he₁, _⟩ := hlink.exists_data he
  rw [returns_update he₁]
  have hsettled := hinv.settleFlags he₁
    (f := (e₁.flags.clear squashed).clear scheduled)
    (iff_of_false (notMem_dropEvent p bins) (by simp))
  refine (release_inv hsettled (update_self _ _ _)).mono ?_
  rintro _ q₂ ⟨hinv₂, hsteady⟩
  exact ⟨hinv₂, fun r hr => hlink.followed r ((hsteady.followed r hr).resolve_right not_mem_nil),
    hsteady.curTick.trans hlink.curTick, hsteady.inService.trans hlink.inService⟩

/-- `reschedule` takes a scheduled event out of its bin first. -/
theorem reschedule_inv {always : Bool} (h : Inv q bins) (hw : q.curTick ≤ w)
    (he : q.heap p = some e) (halways : (always || e.scheduled) = true)
    (hinit : e.initialized = true) :
    Returns (reschedule p w always) q fun _ q' =>
      Inv q' (place (toLex (w, e.priority)) p (dropEvent p bins)) ∧
        Steady (tops bins ++ tops (dropEvent p bins)) q q' := by
  have hp := notMem_dropEvent p bins
  let g (f : Flags) : Flags := (f.clear squashed).set scheduled
  have hg : ∀ f, (g f).isSet scheduled = true := fun f => isSet_set_scheduled _
  unfold reschedule
  simp only [returns_bind, returns_get, returns_assert, returns_deref he]
  refine ⟨decide_eq_true hw, halways, hinit, ?_⟩
  cases hs : e.scheduled with
  | true =>
    simp only [if_true, returns_bind]
    refine (remove_inv h ⟨e, he, hs⟩).mono ?_
    rintro _ q₁ ⟨hinv, hlink⟩
    obtain ⟨e₁, he₁, hdata⟩ := hlink.exists_data he
    obtain ⟨_, hprio, _⟩ := Event.fields_of_data hdata
    rw [← hprio]
    exact insert_inv (g := g) hinv hp he₁ (by rw [hlink.curTick]; exact hw) hg fun q' hinv' hsteady =>
      ⟨hinv', hlink.toSteady.trans hsteady⟩
  | false =>
    simp only [Bool.false_eq_true, if_false, returns_bind]
    rw [dropEvent_eq_self (notMem_of_not_scheduled h he hs)] at hp ⊢
    exact insert_inv (g := g) (h.except p) hp he hw hg fun q' hinv hsteady =>
      ⟨hinv, (Relinked.refl (tops bins) q).toSteady.trans hsteady⟩

variable {b : Bin}

/-- `popHead` drops the top of the first bin. -/
theorem popHead_spec (hrep : Rep q.heap q.head (b :: bins)) (he : q.heap b.top = some e) :
    Returns (popHead b.top e.nextInBin) q fun _ q' =>
      Rep q'.heap q'.head (dropEvent b.top (b :: bins)) ∧ Relinked (tops (b :: bins)) q q' := by
  obtain ⟨e', he', hbelow⟩ := hrep.below
  rw [he] at he'
  cases he'
  have hfollow : Relinked (tops (b :: bins)) q { q with followed := b.top :: q.followed } :=
    Relinked.follow mem_cons_self
  unfold popHead
  rw [returns_bind, returns_followBin he]
  cases hrest : b.rest with
  | nil =>
    have hnone : e.nextInBin = none := by rwa [hrest] at hbelow
    rw [hnone]
    rw [returns_modify]
    exact ⟨hrep.dropTop_nil he hrest, hfollow.trans (Relinked.head _ _ _)⟩
  | cons next =>
    rw [hrest] at hbelow
    have hnext : next ∈ members (b :: bins) := by simp [Bin.members, hrest]
    obtain ⟨en, hen⟩ := hrep.live hnext
    rw [hbelow.1]
    rw [returns_bind, returns_update (q := { q with followed := b.top :: q.followed }) hen,
      returns_modify]
    refine ⟨hrep.dropTop_cons he hrest hen, (hfollow.trans ?_).trans (Relinked.head _ _ _)⟩
    exact Relinked.update hen rfl

/-- With its flag cleared first, the event at the head leaves the queue in order. -/
theorem popHead_inv (h : InvExcept (some b.top) q (b :: bins)) (he : q.heap b.top = some e)
    (hs : e.scheduled = false) :
    Returns (popHead b.top e.nextInBin) q fun _ q' =>
      Inv q' (dropEvent b.top (b :: bins)) ∧ Relinked (tops (b :: bins)) q q' := by
  have hp := notMem_dropEvent b.top (b :: bins)
  refine (popHead_spec h.rep he).mono ?_
  rintro _ q' ⟨hrep, hlink⟩
  have hinv := h.relinked hlink hrep (fun r hr => by
      rw [members_dropEvent]
      simp [hr])
    (fun hmem => absurd hmem hp)
  refine ⟨hinv.settle (iff_of_false hp ?_), hlink⟩
  rintro ⟨e₁, he₁, hs₁⟩
  obtain ⟨e', he', hdata⟩ := hlink.exists_data he
  rw [he₁] at he'
  cases he'
  obtain ⟨_, _, hf, _⟩ := Event.fields_of_data hdata
  rw [Event.scheduled, hf] at hs₁
  cases hs₁.symm.trans hs

/-- `serviceOne` drops the top of the first bin. If the event is not squashed, the clock moves
to its time and its handler runs. -/
theorem serviceOne_inv (h : Inv q (b :: bins)) (he : q.heap b.top = some e) :
    Returns serviceOne q fun _ q' =>
      Inv q' (dropEvent b.top (b :: bins)) ∧
        (∀ r ∈ q'.followed, r ∈ q.followed ∨ r ∈ tops (b :: bins)) ∧ q.curTick ≤ q'.curTick ∧
        (e.squashed = false → q'.curTick = e.when ∧ q'.inService = some b.top) := by
  obtain ⟨e₁, he₁, hhead, hkey, _⟩ := h.rep.tail
  rw [he] at he₁
  cases he₁
  have hmem : b.top ∈ members (b :: bins) := by simp [Bin.members]
  unfold serviceOne
  rw [returns_bind, returns_get, hhead]
  rw [returns_bind]
  have hself : Function.update q.heap b.top (some { e with flags := e.flags.clear scheduled }) b.top
        = some { e with flags := e.flags.clear scheduled } := update_self _ _ _
  rw [returns_deref he, returns_bind, returns_update he, returns_bind]
  refine (popHead_inv ((h.except b.top).writeFlags he _) hself
    (isSet_clear_scheduled e.flags)).mono ?_
  rintro _ q₁ ⟨hinv, hsteady⟩
  obtain ⟨e', he', hdata⟩ := hsteady.exists_data hself
  obtain ⟨hwhen, _, hflags, _⟩ := Event.fields_of_data hdata
  have hsquashed : e'.squashed = e.squashed := by
    rw [Event.squashed, Event.squashed, hflags, isSet_squashed, isSet_squashed, clear, getLsbD_and]
    show (_ && true) = _
    exact Bool.and_true _
  rw [returns_bind, returns_deref he', hsquashed]
  cases hs : e.squashed with
  | false =>
    rw [if_pos (show (!false) = true from rfl), returns_modify]
    refine ⟨{ hinv with pending := fun r hr er her => ?_ }, hsteady.followed, ?_,
      fun _ => ⟨hwhen, rfl⟩⟩
    · -- what is left in the bins is not before the event
      refine ⟨(hinv.pending r hr er her).1, ?_⟩
      obtain ⟨d, hd, hrd⟩ := mem_members.mp hr
      obtain ⟨er', her', hkeyr⟩ := hinv.rep.key d hd r hrd
      cases her.symm.trans her'
      obtain ⟨c, hc, hcd⟩ := mem_filterMap.mp hd
      have hle : b.key ≤ d.key := by
        rw [Bin.key_dropEvent hcd]
        rcases mem_cons.mp hc with rfl | hc
        · exact le_refl _
        · exact ((pairwise_cons.mp h.rep.sorted).1 c hc).le
      rw [← hkey, ← hkeyr, Event.key, Event.key, Prod.Lex.toLex_le_toLex] at hle
      show e'.when ≤ er.when
      rw [hwhen]
      rcases hle with hlt | ⟨heq, _⟩
      · exact hlt.le
      · exact heq.le
    · show q.curTick ≤ e'.when
      rw [hwhen]
      exact (h.pending b.top hmem e he).2
  | true =>
    rw [if_neg (by simp), returns_bind, returns_update he']
    have hp := notMem_dropEvent b.top (b :: bins)
    have hsettled := (hinv.except b.top).settleFlags he' (f := e'.flags.clear squashed)
      (iff_of_false hp (by simp [hflags]))
    refine (release_inv hsettled (update_self _ _ _)).mono ?_
    rintro _ q₂ ⟨hinv₂, hsteady₂⟩
    exact ⟨hinv₂, fun r hr => hsteady.followed r ((hsteady₂.followed r hr).resolve_right not_mem_nil),
      (hsteady₂.curTick.trans hsteady.curTick).ge, by simp⟩

variable (h : Inv q bins)
include h

/-- The service ends with the release of the event, unless it is an exit event. -/
theorem endService_inv (he : q.heap p = some e) (hexit : e.isExitEvent = true →
      (!e.flags.isSet Flags.managed || !e.flags.isSet Flags.isMainQueue) = true) :
    Returns (endService p) q fun _ q' =>
      Inv q' bins ∧ (∀ r ∈ q'.followed, r ∈ q.followed) ∧ q'.curTick = q.curTick := by
  -- `inService` is not part of the invariant
  have hend : ∀ {q' : EventQueue}, Inv q' bins → Inv { q' with inService := none } bins :=
    fun h => ⟨h.rep, h.scheduled, h.pending, h.bound⟩
  unfold endService
  rw [returns_bind, returns_deref he]
  cases hx : e.isExitEvent with
  | true =>
    rw [if_pos rfl, returns_bind, returns_assert]
    refine ⟨hexit hx, ?_⟩
    rw [returns_modify]
    exact ⟨hend h, fun r hr => hr, rfl⟩
  | false =>
    rw [if_neg Bool.false_ne_true, returns_bind]
    refine (release_inv h he).mono ?_
    rintro _ q' ⟨hinv, hsteady⟩
    rw [returns_modify]
    exact ⟨hend hinv, fun r hr => (hsteady.followed r hr).resolve_right not_mem_nil,
      hsteady.curTick⟩

/-- Code outside the queue writes flags of an event, but not `Scheduled`. -/
theorem update_flags_inv (he : q.heap p = some e)
    (hf : f.isSet Flags.scheduled = e.flags.isSet Flags.scheduled) :
    Inv { q with heap := Function.update q.heap p (some { e with flags := f }) } bins := by
  refine (h.except p).settleFlags he ?_
  rw [h.scheduled p (by simp), hf]
  constructor
  · rintro ⟨e', he', hs⟩
    rw [he] at he'
    cases he'
    exact hs
  · exact fun hs => ⟨e, he, hs⟩

/-- A new event is in no bin. -/
theorem construct_inv {priority : Int} (he : q.heap p = none)
    (hf : f.noneSet (~~~Flags.publicWrite) = true) :
    Inv { q with heap := Function.update q.heap p (some (Event.new priority f))
                 addresses := max q.addresses (p + 1) } bins := by
  have hp : p ∉ members bins := fun hmem => by
    obtain ⟨e, he'⟩ := h.rep.live hmem
    rw [he] at he'
    cases he'
  refine ((h.except p).write _ _ (Nat.le_max_left _ _)
    (fun _ _ => Nat.le_max_right q.addresses (p + 1)) fun hmem => absurd hmem hp).settle
      (iff_of_false hp ?_)
  rintro ⟨e', he', hs⟩
  cases (update_self p (some (Event.new priority f)) q.heap).symm.trans he'
  have hbit : (initialized ||| f).isSet scheduled = false := by
    rw [isSet_scheduled, getLsbD_or, getLsbD_of_noneSet hf]
    rfl
  cases hs.symm.trans hbit

end

/-- The move of the agenda that a call makes. -/
def act (q : EventQueue) : Call → Option (Agenda.Act Ptr Key)
  | .schedule p w => (q.heap p).map fun e => .put p (toLex (w, e.priority))
  | .reschedule p w _ => (q.heap p).map fun e => .put p (toLex (w, e.priority))
  | .deschedule p => some (.drop p)
  | .serviceOne => q.head.map .serve
  | _ => none

/-- The moves that the calls of a run make. -/
def trace : EventQueue → List Call → List (Agenda.Act Ptr Key)
  | _, [] => []
  | q, c :: cs => (act q c).toList ++ ((step q c).map fun q' => trace q' cs).getD []

/-- The queue holds an agenda. -/
structure Holds (q : EventQueue) (a : Agenda Ptr Key) (bins : List Bin) : Prop where
  inv : Inv q bins
  sorted : entries bins = a.sorted

/-- What a call does, seen as a move of the agenda. The events whose `nextBin` it follows are
top events. `reschedule` follows some of them when it has taken its event out. -/
structure Moves (q : EventQueue) (a : Agenda Ptr Key) (bins : List Bin) (c : Call)
    (q' : EventQueue) (a' : Agenda Ptr Key) (bins' : List Bin) : Prop where
  holds : Holds q' a' bins'
  path : Agenda.Path a (act q c).toList a'
  followed : ∀ r ∈ q'.followed,
    r ∈ tops bins ∨ ∃ p w always, c = .reschedule p w always ∧ r ∈ tops (dropEvent p bins)
  curTick : q.curTick ≤ q'.curTick
  served : ∀ p e, c = .serviceOne → q.head = some p → q.heap p = some e →
    e.squashed = false → q'.inService = some p ∧ q'.curTick = e.when

section
variable {q : EventQueue} {a : Agenda Ptr Key} {bins : List Bin} {c : Call}
variable {p : Ptr} {q' : EventQueue}

section
variable (h : Holds q a bins)
include h

/-- A call that makes no move of the agenda and follows no `nextBin`. -/
theorem Moves.idle (hinv : Inv q' bins) (hact : act q c = none)
    (hfollowed : ∀ r, r ∉ q'.followed) (htick : q'.curTick = q.curTick) (hc : c ≠ .serviceOne) :
    Moves q a bins c q' a bins where
  holds := ⟨hinv, h.sorted⟩
  path := by
    rw [hact]
    exact .nil a
  followed r hr := absurd hr (hfollowed r)
  curTick := htick.ge
  served p e heq := absurd heq hc

theorem holds_put {k : Key} (hinv : Inv q' (place k p (dropEvent p bins))) :
    Holds q' (a.put p k) (place k p (dropEvent p bins)) where
  inv := hinv
  sorted := by
    rw [entries_place, entries_dropEvent, h.sorted, ← Agenda.sorted_drop]
    rfl

theorem holds_drop (hinv : Inv q' (dropEvent p bins)) :
    Holds q' (a.drop p) (dropEvent p bins) where
  inv := hinv
  sorted := by rw [entries_dropEvent, h.sorted, Agenda.sorted_drop]

/-- A call whose assertions hold returns, and it is a move of the agenda. -/
theorem code_moves (hpre : Pre q c) :
    Returns (code q c) { q with followed := [] } fun _ q' =>
      ∃ a' bins', Moves q a bins c q' a' bins' := by
  have hinv : Inv { q with followed := [] } bins :=
    ⟨h.inv.rep, h.inv.scheduled, h.inv.pending, h.inv.bound⟩
  cases c with
  | construct =>
    obtain ⟨he, hf⟩ := hpre
    simp only [code, construct, returns_bind, returns_assert, returns_get, he, returns_modify]
    exact ⟨hf, a, bins, .idle h (construct_inv hinv he hf) rfl (by simp) rfl (by simp)⟩
  | destroy =>
    obtain ⟨e, he, hs⟩ := hpre
    simp only [code, destroy, free, returns_bind, returns_deref (q := { q with followed := [] }) he,
      returns_assert, returns_modify]
    exact ⟨by rw [hs]; rfl, a, bins, .idle h (free_inv hinv (notMem_of_not_scheduled h.inv he hs)) rfl
      (by simp) rfl (by simp)⟩
  | setFlags =>
    obtain ⟨⟨e, he⟩, hf⟩ := hpre
    simp only [code, setFlags, returns_bind, returns_assert,
      returns_update (q := { q with followed := [] }) he]
    exact ⟨hf, a, bins, .idle h (update_flags_inv hinv he (isSet_set_of_noneSet hf)) rfl (by simp)
      rfl (by simp)⟩
  | clearFlags =>
    obtain ⟨⟨e, he⟩, hf⟩ := hpre
    simp only [code, clearFlags, returns_bind, returns_assert,
      returns_update (q := { q with followed := [] }) he]
    exact ⟨hf, a, bins, .idle h (update_flags_inv hinv he (isSet_clear_of_noneSet hf)) rfl
      (by simp) rfl (by simp)⟩
  | schedule p =>
    obtain ⟨hw, e, he, hs, hinit⟩ := hpre
    refine (schedule_inv hinv hw he hs hinit).mono ?_
    rintro _ q' ⟨hinv', hsteady⟩
    rw [← dropEvent_eq_self (notMem_of_not_scheduled h.inv he hs)] at hinv'
    refine ⟨_, _, holds_put h hinv', ?_, fun r hr => ?_, hsteady.curTick.ge, ?_⟩
    · show Agenda.Path a (Option.map _ (q.heap p)).toList _
      rw [he]
      exact .cons (.put a p _) (.nil _)
    · exact .inl ((hsteady.followed r hr).resolve_left (by simp))
    · rintro _ _ ⟨⟩
  | deschedule p =>
    obtain ⟨e, he, hs, hinit⟩ := hpre
    refine (deschedule_inv hinv he hs hinit).mono ?_
    rintro _ q' ⟨hinv', hsteady⟩
    have hmem : p ∈ members bins := (h.inv.scheduled p (by simp)).mpr ⟨e, he, hs⟩
    obtain ⟨b, hb, hpb⟩ := mem_members.mp hmem
    have ha : (p, b.key) ∈ a := by
      rw [← Agenda.mem_sorted, ← h.sorted]
      exact mem_entries.mpr ⟨b, hb, hpb, rfl⟩
    refine ⟨_, _, holds_drop h hinv', .cons (.drop ha) (.nil _), fun r hr => ?_, hsteady.curTick.ge,
      ?_⟩
    · exact .inl ((hsteady.followed r hr).resolve_left (by simp))
    · rintro _ _ ⟨⟩
  | reschedule p w always =>
    obtain ⟨hw, e, he, halways, hinit⟩ := hpre
    refine (reschedule_inv hinv hw he halways hinit).mono ?_
    rintro _ q' ⟨hinv', hsteady⟩
    refine ⟨_, _, holds_put h hinv', ?_, fun r hr => ?_, hsteady.curTick.ge, ?_⟩
    · show Agenda.Path a (Option.map _ (q.heap p)).toList _
      rw [he]
      exact .cons (.put a p _) (.nil _)
    · rcases mem_append.mp ((hsteady.followed r hr).resolve_left (by simp)) with hr | hr
      · exact .inl hr
      · exact .inr ⟨p, w, always, rfl, hr⟩
    · rintro _ _ ⟨⟩
  | serviceOne =>
    cases bins with
    | nil => exact absurd h.inv.rep.tops hpre.1
    | cons =>
      obtain ⟨e, he, hhead, _⟩ := h.inv.rep.tail
      refine (serviceOne_inv hinv he).mono ?_
      rintro _ q' ⟨hinv', hfollowed, htick, hserved⟩
      refine ⟨_, _, holds_drop h hinv', ?_, fun r hr => ?_, htick, ?_⟩
      · show Agenda.Path a (Option.map _ q.head).toList _
        rw [hhead]
        exact .cons (.serve (Agenda.isNext_of_sorted h.sorted.symm)) (.nil _)
      · exact .inl ((hfollowed r hr).resolve_left (by simp))
      · intro p e' _ hp he' hs
        rw [hhead] at hp
        cases hp
        rw [he] at he'
        cases he'
        exact (hserved hs).symm
  | endService =>
    obtain ⟨p, e, hp, he, hexit⟩ := hpre
    have hcode : code q .endService = endService p := by
      unfold code
      rw [hp]
    rw [hcode]
    refine (endService_inv hinv he hexit).mono ?_
    rintro _ q' ⟨hinv', hfollowed, htick⟩
    exact ⟨a, bins, .idle h hinv' rfl (fun r hr => by cases hfollowed r hr) htick (by simp)⟩

end

/-- A call that returns, as a result of `call`. -/
theorem call_of_returns {P : EventQueue → Prop}
    (h : Returns (code q c) { q with followed := [] } fun _ q' => P q') :
    ∃ q', call q c = .ok q' ∧ P q' := by
  obtain ⟨_, q', hq, hP⟩ := h
  refine ⟨q', ?_, hP⟩
  rw [call, hq]
  rfl

/-- A call of a run had its assertions met. -/
theorem pre_of_step (hstep : step q c = some q') : Pre q c ∧ call q c = .ok q' := by
  obtain ⟨hfree, hcall⟩ : q.blocked c = false ∧ call q c = .ok q' := by
    unfold step at hstep
    split at hstep
    · cases hstep
    · rename_i hfree
      cases hc : call q c with
      | error =>
        rw [hc] at hstep
        cases hstep
      | ok =>
        rw [hc] at hstep
        cases hstep
        exact ⟨by simpa using hfree, rfl⟩
  refine ⟨?_, hcall⟩
  have hcode : Returns (code q c) { q with followed := [] } fun _ t => t = q' := by
    cases hrun : code q c { q with followed := [] } with
    | error =>
      rw [call, hrun] at hcall
      cases hcall
    | ok r =>
      rw [call, hrun] at hcall
      cases hcall
      exact ⟨r.1, r.2, hrun, rfl⟩
  cases c with
  | construct p =>
    simp only [code, construct, returns_bind, returns_assert, returns_get] at hcode
    cases he : q.heap p with
    | none => exact ⟨he, hcode.1⟩
    | some =>
      rw [he] at hcode
      exact absurd hcode.2 (by simp)
  | destroy =>
    simp only [code, destroy, returns_bind, returns_deref_iff, returns_assert] at hcode
    obtain ⟨e, he, hs, -⟩ := hcode
    exact ⟨e, he, by simpa using hs⟩
  | setFlags | clearFlags =>
    simp only [code, setFlags, clearFlags, update, returns_bind, returns_assert,
      returns_deref_iff] at hcode
    obtain ⟨hf, e, he, -⟩ := hcode
    exact ⟨⟨e, he⟩, hf⟩
  | deschedule =>
    simp only [code, deschedule, returns_bind, returns_deref_iff, returns_assert] at hcode
    obtain ⟨e, he, hs, hinit, -⟩ := hcode
    exact ⟨e, he, hs, hinit⟩
  | schedule | reschedule =>
    simp only [code, schedule, reschedule, returns_bind, returns_get, returns_assert,
      returns_deref_iff] at hcode
    obtain ⟨hw, e, he, hs, hinit, -⟩ := hcode
    exact ⟨of_decide_eq_true hw, e, he, by simpa using hs, hinit⟩
  | serviceOne =>
    refine ⟨fun hhead => ?_, by simpa [blocked] using hfree⟩
    simp [code, serviceOne, hhead] at hcode
  | endService =>
    cases hin : q.inService with
    | none => simp [blocked, hin] at hfree
    | some p =>
      simp only [code, hin, endService, returns_bind, returns_deref_iff] at hcode
      obtain ⟨e, he, hcode⟩ := hcode
      refine ⟨p, e, hin, he, fun hexit => ?_⟩
      rw [if_pos hexit, returns_bind, returns_assert] at hcode
      exact hcode.1

/-- A step of a run is a move of the agenda. -/
theorem step_moves (h : Holds q a bins) (hstep : step q c = some q') :
    ∃ a' bins', Moves q a bins c q' a' bins' := by
  obtain ⟨hpre, hcall⟩ := pre_of_step hstep
  obtain ⟨q'', hcall', hmoves⟩ := call_of_returns (code_moves h hpre)
  rw [hcall] at hcall'
  cases hcall'
  exact hmoves

/-- The runs of the queue are runs of the agenda. -/
theorem run_moves {calls : List Call} (h : Holds q a bins) (hrun : run step q calls = some q') :
    ∃ a' bins', Agenda.Path a (trace q calls) a' ∧ Holds q' a' bins' := by
  induction calls generalizing q a bins with
  | nil =>
    cases hrun
    exact ⟨a, bins, .nil a, h⟩
  | cons c calls ih =>
    obtain ⟨q₁, hstep, hrest⟩ := run_cons_eq_some hrun
    obtain ⟨a₁, bins₁, hmoves⟩ := step_moves h hstep
    obtain ⟨a', bins', hpath, hholds⟩ := ih hmoves.holds hrest
    refine ⟨a', bins', ?_, hholds⟩
    rw [trace, hstep]
    exact hmoves.path.append hpath

end

/-- The event queue is a priority queue. After every run of calls whose assertions hold, calls
of handlers included, there are bins and an agenda such that

- the pointers hold the bins, in strictly increasing order of `(when, priority)`, and the events
  in the bins, each there once, are those with the `Scheduled` flag (`Rep`, `Holds`);
- the agenda is what the calls of the run make of the empty one, by the rules of a priority
  queue that serves the last entry first among equals, and the bins are the agenda in order;
- `remove` finds every scheduled event;
- every call whose assertions hold returns, follows the `nextBin` of top events only, and does
  not turn back the clock. -/
theorem refines_priorityQueue (calls : List Call) (q : EventQueue)
    (hrun : run step new calls = some q) :
    ∃ (a : Agenda Ptr Key) (bins : List Bin),
      Rep q.heap q.head bins ∧ (∀ p, p ∈ members bins ↔ q.Scheduled p) ∧
      Agenda.Path [] (trace new calls) a ∧ entries bins = a.sorted ∧
      (∀ p, q.Scheduled p → ∃ r, remove p q = .ok r) ∧
      (∀ c, Pre q c → ∃ q', call q c = .ok q') ∧
      ∀ c q', step q c = some q' → ∃ a' bins', Moves q a bins c q' a' bins' := by
  obtain ⟨a, bins, hpath, hholds⟩ := run_moves (show Holds new [] [] from ⟨inv_new, rfl⟩) hrun
  refine ⟨a, bins, hholds.inv.rep, fun p => hholds.inv.scheduled p (by simp), hpath, hholds.sorted,
    fun p hp => ?_, fun c hpre => ?_, fun c q' hstep => step_moves hholds hstep⟩
  · obtain ⟨_, q', hremove, _⟩ := remove_inv hholds.inv hp
    exact ⟨_, hremove⟩
  · obtain ⟨q', hcall, _⟩ := call_of_returns (code_moves hholds hpre)
    exact ⟨q', hcall⟩

/-- Two events of the same time, and a handler that schedules its own event again and takes the
other one out. -/
theorem refines_priorityQueue_handler :
    ∃ (q : EventQueue) (a : Agenda Ptr Key),
      run step new [.construct 0 0 0, .construct 1 0 0, .schedule 0 10, .schedule 1 10, .serviceOne,
        .schedule 1 20, .deschedule 0, .endService] = some q ∧
      q.head = some 1 ∧
      Agenda.Path [] [.put 0 (toLex (10, 0)), .put 1 (toLex (10, 0)), .serve 1,
        .put 1 (toLex (20, 0)), .drop 0] a := by
  obtain ⟨q, hrun, hhead⟩ : ∃ q ∈ run step new [.construct 0 0 0, .construct 1 0 0, .schedule 0 10,
      .schedule 1 10, .serviceOne, .schedule 1 20, .deschedule 0, .endService],
      q.head = some 1 := by
    decide
  obtain ⟨a, _, _, _, hpath, _⟩ := refines_priorityQueue _ q hrun
  exact ⟨q, a, hrun, hhead, hpath⟩

end EventQueue

end Gem5.Sim
