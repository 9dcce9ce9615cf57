import Gem5.Proofs.Sim.EventQueueRun

/-!
# `Gem5.Proofs.Sim.Checkpoint`: events in a checkpoint

`unserialize` clears `Scheduled` for an event that was scheduled and not squashed when it was
saved, and `checkpointReschedule` inserts the events that have `Scheduled` set. So the events
that should come back are the ones that do not, and an event that was scheduled and squashed is
inserted although it should not be (`scheduled_restoredFlags`).

`keepsSchedule_iff` says when a checkpoint keeps the schedule: when no saved event was
scheduled. The flags word must also be one that can be read back, which it is for every event
that was constructed.
-/

namespace Gem5.Sim

open Function List Flags Option
open Event (serialize data)

open Gem5.Lib

namespace EventQueue

/-- The flags of an event after `unserialize`. -/
def restoredFlags (f : Flags) : Flags :=
  let flags := f.set Flags.initialized
  if flags.isSet Flags.scheduled && !flags.isSet Flags.squashed then
    flags.clear (Flags.squashed ||| Flags.scheduled)
  else flags

/-- The object `o` after the saved state of `e` was read into it. -/
def restoredInto (o e : Event) : Event :=
  { o with when := e.when, priority := e.priority, flags := restoredFlags e.flags }

/-- Only events that were scheduled and squashed keep their `Scheduled` flag. -/
theorem scheduled_restoredFlags (f : Flags) : (restoredFlags f).isSet Flags.scheduled
      = (f.isSet Flags.scheduled && f.isSet Flags.squashed) := by
  have hscheduled : (f.set Flags.initialized).isSet Flags.scheduled = f.isSet Flags.scheduled := by
    rw [Flags.isSet_scheduled, Flags.isSet_scheduled, Flags.set, BitVec.getLsbD_or]
    exact Bool.or_false _
  have hsquashed : (f.set Flags.initialized).isSet Flags.squashed = f.isSet Flags.squashed := by
    rw [Flags.isSet_squashed, Flags.isSet_squashed, Flags.set, BitVec.getLsbD_or]
    exact Bool.or_false _
  unfold restoredFlags
  dsimp only
  rw [hscheduled, hsquashed]
  split
  · rename_i h
    rw [Bool.and_eq_true, Bool.not_eq_true'] at h
    rw [h.2, Bool.and_false, Flags.isSet_scheduled, Flags.clear, BitVec.getLsbD_and]
    exact Bool.and_false _
  · rename_i h
    rw [hscheduled]
    cases hs : f.isSet Flags.scheduled with
    | false => rfl
    | true =>
      cases hq : f.isSet Flags.squashed with
      | true => rfl
      | false => simp [hs, hq] at h

/-- An event object as its constructor leaves it. -/
def Fresh (o : Event) : Prop :=
  ∃ priority f, f.noneSet (~~~Flags.publicWrite) = true ∧ o = Event.new priority f

variable {o : Event} {bins : List Bin} {q : EventQueue}

theorem Fresh.scheduled (h : Fresh o) : o.scheduled = false := by
  obtain ⟨priority, f, hf, rfl⟩ := h
  show (initialized ||| f).isSet scheduled = false
  rw [isSet_scheduled, BitVec.getLsbD_or, getLsbD_of_noneSet hf]
  rfl

/-- A fresh event passes the check of `initialized`. -/
theorem Fresh.initialized (h : Fresh o) : o.initialized = true := by
  obtain ⟨priority, f, hf, rfl⟩ := h
  have hzero : f &&& ~~~publicWrite = 0 := by simpa [noneSet] using hf
  -- the public flags lie outside of the mask
  have hmask : f &&& initMask = 0 := by
    rw [show initMask = ~~~publicWrite &&& initMask from rfl, ← BitVec.and_assoc, hzero]
    exact BitVec.zero_and
  have h : (initialized ||| f) &&& initMask = initialized := by
    rw [BitVec.and_comm, BitVec.and_or_distrib_left, BitVec.and_comm initMask f, hmask]
    rfl
  show ((initialized ||| f) &&& initMask == initialized) = true
  rw [h]
  rfl

section
variable {q : EventQueue} {p : Ptr} {o e : Event} {Q : Unit → EventQueue → Prop}

/-- `unserialize` fills a fresh object. -/
theorem unserialize_spec (ho : q.heap p = some o) (hs : o.scheduled = false)
    (hinit : o.initialized = true) (hflags : 0 ≤ e.flags.toInt) :
    Returns (unserialize p e.serialize) q Q ↔ Q ()
      { q with heap := Function.update q.heap p (some (restoredInto o e)) } := by
  have hself : Function.update q.heap p (some { o with when := e.when, priority := e.priority }) p
        = some { o with when := e.when, priority := e.priority } := update_self _ _ _
  unfold unserialize serialize
  rw [returns_bind, returns_deref ho, returns_bind, returns_assert, hs, returns_bind,
    returns_update ho, if_neg (not_lt.mpr hflags), returns_bind, returns_deref hself, returns_bind,
    returns_assert, returns_update hself]
  rw [update_idem, BitVec.ofInt_toInt]
  exact ⟨fun h => h.2.2, fun h => ⟨rfl, hinit, h⟩⟩

theorem flags_nonneg_of_unserialize (h : Returns (unserialize p e.serialize) q Q) :
    0 ≤ e.flags.toInt := by
  by_contra hneg
  unfold unserialize serialize at h
  rw [returns_bind, returns_deref_iff] at h
  obtain ⟨o, ho, h⟩ := h
  rw [returns_bind, returns_assert, returns_bind, returns_update ho, if_pos (not_le.mp hneg)] at h
  exact absurd h.2 (by simp)

/-- `checkpointReschedule` inserts the events with the `Scheduled` flag. -/
theorem checkpointReschedule_spec {bins : List Bin} (hrep : Rep q.heap q.head bins)
    (he : q.heap p = some e) (hp : p ∉ members bins) (hlen : bins.length ≤ q.addresses) :
    Returns (checkpointReschedule p) q fun _ q' =>
      Rep q'.heap q'.head (if e.scheduled then place e.key p bins else bins) ∧
        Relinked (tops bins) q q' := by
  unfold checkpointReschedule
  rw [returns_bind, returns_deref he]
  show Returns (if e.scheduled = true then _ else _) _ _
  cases e.scheduled with
  | true => exact insert_spec hrep he hp hlen
  | false =>
    show Returns (pure ()) _ _
    rw [returns_pure]
    exact ⟨hrep, Relinked.refl _ q⟩

end

/-- What an event object holds after its saved state was read into it. -/
def restoredData (e : Event) : Event :=
  { nextBin := none, nextInBin := none, when := e.when, priority := e.priority
    flags := restoredFlags e.flags, queue := false }

/-- The state after the first `saved.length` events were read. The event objects from there on
are still fresh. -/
structure Restored (saved : List Event) (objects : List Event) (q : EventQueue)
    (bins : List Bin) : Prop where
  rep : Rep q.heap q.head bins
  members : ∀ p, p ∈ members bins ↔ ∃ e, saved[p]? = some e ∧ e.scheduled = true ∧
    e.squashed = true
  done : ∀ p e, saved[p]? = some e → (q.heap p).map Event.data = some (restoredData e)
  todo : ∀ p, saved.length ≤ p → (q.heap p).map Event.data = (objects[p]?).map Event.data
  addresses : q.addresses = objects.length

variable {objects saved : List Event}

/-- A restored queue has no more bins than events. -/
theorem Restored.length_le (h : Restored saved objects q bins)
    (hlen : saved.length ≤ objects.length) : bins.length ≤ q.addresses := by
  have hsub : Sim.members bins ⊆ List.range objects.length := fun p hp => by
    obtain ⟨e, he, _⟩ := (h.members p).mp hp
    have hlt := (List.getElem?_eq_some_iff.mp he).1
    exact List.mem_range.mpr (by omega)
  have hle := (List.subperm_of_subset h.rep.nodup hsub).length_le
  rw [List.length_range] at hle
  rw [h.addresses]
  exact Nat.le_trans (length_le_members bins) hle

/-- An address below the number of saved events, the one behind them, or a later one. -/
theorem getElem?_concat_cases (saved : List Event) (e : Event) (p : Ptr) :
    (saved ++ [e])[p]? = if p = saved.length then some e else saved[p]? := by
  by_cases hp : p = saved.length
  · rw [if_pos hp, hp, getElem?_concat_length]
  · rw [if_neg hp]
    by_cases hlt : p < saved.length
    · rw [getElem?_append_left hlt]
    · have hge : saved.length ≤ p := Nat.le_of_not_lt hlt
      have hgt : saved.length + 1 ≤ p := Nat.lt_of_le_of_ne hge (Ne.symm hp)
      rw [getElem?_eq_none hge, getElem?_eq_none]
      rwa [length_append, length_singleton]

/-- One event is read from the checkpoint. -/
theorem restored_step {e : Event} (h : Restored saved objects q bins)
    (hfresh : ∀ o ∈ objects, Fresh o) (hlen : saved.length < objects.length)
    (hflags : 0 ≤ e.flags.toInt) :
    Returns (unserialize saved.length e.serialize >>= fun _ => checkpointReschedule saved.length) q
      fun _ q' => ∃ bins', Restored (saved ++ [e]) objects q' bins' := by
  have hobject := h.todo saved.length (Nat.le_refl _)
  rw [getElem?_eq_getElem hlen, map_some, map_eq_some_iff] at hobject
  obtain ⟨o, ho, hdata⟩ := hobject
  have hobj := hfresh _ (getElem_mem hlen)
  obtain ⟨_, _, hf, hqueue⟩ := Event.fields_of_data hdata
  have hs : o.scheduled = false := by
    rw [Event.scheduled, hf]
    exact hobj.scheduled
  have hinit : o.initialized = true := by
    rw [Event.initialized, hf]
    exact hobj.initialized
  have hqueue' : o.queue = false := by
    obtain ⟨_, _, _, heq⟩ := hobj
    rw [hqueue, heq]
    rfl
  have hp : saved.length ∉ members bins := fun hmem => by
    obtain ⟨e', he', _⟩ := (h.members _).mp hmem
    rw [getElem?_eq_none (Nat.le_refl _)] at he'
    cases he'
  rw [returns_bind, unserialize_spec ho hs hinit hflags]
  have hother : ∀ r, r ≠ saved.length →
      Function.update q.heap saved.length (some (restoredInto o e)) r = q.heap r :=
    fun r hr => update_of_ne hr _ _
  have hspec := checkpointReschedule_spec
    (q := { q with heap := Function.update q.heap saved.length (some (restoredInto o e)) })
    (h.rep.congr fun r hr => hother r fun heq => hp (heq ▸ hr)) (update_self _ _ _) hp
    (h.length_le (by omega))
  refine hspec.mono ?_
  rintro _ q' ⟨hrep, hlink⟩
  have hscheduled : (restoredInto o e).scheduled = (e.scheduled && e.squashed) :=
    scheduled_restoredFlags e.flags
  rw [hscheduled] at hrep
  refine ⟨_, hrep, fun r => ?_, fun r e' he' => ?_, fun r hr => ?_, hlink.addresses.trans h.addresses⟩
  · -- the new event is in a bin exactly when it was scheduled and squashed
    rw [getElem?_concat_cases]
    cases hsq : e.scheduled && e.squashed with
    | true =>
      rw [Bool.and_eq_true] at hsq
      rw [if_pos rfl, mem_members_place]
      by_cases hr : r = saved.length
      · rw [if_pos hr]
        exact iff_of_true (Or.inl hr) ⟨e, rfl, hsq⟩
      · rw [if_neg hr, h.members r]
        exact or_iff_right hr
    | false =>
      by_cases hr : r = saved.length
      · rw [if_pos hr, hr]
        refine iff_of_false hp ?_
        rintro ⟨e', he', hs', hq'⟩
        cases he'
        rw [hs', hq'] at hsq
        cases hsq
      · rw [if_neg hr]
        exact h.members r
  · rw [getElem?_concat_cases] at he'
    rw [hlink.data r]
    by_cases hr : r = saved.length
    · rw [if_pos hr] at he'
      cases he'
      subst hr
      show (Function.update q.heap saved.length _ saved.length).map data = _
      rw [update_self, map_some, data, restoredInto, restoredData, hqueue']
    · rw [if_neg hr] at he'
      show (Function.update q.heap saved.length _ r).map data = _
      rw [hother r hr]
      exact h.done r e' he'
  · rw [length_append, length_singleton] at hr
    rw [hlink.data r]
    show (Function.update q.heap saved.length _ r).map data = _
    rw [hother r (by omega)]
    exact h.todo r (by omega)

/-- All events are read from the checkpoint. -/
theorem unserializeEvents_spec (hfresh : ∀ o ∈ objects, Fresh o) (rest : List Event) :
    ∀ {saved : List Event} {q : EventQueue} {bins : List Bin},
      Restored saved objects q bins → saved.length + rest.length ≤ objects.length →
      (∀ e ∈ rest, 0 ≤ e.flags.toInt) →
      Returns (unserializeEvents saved.length (rest.map serialize)) q fun _ q' =>
        ∃ bins', Restored (saved ++ rest) objects q' bins' := by
  induction rest with
  | nil =>
    intro saved q bins h _ _
    rw [map_nil, unserializeEvents, returns_pure, append_nil]
    exact ⟨bins, h⟩
  | cons e rest ih =>
    intro saved q bins h hlen hflags
    rw [length_cons] at hlen
    have hstep := restored_step h hfresh (by omega) (hflags e mem_cons_self)
    rw [returns_bind] at hstep
    rw [map_cons, unserializeEvents, returns_bind]
    refine hstep.mono fun _ q₁ hread => ?_
    rw [returns_bind]
    refine hread.mono ?_
    rintro _ q₂ ⟨bins₂, h₂⟩
    have hrest := ih h₂ (by rw [length_append, length_singleton]; omega)
      fun e' he' => hflags e' (mem_cons_of_mem e he')
    rwa [length_append, length_singleton, append_assoc] at hrest

/-- Events that are read back without an error have no sign bit in their flags. -/
theorem flags_nonneg_of_unserializeEvents (es : List Event) :
    ∀ {i : Ptr} {q : EventQueue} {Q : Unit → EventQueue → Prop},
      Returns (unserializeEvents i (es.map serialize)) q Q →
      ∀ e ∈ es, 0 ≤ e.flags.toInt := by
  induction es with
  | nil =>
    intro i q Q _ e he
    cases he
  | cons e es ih =>
    intro i q Q h e' he'
    rw [map_cons, unserializeEvents, returns_bind] at h
    rcases mem_cons.mp he' with rfl | he'
    · exact flags_nonneg_of_unserialize h
    · obtain ⟨_, q₁, _, h₁⟩ := h
      rw [returns_bind] at h₁
      obtain ⟨_, q₂, _, h₂⟩ := h₁
      exact ih h₂ e' he'

/-- The queue after a restore holds exactly the events that were scheduled and not squashed when
they were saved, with `Scheduled` set and with their time and priority. -/
def KeepsSchedule (saved objects : List Event) : Prop :=
  ∃ q bins, unserializeEvents 0 (saved.map Event.serialize) (fresh objects) = .ok ((), q) ∧
    Rep q.heap q.head bins ∧
    (∀ p, p ∈ members bins ↔ ∃ e, saved[p]? = some e ∧ e.scheduled = true ∧ e.squashed = false) ∧
    ∀ p ∈ members bins, ∀ e, saved[p]? = some e → ∃ e', q.heap p = some e' ∧
      e'.scheduled = true ∧ e'.when = e.when ∧ e'.priority = e.priority

theorem restored_nil (objects : List Event) : Restored [] objects (fresh objects) [] where
  rep := rep_nil _
  members p := by simp
  done p e he := by simp at he
  todo p _ := rfl
  addresses := rfl

/-- Reading a checkpoint into fresh objects. -/
theorem restore_spec (hfresh : ∀ o ∈ objects, Fresh o) (hlen : saved.length = objects.length)
    (hflags : ∀ e ∈ saved, 0 ≤ e.flags.toInt) :
    Returns (unserializeEvents 0 (saved.map serialize)) (fresh objects) fun _ q =>
      ∃ bins, Restored saved objects q bins :=
  unserializeEvents_spec hfresh saved (restored_nil objects) (by rw [length_nil]; omega) hflags

/-- A checkpoint that keeps the schedule had no scheduled event. -/
theorem not_scheduled_of_keepsSchedule (hfresh : ∀ o ∈ objects, Fresh o)
    (hlen : saved.length = objects.length) (h : KeepsSchedule saved objects) :
    ∀ e ∈ saved, e.scheduled = false ∧ 0 ≤ e.flags.toInt := by
  obtain ⟨q, bins, hrun, hrep, hmembers, _⟩ := h
  have hflags := flags_nonneg_of_unserializeEvents saved (Q := fun _ _ => True)
    ⟨(), q, hrun, trivial⟩
  obtain ⟨bins', hrestored⟩ := (restore_spec hfresh hlen hflags).of_eq hrun
  intro e he
  refine ⟨?_, hflags e he⟩
  obtain ⟨p, hp⟩ := mem_iff_getElem?.mp he
  -- the bins are those of the walk, whose events were squashed
  have hsame := hrep.mem_members_iff hrestored.rep p
  rw [hmembers p, hrestored.members p, hp] at hsame
  cases hs : e.scheduled with
  | false => rfl
  | true =>
    cases hq : e.squashed with
    | false =>
      obtain ⟨e', he', _, hq'⟩ := hsame.mp ⟨e, rfl, hs, hq⟩
      cases he'
      rw [hq] at hq'
      cases hq'
    | true =>
      obtain ⟨e', he', _, hq'⟩ := hsame.mpr ⟨e, rfl, hs, hq⟩
      cases he'
      rw [hq] at hq'
      cases hq'

/-- A checkpoint keeps the schedule exactly when it has nothing to keep: no saved event was
scheduled. The flags are saved as a `short` and read as an `unsigned short`, so they must not be
negative. -/
theorem keepsSchedule_iff (saved objects : List Event) (hfresh : ∀ o ∈ objects, Fresh o)
    (hlen : saved.length = objects.length) :
    KeepsSchedule saved objects ↔ ∀ e ∈ saved, e.scheduled = false ∧ 0 ≤ e.flags.toInt := by
  refine ⟨not_scheduled_of_keepsSchedule hfresh hlen, fun h => ?_⟩
  obtain ⟨_, q, hrun, bins, hrestored⟩ := restore_spec hfresh hlen fun e he => (h e he).2
  have hnone : ∀ (p : Ptr) (e : Event), saved[p]? = some e → e.scheduled = true → False := by
    intro p e he hs
    rw [(h e (mem_of_getElem? he)).1] at hs
    cases hs
  refine ⟨q, bins, hrun, hrestored.rep, fun p => ?_, fun p hp => ?_⟩
  · rw [hrestored.members p]
    constructor
    all_goals
      rintro ⟨e, he, hs, _⟩
      exact (hnone p e he hs).elim
  · obtain ⟨e, he, hs, _⟩ := (hrestored.members p).mp hp
    exact (hnone p e he hs).elim

/-- Events that are not scheduled are restored as they were: one that was served at tick 5, one that
was squashed without being scheduled, and an exit event that was descheduled. -/
theorem keepsSchedule_iff_idle :
    KeepsSchedule
      [{ Event.new 0 0 with when := 5, queue := true }, { Event.new 1 0 with flags := 0x7a41 },
        { Event.new (-3) 0x10 with when := 9, queue := true }]
      [Event.new 0 0, Event.new 1 0, Event.new (-3) 0x10] := by
  apply (keepsSchedule_iff _ _ ?_ (by rfl)).mpr
  · decide
  · simp only [forall_mem_cons, not_mem_nil, false_implies, implies_true, and_true]
    exact ⟨⟨0, 0, rfl, rfl⟩, ⟨1, 0, rfl, rfl⟩, ⟨-3, 0x10, rfl, rfl⟩⟩

/-- An event that was scheduled for tick 5 is not in the queue after the restore. -/
theorem scheduled_event_lost :
    ¬ KeepsSchedule
      [{ nextBin := none, nextInBin := none, when := 5, priority := 0, flags := 0x7a42
         queue := true }]
      [Event.new 0 0] := by
  intro h
  refine absurd (not_scheduled_of_keepsSchedule ?_ ?_ h _ (mem_singleton.mpr rfl)).1 (by decide)
  · exact fun o ho => ⟨0, 0, rfl, mem_singleton.mp ho⟩
  · rfl

end EventQueue

end Gem5.Sim
