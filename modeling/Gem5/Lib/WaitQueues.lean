import Mathlib.Data.List.Nodup

/-!
# `Gem5.Lib.WaitQueues`: queues of waiters

A family of queues, one per key. Waiters join a queue at its end. They leave it from the front,
or by a test, or move from one queue to the end of another. Each waiter has a name.

`Once` says that no name waits twice, in one queue or in two. Every operation keeps it, and
for each there is a lemma that says which names wait afterwards.
-/

namespace Gem5.Lib

open Function List

/-- One queue per key. -/
abbrev WaitQueues (κ ω : Type) := κ → List ω

namespace WaitQueues

variable {κ ω τ : Type} [DecidableEq κ]

/-! ### The operations -/

/-- Waiters join the queue of `k` at its end. -/
def join (qs : WaitQueues κ ω) (k : κ) (ws : List ω) : WaitQueues κ ω :=
  Function.update qs k (qs k ++ ws)

/-- The first `n` waiters leave the queue of `k`. -/
def leave (qs : WaitQueues κ ω) (k : κ) (n : Nat) : WaitQueues κ ω :=
  Function.update qs k ((qs k).drop n)

/-- The waiters that pass a test leave the queue of `k`. -/
def leaveIf (qs : WaitQueues κ ω) (k : κ) (test : ω → Bool) : WaitQueues κ ω :=
  Function.update qs k ((qs k).filter fun w => !test w)

/-- The first `n` waiters leave the queue of `k`, and the next `m` move to the end of the queue
of `k'`, which may be the same one. -/
def move (qs : WaitQueues κ ω) (k : κ) (n m : Nat) (k' : κ) : WaitQueues κ ω :=
  (qs.leave k (n + m)).join k' (((qs k).drop n).take m)

section
variable {qs : WaitQueues κ ω} {k : κ}

variable (h : qs k = [])
include h

theorem leave_of_nil (n : Nat) : qs.leave k n = qs := by
  rw [leave, h, drop_nil, ← h, update_eq_self]

theorem leaveIf_of_nil (test : ω → Bool) : qs.leaveIf k test = qs := by
  rw [leaveIf, h, filter_nil, ← h, update_eq_self]

theorem move_of_nil (n m : Nat) (k' : κ) : qs.move k n m k' = qs := by
  rw [move, leave_of_nil h, h, drop_nil, take_nil, join, append_nil, update_eq_self]

end

/-! ### Who waits -/

/-- Someone called `t` waits in some queue. -/
def Waits (name : ω → τ) (qs : WaitQueues κ ω) (t : τ) : Prop :=
  ∃ k, t ∈ (qs k).map name

/-- No name waits twice. -/
structure Once (name : ω → τ) (qs : WaitQueues κ ω) : Prop where
  nodup : ∀ k, ((qs k).map name).Nodup
  key_eq : ∀ t k k', t ∈ (qs k).map name → t ∈ (qs k').map name → k = k'

variable {name : ω → τ} {qs : WaitQueues κ ω} {k : κ} {t : τ}

omit [DecidableEq κ] in
theorem once_empty : Once name (fun _ => [] : WaitQueues κ ω) :=
  ⟨fun _ => nodup_nil, fun _ _ _ h => by simp at h⟩

variable {ws : List ω}

/-- Replacing the queue of `k` by a part of it keeps `Once`. -/
theorem Once.update (h : Once name qs) (hsub : ws.Sublist (qs k)) :
    Once name (Function.update qs k ws) := by
  have hle (k' : κ) : (Function.update qs k ws k').Sublist (qs k') := by
    by_cases hk : k' = k
    · subst hk
      simpa using hsub
    · simp [update_of_ne hk]
  refine ⟨fun k' => (h.nodup k').sublist ((hle k').map name), fun t k₁ k₂ h₁ h₂ => ?_⟩
  exact h.key_eq t k₁ k₂ (((hle k₁).map name).subset h₁) (((hle k₂).map name).subset h₂)

/-- Those who join wait, and the others still do. -/
theorem waits_join : Waits name (qs.join k ws) t ↔ Waits name qs t ∨ t ∈ ws.map name := by
  constructor
  · rintro ⟨k', hk'⟩
    by_cases hk : k' = k
    · subst hk
      rw [join, update_self, map_append, mem_append] at hk'
      exact hk'.imp_left fun h => ⟨k', h⟩
    · rw [join, update_of_ne hk] at hk'
      exact .inl ⟨k', hk'⟩
  · rintro (⟨k', hk'⟩ | ht)
    · refine ⟨k', ?_⟩
      by_cases hk : k' = k
      · subst hk
        rw [join, update_self, map_append]
        exact mem_append_left _ hk'
      · rwa [join, update_of_ne hk]
    · refine ⟨k, ?_⟩
      rw [join, update_self, map_append]
      exact mem_append_right _ ht

section
variable (h : Once name qs)
include h

/-- Names that do not wait may join. -/
theorem Once.join (hnodup : (ws.map name).Nodup)
    (hnew : ∀ t ∈ ws.map name, ¬ Waits name qs t) : Once name (qs.join k ws) := by
  have hmem {t : τ} {k' : κ} (ht : t ∈ ((qs.join k ws) k').map name) :
      t ∈ (qs k').map name ∨ (k' = k ∧ t ∈ ws.map name) := by
    by_cases hk : k' = k
    · subst hk
      rw [WaitQueues.join, update_self, map_append, mem_append] at ht
      exact ht.imp_right fun h => ⟨rfl, h⟩
    · rw [WaitQueues.join, update_of_ne hk] at ht
      exact .inl ht
  refine ⟨fun k' => ?_, fun t k₁ k₂ h₁ h₂ => ?_⟩
  · by_cases hk : k' = k
    · subst hk
      rw [WaitQueues.join, update_self, map_append]
      exact (h.nodup k').append hnodup fun t ht htw => hnew t htw ⟨k', ht⟩
    · rw [WaitQueues.join, update_of_ne hk]
      exact h.nodup k'
  · obtain hold₁ | ⟨rfl, hnew₁⟩ := hmem h₁ <;> obtain hold₂ | ⟨hk₂, hnew₂⟩ := hmem h₂
    · exact h.key_eq t k₁ k₂ hold₁ hold₂
    · exact absurd ⟨k₁, hold₁⟩ (hnew t hnew₂)
    · exact absurd ⟨k₂, hold₂⟩ (hnew t hnew₁)
    · exact hk₂.symm

/-- Those who leave the queue of `k` no longer wait, and everyone else does. -/
theorem Once.waits_update {gone stay : List ω} (hperm : (qs k).Perm (gone ++ stay)) :
    Waits name (Function.update qs k stay) t ↔ Waits name qs t ∧ t ∉ gone.map name := by
  have hnames : ((qs k).map name).Perm (gone.map name ++ stay.map name) := by
    simpa using hperm.map name
  have hdisjoint := (nodup_append'.mp (hnames.nodup_iff.mp (h.nodup k))).2.2
  constructor
  · rintro ⟨k', hk'⟩
    by_cases hk : k' = k
    · subst hk
      rw [update_self] at hk'
      exact ⟨⟨k', hnames.mem_iff.mpr (mem_append_right _ hk')⟩, fun hgone => hdisjoint hgone hk'⟩
    · rw [update_of_ne hk] at hk'
      refine ⟨⟨k', hk'⟩, fun hgone => hk ?_⟩
      exact h.key_eq t k' k hk' (hnames.mem_iff.mpr (mem_append_left _ hgone))
  · rintro ⟨⟨k', hk'⟩, hstay⟩
    refine ⟨k', ?_⟩
    by_cases hk : k' = k
    · subst hk
      rw [update_self]
      exact (mem_append.mp (hnames.mem_iff.mp hk')).resolve_left hstay
    · rwa [update_of_ne hk]

theorem Once.leave (n : Nat) : Once name (qs.leave k n) := h.update (drop_sublist n (qs k))

theorem Once.waits_leave (n : Nat) :
    Waits name (qs.leave k n) t ↔ Waits name qs t ∧ t ∉ ((qs k).take n).map name :=
  h.waits_update (by rw [take_append_drop])

end

omit [DecidableEq κ] in
/-- The two parts of the front that `move` takes have no name in common. -/
theorem Once.take_add (h : Once name qs) (n m : Nat) : ((qs k).take (n + m)).map name =
        ((qs k).take n).map name ++ (((qs k).drop n).take m).map name ∧
      (((qs k).take n).map name ++ (((qs k).drop n).take m).map name).Nodup := by
  have heq : ((qs k).take (n + m)).map name =
      ((qs k).take n).map name ++ (((qs k).drop n).take m).map name := by
    rw [← List.map_append, ← List.take_add]
  exact ⟨heq, heq ▸ (h.nodup k).sublist ((List.take_sublist (n + m) (qs k)).map name)⟩

theorem Once.move (h : Once name qs) (n m : Nat) (k' : κ) : Once name (qs.move k n m k') := by
  obtain ⟨htake, hnodup⟩ := h.take_add n m
  refine (h.leave (n + m)).join (nodup_append'.mp hnodup).2.1 fun t ht hwaits => ?_
  refine ((h.waits_leave (n + m)).mp hwaits).2 ?_
  rw [htake]
  exact mem_append_right _ ht

/-- Only the first `n` waiters of the queue stop waiting. -/
theorem Once.waits_move (h : Once name qs) (n m : Nat) (k' : κ) :
    Waits name (qs.move k n m k') t ↔ Waits name qs t ∧ t ∉ ((qs k).take n).map name := by
  obtain ⟨htake, hnodup⟩ := h.take_add n m
  have hdisjoint := (nodup_append'.mp hnodup).2.2
  rw [WaitQueues.move, waits_join, h.waits_leave (n + m), htake, mem_append]
  constructor
  · rintro (⟨hwaits, hnot⟩ | hmoved)
    · exact ⟨hwaits, fun hn => hnot (.inl hn)⟩
    · refine ⟨⟨k, ?_⟩, fun hn => hdisjoint hn hmoved⟩
      exact (((take_sublist m _).trans (drop_sublist n (qs k))).map name).subset hmoved
  · rintro ⟨hwaits, hnot⟩
    by_cases hmoved : t ∈ (((qs k).drop n).take m).map name
    · exact .inr hmoved
    · exact .inl ⟨hwaits, fun h => h.elim hnot hmoved⟩

end WaitQueues

end Gem5.Lib
