import Gem5.Base.CircularQueue
import Gem5.Lib.Ring
import Gem5.Lib.Run

/-!
# `Gem5.Proofs.Base.CircularQueue`: the queue refines a bounded deque

`Deque` is the sequence that the queue stands for. An element is paired with the index at which it
was pushed, and with its value unless `advance_tail` made it. `Represents` relates the two, and
`Represents.step` is the simulation of one call. The indices are 64 bits wide, so the simulation
ends when the index past the last element leaves that range (`validity_lost_on_overflow`).
-/

namespace Gem5.Base.CircularQueue

open Function List

/-- A bounded deque. `next` is the index of the next element. -/
structure Deque (α : Type) where
  capacity : Nat
  next : Nat
  entries : List (Nat × Option α)
  deriving DecidableEq

namespace Deque

variable {α : Type}

/-- The deque without elements. Indices start at 1. -/
def new (capacity : Nat) : Deque α := { capacity := capacity, next := 1, entries := [] }

/-- Append an element. A full deque drops its oldest one. -/
def push (v : Option α) (d : Deque α) : Deque α :=
  { d with
    next := d.next + 1
    entries :=
      (if d.entries.length = d.capacity then d.entries.tail else d.entries) ++ [(d.next, v)] }

/-- What each call means for the deque. -/
def step (d : Deque α) : Event α → Option (Deque α)
  | .pushBack val => some (d.push (some val))
  | .popFront numElem =>
    if numElem ≤ d.entries.length then some { d with entries := d.entries.drop numElem } else none
  | .popBack =>
    if d.entries ≠ [] then some { d with next := d.next - 1, entries := d.entries.dropLast }
    else none
  | .advanceTail len => some ((push none)^[len] d)
  | .flush => some (new d.capacity)
  | .write idx val =>
    if idx ∈ d.entries.map Prod.fst then
      some { d with entries := d.entries.map fun e => if e.1 = idx then (idx, some val) else e }
    else none

/-- An element with a value is an old one, or the one that was pushed. -/
theorem mem_push {v w : Option α} {d : Deque α} {idx : Nat} (h : (idx, w) ∈ (d.push v).entries) :
    (idx, w) ∈ d.entries ∨ idx = d.next ∧ v = w := by
  obtain hold | hnew := mem_append.mp h
  · split at hold
    · exact .inl (mem_of_mem_tail hold)
    · exact .inl hold
  · obtain ⟨rfl, rfl⟩ := Prod.mk.inj (mem_singleton.mp hnew)
    exact .inr ⟨rfl, rfl⟩

end Deque

variable {α : Type} {q : CircularQueue α} {d : Deque α}

/-- The queue holds the elements of the deque at their indices. -/
structure Represents (q : CircularQueue α) (d : Deque α) : Prop where
  capacity : d.capacity = q.capacity
  pos : 0 < q.capacity
  next : d.next = q.head + q.size
  inRange : q.head + q.size < 2 ^ 64
  size_le : q.size ≤ q.capacity
  index : d.entries.map Prod.fst = range' q.head q.size
  value : ∀ idx v, (idx, some v) ∈ d.entries → q.get idx = v

/-- The public view of the queue is that of the deque. -/
structure Agrees (q : CircularQueue α) (d : Deque α) : Prop where
  bounded : d.entries.length ≤ q.capacity
  size : q.size = d.entries.length
  empty : q.empty = d.entries.isEmpty
  full : q.full = decide (d.entries.length = q.capacity)
  indices : d.entries.map Prod.fst = range' q.beginIdx d.entries.length
  endIdx : q.endIdx = q.beginIdx + d.entries.length
  valid : ∀ idx, q.isValidIdx idx = true ↔ idx ∈ d.entries.map Prod.fst
  value : ∀ idx v, (idx, some v) ∈ d.entries → q.get idx = v

/-- The call keeps the index past the last element within 64 bits. -/
def NoOverflow (q : CircularQueue α) : Event α → Prop
  | .pushBack _ => q.head + q.size + 1 < 2 ^ 64
  | .advanceTail len => q.head + q.size + len < 2 ^ 64
  | _ => True

instance (q : CircularQueue α) : ∀ e : Event α, Decidable (NoOverflow q e)
  | .pushBack _ | .advanceTail _ => inferInstanceAs (Decidable (_ < _))
  | .popFront _ | .popBack | .flush | .write _ _ => isTrue trivial

namespace Represents

section
variable (h : Represents q d)
include h

theorem length_eq : d.entries.length = q.size := by
  rw [← length_map (f := Prod.fst), h.index, length_range']

/-- An index is valid if and only if an element of the deque has it. -/
theorem valid_iff (idx : Nat) :
    q.isValidIdx idx = true ↔ idx ∈ d.entries.map Prod.fst := by
  rw [h.index, mem_range'_1, isValidIdx, Nat.mod_eq_of_lt h.inRange]
  simp

/-- The queue and the deque have the same view. -/
theorem agrees : Agrees q d where
  bounded := h.length_eq.trans_le h.size_le
  size := h.length_eq.symm
  empty := by
    rw [Bool.eq_iff_iff, isEmpty_iff_length_eq_zero, h.length_eq]
    simp [CircularQueue.empty]
  full := by rw [h.length_eq]; rfl
  indices := by rw [h.length_eq]; exact h.index
  endIdx := by
    have := h.inRange
    simp only [CircularQueue.endIdx, CircularQueue.tail, beginIdx, h.length_eq]
    omega
  valid := h.valid_iff
  value := h.value

/-- One more index at the end. A full queue moves its head past the oldest element. -/
theorem advance_index (hlt : q.head + q.size + 1 < 2 ^ 64) :
    ∃ head size, q.advanceTail = { q with head := head, size := size } ∧
      head + size = q.head + q.size + 1 ∧ size ≤ q.capacity ∧
      ∀ v, (d.push v).entries.map Prod.fst = range' head size := by
  have hpos := h.pos
  have hle := h.size_le
  by_cases hfull : q.size = q.capacity
  · obtain ⟨n, hn⟩ := Nat.exists_eq_succ_of_ne_zero (hfull ▸ hpos).ne'
    refine ⟨q.head + 1, q.size, ?_, by omega, hle, fun v => ?_⟩
    · rw [CircularQueue.advanceTail, full, beq_iff_eq.mpr hfull, if_pos rfl,
        Nat.mod_eq_of_lt (by omega)]
    · rw [Deque.push, if_pos (h.length_eq.trans (hfull.trans h.capacity.symm)), map_append, map_tail,
        h.index, tail_range', h.next, hn, range'_concat]
      simp [Nat.add_right_comm, Nat.add_assoc]
  · refine ⟨q.head, q.size + 1, ?_, by omega, by omega, fun v => ?_⟩
    · rw [CircularQueue.advanceTail, full, beq_eq_false_iff_ne.mpr hfull]
      rfl
    · simp [Deque.push, h.length_eq, h.capacity, hfull, h.index, h.next, range'_concat]

/-- `advance_tail`: the new element keeps what the storage holds. -/
theorem advanceTail (hlt : q.head + q.size + 1 < 2 ^ 64) :
    Represents q.advanceTail (d.push none) := by
  obtain ⟨head, size, hq, hend, hle, hindex⟩ := h.advance_index hlt
  rw [hq]
  refine ⟨h.capacity, h.pos, ?_, hend.trans_lt hlt, hle, hindex none, fun idx v hmem => ?_⟩
  · exact (congrArg (· + 1) h.next).trans hend.symm
  · obtain hold | ⟨-, hnew⟩ := Deque.mem_push hmem
    · exact h.value idx v hold
    · cases hnew

/-- Several advances, one after the other. -/
theorem iterate_advanceTail {n : Nat} (hlt : q.head + q.size + n < 2 ^ 64) :
    Represents (CircularQueue.advanceTail^[n] q) ((Deque.push none)^[n] d) := by
  induction n generalizing q d with
  | zero => exact h
  | succ n ih =>
    have hone := h.advanceTail (by omega)
    have hnext : d.next + 1 = _ := hone.next
    rw [h.next] at hnext
    exact ih hone (by omega)

/-- `push_back`: no element that stays has the slot of the new one. -/
theorem pushBack (hlt : q.head + q.size + 1 < 2 ^ 64) (val : α) :
    Represents (q.pushBack val) (d.push (some val)) := by
  obtain ⟨head, size, hq, hend, hle, hindex⟩ := h.advance_index hlt
  have htail : q.advanceTail.tail = d.next := by
    rw [hq, h.next]
    show (head + size + _) % _ = _
    omega
  rw [CircularQueue.pushBack, htail, hq]
  refine ⟨h.capacity, h.pos, ?_, hend.trans_lt hlt, hle, hindex _, fun idx v hmem => ?_⟩
  · exact (congrArg (· + 1) h.next).trans hend.symm
  show update q.data (d.next % q.capacity) val (idx % q.capacity) = v
  obtain hold | ⟨rfl, hnew⟩ := Deque.mem_push hmem
  · have hi := mem_range'_1.mp (hindex _ ▸ mem_map_of_mem hmem :)
    have hj := mem_range'_1.mp (h.index ▸ mem_map_of_mem hold :)
    have hnext := h.next
    rw [update_of_ne fun hslot => ?_]
    · exact h.value idx v hold
    · have := Lib.eq_of_mod_eq hslot (by omega) (by omega)
      omega
  · rw [update_self]
    exact Option.some.inj hnew

/-- A write changes the value at its index. The slots of the valid indices differ. -/
theorem set {idx : Nat} (hidx : idx ∈ d.entries.map Prod.fst) (val : α) :
    Represents (q.set idx val) { d with
      entries := d.entries.map fun e => if e.1 = idx then (idx, some val) else e } := by
  refine { h with index := ?_, value := ?_ }
  · show _ = range' q.head q.size
    rw [map_map, ← h.index]
    refine map_congr_left fun e _ => ?_
    show (if e.1 = idx then (idx, some val) else e).1 = e.1
    split <;> simp [*]
  · intro i v hmem
    obtain ⟨e, he, heq⟩ := mem_map.mp hmem
    show update q.data (idx % q.capacity) val (i % q.capacity) = v
    split at heq
    · cases heq
      exact update_self _ _ _
    · next hne =>
      subst heq
      rw [update_of_ne ?_]
      · exact h.value i v he
      · intro hslot
        have hi := mem_range'_1.mp (h.index ▸ mem_map_of_mem he :)
        have hw := mem_range'_1.mp (h.index ▸ hidx)
        have hsize := h.size_le
        exact hne (Lib.eq_of_mod_eq hslot (by omega) (by omega))

/-- Elements that stay keep their indices and their values. -/
theorem shrink {next head size : Nat} {entries : List (Nat × Option α)}
    (hnext : next = head + size) (hend : head + size ≤ q.head + q.size) (hsize : size ≤ q.size)
    (hindex : entries.map Prod.fst = range' head size) (hsub : entries ⊆ d.entries) :
    Represents { q with head := head, size := size }
      { d with next := next, entries := entries } :=
  { capacity := h.capacity, pos := h.pos, next := hnext, inRange := hend.trans_lt h.inRange
    size_le := hsize.trans h.size_le, index := hindex
    value := fun idx v hmem => h.value idx v (hsub hmem) }

end

end Represents

/-- `advance_tail(n)` is `n` single advances. -/
theorem advanceTailBy_eq_iterate (h : q.size ≤ q.capacity) (n : Nat) :
    q.advanceTailBy n = CircularQueue.advanceTail^[n] q := by
  induction n generalizing q with
  | zero => rfl
  | succ n ih =>
    rw [iterate_succ_apply, ← ih]
    · simp only [advanceTailBy, CircularQueue.advanceTail, full, beq_iff_eq]
      split_ifs <;> simp only [mk.injEq, true_and, and_true] at * <;> omega
    · simp only [CircularQueue.advanceTail, full, beq_iff_eq]
      split <;> simp only <;> omega

/-- One call on the queue simulates the call on the deque. -/
theorem Represents.step (h : Represents q d) {e : Event α} (hok : NoOverflow q e) :
    Option.Rel Represents (q.step e) (d.step e) := by
  cases e with
  | pushBack val => exact .some (h.pushBack hok val)
  | advanceTail len =>
    show Option.Rel _ (some _) _
    rw [advanceTailBy_eq_iterate h.size_le]
    exact .some (h.iterate_advanceTail hok)
  | flush =>
    exact .some ⟨h.capacity, h.pos, rfl, by show 1 + 0 < _; decide, Nat.zero_le _, rfl, nofun⟩
  | popFront n =>
    simp only [CircularQueue.step, CircularQueue.popFront, Deque.step, h.length_eq]
    split
    · next hn =>
      have hrange := h.inRange
      have hnext := h.next
      rw [Nat.mod_eq_of_lt (by omega)]
      refine .some (h.shrink (by omega) (by omega) (Nat.sub_le _ _) ?_ (drop_subset _ _))
      rw [map_drop, h.index, drop_range', mul_one]
    · exact .none
  | popBack =>
    have hempty : (!q.empty) = true ↔ d.entries ≠ [] := by
      rw [ne_eq, ← length_eq_zero_iff, h.length_eq]
      simp [CircularQueue.empty]
    simp only [CircularQueue.step, CircularQueue.popBack, Deque.step, hempty]
    split
    · next hne =>
      obtain ⟨n, hn⟩ : ∃ n, q.size = n + 1 :=
        Nat.exists_eq_succ_of_ne_zero (h.length_eq ▸ length_eq_zero_iff.not.mpr hne)
      have hnext := h.next
      refine .some (h.shrink (by omega) (by omega) (Nat.sub_le _ _) ?_ (dropLast_subset _))
      rw [map_dropLast, h.index, hn, range'_concat, dropLast_concat]
      rfl
    · exact .none
  | write idx val =>
    simp only [CircularQueue.step, Deque.step, h.valid_iff]
    split
    · next hidx => exact .some (h.set hidx val)
    · exact .none

/-- **Refinement.** In every run whose indices stay within 64 bits, the queue is the bounded deque:
both stop at the same failed assertion, or they reach states that agree, in which
`advance_tail(n)` is `n` single advances. -/
theorem refines_bounded_deque [Inhabited α] {capacity : Nat} (hcap : 0 < capacity)
    {es : List (Event α)} (hes : Lib.RunMeets step NoOverflow (new capacity) es) :
    Option.Rel (fun q d => Agrees q d ∧ ∀ n, q.advanceTailBy n = CircularQueue.advanceTail^[n] q)
      (Lib.run step (new capacity) es) (Lib.run Deque.step (Deque.new capacity) es) := by
  have hstart : Represents (new capacity : CircularQueue α) (Deque.new capacity) :=
    ⟨rfl, hcap, rfl, by show 1 + 0 < _; decide, Nat.zero_le _, rfl, nofun⟩
  exact Lib.run_simulation (fun _ _ _ h hok => h.step hok)
    (fun _ _ h => ⟨h.agrees, advanceTailBy_eq_iterate h.size_le⟩) hstart hes

/-- A full queue drops its oldest element, and its indices go on. -/
theorem refines_bounded_deque_full :
    Option.Rel (fun q d => Agrees q d ∧ ∀ n, q.advanceTailBy n = CircularQueue.advanceTail^[n] q)
      (Lib.run step (new 2) [.pushBack 5, .pushBack 6, .pushBack 7, .popBack])
      (some { capacity := 2, next := 3, entries := [(2, some 6)] }) :=
  refines_bounded_deque (by decide) (by decide)

/-- One advance by `2 ^ 64 - 1` makes the end index 0: the queue is full and no index is valid. -/
theorem validity_lost_on_overflow :
    ∃ q, Lib.run step (new 3 : CircularQueue Nat) [.advanceTail (2 ^ 64 - 1)] = some q ∧
      q.size = 3 ∧ ∀ idx, q.isValidIdx idx = false := by
  refine ⟨_, rfl, rfl, fun idx => ?_⟩
  show (decide (2 ^ 64 - 3 ≤ idx) && decide (idx < 0)) = false
  simp

end Gem5.Base.CircularQueue
