import Gem5.Lib.Run
import Gem5.Lib.WaitQueues
import Gem5.Sim.FutexMap

/-!
# `Gem5.Proofs.Sim.FutexMap`: what the futex calls do to the waiters

`serve` is what a call should do, on one queue per futex. `Consistent` says that a map keeps
the queues: no list is empty, no thread waits twice, and `is_waiting` holds for the threads in
the lists. A call is `Served` when it returns, does what `serve` says and leaves the map
consistent.

`Safe` is when a call is served. `wakeup` has to read the threads it wakes from the removed nodes.
`requeue` does not take the threads it wakes out of `waitingTcs`, it needs a list at the second
address or a waiter to move, and it must not erase a list after an insertion that has rehashed.
-/

namespace Gem5.Sim.FutexMap

open Function List Gem5.Lib Gem5.Lib.WaitQueues

variable {m : FutexMap}

/-! ### The queues of a map -/

/-- The waiters of each futex. -/
def queues (m : FutexMap) : WaitQueues FutexKey WaiterState :=
  fun key => (m.find key).getD []

/-- The bookkeeping of the map is right. -/
structure Consistent (m : FutexMap) : Prop where
  nonempty : ∀ key, m.find key ≠ some []
  once : Once WaiterState.tc m.queues
  waiting : ∀ tc, m.isWaiting tc = true ↔ Waits WaiterState.tc m.queues tc

/-- What a call should do: the queues afterwards and the reply. -/
def serve (qs : WaitQueues FutexKey WaiterState) :
    Call → WaitQueues FutexKey WaiterState × FutexReply
  | .suspend addr tgid tc =>
    (qs.join ⟨addr, tgid⟩ [⟨tc, 0xffffffff⟩], ⟨none, [], [tc]⟩)
  | .suspendBitset addr tgid tc bitmask =>
    (qs.join ⟨addr, tgid⟩ [⟨tc, bitmask⟩], ⟨none, [], [tc]⟩)
  | .wakeup addr tgid count _ =>
    let n := count.toNat
    let queue := qs ⟨addr, tgid⟩
    (qs.leave ⟨addr, tgid⟩ n,
      ⟨some (min n queue.length : Nat), (queue.take n).map WaiterState.tc, []⟩)
  | .wakeupBitset addr tgid bitmask =>
    let woken := (qs ⟨addr, tgid⟩).filter fun w => w.checkMask bitmask
    (qs.leaveIf ⟨addr, tgid⟩ fun w => w.checkMask bitmask,
      ⟨some woken.length, woken.map WaiterState.tc, []⟩)
  | .requeue addr1 tgid count count2 addr2 _ =>
    let n := count.toNat
    let n2 := count2.toNat
    let queue := qs ⟨addr1, tgid⟩
    (qs.move ⟨addr1, tgid⟩ n n2 ⟨addr2, tgid⟩,
      ⟨some (min n queue.length + min n2 (queue.length - n) : Nat),
        (queue.take n).map WaiterState.tc, []⟩)

/-- The calls that are looked at: a thread is suspended only while it does not wait, and counts
are not negative. -/
def Allowed (m : FutexMap) : Call → Prop
  | .suspend _ _ tc | .suspendBitset _ _ tc _ => m.isWaiting tc = false
  | .wakeup _ _ count _ => 0 ≤ count
  | .wakeupBitset .. => True
  | .requeue _ _ count count2 _ _ => 0 ≤ count ∧ 0 ≤ count2

instance (m : FutexMap) : (c : Call) → Decidable (m.Allowed c)
  | .suspend .. | .suspendBitset .. => inferInstanceAs (Decidable (_ = _))
  | .wakeup _ _ count _ => inferInstanceAs (Decidable (0 ≤ count))
  | .wakeupBitset .. => .isTrue trivial
  | .requeue .. => inferInstanceAs (Decidable (_ ∧ _))

/-- The call returns, does what it should, and the bookkeeping is right afterwards. -/
def Served (m : FutexMap) (c : Call) : Prop :=
  ∃ m' reply, m.call c = .ok (m', reply) ∧ m'.Consistent ∧
    serve m.queues c = (m'.queues, reply)

/-- When a call does what it should. The reads of removed nodes in `wakeup` give the threads that it
wakes, as far as waiting threads are concerned. `requeue` finds no list at all, or wakes nobody, and
then either finds a list at the second address, or has a waiter to move there and does not both
rehash and take the last waiter. -/
def Safe (m : FutexMap) : Call → Prop
  | .wakeup addr tgid count freed =>
    let queue := m.queues ⟨addr, tgid⟩
    ∀ tc ∈ m.waitingTcs, tc ∈ reads freed (min count.toNat queue.length) ↔
      tc ∈ (queue.take count.toNat).map WaiterState.tc
  | .requeue addr1 tgid count count2 addr2 rehashes =>
    m.find ⟨addr1, tgid⟩ = none ∨ count = 0 ∧ ((m.find ⟨addr2, tgid⟩).isSome = true ∨
      0 < count2 ∧ (rehashes = true → count2 < (m.queues ⟨addr1, tgid⟩).length))
  | _ => True

instance (m : FutexMap) : (c : Call) → Decidable (m.Safe c)
  | .wakeup .. => inferInstanceAs (Decidable (∀ tc ∈ m.waitingTcs, (_ ↔ _)))
  | .requeue .. => inferInstanceAs (Decidable (_ ∨ _ ∧ (_ ∨ _ ∧ (_ → _))))
  | .suspend .. | .suspendBitset .. | .wakeupBitset .. => .isTrue trivial

/-! ### Small facts -/

variable {tc : ThreadContext} {addr1 addr2 n n2 tgid : Nat} {key1 key2 : FutexKey}
  {count count2 : Int}

/-- `is_waiting` looks at the set. -/
theorem isWaiting_iff : m.isWaiting tc = true ↔ tc ∈ m.waitingTcs := by
  simp [isWaiting]

/-- Who is left in the set. -/
theorem mem_eraseTcs {tcs : Finset ThreadContext} {gone : List ThreadContext} :
    tc ∈ eraseTcs tcs gone ↔ tc ∈ tcs ∧ tc ∉ gone := by
  induction gone generalizing tcs with
  | nil => simp [eraseTcs]
  | cons t gone ih =>
    rw [eraseTcs, foldl_cons, ← eraseTcs, ih, Finset.mem_erase, mem_cons]
    tauto

variable (key : FutexKey)

/-- The queues with one list replaced. -/
@[simp] theorem queues_set (ws : List WaiterState) :
    (m.set key ws).queues = update m.queues key ws := by
  funext k
  by_cases hk : k = key
  · subst hk
    simp [queues, set]
  · simp [queues, set, hk]

/-- An empty list is an empty queue. -/
@[simp] theorem queues_eraseIfEmpty : (m.eraseIfEmpty key).queues = m.queues := by
  unfold eraseIfEmpty
  split
  case h_1 hfind =>
    funext k
    by_cases hk : k = key
    · subst hk
      simp [queues, hfind]
    · simp [queues, hk]
  case h_2 => rfl

@[simp] theorem waitingTcs_eraseIfEmpty : (m.eraseIfEmpty key).waitingTcs = m.waitingTcs := by
  unfold eraseIfEmpty
  split <;> rfl

@[simp] theorem queues_remove (left : List WaiterState) (gone : List ThreadContext) :
    (m.remove key left gone).queues = update m.queues key left := by
  rw [remove, queues_eraseIfEmpty]
  exact queues_set key left

/-- Erasing the list of `key` if it is empty leaves no empty list, if no other one was. -/
theorem eraseIfEmpty_nonempty {key : FutexKey} (h : ∀ k, k ≠ key → m.find k ≠ some [])
    (k : FutexKey) : (m.eraseIfEmpty key).find k ≠ some [] := by
  unfold eraseIfEmpty
  by_cases hk : k = key
  · subst hk
    split
    case h_1 => simp
    case h_2 hne => exact hne
  · split
    · simpa [hk] using h k hk
    · exact h k hk

/-- The loop takes as many waiters as the counter allows. -/
theorem popLoop_eq (limit counter : Int) (ws : List WaiterState) :
    popLoop limit counter ws = (ws.take (limit - counter).toNat, ws.drop (limit - counter).toNat,
        counter + (min (limit - counter).toNat ws.length : Nat)) := by
  induction ws generalizing counter with
  | nil => simp [popLoop]
  | cons w ws ih =>
    rw [popLoop]
    by_cases h : counter < limit
    · -- one round: the counter goes up, and the rest is the loop from there
      obtain ⟨n, hn⟩ : ∃ n, (limit - counter).toNat = n + 1 :=
        ⟨(limit - (counter + 1)).toNat, by omega⟩
      have hn' : (limit - (counter + 1)).toNat = n := by omega
      rw [if_pos h, ih, hn, hn']
      simp only [take_succ_cons, drop_succ_cons, length_cons, Prod.mk.injEq, true_and]
      omega
    · have hn : (limit - counter).toNat = 0 := by omega
      rw [if_neg h, hn]
      simp

/-- The loop from the counter 0. -/
theorem popLoop_zero (limit : Int) (ws : List WaiterState) :
    popLoop limit 0 ws =
      (ws.take limit.toNat, ws.drop limit.toNat, ((min limit.toNat ws.length : Nat) : Int)) := by
  rw [popLoop_eq]
  simp

/-! ### The calls -/

section
variable (h : m.Consistent) {addr tgid : Nat}

include h

variable {tc : ThreadContext}

/-- The set holds the threads in the queues. -/
theorem Consistent.mem_iff : tc ∈ m.waitingTcs ↔ Waits WaiterState.tc m.queues tc := by
  rw [← isWaiting_iff, h.waiting]

variable (bitmask : BitVec 32)

/-- A thread that does not wait joins the queue of its futex. -/
theorem suspendBitset_served (htc : m.isWaiting tc = false) :
    Served m (.suspendBitset addr tgid tc bitmask) := by
  let key : FutexKey := ⟨addr, tgid⟩
  let m' : FutexMap :=
    { m.set key (m.queues key ++ [⟨tc, bitmask⟩]) with waitingTcs := insert tc m.waitingTcs }
  have hcall : m.call (.suspendBitset addr tgid tc bitmask) =
      .ok (m', ⟨none, [], [tc]⟩) := by
    simp only [call, suspendBitset, m', queues]
    cases hfind : m.find ⟨addr, tgid⟩ <;> rfl
  have hqueues : m'.queues = m.queues.join key [⟨tc, bitmask⟩] := queues_set key _
  refine ⟨m', _, hcall, ⟨fun k => ?_, ?_, fun t => ?_⟩, by rw [hqueues]; rfl⟩
  · by_cases hk : k = key
    · subst hk
      simp [m', set]
    · simpa [m', set, hk] using h.nonempty k
  · rw [hqueues]
    refine h.once.join (by simp) fun t ht => ?_
    obtain rfl : t = tc := by simpa using ht
    rw [← h.waiting, htc]
    simp
  · rw [isWaiting_iff, hqueues, waits_join, ← h.mem_iff]
    simp [m', or_comm]

/-- The waiters `woken` of a futex leave, and the threads `gone` are taken out of the set. The
bookkeeping is right just if these are the same, among the waiting threads. -/
theorem consistent_remove_iff {key : FutexKey} {woken stay : List WaiterState}
    {gone : List ThreadContext} (hperm : (m.queues key).Perm (woken ++ stay))
    (hsub : stay.Sublist (m.queues key)) :
    (m.remove key stay gone).Consistent ↔
      ∀ tc ∈ m.waitingTcs, tc ∈ gone ↔ tc ∈ woken.map WaiterState.tc := by
  have hset (t : ThreadContext) : (m.remove key stay gone).isWaiting t = true ↔
      t ∈ m.waitingTcs ∧ t ∉ gone := by
    rw [isWaiting_iff, remove, waitingTcs_eraseIfEmpty, mem_eraseTcs]
  have hwaits (t : ThreadContext) : Waits WaiterState.tc (m.remove key stay gone).queues t ↔
      t ∈ m.waitingTcs ∧ t ∉ woken.map WaiterState.tc := by
    rw [queues_remove, h.once.waits_update hperm, ← h.mem_iff]
  constructor
  · intro hconsistent t ht
    have hiff := hconsistent.waiting t
    rw [hset, hwaits] at hiff
    tauto
  · intro hsame
    refine ⟨eraseIfEmpty_nonempty fun k hk => ?_, ?_, fun t => ?_⟩
    · simpa [set, hk] using h.nonempty k
    · rw [queues_remove]
      exact h.once.update hsub
    · rw [hset, hwaits]
      have := hsame t
      tauto

/-- The first waiters wake up, and the set loses them just if the removed nodes still hold them. -/
theorem wakeup_served_iff (count : Int) (freed : List ThreadContext) :
    Served m (.wakeup addr tgid count freed) ↔ m.Safe (.wakeup addr tgid count freed) := by
  cases hfind : m.find ⟨addr, tgid⟩ with
  | none =>
    have hnil : m.queues ⟨addr, tgid⟩ = [] := by simp [queues, hfind]
    refine iff_of_true ⟨m, noFutex, by simp [call, wakeup, hfind], h, ?_⟩ ?_
    · simp [serve, hnil, leave_of_nil hnil, noFutex]
    · simp [Safe, hnil, reads]
  | some ws =>
    have hqueue : m.queues ⟨addr, tgid⟩ = ws := by simp [queues, hfind]
    let m' := m.remove ⟨addr, tgid⟩ (ws.drop count.toNat) (reads freed (min count.toNat ws.length))
    have hcall : m.call (.wakeup addr tgid count freed) =
        .ok (m', ⟨some (min count.toNat ws.length : Nat), (ws.take count.toNat).map WaiterState.tc,
          []⟩) := by
      simp only [call, wakeup, hfind, popLoop_zero, length_take, m']
    have hiff : m'.Consistent ↔ m.Safe (.wakeup addr tgid count freed) := by
      simp only [Safe, hqueue]
      refine consistent_remove_iff h ?_ ?_
      · rw [hqueue, take_append_drop]
      · rw [hqueue]
        exact drop_sublist _ ws
    rw [← hiff]
    refine ⟨?_, fun hm' => ⟨_, _, hcall, hm', ?_⟩⟩
    · rintro ⟨_, _, hcall', hm', -⟩
      rw [hcall] at hcall'
      cases hcall'
      exact hm'
    · simp only [serve, hqueue, leave, queues_remove, m']

/-- The waiters whose mask matches wake up. -/
theorem wakeupBitset_served : Served m (.wakeupBitset addr tgid bitmask) := by
  cases hfind : m.find ⟨addr, tgid⟩ with
  | none =>
    have hnil : m.queues ⟨addr, tgid⟩ = [] := by simp [queues, hfind]
    refine ⟨m, noFutex, by simp [call, wakeupBitset, hfind], h, ?_⟩
    simp [serve, hnil, leaveIf_of_nil hnil, noFutex]
  | some ws =>
    have hqueue : m.queues ⟨addr, tgid⟩ = ws := by simp [queues, hfind]
    let woken := ws.filter fun w => w.checkMask bitmask
    have hcall : m.call (.wakeupBitset addr tgid bitmask) =
        .ok (m.remove ⟨addr, tgid⟩ (ws.filter fun w => !w.checkMask bitmask)
            (woken.map WaiterState.tc),
          ⟨some woken.length, woken.map WaiterState.tc, []⟩) := by
      simp only [call, wakeupBitset, hfind, woken]
    have hperm : (m.queues ⟨addr, tgid⟩).Perm
        (woken ++ ws.filter fun w => !w.checkMask bitmask) := by
      rw [hqueue]
      exact (filter_append_perm _ ws).symm
    refine ⟨_, _, hcall, (consistent_remove_iff h hperm ?_).mpr fun _ _ => Iff.rfl, ?_⟩
    · rw [hqueue]
      exact filter_sublist
    · simp only [serve, hqueue, leaveIf, queues_remove, woken]

end

/-- The map after a `requeue` that finds `ws` at the first address. -/
def requeued (m : FutexMap) (key1 key2 : FutexKey) (n n2 : Nat) (ws : List WaiterState) :
    FutexMap :=
  let left := m.set key1 (ws.drop (n + n2))
  (left.set key2 (left.queues key2 ++ (ws.drop n).take n2)).eraseIfEmpty key1

variable {ws : List WaiterState} {rehashes : Bool}

/-- A `requeue` that finds `n` waiters returns: there is a list at the second address, or there is a
waiter to move there and the iterator of an empty list is still good. -/
def Returns (m : FutexMap) (key2 : FutexKey) (count count2 : Int) (rehashes : Bool)
    (n : Nat) : Prop :=
  (m.find key2).isSome = true ∨ 0 < min count2.toNat (n - count.toNat) ∧
    (rehashes = true → count.toNat + count2.toNat < n)

instance : Decidable (m.Returns key2 count count2 rehashes n) :=
  inferInstanceAs (Decidable (_ ∨ _ ∧ (_ → _)))

/-- `requeue` with a list at the first address. -/
theorem requeue_eq (hfind : m.find ⟨addr1, tgid⟩ = some ws) :
    m.requeue addr1 tgid count count2 addr2 rehashes =
      if m.Returns ⟨addr2, tgid⟩ count count2 rehashes ws.length then
        .ok (m.requeued ⟨addr1, tgid⟩ ⟨addr2, tgid⟩ count.toNat count2.toNat ws,
          ⟨some (min count.toNat ws.length + min count2.toNat (ws.length - count.toNat) : Nat),
            (ws.take count.toNat).map WaiterState.tc, []⟩)
      else .error .badPointer := by
  have hleft (k : FutexKey) (l : List WaiterState) :
      ((m.set ⟨addr1, tgid⟩ l).find k).isSome = (m.find k).isSome := by
    by_cases hk : k = ⟨addr1, tgid⟩
    · subst hk
      simp [set, hfind]
    · simp [set, hk]
  simp only [requeue, hfind, popLoop_zero, drop_drop, length_drop]
  have hsome := hleft ⟨addr2, tgid⟩ (ws.drop (count.toNat + count2.toNat))
  cases hfind2 : (m.set ⟨addr1, tgid⟩ (ws.drop (count.toNat + count2.toNat))).find
      ⟨addr2, tgid⟩ with
  | none =>
    rw [hfind2] at hsome
    -- the two tests of the source are the second case of `Returns`
    have hiff : (decide ((min count2.toNat (ws.length - count.toNat) : Nat) > (0 : Int)) &&
          !(rehashes && (ws.drop (count.toNat + count2.toNat)).isEmpty)) = true ↔
        m.Returns ⟨addr2, tgid⟩ count count2 rehashes ws.length := by
      rw [Returns, ← hsome]
      cases rehashes <;> simp
    simp only [requeued, queues, hfind2, Option.getD_none, nil_append, Int.natCast_add]
    by_cases hreturns : m.Returns ⟨addr2, tgid⟩ count count2 rehashes ws.length
    · rw [if_pos hreturns, if_pos (hiff.mpr hreturns)]
    · rw [if_neg hreturns, if_neg (fun h => hreturns (hiff.mp h))]
  | some l =>
    rw [hfind2] at hsome
    have hreturns : m.Returns ⟨addr2, tgid⟩ count count2 rehashes ws.length := .inl hsome.symm
    simp only [if_pos hreturns, requeued, queues, hfind2, Option.getD_some, Int.natCast_add]

/-- The queues after a `requeue`. -/
theorem requeued_queues (hqueue : m.queues key1 = ws) :
    (m.requeued key1 key2 n n2 ws).queues = m.queues.move key1 n n2 key2 := by
  rw [requeued, queues_eraseIfEmpty, queues_set, queues_set, move, join, leave, hqueue]

/-- A `requeue` leaves no empty list behind. -/
theorem requeued_nonempty (hnonempty : ∀ k, m.find k ≠ some [])
    (hsome : (m.find key2).isSome = true ∨ 0 < min n2 (ws.length - n)) (k : FutexKey) :
    (m.requeued key1 key2 n n2 ws).find k ≠ some [] := by
  refine eraseIfEmpty_nonempty (fun k hk => ?_) k
  by_cases hk2 : k = key2
  · subst hk2
    -- the list at the second address gets a waiter or was there before
    have hold : (m.set key1 (ws.drop (n + n2))).queues k = m.queues k := by
      rw [queues_set, update_of_ne hk]
    rw [hold]
    simp only [set, update_self, ne_eq, Option.some.injEq, append_eq_nil_iff, not_and]
    intro hnil htake
    rcases hsome with hsome | hpos
    · obtain ⟨l, hl⟩ := Option.isSome_iff_exists.mp hsome
      refine hnonempty k ?_
      rw [← hnil]
      simp [queues, hl]
    · have : ((ws.drop n).take n2).length = min n2 (ws.length - n) := by simp
      rw [htake, length_nil] at this
      omega
  · simpa [set, hk, hk2] using hnonempty k

/-- `requeue` is served just if it wakes nobody and returns. -/
theorem requeue_served_iff (h : m.Consistent) (hcount : 0 ≤ count) :
    Served m (.requeue addr1 tgid count count2 addr2 rehashes) ↔
      m.Safe (.requeue addr1 tgid count count2 addr2 rehashes) := by
  cases hfind : m.find ⟨addr1, tgid⟩ with
  | none =>
    have hnil : m.queues ⟨addr1, tgid⟩ = [] := by simp [queues, hfind]
    refine iff_of_true ⟨m, noFutex, by simp [call, requeue, hfind], h, ?_⟩ (.inl hfind)
    simp [serve, hnil, move_of_nil hnil, noFutex]
  | some ws =>
    have hqueue : m.queues ⟨addr1, tgid⟩ = ws := by simp [queues, hfind]
    have hws : 0 < ws.length := length_pos_iff.mpr fun hnil => h.nonempty _ (hnil ▸ hfind)
    have hserve : serve m.queues (.requeue addr1 tgid count count2 addr2 rehashes) =
        ((m.requeued ⟨addr1, tgid⟩ ⟨addr2, tgid⟩ count.toNat count2.toNat ws).queues,
          ⟨some (min count.toNat ws.length + min count2.toNat (ws.length - count.toNat) : Nat),
            (ws.take count.toNat).map WaiterState.tc, []⟩) := by
      rw [requeued_queues hqueue, ← hqueue]
      rfl
    have htcs (n n2 : Nat) :
        (m.requeued ⟨addr1, tgid⟩ ⟨addr2, tgid⟩ n n2 ws).waitingTcs = m.waitingTcs :=
      waitingTcs_eraseIfEmpty _
    constructor
    · rintro ⟨m', reply, hcall, hconsistent, -⟩
      rw [call, requeue_eq hfind] at hcall
      split at hcall
      case isFalse => cases hcall
      case isTrue hsome =>
      obtain ⟨rfl, -⟩ := Prod.mk.inj (Except.ok.inj hcall)
      have hzero : count = 0 := by
        -- a thread that is woken stays in `waitingTcs`
        by_contra hne
        obtain ⟨w, rest, rfl⟩ := exists_cons_of_length_pos hws
        obtain ⟨n, hn⟩ : ∃ n, count.toNat = n + 1 := ⟨count.toNat - 1, by omega⟩
        have hwaits : Waits WaiterState.tc m.queues w.tc := ⟨_, by rw [hqueue]; simp⟩
        have hstill := (hconsistent.mem_iff).mp (htcs _ _ ▸ h.mem_iff.mpr hwaits)
        rw [requeued_queues hqueue] at hstill
        refine ((h.once.waits_move _ _ _).mp hstill).2 ?_
        simp [hqueue, hn]
      subst hzero
      refine .inr ⟨rfl, hsome.imp_right fun hmoves => ?_⟩
      have hlast := hmoves.2
      rw [hqueue]
      exact ⟨by omega, fun hrehash => by have := hlast hrehash; omega⟩
    · rintro (hnone | ⟨rfl, hsome⟩)
      · cases hfind.symm.trans hnone
      have hreturns : m.Returns ⟨addr2, tgid⟩ 0 count2 rehashes ws.length := by
        refine hsome.imp_right fun hmoves => ?_
        have hlast := hmoves.2
        rw [hqueue] at hlast
        exact ⟨by omega, fun hrehash => by have := hlast hrehash; omega⟩
      refine ⟨_, _, by rw [call, requeue_eq hfind, if_pos hreturns], ⟨?_, ?_, fun t => ?_⟩, hserve⟩
      · exact requeued_nonempty h.nonempty (hreturns.imp_right And.left)
      · rw [requeued_queues hqueue]
        exact h.once.move _ _ _
      · rw [isWaiting_iff, htcs, requeued_queues hqueue, h.once.waits_move, ← h.mem_iff]
        simp

/-! ### All calls -/

/-- A call that is allowed is served just if it is safe. -/
theorem served_iff (h : m.Consistent) {c : Call} (hallowed : m.Allowed c) :
    Served m c ↔ m.Safe c := by
  cases c with
  | suspend addr tgid tc =>
    have hserved : Served m (.suspendBitset addr tgid tc 0xffffffff) :=
      suspendBitset_served h _ hallowed
    exact iff_of_true hserved trivial
  | suspendBitset addr tgid tc bitmask =>
    exact iff_of_true (suspendBitset_served h bitmask hallowed) trivial
  | wakeup addr tgid count freed => exact wakeup_served_iff h count freed
  | wakeupBitset addr tgid bitmask => exact iff_of_true (wakeupBitset_served h bitmask) trivial
  | requeue => exact requeue_served_iff h hallowed.1

/-- The first state. -/
theorem consistent_empty : empty.Consistent where
  nonempty key := by simp [empty]
  once := once_empty
  waiting tc := by simp [empty, isWaiting, Waits, queues]

/-- Starting from an empty map, every call that is allowed and safe is served, and so the
bookkeeping is right in every state reached. From each of these states a call that is allowed is
served just if it is safe. -/
theorem futex_served_iff_safe (cs : List Call)
    (hrun : RunMeets step (fun m c => m.Allowed c ∧ m.Safe c) empty cs) :
    ∃ m, Lib.run step empty cs = some m ∧ m.Consistent ∧
      ∀ c, m.Allowed c → (Served m c ↔ m.Safe c) := by
  suffices ∀ m : FutexMap, m.Consistent →
      RunMeets step (fun m c => m.Allowed c ∧ m.Safe c) m cs →
      ∃ m', Lib.run step m cs = some m' ∧ m'.Consistent by
    obtain ⟨m, hm, hconsistent⟩ := this empty consistent_empty hrun
    exact ⟨m, hm, hconsistent, fun c => served_iff hconsistent⟩
  clear hrun
  induction cs with
  | nil => exact fun m hm _ => ⟨m, rfl, hm⟩
  | cons c cs ih =>
    rintro m hm ⟨⟨hallowed, hsafe⟩, hrest⟩
    obtain ⟨m', reply, hcall, hm', -⟩ := (served_iff hm hallowed).mpr hsafe
    have hstep : step m c = some m' := by simp [step, hcall, Except.toOption]
    obtain ⟨m'', hrun, hm''⟩ := ih m' hm' (hrest m' hstep)
    exact ⟨m'', by rw [run_cons, hstep]; exact hrun, hm''⟩

/-- Two threads wait, one is moved to another futex, and then both are woken. The insertion
rehashes, but a waiter is left at the first futex. -/
theorem futex_served_iff_safe_moved :
    ∃ m, Lib.run step empty
        [.suspend 1 0 5, .suspendBitset 1 0 6 3, .requeue 1 0 0 1 2 true, .wakeupBitset 1 0 2,
          .wakeup 2 0 7 [5]] = some m ∧ m.Consistent ∧
      ∀ c, m.Allowed c → (Served m c ↔ m.Safe c) :=
  futex_served_iff_safe _ (by decide +kernel)

/-- Threads 5 and 6 wait for one futex. A `requeue` wakes the first and moves the second, and
thread 5 is still marked as waiting. With thread 5 alone, a `requeue` that wakes it and moves
nobody writes through `end()`. -/
theorem requeue_loses_track :
    (∃ m m', Lib.run step empty [.suspend 1 0 5, .suspend 1 0 6] = some m ∧
      m.Allowed (.requeue 1 0 1 1 2 false) ∧
      m.requeue 1 0 1 1 2 false = .ok (m', ⟨some 2, [5], []⟩) ∧ m'.isWaiting 5 = true ∧
      m'.queues ⟨1, 0⟩ = [] ∧ m'.queues ⟨2, 0⟩ = [⟨6, 0xffffffff⟩]) ∧
    ∃ m, Lib.run step empty [.suspend 1 0 5] = some m ∧
      m.Allowed (.requeue 1 0 1 0 2 false) ∧ m.requeue 1 0 1 0 2 false = .error .badPointer :=
  ⟨⟨_, _, rfl, by decide, rfl, rfl, rfl, rfl⟩, ⟨_, rfl, by decide, rfl⟩⟩

end Gem5.Sim.FutexMap
