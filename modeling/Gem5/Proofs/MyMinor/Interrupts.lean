import Gem5.MyMinor.Interrupts
import Mathlib.Data.List.Nodup
import Mathlib.Data.Nat.ModEq

/-!
# `Gem5.Proofs.MyMinor.Interrupts`: when the polling loop ends

As long as no thread acts, round `k` looks at thread `interruptPriority + k`. The first thread that
acts decides: if it takes its interrupt, or if it is the first one, the loop ends there.
`checkInterrupts_ends_iff` says so for every status of the threads.
-/

namespace Gem5.MyMinor.InterruptPoll

open List

variable (e : InterruptPoll)

/-- The thread of a round that no acting thread comes before. -/
def thread (round : Nat) : ThreadID := (e.interruptPriority + round) % e.numThreads

/-- The first thread that acts takes its interrupt, unless it is the one of the first round. -/
def FirstTakes : Prop :=
  ∀ round, 0 < round → round < e.numThreads → (∀ k < round, e.acts (e.thread k) = false) →
    e.acts (e.thread round) = true → e.takeInterrupt round (e.thread round) = true

variable {e} {fuel round : Nat} {r : List ThreadID × Option ThreadID}

theorem next_thread (h : e.acts (e.thread round) = false) :
    e.next (e.thread round) = e.thread (round + 1) := by
  rw [next, h, if_neg (by simp), thread, Nat.mod_add_mod, Nat.add_assoc]
  rfl

theorem thread_inj {i j : Nat} (hi : i < e.numThreads) (hj : j < e.numThreads)
    (h : e.thread i = e.thread j) : i = j :=
  (Nat.ModEq.add_left_cancel' e.interruptPriority h).eq_of_lt_of_lt hi hj

/-- The loop looks at its thread first. -/
theorem mem_looked {tid : ThreadID} (h : e.pollFrom fuel round tid = some r) : tid ∈ r.1 := by
  cases fuel with
  | zero => cases h
  | succ fuel =>
    unfold pollFrom at h
    grind [Option.map_eq_some_iff]

section
variable (hpriority : e.interruptPriority < e.numThreads)
include hpriority

theorem thread_zero : e.thread 0 = e.interruptPriority := Nat.mod_eq_of_lt hpriority

/-- With a round for each thread that is left, the loop ends. -/
theorem pollFrom_ends (htakes : e.FirstTakes) {left : Nat} (hleft : round + left = e.numThreads)
    (hlt : round < e.numThreads) (hquiet : ∀ k < round, e.acts (e.thread k) = false) :
    ∃ r, e.pollFrom left round (e.thread round) = some r ∧
      r.1 <+: (range' round left).map e.thread := by
  induction left generalizing round with
  | zero => omega
  | succ left ih =>
    have hone : [e.thread round] <+: (range' round (left + 1)).map e.thread := ⟨_, rfl⟩
    unfold pollFrom
    split
    · exact ⟨_, rfl, hone⟩
    split
    · exact ⟨_, rfl, hone⟩
    rename_i htake hnext
    -- The loop goes on, so the thread has not acted, and it is not the last one.
    have hacts : e.acts (e.thread round) = false := by
      by_contra hacts
      rw [Bool.not_eq_false] at hacts
      rw [next, if_pos hacts] at hnext
      rcases Nat.eq_zero_or_pos round with rfl | hpos
      · exact hnext (thread_zero hpriority)
      · exact htake (Bool.and_eq_true_iff.mpr ⟨hacts, htakes round hpos hlt hquiet hacts⟩)
    rw [next_thread hacts] at hnext ⊢
    have hlt' : round + 1 < e.numThreads := by
      refine lt_of_le_of_ne hlt fun heq => hnext ?_
      rw [thread, heq, Nat.add_mod_right, Nat.mod_eq_of_lt hpriority]
    obtain ⟨r, hr, hlooked⟩ := ih (by omega) hlt' fun k hk =>
      (Nat.lt_succ_iff_lt_or_eq.mp hk).elim (hquiet k) (· ▸ hacts)
    rw [hr]
    exact ⟨_, rfl, cons_prefix_cons.mpr ⟨rfl, hlooked⟩⟩

/-- A thread that acts and does not take its interrupt is looked at again. -/
theorem pollFrom_repeats {last : Nat} (hpos : 0 < last) (hlast : last < e.numThreads)
    (hquiet : ∀ k < last, e.acts (e.thread k) = false) (hacts : e.acts (e.thread last) = true)
    (htake : ¬e.takeInterrupt last (e.thread last) = true) (hle : round ≤ last)
    (h : e.pollFrom fuel round (e.thread round) = some r) : ¬r.1.Nodup := by
  have hne : ∀ k, 0 < k → k ≤ last → e.thread k ≠ e.interruptPriority := by
    intro k hk hkl heq
    have := thread_inj (by omega) (by omega) (heq.trans (thread_zero hpriority).symm)
    omega
  induction fuel generalizing round r with
  | zero => cases h
  | succ fuel ih =>
    rw [pollFrom] at h
    rcases Nat.eq_or_lt_of_le hle with rfl | hlt
    · rw [if_neg (by simp [htake]), next, if_pos hacts, if_neg (hne round hpos le_rfl)] at h
      obtain ⟨r', hr', rfl⟩ := Option.map_eq_some_iff.mp h
      exact fun hnodup => (nodup_cons.mp hnodup).1 (mem_looked hr')
    · rw [if_neg (by simp [hquiet round hlt]), next_thread (hquiet round hlt),
        if_neg (hne _ (Nat.succ_pos _) hlt)] at h
      obtain ⟨r', hr', rfl⟩ := Option.map_eq_some_iff.mp h
      exact fun hnodup => ih hlt hr' (nodup_cons.mp hnodup).2

end

/-- For every number of threads and every status of them, the loop ends and looks at each thread at
most once if and only if the first thread that acts takes its interrupt or is the one of
`interruptPriority`. -/
theorem checkInterrupts_ends_iff (hpriority : e.interruptPriority < e.numThreads)
    (interrupted : Bool) :
    (∃ fuel r, e.checkInterrupts fuel interrupted = some r ∧ r.looked.Nodup) ↔ e.FirstTakes := by
  unfold checkInterrupts
  have hzero := thread_zero hpriority
  constructor
  · intro ⟨fuel, r, hr, hnodup⟩ round hpos hlt hquiet hacts
    obtain ⟨r', hr', rfl⟩ := Option.map_eq_some_iff.mp hr
    by_contra htake
    rw [← hzero] at hr'
    exact pollFrom_repeats hpriority hpos hlt hquiet hacts htake (Nat.zero_le _) hr' hnodup
  · intro htakes
    obtain ⟨r, hr, hlooked⟩ := pollFrom_ends hpriority htakes (Nat.zero_add e.numThreads)
      (Nat.zero_lt_of_lt hpriority) (nofun)
    rw [hzero] at hr
    refine ⟨_, _, congrArg _ hr, hlooked.sublist.nodup (Nodup.map_on ?_ nodup_range')⟩
    intro i hi j hj
    exact thread_inj (by simpa using hi) (by simpa using hj)

/-- Two threads, and `tid` has an interrupt that is `NoFault`. -/
def noFaultPoll (tid : ThreadID) : InterruptPoll :=
  ⟨true, 2, 0, fun _ => true, fun _ => true, (· == tid), fun _ => true, fun _ _ => noFault⟩

theorem checkInterrupts_ends_first :
    ∃ fuel r, (noFaultPoll 0).checkInterrupts fuel false = some r ∧ r.looked.Nodup := by
  refine (checkInterrupts_ends_iff (by decide) false).mpr fun round hpos _ hquiet => ?_
  cases hquiet 0 hpos

theorem noFaultPoll_stays : ∀ fuel round, (noFaultPoll 1).pollFrom fuel round 1 = none
  | 0, _ => rfl
  | fuel + 1, round => congrArg (Option.map _) (noFaultPoll_stays fuel (round + 1))

/-- The loop never leaves thread 1. -/
theorem polls_forever : ¬∃ fuel r, (noFaultPoll 1).checkInterrupts fuel false = some r := by
  intro ⟨fuel, r, h⟩
  cases fuel with
  | zero => cases h
  | succ fuel =>
    have hnone : (noFaultPoll 1).checkInterrupts (fuel + 1) false = none :=
      congrArg (Option.map _ ∘ Option.map _) (noFaultPoll_stays fuel 1)
    cases hnone.symm.trans h

end Gem5.MyMinor.InterruptPoll
