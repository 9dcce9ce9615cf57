import Gem5.Lib.Origin
import Gem5.Mem.CacheBlk

/-!
# `Gem5.Proofs.Mem.CacheBlk`: a store conditional succeeds on a live reservation only

The locks of a block never intersect, because `trackLoadLocked` first erases what the new lock
intersects (`Apart`). So at most one lock matches a store conditional, and after a success none
does. With this, `kept_of_mem_step` says what a call must have been if a lock is still there
after it, and `Lib.exists_origin` turns it into a statement about the whole history of a lock.
-/

namespace Gem5.Mem

open List

/-! ### Ranges as sets of bytes -/

namespace BlkRequest

variable (req : BlkRequest)

/-- The request accesses the byte at address `b`. -/
def Touches (b : Nat) : Prop :=
  req.paddr.toNat ≤ b ∧ b < req.paddr.toNat + req.size

/-- The range of `ll` contains the range of `req`. -/
def Contains (ll req : BlkRequest) : Prop :=
  ∀ b, req.Touches b → ll.Touches b

theorem high_toNat : req.high.toNat + 1 = req.paddr.toNat + req.size := by
  have hpos := req.nonempty
  have hfits := req.fits
  have hone : BitVec.toNat (1 : BitVec 64) = 1 := rfl
  rw [high, BitVec.toNat_sub, BitVec.toNat_add, BitVec.toNat_ofNat, hone]
  omega

end BlkRequest

namespace Lock

variable {ll req : BlkRequest}

/-- The first and the last byte of a contained range lie in the lock. -/
theorem matches_new :
    (new ll).matches req = true ↔ ll.contextId = req.contextId ∧ ll.Contains req := by
  have hll := ll.high_toNat
  have hreq := req.high_toNat
  have hpos := req.nonempty
  simp only [Lock.matches, new, Bool.and_eq_true, beq_iff_eq, decide_eq_true_eq, BitVec.le_def]
  refine and_congr_right fun _ => ⟨fun h b hb => ?_, fun h => ?_⟩
  · unfold BlkRequest.Touches at hb ⊢
    omega
  · have hfirst := h req.paddr.toNat ⟨Nat.le_refl _, by omega⟩
    have hlast := h req.high.toNat ⟨by omega, by omega⟩
    exact ⟨hfirst.1, by have := hlast.2; omega⟩

/-- A shared byte is one on which the lock intersects. -/
theorem intersects_new {b : Nat} (hll : ll.Touches b) (hreq : req.Touches b) :
    (new ll).intersects req = true := by
  have hhigh := ll.high_toNat
  have hhigh' := req.high_toNat
  unfold BlkRequest.Touches at hll hreq
  simp only [intersects, new, Bool.and_eq_true, decide_eq_true_eq, BitVec.le_def]
  omega

end Lock

namespace CacheBlk

variable {blk : CacheBlk} {l : Lock} {req : BlkRequest} {isLLSC : Bool} {event : Event}

/-! ### The locks of a block do not intersect -/

/-- The locks share no byte. -/
def Apart (l l' : Lock) : Prop :=
  l.highAddr < l'.lowAddr ∨ l'.highAddr < l.lowAddr

/-- Two locks that match one request share its first byte. -/
theorem not_apart {l' : Lock} (h : l.matches req = true) (h' : l'.matches req = true) :
    ¬ Apart l l' := by
  have hhigh := req.high_toNat
  have hpos := req.nonempty
  simp only [Lock.matches, Bool.and_eq_true, decide_eq_true_eq, BitVec.le_def] at h h'
  simp only [Apart, BitVec.lt_def]
  omega

theorem lockList_checkWrite_sublist :
    (blk.checkWrite isLLSC req).2.lockList.Sublist blk.lockList := by
  unfold checkWrite
  split
  · exact Sublist.refl _
  · split
    · exact filter_sublist.trans eraseP_sublist
    · exact filter_sublist

/-- The locks of a block share no byte after a step. -/
theorem pairwise_step (h : blk.lockList.Pairwise Apart) :
    (blk.step event).lockList.Pairwise Apart := by
  cases event with
  | trackLoadLocked =>
    refine pairwise_cons.mpr ⟨fun l hl => ?_, h.sublist filter_sublist⟩
    have hkept := (mem_filter.mp hl).2
    simp only [Lock.intersects, Bool.not_eq_true', Bool.and_eq_false_iff, decide_eq_false_iff_not,
      BitVec.not_le] at hkept
    exact hkept.symm
  | checkWrite => exact h.sublist lockList_checkWrite_sublist
  | invalidate => exact Pairwise.nil

theorem pairwise_after (history : List Event) : (after history).lockList.Pairwise Apart := by
  induction history using reverseRecOn with
  | nil => exact Pairwise.nil
  | append_singleton history event ih =>
    rw [after, foldl_append]
    exact pairwise_step ih

/-! ### What a call leaves of the locks -/

/-- The call, made on `blk`, does not take the lock `l` away. -/
def Keeps (blk : CacheBlk) (event : Event) (l : Lock) : Prop :=
  match event with
  | .trackLoadLocked req => l.intersects req = false
  | .checkWrite isLLSC req =>
    (req.contextId ≠ l.contextId → l.intersects req = false) ∧
    (isLLSC = true → (blk.checkWrite isLLSC req).1 = true → l.matches req = false)
  | .invalidate => False

/-- A lock that `clearLoadLocks` leaves. -/
theorem mem_clearLoadLocks (h : l ∈ (blk.clearLoadLocks req).lockList) :
    l ∈ blk.lockList ∧ (req.contextId ≠ l.contextId → l.intersects req = false) := by
  obtain ⟨hmem, hkept⟩ := mem_filter.mp h
  refine ⟨hmem, fun hother => ?_⟩
  have hne : (l.contextId != req.contextId) = true := bne_iff_ne.mpr hother.symm
  rw [hne, Bool.and_true, Bool.not_eq_true'] at hkept
  exact hkept

/-- After a store conditional erased its lock, no lock matches it. -/
theorem not_matches_of_mem_eraseP (hapart : blk.lockList.Pairwise Apart)
    (h : l ∈ blk.lockList.eraseP fun l => l.matches req) : l.matches req = false := by
  by_cases hsome : ∃ m ∈ blk.lockList, m.matches req = true
  · obtain ⟨m, hm, hmatch⟩ := hsome
    obtain ⟨m, front, back, hfront, hm, hlist, herase⟩ :=
      exists_of_eraseP (p := fun l => l.matches req) hm hmatch
    rw [herase] at h
    rw [hlist] at hapart
    rcases mem_append.mp h with h | h
    · exact Bool.not_eq_true _ ▸ hfront l h
    · have hml := (pairwise_cons.mp (pairwise_append.mp hapart).2.1).1 l h
      exact Bool.eq_false_iff.mpr fun hl => not_apart hm hl hml
  · exact Bool.eq_false_iff.mpr fun hl => hsome ⟨l, mem_of_mem_eraseP h, hl⟩

/-- A lock after a call is new, or it was there and the call kept it. -/
theorem kept_of_mem_step (hapart : blk.lockList.Pairwise Apart)
    (h : l ∈ (blk.step event).lockList) :
    (∃ ll, event = .trackLoadLocked ll ∧ l = Lock.new ll) ∨
      l ∈ blk.lockList ∧ Keeps blk event l := by
  cases event with
  | trackLoadLocked ll =>
    rcases mem_cons.mp h with h | h
    · exact .inl ⟨ll, rfl, h⟩
    · obtain ⟨hmem, hkept⟩ := mem_filter.mp h
      have hkept : l.intersects ll = false := by simpa using hkept
      exact .inr ⟨hmem, hkept⟩
  | checkWrite isLLSC req =>
    right
    cases isLLSC with
    | false =>
      -- the common case has no lock that could be left
      have hclear : l ∈ (blk.clearLoadLocks req).lockList := by
        by_cases hempty : blk.lockList.isEmpty = true
        · simp only [step, checkWrite, hempty, Bool.not_false, Bool.and_self, if_true] at h
          rw [isEmpty_iff.mp hempty] at h
          cases h
        · simpa [step, checkWrite, hempty] using h
      obtain ⟨hmem, hkept⟩ := mem_clearLoadLocks hclear
      exact ⟨hmem, hkept, by simp⟩
    | true =>
      obtain ⟨hmem, hkept⟩ := mem_clearLoadLocks (show l ∈ (clearLoadLocks
        { lockList := blk.lockList.eraseP fun l => l.matches req } req).lockList from h)
      exact ⟨mem_of_mem_eraseP hmem, hkept, fun _ _ => not_matches_of_mem_eraseP hapart hmem⟩
  | invalidate => cases h

/-! ### Reservations -/

/-- The write that the call makes on `blk`: a plain write, or a store conditional that succeeds. -/
def writes (blk : CacheBlk) : Event → Option BlkRequest
  | .checkWrite isLLSC req => if (blk.checkWrite isLLSC req).1 then some req else none
  | _ => none

/-- The call is a store conditional that succeeds on `blk` and could use the reservation of `ll`:
it has its context, and its range lies in the range of `ll`. -/
def uses (blk : CacheBlk) (ll : BlkRequest) (event : Event) : Prop :=
  ∃ sc, event = .checkWrite true sc ∧ (blk.checkWrite true sc).1 = true ∧
    ll.contextId = sc.contextId ∧ ll.Contains sc

/-- A store conditional succeeds only if its context made a load-locked on a range that contains
its own, and since then there was no invalidation, no successful store conditional of the context
in that range, and no write of another context to a byte of the conditional's range. -/
theorem storeConditional_reserved (history : List Event) (req : BlkRequest)
    (h : ((after history).checkWrite true req).1 = true) :
    ∃ before ll since, history = before ++ .trackLoadLocked ll :: since ∧
      ll.contextId = req.contextId ∧ ll.Contains req ∧
      ∀ front event back, since = front ++ event :: back →
        let blk := after (before ++ .trackLoadLocked ll :: front)
        event ≠ .invalidate ∧ ¬ blk.uses ll event ∧
        ∀ w, blk.writes event = some w → w.contextId ≠ req.contextId →
          ∀ b, req.Touches b → ¬ w.Touches b := by
  obtain ⟨l, hl, hmatch⟩ : ∃ l ∈ (after history).lockList, l.matches req = true := by
    simpa [checkWrite] using h
  -- the lock that lets it succeed is the one of a load-locked that every later call kept
  obtain ⟨before, made, since, hhistory, ⟨ll, hmade, hlock⟩, hkept⟩ :=
    Lib.exists_origin (fun blk l => l ∈ blk.lockList)
      (fun e l => ∃ ll, e = Event.trackLoadLocked ll ∧ l = Lock.new ll) Keeps
      (fun _ => not_mem_nil) (fun es _ _ => kept_of_mem_step (pairwise_after es)) history l hl
  rw [hmade] at hhistory hkept
  rw [hlock] at hmatch hkept
  obtain ⟨hcontext, hcontains⟩ := Lock.matches_new.mp hmatch
  refine ⟨before, ll, since, hhistory, hcontext, hcontains, fun front event back hcut => ?_⟩
  intro blk
  have hkeeps : Keeps blk event (Lock.new ll) := hkept front event back hcut
  refine ⟨?_, ?_, ?_⟩
  · rintro rfl
    exact hkeeps
  · rintro ⟨sc, rfl, hsuccess, huse⟩
    have hmiss := hkeeps.2 rfl hsuccess
    rw [Lock.matches_new.mpr huse] at hmiss
    cases hmiss
  · intro w hw hother b hreq hb
    cases event with
    | checkWrite =>
      simp only [writes] at hw
      split at hw
      · cases hw
        have hmiss := hkeeps.1 fun heq => hother (heq.trans hcontext)
        rw [Lock.intersects_new (hcontains b hreq) hb] at hmiss
        cases hmiss
      · cases hw
    | trackLoadLocked | invalidate => cases hw

/-- A word at `addr`. -/
def wordAt (contextId : Int) (addr : Nat) (haddr : addr < 2 ^ 12) : BlkRequest :=
  { contextId := contextId, paddr := BitVec.ofNat 64 addr, size := 8, nonempty := by decide
    fits := by rw [BitVec.toNat_ofNat]; omega }

/-- Context 1 reserves a word, context 2 writes the next one, and the conditional of context 1
succeeds: the reservation contains its word, and context 2 has not written to it. -/
theorem storeConditional_reserved_word :
    ∃ before ll since,
      [.trackLoadLocked (wordAt 1 0x40 (by decide)), .checkWrite false (wordAt 2 0x48 (by decide))]
        = before ++ Event.trackLoadLocked ll :: since ∧
      ll.contextId = 1 ∧ ll.Contains (wordAt 1 0x40 (by decide)) ∧
      ∀ front event back, since = front ++ event :: back → event ≠ .invalidate ∧
        ∀ w, (after (before ++ .trackLoadLocked ll :: front)).writes event = some w →
          w.contextId ≠ 1 → ∀ b, (wordAt 1 0x40 (by decide)).Touches b → ¬ w.Touches b := by
  obtain ⟨before, ll, since, hhistory, hcontext, hcontains, hsince⟩ :=
    storeConditional_reserved [.trackLoadLocked (wordAt 1 0x40 (by decide)),
      .checkWrite false (wordAt 2 0x48 (by decide))] (wordAt 1 0x40 (by decide)) (by decide)
  refine ⟨before, ll, since, hhistory, hcontext, hcontains, fun front event back hcut => ?_⟩
  obtain ⟨hvalid, -, hwrites⟩ := hsince front event back hcut
  exact ⟨hvalid, hwrites⟩

end CacheBlk

end Gem5.Mem
