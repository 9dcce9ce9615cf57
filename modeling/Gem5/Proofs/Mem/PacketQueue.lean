import Mathlib.Data.List.Range
import Mathlib.Data.List.TakeWhile
import Gem5.Lib.Run
import Gem5.Mem.PacketQueue

/-!
# `Gem5.Proofs.Mem.PacketQueue`: no packet is lost and no wakeup is missed

`history` is the list of all packets of a queue: the accepted ones in the order in which they
were accepted, then the queued ones in the order of the list. A send moves the border between
the two parts and nothing else. `schedSendTiming` puts one packet into the second part.

`Core` is the invariant that also holds while a send is in progress, when the peer calls back.
`Inv` adds what holds between two events: a queue with packets waits for a retry or has its
event scheduled.
-/

namespace Gem5.Mem.PacketQueue

open List DeferredPacket Gem5.Lib

variable {q q' : PacketQueue}

/-! ### Calls that return -/

/-- The computation returns a value with `P`, or it is stopped by the sanity check. -/
def Settles (x : Except Fault PacketQueue) (P : PacketQueue → Prop) : Prop :=
  (∃ q, x = .ok q ∧ P q) ∨ x = .error grownBeyond

variable {P : PacketQueue → Prop} {e : Event}

theorem settles_ok (h : P q) : Settles (.ok q) P :=
  .inl ⟨q, rfl, h⟩

variable {Q : PacketQueue → Prop} {answer : Answer} {rest : List DeferredPacket}
  {dp : DeferredPacket} {x : Except Fault PacketQueue}

theorem Settles.bind {f : PacketQueue → Except Fault PacketQueue} (hx : Settles x P)
    (hf : ∀ q, P q → Settles (f q) Q) : Settles (x >>= f) Q := by
  rcases hx with ⟨q, rfl, hq⟩ | rfl
  · exact hf q hq
  · exact .inr rfl

theorem Settles.mono (hx : Settles x P) (h : ∀ q, P q → Q q) : Settles x Q :=
  hx.imp_left fun ⟨q, hq, hP⟩ => ⟨q, hq, h q hP⟩

/-! ### The invariant -/

/-- The accepted packets and then the queued ones. -/
def history (q : PacketQueue) : List DeferredPacket :=
  q.accepted.map Prod.snd ++ q.transmitList

variable (a b : DeferredPacket)

/-- The order of ticks, and of the calls among equal ticks. -/
def Before : Prop :=
  a.tick < b.tick ∨ a.tick = b.tick ∧ a.order < b.order

/-- Packets to one address are in the order of the calls. -/
def InOrder : Prop :=
  a.pkt.matchAddr b.pkt = true → a.order < b.order

/-- The send event comes when the first packet is ready, or one tick after now. -/
def OnTime (q : PacketQueue) (tick : Nat) : Prop :=
  q.deferredPacketReadyTime ≤ tick ∧ q.curTick ≤ tick ∧
    tick ≤ max q.deferredPacketReadyTime (q.curTick + 1)

/-- What holds at all times. -/
structure Core (q : PacketQueue) : Prop where
  clock : q.curTick < maxTick
  once : (q.history.map order).Perm (List.range q.calls)
  accepted : ∀ a ∈ q.accepted, a.2.tick ≤ a.1 ∧ a.1 ≤ q.curTick
  ticks : ∀ dp ∈ q.transmitList, dp.tick < maxTick
  sorted : q.forceOrder = false → q.history.Pairwise Before
  matched : q.forceOrder = true → q.history.Pairwise InOrder
  event : ∀ tick, q.sendEvent = some tick → q.waitingOnRetry = false ∧ q.OnTime tick

/-- A queue with packets waits for a retry or has its event scheduled. -/
def Awake (q : PacketQueue) : Prop :=
  q.transmitList ≠ [] → q.waitingOnRetry = true ∨ q.sendEvent.isSome = true

/-- What holds between two events. -/
structure Inv (q : PacketQueue) : Prop extends Core q where
  awake : q.Awake
  ready : q.waitingOnRetry = true → q.deferredPacketReadyTime ≤ q.curTick

/-- The queue is ready when its first packet is. -/
theorem readyTime_of_cons (hlist : q.transmitList = dp :: rest) :
    q.deferredPacketReadyTime = dp.tick := by
  rw [deferredPacketReadyTime, hlist]

/-- No event is scheduled during a wait for a retry. -/
theorem Core.sendEvent_eq_none (h : q.Core) (hw : q.waitingOnRetry = true) :
    q.sendEvent = none := by
  cases he : q.sendEvent with
  | none => rfl
  | some tick => cases hw.symm.trans (h.event tick he).1

/-- A packet whose ready time has come is there. -/
theorem Core.exists_ready (h : q.Core) (hready : q.deferredPacketReadyTime ≤ q.curTick) :
    ∃ dp rest, q.transmitList = dp :: rest ∧ dp.tick ≤ q.curTick := by
  unfold deferredPacketReadyTime at hready
  split at hready
  · exact absurd h.clock (Nat.not_lt.mpr hready)
  · exact ⟨_, _, ‹_›, hready⟩

/-- The clock does not go back, and a packet of the history that is ready keeps its place. -/
structure Keeps (q q' : PacketQueue) : Prop where
  clock : q.curTick ≤ q'.curTick
  place : ∀ (n : Nat) (dp : DeferredPacket), q.history[n]? = some dp →
    dp.tick ≤ q.curTick → q'.history[n]? = some dp

theorem Keeps.refl (q : PacketQueue) : q.Keeps q := ⟨Nat.le_refl _, fun _ _ h _ => h⟩

theorem Keeps.trans {q₁ q₂ q₃ : PacketQueue} (h : q₁.Keeps q₂) (h' : q₂.Keeps q₃) : q₁.Keeps q₃ :=
  ⟨h.clock.trans h'.clock, fun n dp hn htick =>
    h'.place n dp (h.place n dp hn htick) (htick.trans h.clock)⟩

/-! ### Insertion -/

/-- Where `emplaceBehind` puts a packet: behind the entries that need not stay in front of it. -/
theorem emplaceBehind_eq (stays : DeferredPacket → Bool) (dp : DeferredPacket)
    (l : List DeferredPacket) :
    emplaceBehind stays dp l = if l.dropWhile (!stays ·) = [] then none
      else some (l.takeWhile (!stays ·) ++ dp :: l.dropWhile (!stays ·)) := by
  induction l with
  | nil => rfl
  | cons it l ih =>
    cases hstays : stays it with
    | true => simp [emplaceBehind, hstays]
    | false =>
      rw [emplaceBehind, hstays, ih]
      by_cases hnil : l.dropWhile (!stays ·) = [] <;> simp [hstays, hnil]

/-- The packet of a call. -/
def deferred (q : PacketQueue) (pkt : Packet) (when : Nat) : DeferredPacket :=
  { tick := when, pkt := pkt, order := q.calls }

/-- The queue with the packet of a call behind the packets in `front`. -/
def inserted (q : PacketQueue) (pkt : Packet) (when : Nat)
    (front back : List DeferredPacket) : PacketQueue :=
  { q with transmitList := front ++ q.deferred pkt when :: back, calls := q.calls + 1 }

/-- The place of a packet: it is behind the last one that stays in front of it. -/
structure Place (q : PacketQueue) (pkt : Packet) (when : Nat)
    (front back : List DeferredPacket) : Prop where
  list : q.transmitList = front ++ back
  behind : ∀ it ∈ back, q.staysInFront pkt when it = false
  last : ∀ it ∈ front.getLast?, q.staysInFront pkt when it = true

/-- What `schedSendTiming` does with a packet that it takes. If the packet comes first, the event
is looked at. -/
theorem schedSendTiming_cases {pkt : Packet} {when : Nat} (hwhen : q.curTick ≤ when)
    (hsnoop : pkt.isExpressSnoop = false) :
    q.schedSendTiming pkt when = .error grownBeyond ∨
    ∃ front back, q.Place pkt when front back ∧
      q.schedSendTiming pkt when =
        if front = [] then schedSendEvent (q.inserted pkt when front back) when
        else .ok (q.inserted pkt when front back) := by
  unfold schedSendTiming
  simp only [hwhen, hsnoop, decide_true]
  by_cases hgrown : (!q.disableSanityCheck && decide (128 < q.transmitList.length)) = true
  · exact .inl (by simp only [hgrown]; rfl)
  refine .inr ⟨(q.transmitList.reverse.dropWhile (!q.staysInFront pkt when ·)).reverse,
    (q.transmitList.reverse.takeWhile (!q.staysInFront pkt when ·)).reverse, ⟨?_, ?_, ?_⟩, ?_⟩
  · rw [← reverse_append, takeWhile_append_dropWhile, reverse_reverse]
  · intro it hit
    simpa using mem_takeWhile_imp (mem_reverse.mp hit)
  · intro it hit
    rw [getLast?_reverse] at hit
    rw [← find?_eq_head?_dropWhile_not] at hit
    exact find?_some hit
  · simp only [hgrown, emplaceBehind_eq]
    by_cases hnil : q.transmitList.reverse.dropWhile (!q.staysInFront pkt when ·) = []
    · have hall := (takeWhile_append_dropWhile (p := (!q.staysInFront pkt when ·))
        (l := q.transmitList.reverse))
      rw [hnil, append_nil] at hall
      simp [hnil, hall, inserted, deferred]
      rfl
    · simp [hnil, inserted, deferred]
      rfl

theorem matchAddr_comm (p p' : Packet) : p.matchAddr p' = p'.matchAddr p := by
  rw [Packet.matchAddr, Packet.matchAddr, BEq.comm, BEq.comm (a := p.isSecure)]

section
variable {pkt : Packet} {when : Nat} {front back : List DeferredPacket}

theorem history_inserted : (q.inserted pkt when front back).history =
      q.accepted.map Prod.snd ++ front ++ q.deferred pkt when :: back := by
  simp [history, inserted]

theorem Core.order_lt (h : q.Core) {dp : DeferredPacket} (hdp : dp ∈ q.history) :
    dp.order < q.calls :=
  mem_range.mp (h.once.subset (mem_map_of_mem hdp))

theorem Place.history_eq (h : q.Place pkt when front back) :
    q.history = q.accepted.map Prod.snd ++ front ++ back := by
  simp [history, h.list]

/-- A packet behind the place is for a later tick. -/
theorem Place.lt_tick (h : q.Place pkt when front back) (hdp : dp ∈ back) : when < dp.tick := by
  have := h.behind dp hdp
  simp only [staysInFront, Bool.or_eq_false_iff, decide_eq_false_iff_not] at this
  exact Nat.lt_of_not_le this.2

/-- Without `forceOrder` the packets in front of the place are for ticks that are not later. -/
theorem Place.tick_le (h : q.Place pkt when front back) (hcore : q.Core)
    (hforce : q.forceOrder = false) (hdp : dp ∈ front) : dp.tick ≤ when := by
  obtain rfl | ⟨init, last, rfl⟩ := eq_nil_or_concat front
  · cases hdp
  have hlast : last.tick ≤ when := by
    simpa [staysInFront, hforce] using h.last last (by simp)
  rw [concat_eq_append] at *
  rcases mem_append.mp hdp with hdp | hdp
  · -- `dp` is before `last` in the list
    have hsorted := (pairwise_append.mp (hcore.sorted hforce)).2.1
    rw [h.list, append_assoc] at hsorted
    rcases (pairwise_append.mp hsorted).2.2 dp hdp last (by simp) with hlt | ⟨heq, -⟩ <;> omega
  · obtain rfl : dp = last := by simpa using hdp
    exact hlast

/-- The order of the history when a packet is inserted: it follows everything in front of it,
and comes before everything behind it. -/
theorem Place.pairwise_inserted {R : DeferredPacket → DeferredPacket → Prop}
    (hplace : q.Place pkt when front back) (h : q.history.Pairwise R)
    (hfront : ∀ x ∈ q.accepted.map Prod.snd ++ front, R x (q.deferred pkt when))
    (hback : ∀ x ∈ back, R (q.deferred pkt when) x) :
    (q.inserted pkt when front back).history.Pairwise R := by
  rw [hplace.history_eq, pairwise_append] at h
  rw [history_inserted, pairwise_append, pairwise_cons]
  refine ⟨h.1, ⟨hback, h.2.1⟩, fun x hx y hy => ?_⟩
  rcases mem_cons.mp hy with rfl | hy
  · exact hfront x hx
  · exact h.2.2 x hx y hy

/-- The packet of a call is inserted. The event is looked at afterwards. -/
theorem Core.inserted (h : q.Core) (hwhen : q.curTick ≤ when) (hmax : when < maxTick)
    (hplace : q.Place pkt when front back) :
    Core { q.inserted pkt when front back with sendEvent := none } := by
  have horder : ∀ x ∈ q.accepted.map Prod.snd ++ front, x.order < q.calls := fun x hx =>
    h.order_lt (hplace.history_eq ▸ mem_append_left _ hx)
  refine ⟨h.clock, ?_, h.accepted, fun dp hdp => ?_, fun hforce => ?_, fun hforce => ?_, by simp⟩
  · show ((q.inserted pkt when front back).history.map _).Perm (range (q.calls + 1))
    rw [history_inserted, range_succ]
    refine (perm_middle.map _).trans ?_
    rw [← hplace.history_eq]
    exact (h.once.cons q.calls).trans (perm_append_singleton _ _).symm
  · rcases mem_cons.mp (perm_middle.subset hdp) with rfl | hdp
    · exact hmax
    · exact h.ticks dp (hplace.list ▸ hdp)
  · refine hplace.pairwise_inserted (h.sorted hforce) (fun x hx => ?_)
      fun x hx => .inl (hplace.lt_tick hx)
    have htick : x.tick ≤ when := by
      rcases mem_append.mp hx with hx | hx
      · obtain ⟨a, ha, rfl⟩ := mem_map.mp hx
        exact (h.accepted a ha).1.trans ((h.accepted a ha).2.trans hwhen)
      · exact hplace.tick_le h hforce hx
    rcases Nat.lt_or_eq_of_le htick with hlt | heq
    · exact .inl hlt
    · exact .inr ⟨heq, horder x hx⟩
  · refine hplace.pairwise_inserted (h.matched hforce) (fun x hx _ => horder x hx)
      fun x hx hmatch => ?_
    have := hplace.behind x hx
    simp only [staysInFront, show q.forceOrder = true from hforce, Bool.true_and,
      Bool.or_eq_false_iff] at this
    rw [matchAddr_comm] at hmatch
    cases hmatch.symm.trans this.1

/-- And no packet that is ready loses its place. -/
theorem Place.keeps (hplace : q.Place pkt when front back) (hwhen : q.curTick ≤ when)
    (e : Option Nat) : q.Keeps { q.inserted pkt when front back with sendEvent := e } := by
  refine ⟨Nat.le_refl _, fun n dp hn htick => ?_⟩
  show (q.inserted pkt when front back).history[n]? = some dp
  rw [hplace.history_eq] at hn
  rw [history_inserted]
  by_cases hlt : n < (q.accepted.map Prod.snd ++ front).length
  · rwa [getElem?_append_left hlt] at hn ⊢
  · -- a packet behind the new one is not ready
    rw [getElem?_append_right (Nat.le_of_not_lt hlt)] at hn
    have := hplace.lt_tick (mem_of_getElem? hn)
    omega

end

/-! ### The send event -/

/-- `schedSendEvent` for the first packet. While the queue waits for a retry nothing is
scheduled, and otherwise the event is on time. -/
theorem schedSendEvent_spec (h : Core { q with sendEvent := none })
    (hempty : q.transmitList = [] → q.Core)
    (hevent : ∀ tick, q.sendEvent = some tick → q.waitingOnRetry = false ∧
      q.deferredPacketReadyTime ≤ tick ∧ q.curTick ≤ tick) :
    ∃ e, q.schedSendEvent q.deferredPacketReadyTime = .ok { q with sendEvent := e } ∧
      Core { q with sendEvent := e } ∧ Awake { q with sendEvent := e } := by
  unfold schedSendEvent
  by_cases hw : q.waitingOnRetry = true
  · have hnone : q.sendEvent = none := by
      cases he : q.sendEvent with
      | none => rfl
      | some tick => cases hw.symm.trans (hevent tick he).1
    refine ⟨none, ?_, h, fun _ => .inl hw⟩
    rw [if_pos hw, ← hnone, assert, if_pos (by rw [hnone]; rfl)]
    rfl
  rw [if_neg hw]
  -- an event that is on time may be scheduled, or stay
  have hset : ∀ tick, q.OnTime tick →
      Core { q with sendEvent := some tick } ∧ Awake { q with sendEvent := some tick } := by
    refine fun tick htick => ⟨{ h with event := ?_ }, fun _ => .inr rfl⟩
    rintro _ ⟨⟩
    exact ⟨by simpa using hw, htick⟩
  split
  case isTrue =>
    have hsoon : (q.curTick + 1) % 2 ^ 64 = q.curTick + 1 :=
      Nat.mod_eq_of_lt (Nat.succ_lt_succ (m := 2 ^ 64 - 1) h.clock)
    rw [hsoon]
    generalize hsoonest : max q.deferredPacketReadyTime (q.curTick + 1) = soonest
    have hcur : q.curTick ≤ soonest := by omega
    have hschedule : q.schedule soonest = .ok { q with sendEvent := some soonest } := by
      simp [schedule, assert, hcur]
    have hontime := hset soonest ⟨by omega, hcur, hsoonest.ge⟩
    cases he : q.sendEvent with
    | none => exact ⟨_, hschedule, hontime⟩
    | some tick =>
      show ∃ e, (if soonest < tick then _ else _) = _ ∧ _
      by_cases hlt : soonest < tick
      · rw [if_pos hlt]
        exact ⟨_, hschedule, hontime⟩
      · rw [if_neg hlt]
        refine ⟨some tick, by rw [← he]; rfl, hset tick ?_⟩
        exact ⟨(hevent tick he).2.1, (hevent tick he).2.2, by omega⟩
  case isFalse hready =>
    -- there is no packet, and the event stays
    have hlist : q.transmitList = [] := by
      by_contra hne
      obtain ⟨dp, rest, hlist⟩ := exists_cons_of_ne_nil hne
      exact hready (readyTime_of_cons hlist ▸ (h.ticks dp (by simp [hlist])).ne)
    exact ⟨q.sendEvent, rfl, hempty hlist, fun hne => absurd hlist hne⟩

/-! ### Calls -/

/-- What callers of `schedSendTiming` keep to. -/
def CallAllowed (q : PacketQueue) (call : Packet × Nat) : Prop :=
  q.curTick ≤ call.2 ∧ call.2 < maxTick ∧ call.1.isExpressSnoop = false

instance (call : Packet × Nat) : Decidable (q.CallAllowed call) :=
  inferInstanceAs (Decidable (_ ∧ _ ∧ _))

/-- What calls of `schedSendTiming` leave alone, and what they keep. -/
structure Queued (q q' : PacketQueue) : Prop where
  core : q'.Core
  keeps : q.Keeps q'
  clock : q'.curTick = q.curTick
  waiting : q'.waitingOnRetry = q.waitingOnRetry
  accepted : q'.accepted = q.accepted

/-- A call of `schedSendTiming` is queued, and the send event is due in time. -/
theorem schedSendTiming_settles (h : q.Core) {call : Packet × Nat} (hcall : q.CallAllowed call) :
    Settles (q.schedSendTiming call.1 call.2) fun q' => q.Queued q' ∧ (q.Awake → q'.Awake) := by
  obtain ⟨pkt, when⟩ := call
  obtain ⟨hwhen, hmax, hsnoop⟩ := hcall
  obtain hgrown | ⟨front, back, hplace, heq⟩ := schedSendTiming_cases hwhen hsnoop
  · exact .inr hgrown
  have hcore := h.inserted hwhen hmax hplace
  rw [heq]
  cases front with
  | cons first front =>
    -- the first packet is the same, and so is the event
    have hready : q.deferredPacketReadyTime = first.tick := readyTime_of_cons hplace.list
    refine settles_ok ⟨⟨{ hcore with event := fun tick he => ?_ }, hplace.keeps hwhen _, rfl, rfl,
      rfl⟩, fun hawake _ => hawake (by simp [hplace.list])⟩
    have := h.event tick he
    rwa [OnTime, hready] at this
  | nil =>
    have hready : when ≤ q.deferredPacketReadyTime := by
      rw [deferredPacketReadyTime, hplace.list]
      cases back with
      | nil => exact hmax.le
      | cons => exact (hplace.lt_tick mem_cons_self).le
    obtain ⟨e, hsched, hcore', hawake⟩ := schedSendEvent_spec hcore nofun fun tick he => by
      obtain ⟨hw, htick, hcur, -⟩ := h.event tick he
      exact ⟨hw, hready.trans htick, hcur⟩
    exact .inl ⟨_, hsched, ⟨hcore', hplace.keeps hwhen e, rfl, rfl, rfl⟩, fun _ => hawake⟩

/-- The calls of the peer from inside `sendTiming`. -/
theorem callBack_settles (calls : List (Packet × Nat)) (h : q.Core)
    (hcalls : ∀ call ∈ calls, q.CallAllowed call) :
    Settles (q.callBack calls) q.Queued := by
  induction calls generalizing q with
  | nil => exact settles_ok ⟨h, .refl q, rfl, rfl, rfl⟩
  | cons call calls ih =>
    refine (schedSendTiming_settles h (hcalls call mem_cons_self)).bind fun q₁ ⟨h₁, _⟩ => ?_
    refine (ih h₁.core fun call' hcall' => ?_).mono fun q₂ h₂ => ?_
    · have := hcalls call' (mem_cons_of_mem call hcall')
      rwa [CallAllowed, h₁.clock]
    · exact ⟨h₂.core, h₁.keeps.trans h₂.keeps, h₂.clock.trans h₁.clock,
        h₂.waiting.trans h₁.waiting, h₂.accepted.trans h₁.accepted⟩

/-! ### Sends -/

/-- The calls of an answer keep to the rules. -/
def AnswerAllowed (q : PacketQueue) : Answer → Prop
  | .refuse => True
  | .accept calls => ∀ call ∈ calls, q.CallAllowed call

instance : (answer : Answer) → Decidable (q.AnswerAllowed answer)
  | .refuse => .isTrue trivial
  | .accept _ => inferInstanceAs (Decidable (∀ _ ∈ _, _))

section
variable {dp : DeferredPacket} {rest : List DeferredPacket} (hw : q.waitingOnRetry = false)
  (hlist : q.transmitList = dp :: rest) (htick : dp.tick ≤ q.curTick)

include hw hlist htick

theorem sendDeferredPacket_refuse :
    q.sendDeferredPacket .refuse = .ok { q with waitingOnRetry := true } := by
  obtain ⟨force, check, cur, list, event, waiting, calls, accepted⟩ := q
  subst hw hlist
  simp only [sendDeferredPacket, assert, htick, decide_true]
  rfl

theorem sendDeferredPacket_accept (calls : List (Packet × Nat)) :
    q.sendDeferredPacket (.accept calls) =
      (callBack { q with transmitList := rest, accepted := q.accepted ++ [(q.curTick, dp)] } calls
        >>= fun q => schedSendEvent { q with waitingOnRetry := false }
          { q with waitingOnRetry := false }.deferredPacketReadyTime) := by
  obtain ⟨force, check, cur, list, event, waiting, n, accepted⟩ := q
  subst hw hlist
  simp only [sendDeferredPacket, assert, htick, decide_true]
  rfl

end

/-- The packet `dp` was handed to the peer, and it was accepted, or the list is as before and
the queue waits for a retry. -/
def Handed (q : PacketQueue) (dp : DeferredPacket) (answer : Answer) (q' : PacketQueue) : Prop :=
  if answer = .refuse then
    q'.transmitList = q.transmitList ∧ q'.waitingOnRetry = true ∧ q'.accepted = q.accepted
  else q'.accepted = q.accepted ++ [(q.curTick, dp)]

/-- A send hands the first packet to the peer. -/
theorem sendDeferredPacket_settles (h : q.Core) (hw : q.waitingOnRetry = false)
    (he : q.sendEvent = none) (hlist : q.transmitList = dp :: rest) (htick : dp.tick ≤ q.curTick)
    (hanswer : q.AnswerAllowed answer) :
    Settles (q.sendDeferredPacket answer)
      fun q' => (q'.Inv ∧ q.Keeps q') ∧ q.Handed dp answer q' := by
  cases answer with
  | refuse =>
    rw [sendDeferredPacket_refuse hw hlist htick]
    refine settles_ok ⟨⟨⟨{ h with event := ?_ }, fun _ => .inl rfl,
      fun _ => (readyTime_of_cons hlist).trans_le htick⟩, Nat.le_refl _, fun _ _ hn _ => hn⟩,
      by simp [Handed]⟩
    intro tick htick
    cases he.symm.trans htick
  | accept calls =>
    rw [sendDeferredPacket_accept hw hlist htick]
    -- the packet moves from one part of the history to the other
    let sending : PacketQueue :=
      { q with transmitList := rest, accepted := q.accepted ++ [(q.curTick, dp)] }
    have hhistory : sending.history = q.history := by simp [sending, history, hlist]
    have hsending : sending.Core := by
      refine ⟨h.clock, hhistory ▸ h.once, fun a ha => ?_, fun x hx => ?_, hhistory ▸ h.sorted,
        hhistory ▸ h.matched, fun tick htick => ?_⟩
      · rcases mem_append.mp ha with ha | ha
        · exact h.accepted a ha
        · obtain rfl : a = (q.curTick, dp) := by simpa using ha
          exact ⟨htick, Nat.le_refl _⟩
      · exact h.ticks x (by rw [hlist]; exact mem_cons_of_mem dp hx)
      · cases he.symm.trans htick
    refine (callBack_settles calls hsending hanswer).bind fun q₁ h₁ => ?_
    have hw₁ : q₁.waitingOnRetry = false := h₁.waiting.trans hw
    have hq₁ : { q₁ with waitingOnRetry := false } = q₁ := by rw [← hw₁]
    obtain ⟨e, hsched, hcore, hawake⟩ := schedSendEvent_spec { h₁.core with event := by simp }
      (fun _ => h₁.core) fun tick he => by
        obtain ⟨-, htick, hcur, -⟩ := h₁.core.event tick he
        exact ⟨hw₁, htick, hcur⟩
    rw [hq₁, hsched]
    refine settles_ok ⟨⟨⟨hcore, hawake, fun hwaits => ?_⟩, h₁.keeps.clock,
      fun n x hn => h₁.keeps.place n x (hhistory ▸ hn)⟩, ?_⟩
    · cases hw₁.symm.trans hwaits
    · rw [Handed, if_neg (by simp)]
      exact h₁.accepted

/-! ### Events -/

/-- What the surroundings of the queue keep to. The clock does not pass the send event, the event
is processed at its tick, and the peer asks for a packet again only after it refused one. -/
def Allowed (q : PacketQueue) : Event → Prop
  | .advance tick => q.curTick ≤ tick ∧ tick < maxTick ∧ q.sendEvent.all (fun t => tick ≤ t) = true
  | .schedSendTiming pkt when => q.CallAllowed (pkt, when)
  | .sendEvent answer => q.sendEvent = some q.curTick ∧ q.AnswerAllowed answer
  | .retry answer => q.waitingOnRetry = true ∧ q.AnswerAllowed answer

instance : (e : Event) → Decidable (q.Allowed e)
  | .advance _ => inferInstanceAs (Decidable (_ ∧ _ ∧ _))
  | .schedSendTiming .. => inferInstanceAs (Decidable (q.CallAllowed _))
  | .sendEvent _ | .retry _ => inferInstanceAs (Decidable (_ ∧ _))

theorem inv_new (forceOrder disableSanityCheck : Bool) :
    (new forceOrder disableSanityCheck).Inv := by
  constructor <;> (try constructor) <;> simp [new, maxTick, history, Awake]

/-- A send event or a retry hands the first packet to the peer. -/
theorem send_settles (h : q.Inv) (he : q.Allowed e)
    (hsend : e = .sendEvent answer ∨ e = .retry answer) :
    ∃ dp rest, q.transmitList = dp :: rest ∧
      Settles (q.handle e) fun q' => (q'.Inv ∧ q.Keeps q') ∧ q.Handed dp answer q' := by
  -- both clear what brought them here, and then send
  have hsends : q.deferredPacketReadyTime ≤ q.curTick → q.AnswerAllowed answer →
      q.handle e = sendDeferredPacket { q with sendEvent := none, waitingOnRetry := false } answer →
      ∃ dp rest, q.transmitList = dp :: rest ∧
        Settles (q.handle e) fun q' => (q'.Inv ∧ q.Keeps q') ∧ q.Handed dp answer q' := by
    intro hready hanswer hhandle
    obtain ⟨dp, rest, hlist, htick⟩ := h.exists_ready hready
    rw [hhandle]
    refine ⟨dp, rest, hlist, Settles.mono (sendDeferredPacket_settles
      { h.toCore with event := by simp } rfl rfl hlist htick hanswer)
      fun q' hq' => ⟨⟨hq'.1.1, hq'.1.2.clock, hq'.1.2.place⟩, hq'.2⟩⟩
  obtain rfl | rfl := hsend
  · obtain ⟨hnow, hanswer⟩ := he
    obtain ⟨hw, htick, -⟩ := h.event _ hnow
    refine hsends htick hanswer ?_
    simp only [handle, processSendEvent, hw]
    rfl
  · obtain ⟨hw, hanswer⟩ := he
    refine hsends (h.ready hw) hanswer ?_
    simp only [handle, retry, hw, ← h.sendEvent_eq_none hw]
    rfl

/-- An event that is allowed returns or is stopped by the sanity check. -/
theorem handle_settles (h : q.Inv) (he : q.Allowed e) :
    Settles (q.handle e) fun q' => q'.Inv ∧ q.Keeps q' := by
  cases e with
  | advance tick =>
    obtain ⟨hle, hmax, hevent⟩ := he
    refine settles_ok ⟨⟨{ h.toCore with clock := hmax, accepted := ?_, event := ?_ }, h.awake,
      fun hw => (h.ready hw).trans hle⟩, hle, fun _ _ hn _ => hn⟩
    · exact fun a ha => ⟨(h.accepted a ha).1, (h.accepted a ha).2.trans hle⟩
    · intro t ht
      obtain ⟨hw, htick, -, hsoon⟩ := h.event t ht
      rw [show q.sendEvent = some t from ht] at hevent
      refine ⟨hw, htick, by simpa using hevent, hsoon.trans ?_⟩
      show max q.deferredPacketReadyTime (q.curTick + 1) ≤ max q.deferredPacketReadyTime (tick + 1)
      omega
  | schedSendTiming =>
    refine (schedSendTiming_settles h.toCore he).mono fun q' ⟨hq', hawake⟩ => ?_
    refine ⟨⟨hq'.core, hawake h.awake, fun hw => ?_⟩, hq'.keeps⟩
    -- while the queue waits, its first packet is ready and so keeps its place
    obtain ⟨dp, rest, hlist, htick⟩ := h.exists_ready (h.ready (hq'.waiting ▸ hw))
    have hplace := hq'.keeps.place q.accepted.length dp (by simp [history, hlist]) htick
    rw [history, hq'.accepted, getElem?_append_right (by simp), length_map, Nat.sub_self,
      ← head?_eq_getElem?, head?_eq_some_iff] at hplace
    obtain ⟨rest', hlist'⟩ := hplace
    rwa [readyTime_of_cons hlist', hq'.clock]
  | sendEvent =>
    obtain ⟨_, _, _, hsettles⟩ := send_settles h he (.inl rfl)
    exact hsettles.mono fun _ hq' => hq'.1
  | retry =>
    obtain ⟨_, _, _, hsettles⟩ := send_settles h he (.inr rfl)
    exact hsettles.mono fun _ hq' => hq'.1

/-! ### Runs -/

theorem step_keeps (h : q.Inv) (he : q.Allowed e) (hstep : q.step e = some q') :
    q'.Inv ∧ q.Keeps q' := by
  obtain ⟨q₁, hq₁, hkept⟩ | hgrown := handle_settles h he
  · obtain rfl : q₁ = q' := by simpa [step, hq₁, Except.toOption] using hstep
    exact hkept
  · simp [step, hgrown, Except.toOption] at hstep

theorem run_keeps {es : List Event} (h : q.Inv) (hmeets : RunMeets step Allowed q es)
    (hrun : run step q es = some q') : q'.Inv ∧ q.Keeps q' := by
  refine run_invariant_of_meets (P := fun s => s.Inv ∧ q.Keeps s) ?_ ⟨h, .refl q⟩ hmeets hrun
  rintro s e s' ⟨hs, hkeeps⟩ he hstep
  obtain ⟨hs', hkeeps'⟩ := step_keeps hs he hstep
  exact ⟨hs', hkeeps.trans hkeeps'⟩

/-- Nothing is lost, nothing is sent twice or early, and no wakeup is missed. -/
structure Sound (q : PacketQueue) : Prop where
  /-- Each call has put one packet into the queue, and it is queued or was accepted. -/
  once : (q.history.map order).Perm (List.range q.calls)
  /-- No packet is accepted before its tick. -/
  notEarly : ∀ a ∈ q.accepted, a.2.tick ≤ a.1
  /-- Without `forceOrder` packets are accepted in the order of their ticks. -/
  byTick : q.forceOrder = false → (q.accepted.map Prod.snd).Pairwise Before
  /-- With `forceOrder` packets to one address are accepted in the order of the calls. -/
  byAddr : q.forceOrder = true → (q.accepted.map Prod.snd).Pairwise InOrder
  /-- A queue with packets waits for a retry, or its event is on time. -/
  awake : ∀ dp rest, q.transmitList = dp :: rest → q.waitingOnRetry = true ∨
    ∃ tick, q.sendEvent = some tick ∧ tick ≤ max dp.tick (q.curTick + 1)
  /-- An event returns, unless the sanity check stops it. No assertion fails. -/
  returns : ∀ e, q.Allowed e → (∃ q', q.handle e = .ok q') ∨ q.handle e = .error grownBeyond
  /-- A send event or a retry hands the first packet to the peer. It is accepted, or it stays
  first and the queue waits. -/
  handed : ∀ e answer q', q.Allowed e → (e = .sendEvent answer ∨ e = .retry answer) →
    q.handle e = .ok q' → ∃ dp rest, q.transmitList = dp :: rest ∧ q.Handed dp answer q'

/-- What the invariant says about the packets that were accepted. -/
theorem Inv.sound (h : q.Inv) : q.Sound where
  once := h.once
  notEarly a ha := (h.accepted a ha).1
  byTick hforce := (List.pairwise_append.mp (h.sorted hforce)).1
  byAddr hforce := (List.pairwise_append.mp (h.matched hforce)).1
  awake dp rest hlist := by
    rcases h.awake (by simp [hlist]) with hw | hsome
    · exact .inl hw
    · obtain ⟨tick, he⟩ := Option.isSome_iff_exists.mp hsome
      obtain ⟨-, -, -, hsoon⟩ := h.event tick he
      exact .inr ⟨tick, he, readyTime_of_cons hlist ▸ hsoon⟩
  returns e he := (handle_settles h he).imp_left fun ⟨q', hq', _⟩ => ⟨q', hq'⟩
  handed e answer q' he hsend hq' := by
    obtain ⟨dp, rest, hlist, ⟨q₁, hq₁, -, hhanded⟩ | hgrown⟩ := send_settles h he hsend
    · obtain rfl : q₁ = q' := Except.ok.inj (hq₁.symm.trans hq')
      exact ⟨dp, rest, hlist, hhanded⟩
    · cases hgrown.symm.trans hq'

/-- In every run whose surroundings keep to their rules the queue is sound. A packet that is
ready, with `n` packets in front of it, is among the next `n + 1` that are accepted. -/
theorem packetQueue_sound (forceOrder disableSanityCheck : Bool) (es : List Event)
    (hmeets : RunMeets step Allowed (new forceOrder disableSanityCheck) es) (q : PacketQueue)
    (hrun : run step (new forceOrder disableSanityCheck) es = some q) :
    q.Sound ∧ ∀ (n : Nat) (dp : DeferredPacket), q.transmitList[n]? = some dp →
      dp.tick ≤ q.curTick → ∀ (es' : List Event) (q' : PacketQueue), RunMeets step Allowed q es' →
        run step q es' = some q' → q.accepted.length + n < q'.accepted.length →
        dp ∈ q'.accepted.map Prod.snd := by
  obtain ⟨h, -⟩ := run_keeps (inv_new forceOrder disableSanityCheck) hmeets hrun
  refine ⟨h.sound, fun n dp hn htick es' q' hmeets' hrun' hlt => ?_⟩
  obtain ⟨-, hkeeps⟩ := run_keeps h hmeets' hrun'
  have hplace := hkeeps.place (q.accepted.length + n) dp
    (by rw [history, getElem?_append_right (by simp)]; simpa using hn) htick
  rw [history, getElem?_append_left (by simpa using hlt)] at hplace
  exact mem_of_getElem? hplace

/-- A packet to an address. -/
def packetTo (addr : Nat) : Packet :=
  { addr := addr, isSecure := false, isExpressSnoop := false }

/-- Two packets are queued, the second for an earlier tick. The first send is refused and then
accepted in the retry, and the peer queues a third packet from inside. -/
def refusedOnce : List Event :=
  [.schedSendTiming (packetTo 0) 5, .schedSendTiming (packetTo 64) 3, .advance 3,
    .sendEvent .refuse, .advance 4, .retry (.accept [(packetTo 128, 4)]), .advance 5]

/-- The third packet is next, and the first one comes after it. -/
theorem packetQueue_sound_refusedOnce :
    ∃ q, run step (new false false) refusedOnce = some q ∧ q.accepted = [(4, ⟨3, packetTo 64, 1⟩)] ∧
      q.transmitList = [⟨4, packetTo 128, 2⟩, ⟨5, packetTo 0, 0⟩] ∧ q.sendEvent = some 5 ∧
      q.Sound := by
  refine ⟨_, rfl, rfl, rfl, rfl, ?_⟩
  exact (packetQueue_sound false false refusedOnce (by decide) _ rfl).1

/-- A packet for `MaxTick` is queued, and no event is scheduled for it. -/
theorem maxTick_not_scheduled :
    ∃ q, run step (new false false) [.schedSendTiming (packetTo 0) maxTick] = some q ∧
      q.transmitList ≠ [] ∧ q.waitingOnRetry = false ∧ q.sendEvent = none :=
  ⟨_, rfl, by simp [new], rfl, rfl⟩

end Gem5.Mem.PacketQueue
