import Gem5.Proofs.Sim.EventQueue

/-!
# `Gem5.Proofs.Sim.EventQueueSpec`: what `insert` and `remove` do

`insert_spec` and `remove_spec` are the two results: from a queue whose pointers hold a list of
bins, the code returns, and the pointers then hold the list with the event placed or dropped.
Neither changes anything but links and the head (`Relinked`). The walks along the bins are
`findBin_spec`, and the walk down a bin is `removeInBin_spec`.
-/

namespace Gem5.Sim

open Function List Option Gem5.Lib

namespace EventQueue

section
variable {q : EventQueue} {p : Ptr} {e : Event}

theorem returns_deref_iff {Q : Event → EventQueue → Prop} :
    Returns (deref p) q Q ↔ ∃ e, q.heap p = some e ∧ Q e q := by
  unfold deref
  rw [returns_bind, returns_get]
  cases q.heap p <;> simp

theorem returns_deref {Q : Event → EventQueue → Prop} (h : q.heap p = some e) :
    Returns (deref p) q Q ↔ Q e q := by
  rw [returns_deref_iff, h]
  simp

variable {Q : Unit → EventQueue → Prop}

theorem returns_update {f : Event → Event} (h : q.heap p = some e) :
    Returns (update p f) q Q ↔ Q () { q with heap := Function.update q.heap p (some (f e)) } := by
  unfold update
  rw [returns_bind, returns_deref h, returns_modify]

theorem returns_followBin {Q : Option Ptr → EventQueue → Prop} (h : q.heap p = some e) :
    Returns (followBin p) q Q ↔ Q e.nextBin { q with followed := p :: q.followed } := by
  unfold followBin
  rw [returns_bind, returns_deref h, returns_bind, returns_modify, returns_pure]

theorem returns_assert {condition : Bool} {text : String} :
    Returns (assert condition text) q Q ↔ condition = true ∧ Q () q := by
  unfold assert
  cases condition with
  | true | false => simp

end

/-- The parts of the queue that inserting and removing events leave alone. Only events of `ts` had
their `nextBin` followed. -/
structure Steady (ts : List Ptr) (q q' : EventQueue) : Prop where
  followed : ∀ p ∈ q'.followed, p ∈ q.followed ∨ p ∈ ts
  curTick : q'.curTick = q.curTick
  inService : q'.inService = q.inService

theorem Steady.trans {ts ts' : List Ptr} {q₁ q₂ q₃ : EventQueue} (h₁ : Steady ts q₁ q₂)
    (h₂ : Steady ts' q₂ q₃) : Steady (ts ++ ts') q₁ q₃ where
  followed p hp := by
    rw [mem_append]
    rcases h₂.followed p hp with hp | hp
    · exact (h₁.followed p hp).imp_right .inl
    · exact .inr (.inr hp)
  curTick := h₂.curTick.trans h₁.curTick
  inService := h₂.inService.trans h₁.inService

/-- `q'` comes from `q` by writing links and the head. -/
structure Relinked (ts : List Ptr) (q q' : EventQueue) : Prop extends Steady ts q q' where
  data : ∀ p, (q'.heap p).map Event.data = (q.heap p).map Event.data
  addresses : q'.addresses = q.addresses

namespace Relinked

theorem refl (ts : List Ptr) (q : EventQueue) : Relinked ts q q :=
  ⟨⟨fun _ hp => .inl hp, rfl, rfl⟩, fun _ => rfl, rfl⟩

variable {q : EventQueue} {p : Ptr} {ts : List Ptr}

theorem trans {q₁ q₂ q₃ : EventQueue} (h₁ : Relinked ts q₁ q₂) (h₂ : Relinked ts q₂ q₃) :
    Relinked ts q₁ q₃ where
  toSteady :=
    { h₁.toSteady.trans h₂.toSteady with
      followed := fun p hp => by simpa using (h₁.toSteady.trans h₂.toSteady).followed p hp }
  data p := (h₂.data p).trans (h₁.data p)
  addresses := h₂.addresses.trans h₁.addresses

variable {e : Event} {q' : EventQueue}

theorem mono {ts' : List Ptr} (h : Relinked ts q q') (hts : ∀ p ∈ ts, p ∈ ts') :
    Relinked ts' q q' :=
  { h with followed := fun p hp => (h.followed p hp).imp_right (hts p) }

/-- A link is written, and the data of the event stays. -/
theorem update {e' : Event} (he : q.heap p = some e) (hdata : e'.data = e.data) :
    Relinked ts q { q with heap := Function.update q.heap p (some e') } where
  data r := by
    show ((Function.update q.heap p (some e')) r).map Event.data = _
    by_cases hr : r = p
    · subst hr
      rw [update_self, he, map_some, map_some, hdata]
    · rw [update_of_ne hr]
  followed _ hp := .inl hp
  curTick := rfl
  addresses := rfl
  inService := rfl

theorem follow (hp : p ∈ ts) : Relinked ts q { q with followed := p :: q.followed } where
  data _ := rfl
  followed r hr := by
    rcases mem_cons.mp hr with rfl | hr
    · exact .inr hp
    · exact .inl hr
  curTick := rfl
  addresses := rfl
  inService := rfl

theorem head (ts : List Ptr) (q : EventQueue) (o : Option Ptr) :
    Relinked ts q { q with head := o } :=
  ⟨⟨fun _ hp => .inl hp, rfl, rfl⟩, fun _ => rfl, rfl⟩

/-- An event is still there, with other links. -/
theorem exists_data (h : Relinked ts q q') (he : q.heap p = some e) :
    ∃ e', q'.heap p = some e' ∧ e'.data = e.data := by
  have hdata := h.data p
  rw [he, map_some, map_eq_some_iff] at hdata
  exact hdata

end Relinked

/-- The first bin has a key that is not below `k`. -/
def FirstNotBelow (k : Key) (bins : List Bin) : Prop :=
  ∀ b ∈ bins.head?, k ≤ b.key

variable {e : Event} {bins : List Bin} {q : EventQueue} {event : Ptr}

/-- `insertBefore` places the event in front of the bins that start at `curr`. -/
theorem insertBefore_spec {curr : Option Ptr} (hrep : Rep q.heap curr bins)
    (he : q.heap event = some e) (hnew : event ∉ members bins) (hfirst : FirstNotBelow e.key bins) :
    Returns (insertBefore event curr) q fun top q' =>
      top = event ∧ q'.head = q.head ∧ Rep q'.heap (some event) (place e.key event bins) ∧
      (∀ r, r ≠ event → q'.heap r = q.heap r) ∧ Relinked (tops bins) q q' := by
  have hnodup := nodup_members_place (k := e.key) hrep.nodup hnew
  have hsorted := sorted_place (k := e.key) (p := event) hrep.sorted
  -- what is written to the event does not touch the other ones
  have hother : ∀ e' : Event, ∀ r, r ≠ event →
      Function.update q.heap event (some e') r = q.heap r := fun e' r hr =>
    update_of_ne hr _ _
  have hbins : ∀ e' : Event, Rep (Function.update q.heap event (some e')) curr bins := fun e' =>
    hrep.congr fun r hr => hother e' r fun h => hnew (h ▸ hr)
  -- the event alone in a bin
  have halone : ∀ e' : Event, e'.nextInBin = none →
      Linked (nextInBinOf (Function.update q.heap event (some e'))) (some event) [event] := by
    intro e' hnone
    exact ⟨rfl, none, by simp [nextInBinOf, hnone], rfl⟩
  have hself : ∀ e' : Event, e'.key = e.key → ∀ r ∈ [event],
      ∃ e'', Function.update q.heap event (some e') r = some e'' ∧ e''.key = e.key := by
    intro e' hkey r hr
    rw [mem_singleton] at hr
    subst hr
    exact ⟨e', update_self _ _ _, hkey⟩
  unfold insertBefore
  cases bins with
  | nil =>
    have hcurr : curr = none := hrep.tops
    subst hcurr
    rw [returns_bind, returns_update he, returns_pure]
    refine ⟨rfl, rfl, ?_, hother _, Relinked.update he rfl⟩
    exact Rep.cons (b := ⟨e.key, event, []⟩)
      (rep_nil _) (update_self _ _ _) (halone _ rfl) (hself _ rfl) hnodup hsorted
  | cons b =>
    obtain ⟨ec, hec, hcurr, hkey, _⟩ := hrep.tail
    subst hcurr
    have hb : b.top ≠ event := fun h => hnew (h ▸ by simp [Bin.members])
    rw [returns_bind, returns_deref he, returns_bind, returns_deref hec]
    rw [place] at hnodup hsorted ⊢
    by_cases hlt : e.key < b.key
    · -- a bin of its own, in front of the others
      rw [if_pos hlt] at hnodup hsorted ⊢
      rw [if_pos ((Event.lt_iff e ec).mpr (hkey ▸ hlt)), returns_bind, returns_update he,
        returns_pure]
      refine ⟨rfl, rfl, ?_, hother _, Relinked.update he rfl⟩
      exact Rep.cons (b := ⟨e.key, event, []⟩) (hbins _)
        (update_self _ _ _) (halone _ rfl) (hself _ rfl) hnodup hsorted
    · -- on top of the first bin
      have heq : e.key = b.key := le_antisymm (hfirst b rfl) (not_lt.mp hlt)
      rw [if_neg hlt, if_pos heq] at hnodup hsorted ⊢
      rw [if_neg (fun h => hlt (hkey ▸ (Event.lt_iff e ec).mp h)), returns_bind,
        returns_followBin hec, returns_bind,
        returns_update (q := { q with followed := b.top :: q.followed }) he, returns_pure]
      have hrest := hbins { e with nextBin := ec.nextBin, nextInBin := some b.top }
      obtain ⟨ec', hec', _, _, htail⟩ := hrest.tail
      rw [hother _ _ hb, hec] at hec'
      cases hec'
      refine ⟨rfl, rfl, ?_, hother _, (Relinked.follow (by simp [tops])).trans
        (Relinked.update he rfl)⟩
      refine Rep.cons (e := { e with nextBin := ec.nextBin, nextInBin := some b.top }) htail
        (update_self _ _ _) ?_ ?_ hnodup hsorted
      · exact ⟨rfl, some b.top, by simp [nextInBinOf], hrest.stack b mem_cons_self⟩
      · intro r hr
        rcases mem_cons.mp hr with rfl | hr'
        · exact ⟨_, update_self _ _ _, rfl⟩
        · obtain ⟨e', he', hkey'⟩ := hrest.key b mem_cons_self r hr'
          exact ⟨e', he', hkey'.trans heq.symm⟩

/-- The walk along the bins stops in front of the first bin that is not below the event. -/
theorem findBin_spec (bins : List Bin) :
    ∀ {q : EventQueue} {n : Nat} {b : Bin} {curr : Option Ptr}, Rep q.heap curr bins →
      bins.length ≤ n → q.heap event = some e → b.key < e.key →
      Returns (findBin event n b.top curr) q fun r q' =>
        ∃ before c rest, b :: bins = before ++ c :: rest ∧ r.1 = c.top ∧ Rep q.heap r.2 rest ∧
          (∀ x ∈ before ++ [c], x.key < e.key) ∧ FirstNotBelow e.key rest ∧
          q'.heap = q.heap ∧ q'.head = q.head ∧ Relinked (tops bins) q q' := by
  induction bins with
  | nil =>
    intro q n b curr hrep _ _ hb
    have hcurr : curr = none := hrep.tops
    subst hcurr
    cases n with
    | zero | succ =>
      rw [findBin, returns_pure]
      exact ⟨[], b, [], rfl, rfl, hrep, by simpa using hb, by simp [FirstNotBelow], rfl, rfl,
        Relinked.refl _ q⟩
  | cons c bins ih =>
    intro q n b curr hrep hn he hb
    obtain ⟨ec, hec, hcurr, hkey, htail⟩ := hrep.tail
    subst hcurr
    cases n with
    | zero => simp at hn
    | succ n =>
      rw [findBin, returns_bind, returns_deref hec, returns_bind, returns_deref he]
      by_cases hlt : c.key < e.key
      · rw [if_pos ((Event.lt_iff ec e).mpr (hkey ▸ hlt)), returns_bind, returns_followBin hec]
        have hlen : bins.length ≤ n := by simpa using hn
        refine (ih (q := { q with followed := c.top :: q.followed }) htail hlen he hlt).mono ?_
        rintro r q' ⟨before, d, rest, heq, hr, hrest, hbefore, hfirst, hheap, hhead, hlink⟩
        refine ⟨b :: before, d, rest, by rw [heq]; rfl, hr, hrest, ?_, hfirst, hheap, hhead,
          (Relinked.follow (by simp [tops])).trans (hlink.mono fun p hp => mem_cons_of_mem _ hp)⟩
        intro x hx
        rcases mem_cons.mp hx with rfl | hx
        · exact hb
        · exact hbefore x hx
      · rw [if_neg (fun h => hlt (hkey ▸ (Event.lt_iff ec e).mp h)), returns_pure]
        refine ⟨[], b, c :: bins, rfl, rfl, hrep, by simpa using hb, ?_, rfl, rfl,
          Relinked.refl _ q⟩
        rintro x ⟨rfl⟩
        exact not_lt.mp hlt

/-- The bins behind `c` are changed after the walk, and the top of `c` gets the new ones. -/
theorem hang_spec {q₁ q₂ : EventQueue} {b c : Bin} {before rest rest' : List Bin} {o : Option Ptr}
    (hrep : Rep q.heap q.head (before ++ c :: rest)) (hsplit : b :: bins = before ++ c :: rest)
    (hhead₁ : q₁.head = q.head)
    (hlink₁ : Relinked (tops bins) { q with followed := b.top :: q.followed } q₁)
    (hrep₂ : Rep q₂.heap o rest') (hhead₂ : q₂.head = q₁.head)
    (hsame : ∀ r ∈ members (before ++ [c]), q₂.heap r = q.heap r)
    (hlink₂ : Relinked (tops rest) q₁ q₂) (hnodup : (members (before ++ c :: rest')).Nodup)
    (hsorted : (before ++ c :: rest').Pairwise fun x y => x.key < y.key) :
    Returns (update c.top fun e => { e with nextBin := o }) q₂ fun _ q' =>
      Rep q'.heap q'.head (before ++ c :: rest') ∧ Relinked (tops (before ++ c :: rest)) q q' := by
  obtain ⟨et, het, _⟩ := hrep.key c (by simp) c.top c.top_mem_members
  have het₂ : q₂.heap c.top = some et := by rw [hsame c.top (by simp [Bin.members]), het]
  have hstart : Relinked (tops (before ++ c :: rest)) q q₁ := by
    rw [← hsplit]
    exact Relinked.trans (Relinked.follow mem_cons_self)
      (hlink₁.mono fun r hr => mem_cons_of_mem _ hr)
  have hmoved : Relinked (tops (before ++ c :: rest)) q₁ q₂ :=
    hlink₂.mono fun r hr => by simp [tops] at hr ⊢; tauto
  rw [returns_update het₂]
  refine ⟨?_, (hstart.trans hmoved).trans (Relinked.update het₂ rfl)⟩
  show Rep _ q₂.head _
  rw [hhead₂, hhead₁]
  exact hrep.hang hrep₂ hsame het hnodup hsorted

/-- `insert` places the event in the bins. -/
theorem insert_spec (hrep : Rep q.heap q.head bins) (he : q.heap event = some e)
    (hnew : event ∉ members bins) (hlen : bins.length ≤ q.addresses) :
    Returns (insert event) q fun _ q' =>
      Rep q'.heap q'.head (place e.key event bins) ∧ Relinked (tops bins) q q' := by
  unfold insert
  rw [returns_bind, returns_get]
  cases bins with
  | nil =>
    have hhead : q.head = none := hrep.tops
    rw [hhead] at hrep ⊢
    rw [returns_bind]
    refine (insertBefore_spec hrep he hnew (by simp [FirstNotBelow])).mono ?_
    rintro top q' ⟨rfl, _, hrep', _, hlink⟩
    rw [returns_modify]
    exact ⟨hrep', hlink.trans (Relinked.head _ _ _)⟩
  | cons b bins =>
    obtain ⟨eb, heb, hhead, hkey, htail⟩ := hrep.tail
    rw [hhead] at hrep ⊢
    rw [returns_bind, returns_deref he, returns_bind, returns_deref heb]
    by_cases hle : e.key ≤ b.key
    · rw [if_pos ((Event.le_iff e eb).mpr (hkey ▸ hle)), returns_bind]
      refine (insertBefore_spec hrep he hnew (by rintro x ⟨rfl⟩; exact hle)).mono ?_
      rintro top q' ⟨rfl, _, hrep', _, hlink⟩
      rw [returns_modify]
      exact ⟨hrep', hlink.trans (Relinked.head _ _ _)⟩
    · rw [if_neg (fun h => hle (hkey ▸ (Event.le_iff e eb).mp h)), returns_bind,
        returns_followBin heb, returns_bind]
      have hwalk := findBin_spec (q := { q with followed := b.top :: q.followed }) bins htail
        (Nat.le_trans (Nat.le_succ _) hlen) he (not_le.mp hle)
      refine hwalk.mono ?_
      rintro ⟨prev, curr⟩ q₁ ⟨before, c, rest, hsplit, rfl, hrest, hbefore, hfirst, hheap, hhead₁,
        hlink₁⟩
      have hmem : ∀ x, x ∈ members rest → x ∈ members (b :: bins) := fun x hx => by
        rw [hsplit]
        simp [hx]
      rw [returns_bind]
      have hrest₁ : Rep q₁.heap curr rest := by
        rw [hheap]
        exact hrest
      refine (insertBefore_spec hrest₁ (by rw [hheap]; exact he) (fun h => hnew (hmem _ h))
        hfirst).mono ?_
      rintro top q₂ ⟨rfl, hhead₂, hrep₂, hother, hlink₂⟩
      -- the new bins hang behind the top event of `c`
      rw [hsplit] at hrep hnew ⊢
      have hplace : place e.key top (before ++ c :: rest) = before ++ c :: place e.key top rest := by
        have h : place e.key top ((before ++ [c]) ++ rest) =
            (before ++ [c]) ++ place e.key top rest := place_append rest hbefore
        simpa using h
      have hnodup := nodup_members_place (k := e.key) hrep.nodup hnew
      have hsorted := sorted_place (k := e.key) (p := top) hrep.sorted
      rw [hplace] at hnodup hsorted ⊢
      have hsame : ∀ r ∈ members (before ++ [c]), q₂.heap r = q.heap r := by
        intro r hr
        have hrt : r ≠ top := by
          rintro rfl
          refine hnew ?_
          simp only [members_append, members_cons, mem_append] at hr ⊢
          tauto
        rw [hother r hrt, hheap]
      exact hang_spec (hhead ▸ hrep) hsplit hhead₁ hlink₁ hrep₂ hhead₂ hsame hlink₂ hnodup hsorted

/-- The walk down a bin finds the event, and the event above it gets its link. -/
theorem removeInBin_spec (ms : List Ptr) :
    ∀ {q : EventQueue} {n : Nat} {curr : Ptr} {next : Option Ptr}, (∃ e, q.heap curr = some e) →
      Linked (nextInBinOf q.heap) next ms → ms.length ≤ n → event ∈ ms →
      Returns (removeInBin event n curr next) q fun _ q' =>
        ∃ above c below ec ee, curr :: ms = above ++ c :: event :: below ∧ q.heap c = some ec ∧
          q.heap event = some ee ∧
          q' = { q with
            heap := Function.update q.heap c (some { ec with nextInBin := ee.nextInBin }) } := by
  induction ms with
  | nil =>
    intro q n curr next _ _ _ hmem
    cases hmem
  | cons m ms ih =>
    rintro q n curr next ⟨ec, hec⟩ hlinked hlen hmem
    obtain ⟨rfl, o, ho, hrest⟩ := hlinked
    obtain ⟨em, hem, rfl⟩ := map_eq_some_iff.mp ho
    cases n with
    | zero => simp at hlen
    | succ =>
      rw [removeInBin, returns_bind, returns_deref hem]
      by_cases hm : event = m
      · subst hm
        rw [if_pos rfl, returns_update hec]
        exact ⟨[], curr, ms, ec, em, rfl, hec, hem, rfl⟩
      · rw [if_neg hm]
        have hmem' : event ∈ ms := (mem_cons.mp hmem).resolve_left hm
        refine (ih ⟨em, hem⟩ hrest (by simpa using hlen) hmem').mono ?_
        rintro _ q' ⟨above, c, below, ec', ee, hsplit, hc, he, hq⟩
        exact ⟨curr :: above, c, below, ec', ee, by rw [hsplit]; rfl, hc, he, hq⟩

/-- `removeItem` takes the event out of the first bin. -/
theorem removeItem_spec {b : Bin} (hrep : Rep q.heap (some b.top) (b :: bins))
    (hmem : event ∈ b.members) (hlen : b.members.length ≤ q.addresses) :
    Returns (removeItem event b.top) q fun top q' =>
      Rep q'.heap top (dropEvent event (b :: bins)) ∧ q'.head = q.head ∧
      (∀ r, r ∉ b.members → q'.heap r = q.heap r) ∧ Relinked (tops (b :: bins)) q q' := by
  obtain ⟨et, het, hbelow⟩ := hrep.below
  unfold removeItem
  rw [returns_bind, returns_get, returns_bind, returns_deref het]
  by_cases htop : event = b.top
  · subst htop
    rw [if_pos rfl, returns_bind, returns_followBin het]
    have hfollow : Relinked (tops (b :: bins)) q { q with followed := b.top :: q.followed } :=
      Relinked.follow mem_cons_self
    cases hrest : b.rest with
    | nil =>
      have hnone : et.nextInBin = none := by rwa [hrest] at hbelow
      rw [hnone]
      rw [returns_pure]
      exact ⟨hrep.dropTop_nil het hrest, rfl, fun _ _ => rfl, hfollow⟩
    | cons next =>
      have hnext : next ∈ b.members := by simp [Bin.members, hrest]
      obtain ⟨en, hen, _⟩ := hrep.key b mem_cons_self next hnext
      rw [hrest] at hbelow
      rw [hbelow.1]
      rw [returns_bind, returns_update (q := { q with followed := b.top :: q.followed }) hen,
        returns_pure]
      refine ⟨hrep.dropTop_cons het hrest hen, rfl, fun r hr => ?_, hfollow.trans
        (Relinked.update hen rfl)⟩
      have hne : r ≠ next := fun h => hr (h ▸ hnext)
      exact update_of_ne hne _ _
  · have hmem' : event ∈ b.rest := (mem_cons.mp hmem).resolve_left htop
    rw [if_neg htop, returns_bind]
    refine (removeInBin_spec b.rest ⟨et, het⟩ hbelow
      (Nat.le_trans (Nat.le_succ _) hlen) hmem').mono ?_
    rintro _ q' ⟨above, c, below, ec, ee, hsplit, hec, hee, rfl⟩
    rw [returns_pure]
    have hc : c ∈ b.members := by
      rw [Bin.members, hsplit]
      simp
    refine ⟨hrep.dropBelow hsplit hec hee, rfl, fun r hr => ?_, Relinked.update hec rfl⟩
    have hne : r ≠ c := fun h => hr (h ▸ hc)
    exact update_of_ne hne _ _

/-- `remove` takes the event out of its bin. -/
theorem remove_spec (hrep : Rep q.heap q.head bins) (he : q.heap event = some e)
    (hqueue : e.queue = true) (hmem : event ∈ members bins)
    (hlen : (members bins).length ≤ q.addresses) :
    Returns (remove event) q fun _ q' =>
      Rep q'.heap q'.head (dropEvent event bins) ∧ Relinked (tops bins) q q' := by
  unfold remove
  rw [returns_bind, returns_get]
  cases bins with
  | nil => cases hmem
  | cons b bins =>
    obtain ⟨eb, heb, hhead, hkey, htail⟩ := hrep.tail
    rw [hhead] at hrep ⊢
    rw [returns_bind, returns_deref he, returns_bind, returns_assert]
    refine ⟨hqueue, ?_⟩
    rw [returns_bind, returns_deref heb]
    rw [members_cons, length_append] at hlen
    by_cases heq : b.key = e.key
    · rw [if_pos ((Event.eq_iff eb e).mpr (hkey.trans heq)), returns_bind]
      have hfirst := hrep.mem_first hmem he heq.ge
      refine (removeItem_spec hrep hfirst (by omega)).mono ?_
      rintro top q' ⟨hrep', _, _, hlink⟩
      rw [returns_modify]
      exact ⟨hrep', hlink.trans (Relinked.head _ _ _)⟩
    · rw [if_neg (fun h => heq (hkey.symm.trans ((Event.eq_iff eb e).mp h))), returns_bind,
        returns_followBin heb, returns_bind]
      -- the event is in a later bin
      have hlater : b.key < e.key := by
        by_contra hle
        obtain ⟨e', he', hkey'⟩ := hrep.key b mem_cons_self _ (hrep.mem_first hmem he (not_lt.mp hle))
        cases he.symm.trans he'
        exact heq hkey'.symm
      have hbins := length_le_members (b :: bins)
      rw [length_cons, members_cons, length_append] at hbins
      have hwalk := findBin_spec (q := { q with followed := b.top :: q.followed }) bins htail
        (n := q.addresses) (by omega) he hlater
      refine hwalk.mono ?_
      rintro ⟨prev, curr⟩ q₁ ⟨before, c, rest, hsplit, rfl, hrest, hbefore, hfirst, hheap, hhead₁,
        hlink₁⟩
      have hlen' : (members (b :: bins)).length ≤ q.addresses := by
        rw [members_cons, length_append]
        exact hlen
      rw [hsplit] at hrep hmem hlen' ⊢
      have hnot : event ∉ members (before ++ [c]) := fun h => by
        obtain ⟨d, hd, hed⟩ := mem_members.mp h
        have hd' : d ∈ before ++ c :: rest := by
          simp only [mem_append, mem_cons] at hd ⊢
          tauto
        obtain ⟨e', he', hkey'⟩ := hrep.key d hd' event hed
        rw [he] at he'
        cases he'
        exact absurd hkey' (hbefore d hd).ne'
      have hmem' : event ∈ members rest := by
        simp only [members_append, members_cons, mem_append] at hmem hnot
        tauto
      cases rest with
      | nil => cases hmem'
      | cons d rest =>
        have hed := hrest.mem_first hmem' he (hfirst d rfl)
        obtain ⟨ed, hed', hcurr, hkeyd, _⟩ := hrest.tail
        subst hcurr
        have hed₁ : q₁.heap d.top = some ed := by rw [hheap, hed']
        obtain ⟨e', he', hkeye⟩ := hrest.key d mem_cons_self event hed
        rw [he] at he'
        cases he'
        rw [returns_bind, returns_deref hed₁,
          if_pos ((Event.eq_iff ed e).mpr (hkeyd.trans hkeye.symm)), returns_bind]
        have haddr : d.members.length ≤ q₁.addresses := by
          rw [hlink₁.addresses]
          simp only [members_append, members_cons, length_append] at hlen'
          show _ ≤ q.addresses
          omega
        refine (removeItem_spec (by rw [hheap]; exact hrest) hed haddr).mono ?_
        rintro top q₂ ⟨hrep₂, hhead₂, hother, hlink₂⟩
        have hdrop : dropEvent event (before ++ c :: d :: rest)
            = before ++ c :: dropEvent event (d :: rest) := by
          have hbc := dropEvent_eq_self hnot
          unfold dropEvent at hbc ⊢
          rw [show before ++ c :: d :: rest = (before ++ [c]) ++ d :: rest by simp,
            filterMap_append, hbc]
          simp
        have hsame : ∀ r ∈ members (before ++ [c]), q₂.heap r = q.heap r := by
          intro r hr
          rw [hother r ?_, hheap]
          intro hrd
          have hnodup := hrep.nodup
          rw [show before ++ c :: d :: rest = (before ++ [c]) ++ d :: rest by simp,
            members_append, nodup_append] at hnodup
          exact hnodup.2.2 r hr r (by simp [hrd]) rfl
        rw [hdrop]
        have hnodup := hrep.nodup_dropEvent event
        have hsorted := sorted_dropEvent (p := event) hrep.sorted
        rw [hdrop] at hnodup hsorted
        exact hang_spec (hhead ▸ hrep) hsplit hhead₁ hlink₁ hrep₂ hhead₂ hsame hlink₂ hnodup hsorted

end EventQueue

end Gem5.Sim
