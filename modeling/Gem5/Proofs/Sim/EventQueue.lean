import Gem5.Lib.Agenda
import Gem5.Lib.Linked
import Gem5.Sim.EventQueue

/-!
# `Gem5.Proofs.Sim.EventQueue`: the two-level list of the event queue

`Rep h head bins` says that the pointers in the heap `h`, from `head` on, hold the list of bins
`bins`. It reads the `nextBin` of the top events and the `nextInBin` of all events of a bin. The
`nextBin` of any other event is stale, and `Rep` says nothing about it.

`insert` puts an event on top of the bin with its key, or makes a new bin (`place`). `remove`
takes an event out of its bin, and drops the bin when it was the last one (`dropEvent`). The list of
bins in its order is the list of entries of a sorted queue: `entries_place` and `entries_dropEvent`
connect the two operations with those of `Lib.Agenda`.
-/

namespace Gem5.Sim

open Function List
open Option (map_some)

open Gem5.Lib

/-- The order of events: by time, then by priority. -/
abbrev Key := ℕ ×ₗ ℤ

namespace Event

/-- The key that the comparison operators look at. -/
def key (e : Event) : Key := toLex (e.when, e.priority)

variable (l r : Event)

theorem lt_iff : l.lt r = true ↔ l.key < r.key := by
  rw [key, key, Prod.Lex.toLex_lt_toLex]
  simp [lt]

theorem le_iff : l.le r = true ↔ l.key ≤ r.key := by
  rw [key, key, Prod.Lex.toLex_le_toLex]
  simp [le]

theorem eq_iff : l.eq r = true ↔ l.key = r.key := by
  rw [key, key, toLex_inj, Prod.mk.injEq]
  simp [eq]

/-- An event without its links. -/
def data (e : Event) : Event := { e with nextBin := none, nextInBin := none }

/-- Events that agree up to their links. -/
theorem fields_of_data {e e' : Event} (h : e.data = e'.data) :
    e.when = e'.when ∧ e.priority = e'.priority ∧ e.flags = e'.flags ∧ e.queue = e'.queue := by
  cases e
  cases e'
  simpa [data] using h

end Event

/-- The events by address. -/
abbrev Heap := Ptr → Option Event

/-- The `nextBin` links. -/
def nextBinOf (h : Heap) (p : Ptr) : Option (Option Ptr) := (h p).map Event.nextBin

/-- The `nextInBin` links. -/
def nextInBinOf (h : Heap) (p : Ptr) : Option (Option Ptr) := (h p).map Event.nextInBin

/-- A bin: its key, its top event and the events below it. -/
structure Bin where
  key : Key
  top : Ptr
  rest : List Ptr

/-- The events of a bin, from the top. -/
def Bin.members (b : Bin) : List Ptr := b.top :: b.rest

/-- The events of a list of bins. -/
def members (bins : List Bin) : List Ptr := bins.flatMap Bin.members

/-- The top events of a list of bins. -/
def tops (bins : List Bin) : List Ptr := bins.map Bin.top

@[simp] theorem members_nil : members [] = [] := rfl

@[simp] theorem members_cons (b : Bin) (bins : List Bin) :
    members (b :: bins) = b.members ++ members bins := rfl

@[simp] theorem members_append (as bs : List Bin) :
    members (as ++ bs) = members as ++ members bs := by
  simp [members]

theorem Bin.top_mem_members (b : Bin) : b.top ∈ b.members := List.mem_cons_self

variable {h h' : Heap} {b : Bin} {p : Ptr} {head : Option Ptr} {before bins : List Bin} {k : Key}

theorem mem_members : p ∈ members bins ↔ ∃ b ∈ bins, p ∈ b.members := by
  simp [members]

theorem mem_members_of_mem_tops (h : p ∈ tops bins) : p ∈ members bins := by
  obtain ⟨b, hb, rfl⟩ := mem_map.mp h
  exact mem_members.mpr ⟨b, hb, b.top_mem_members⟩

/-- The pointers hold the list of bins. -/
structure Rep (h : Heap) (head : Option Ptr) (bins : List Bin) : Prop where
  tops : Linked (nextBinOf h) head (tops bins)
  stack : ∀ b ∈ bins, Linked (nextInBinOf h) (some b.top) b.members
  nodup : (members bins).Nodup
  key : ∀ b ∈ bins, ∀ p ∈ b.members, ∃ e, h p = some e ∧ e.key = b.key
  sorted : bins.Pairwise fun a b => a.key < b.key

theorem rep_nil (h : Heap) : Rep h none [] := ⟨rfl, by simp, by simp, by simp, by simp⟩

/-- Every event in a bin exists. -/
theorem Rep.live (hr : Rep h head bins) (hp : p ∈ members bins) : ∃ e, h p = some e := by
  obtain ⟨b, hb, hpb⟩ := mem_members.mp hp
  obtain ⟨e, he, _⟩ := hr.key b hb p hpb
  exact ⟨e, he⟩

/-- The pointers determine which events are in the bins. -/
theorem Rep.mem_members_iff {bins' : List Bin} (hr : Rep h head bins) (hr' : Rep h head bins')
    (p : Ptr) : p ∈ members bins ↔ p ∈ members bins' := by
  -- one direction, for any two lists
  suffices hone : ∀ {as bs : List Bin}, Rep h head as → Rep h head bs → p ∈ members as →
      p ∈ members bs from ⟨hone hr hr', hone hr' hr⟩
  intro as bs ha hb hp
  obtain ⟨a, hmem, hpa⟩ := mem_members.mp hp
  have htop : a.top ∈ Sim.tops bs := by
    rw [← ha.tops.unique hb.tops]
    exact mem_map_of_mem hmem
  obtain ⟨b, hmem', heq⟩ := mem_map.mp htop
  have hstack := ha.stack a hmem
  rw [← heq] at hstack
  exact mem_members.mpr ⟨b, hmem', hstack.unique (hb.stack b hmem') ▸ hpa⟩

/-- The bins behind the first one. -/
theorem Rep.tail (hr : Rep h head (b :: bins)) :
    ∃ e, h b.top = some e ∧ head = some b.top ∧ e.key = b.key ∧ Rep h e.nextBin bins := by
  obtain ⟨hhead, o, ho, hrest⟩ := hr.tops
  obtain ⟨e, he, hkey⟩ := hr.key b mem_cons_self b.top b.top_mem_members
  rw [nextBinOf, he] at ho
  cases ho
  have hnodup := hr.nodup
  rw [members_cons, nodup_append] at hnodup
  exact ⟨e, he, hhead, hkey,
    { tops := hrest
      stack := fun c hc => hr.stack c (mem_cons_of_mem b hc)
      nodup := hnodup.2.1
      key := fun c hc => hr.key c (mem_cons_of_mem b hc)
      sorted := (pairwise_cons.mp hr.sorted).2 }⟩

variable {rest rest' : List Bin} {o : Option Ptr} {c : Bin} {e : Event}

/-- A bin in front of a list of bins. -/
theorem Rep.cons (hr : Rep h e.nextBin bins) (htop : h b.top = some e)
    (hstack : Linked (nextInBinOf h) (some b.top) b.members)
    (hkey : ∀ p ∈ b.members, ∃ e, h p = some e ∧ e.key = b.key)
    (hnodup : (members (b :: bins)).Nodup)
    (hsorted : (b :: bins).Pairwise fun a b => a.key < b.key) : Rep h (some b.top) (b :: bins) where
  tops := ⟨rfl, e.nextBin, by rw [nextBinOf, htop, map_some], hr.tops⟩
  stack c hc := by
    rcases mem_cons.mp hc with rfl | hc
    · exact hstack
    · exact hr.stack c hc
  nodup := hnodup
  key c hc := by
    rcases mem_cons.mp hc with rfl | hc
    · exact hkey
    · exact hr.key c hc
  sorted := hsorted

/-- Writing fields of events that are neither links nor keys keeps the bins. -/
theorem Rep.congr_fields (hr : Rep h head bins)
    (heq : ∀ p ∈ members bins, ∀ e, h p = some e → ∃ e', h' p = some e' ∧
      e'.nextBin = e.nextBin ∧ e'.nextInBin = e.nextInBin ∧ e'.key = e.key) : Rep h' head bins where
  tops := hr.tops.congr fun p hp => by
    obtain ⟨e, he⟩ := hr.live (mem_members_of_mem_tops hp)
    obtain ⟨e', he', hbin, _⟩ := heq p (mem_members_of_mem_tops hp) e he
    rw [nextBinOf, nextBinOf, he, he', map_some, map_some, hbin]
  stack := fun b hb => (hr.stack b hb).congr fun p hp => by
    obtain ⟨e, he⟩ := hr.live (mem_members.mpr ⟨b, hb, hp⟩)
    obtain ⟨e', he', _, hin, _⟩ := heq p (mem_members.mpr ⟨b, hb, hp⟩) e he
    rw [nextInBinOf, nextInBinOf, he, he', map_some, map_some, hin]
  nodup := hr.nodup
  key := fun b hb p hp => by
    obtain ⟨e, he, hkey⟩ := hr.key b hb p hp
    obtain ⟨e', he', _, _, hkey'⟩ := heq p (mem_members.mpr ⟨b, hb, hp⟩) e he
    exact ⟨e', he', hkey'.trans hkey⟩
  sorted := hr.sorted

/-- The other events may change. -/
theorem Rep.congr (hr : Rep h head bins) (heq : ∀ p ∈ members bins, h' p = h p) :
    Rep h' head bins :=
  hr.congr_fields fun p hp e he => ⟨e, (heq p hp).trans he, rfl, rfl, rfl⟩

section
variable (hr : Rep h head (before ++ b :: rest))
include hr

/-- The bins behind a top event are replaced by writing its `nextBin`. -/
theorem Rep.splice (hrest : Rep h' o rest')
    (hsame : ∀ p ∈ members (before ++ [b]), p ≠ b.top → h' p = h p)
    (htop : h' b.top = (h b.top).map fun e => { e with nextBin := o })
    (hnodup : (members (before ++ b :: rest')).Nodup)
    (hsorted : (before ++ b :: rest').Pairwise fun x y => x.key < y.key) :
    Rep h' head (before ++ b :: rest') := by
  -- a top event before `b` is not the one of `b`
  have hne : ∀ x ∈ before, ∀ p ∈ x.members, p ≠ b.top := by
    intro x hx p hp heq
    rw [members_append, nodup_append] at hnodup
    exact hnodup.2.2 p (mem_members.mpr ⟨x, hx, hp⟩) b.top
      (mem_members.mpr ⟨b, mem_cons_self, b.top_mem_members⟩) heq
  have hbefore : ∀ x ∈ before, ∀ p ∈ x.members, h' p = h p := fun x hx p hp =>
    hsame p (mem_members.mpr ⟨x, by simp [hx], hp⟩) (hne x hx p hp)
  -- the events of `b` keep everything but the `nextBin` of the top
  have hb : ∀ p ∈ b.members, ∀ e, h p = some e → ∃ e', h' p = some e' ∧
      e'.nextInBin = e.nextInBin ∧ e'.key = e.key := by
    intro p hp e he
    by_cases hpt : p = b.top
    · subst hpt
      rw [he] at htop
      exact ⟨_, htop, rfl, rfl⟩
    · rw [hsame p (mem_members.mpr ⟨b, by simp, hp⟩) hpt]
      exact ⟨e, he, rfl, rfl⟩
  obtain ⟨et, het, _⟩ := hr.key b (by simp) b.top b.top_mem_members
  refine ⟨?_, ?_, hnodup, ?_, hsorted⟩
  · show Linked (nextBinOf h') head ((before ++ b :: rest').map Bin.top)
    have htops := hr.tops
    unfold Sim.tops at htops
    rw [map_append] at htops ⊢
    refine htops.splice ?_ ?_ hrest.tops
    · intro p hp
      obtain ⟨x, hx, rfl⟩ := mem_map.mp hp
      rw [nextBinOf, nextBinOf, hbefore x hx _ x.top_mem_members]
    · rw [nextBinOf, htop, het]
      rfl
  · intro x hx
    rcases mem_append.mp hx with hx' | hx'
    · refine (hr.stack x (by simp [hx'])).congr fun p hp => ?_
      rw [nextInBinOf, nextInBinOf, hbefore x hx' p hp]
    · rcases mem_cons.mp hx' with rfl | hx''
      · refine (hr.stack x (by simp)).congr fun p hp => ?_
        obtain ⟨e, he, _⟩ := hr.key x (by simp) p hp
        obtain ⟨e', he', hin, _⟩ := hb p hp e he
        rw [nextInBinOf, nextInBinOf, he, he', map_some, map_some, hin]
      · exact hrest.stack x hx''
  · intro x hx p hp
    rcases mem_append.mp hx with hx' | hx'
    · rw [hbefore x hx' p hp]
      exact hr.key x (by simp [hx']) p hp
    · rcases mem_cons.mp hx' with rfl | hx''
      · obtain ⟨e, he, hkey⟩ := hr.key x (by simp) p hp
        obtain ⟨e', he', _, hkey'⟩ := hb p hp e he
        exact ⟨e', he', hkey'.trans hkey⟩
      · exact hrest.key x hx'' p hp

/-- The same, when the events up to `b` were not touched before its `nextBin` is written. -/
theorem Rep.hang (hrest : Rep h' o rest')
    (hsame : ∀ p ∈ members (before ++ [b]), h' p = h p) (htop : h b.top = some e)
    (hnodup : (members (before ++ b :: rest')).Nodup)
    (hsorted : (before ++ b :: rest').Pairwise fun x y => x.key < y.key) :
    Rep (update h' b.top (some { e with nextBin := o })) head (before ++ b :: rest') := by
  refine hr.splice (hrest.congr ?_) ?_ ?_ hnodup hsorted
  · intro p hp
    refine update_of_ne ?_ _ _
    rintro rfl
    rw [members_append, members_cons, ← append_assoc, nodup_append] at hnodup
    exact hnodup.2.2 b.top (by simp [Bin.members]) b.top hp rfl
  · intro p hp hne
    rw [update_of_ne hne, hsame p hp]
  · rw [htop]
    exact update_self _ _ _

end

/-- The bins with a new event `p` of key `k`. -/
def place (k : Key) (p : Ptr) : List Bin → List Bin
  | [] => [{ key := k, top := p, rest := [] }]
  | b :: bins =>
    if k < b.key then { key := k, top := p, rest := [] } :: b :: bins
    else if k = b.key then { key := k, top := p, rest := b.members } :: bins
    else b :: place k p bins

/-- The new event goes behind the bins with a lower key. -/
theorem place_append (rest : List Bin) (h : ∀ b ∈ before, b.key < k) :
    place k p (before ++ rest) = before ++ place k p rest := by
  induction before with
  | nil => rfl
  | cons b before ih =>
    have hb : b.key < k := h b mem_cons_self
    rw [cons_append, place, if_neg (not_lt.mpr hb.le), if_neg hb.ne',
      ih fun c hc => h c (mem_cons_of_mem b hc)]
    rfl

/-- The entries of a list of bins, in the order of the list. -/
def entries (bins : List Bin) : List (Ptr × Key) :=
  bins.flatMap fun b => b.members.map fun p => (p, b.key)

@[simp] theorem entries_cons (b : Bin) (bins : List Bin) :
    entries (b :: bins) = (b.members.map fun p => (p, b.key)) ++ entries bins := rfl

theorem mem_entries : (p, k) ∈ entries bins ↔ ∃ b ∈ bins, p ∈ b.members ∧ b.key = k := by
  simp [entries]

/-- A smaller key goes to the front of a sorted list, also behind entries with a smaller
key. -/
theorem orderedInsert_append {α κ : Type} [LinearOrder κ] (e : α × κ) (xs ys : List (α × κ))
    (h : ∀ x ∈ xs, x.2 < e.2) :
    (xs ++ ys).orderedInsert (fun e f => e.2 ≤ f.2) e
      = xs ++ ys.orderedInsert (fun e f => e.2 ≤ f.2) e := by
  induction xs with
  | nil => rfl
  | cons x xs ih =>
    rw [cons_append, orderedInsert_cons,
      if_neg (not_le.mpr (h x mem_cons_self)), ih fun y hy => h y (mem_cons_of_mem x hy)]
    rfl

/-- Placing an event in the bins is an ordered insertion. -/
theorem entries_place :
    entries (place k p bins) = (entries bins).orderedInsert (fun e f => e.2 ≤ f.2) (p, k) := by
  induction bins with
  | nil => rfl
  | cons b bins ih =>
    rw [place]
    split
    · rename_i hlt
      show (p, k) :: entries (b :: bins) = orderedInsert _ _ ((b.top, b.key) :: _)
      rw [orderedInsert_cons, if_pos hlt.le]
      rfl
    · rename_i hge
      split
      · rename_i heq
        show (p, k) :: ((b.members.map fun p => (p, k)) ++ entries bins)
          = orderedInsert _ _ ((b.top, b.key) :: _)
        rw [orderedInsert_cons, if_pos heq.le, heq]
        rfl
      · rename_i hne
        rw [entries_cons, ih, entries_cons, orderedInsert_append]
        intro x hx
        obtain ⟨r, _, rfl⟩ := mem_map.mp hx
        exact lt_of_le_of_ne (not_lt.mp hge) (Ne.symm hne)

theorem members_eq_map_entries (bins : List Bin) : members bins = (entries bins).map Prod.fst := by
  induction bins with
  | nil => rfl
  | cons b bins ih =>
    rw [members_cons, entries_cons, map_append, ← ih, map_map]
    congr 1
    exact (map_id _).symm

/-- The events of the bins with a new one. -/
theorem members_place_perm (k : Key) (p : Ptr) (bins : List Bin) :
    (members (place k p bins)).Perm (p :: members bins) := by
  rw [members_eq_map_entries, entries_place, members_eq_map_entries]
  exact (perm_orderedInsert _ _ _).map Prod.fst

theorem mem_members_place {r : Ptr} : r ∈ members (place k p bins) ↔ r = p ∨ r ∈ members bins :=
  (members_place_perm k p bins).mem_iff.trans mem_cons

theorem nodup_members_place (hnodup : (members bins).Nodup) (hp : p ∉ members bins) :
    (members (place k p bins)).Nodup :=
  (members_place_perm k p bins).nodup_iff.mpr (nodup_cons.mpr ⟨hp, hnodup⟩)

/-- The keys of the bins are the old ones and the new one. -/
theorem key_of_mem_place (hb : b ∈ place k p bins) : b.key = k ∨ ∃ c ∈ bins, b.key = c.key := by
  have hmem : (b.top, b.key) ∈ entries (place k p bins) :=
    mem_entries.mpr ⟨b, hb, b.top_mem_members, rfl⟩
  rw [entries_place, mem_orderedInsert, mem_entries] at hmem
  rcases hmem with heq | ⟨c, hc, -, hkey⟩
  · exact .inl (Prod.mk.inj heq).2
  · exact .inr ⟨c, hc, hkey.symm⟩

/-- The bins stay in order. -/
theorem sorted_place (h : bins.Pairwise fun a b => a.key < b.key) :
    (place k p bins).Pairwise fun a b => a.key < b.key := by
  induction bins with
  | nil => simp [place]
  | cons c bins ih =>
    rw [pairwise_cons] at h
    rw [place]
    split
    · rename_i hlt
      refine pairwise_cons.mpr ⟨fun b hb => ?_, pairwise_cons.mpr h⟩
      rcases mem_cons.mp hb with rfl | hb'
      · exact hlt
      · exact lt_trans hlt (h.1 b hb')
    · rename_i hge
      split
      · rename_i heq
        refine pairwise_cons.mpr ⟨fun b hb => ?_, h.2⟩
        show k < b.key
        rw [heq]
        exact h.1 b hb
      · rename_i hne
        refine pairwise_cons.mpr ⟨fun b hb => ?_, ih h.2⟩
        rcases key_of_mem_place hb with hk | ⟨d, hd, hbd⟩
        · rw [hk]
          exact lt_of_le_of_ne (not_lt.mp hge) (Ne.symm hne)
        · rw [hbd]
          exact h.1 d hd

/-- A bin without `p`. It is gone when nothing is left. -/
def Bin.dropEvent (p : Ptr) (b : Bin) : Option Bin :=
  match b.members.filter (fun r => r ≠ p) with
  | [] => none
  | top :: rest => some { key := b.key, top := top, rest := rest }

/-- The bins without `p`. -/
def dropEvent (p : Ptr) (bins : List Bin) : List Bin := bins.filterMap (Bin.dropEvent p)

/-- The event is gone, and the others keep their order. -/
theorem entries_dropEvent (p : Ptr) (bins : List Bin) :
    entries (dropEvent p bins) = (entries bins).filter fun e => e.1 ≠ p := by
  induction bins with
  | nil => rfl
  | cons b bins ih =>
    have hmap : ((b.members.map fun r => (r, b.key)).filter fun e => e.1 ≠ p)
        = (b.members.filter fun r => r ≠ p).map fun r => (r, b.key) := by
      rw [filter_map]
      rfl
    rw [entries_cons, filter_append, hmap, ← ih, dropEvent, filterMap_cons, Bin.dropEvent]
    cases b.members.filter fun r => r ≠ p with
    | nil | cons => rfl

theorem members_dropEvent (p : Ptr) (bins : List Bin) :
    members (dropEvent p bins) = (members bins).filter fun r => r ≠ p := by
  rw [members_eq_map_entries, entries_dropEvent, members_eq_map_entries, filter_map]
  rfl

theorem notMem_dropEvent (p : Ptr) (bins : List Bin) : p ∉ members (dropEvent p bins) := by
  rw [members_dropEvent]
  simp

/-- Bins without `p` are not changed. -/
theorem dropEvent_eq_self (hp : p ∉ members bins) : dropEvent p bins = bins := by
  induction bins with
  | nil => rfl
  | cons b bins ih =>
    rw [members_cons, mem_append, not_or] at hp
    have hfilter : b.members.filter (fun r => r ≠ p) = b.members := by
      rw [filter_eq_self]
      intro r hr
      have hrp : r ≠ p := fun h => hp.1 (h ▸ hr)
      simpa using hrp
    have hb : b.dropEvent p = some b := by
      rw [Bin.dropEvent, hfilter]
      rfl
    rw [dropEvent, filterMap_cons, hb]
    show b :: dropEvent p bins = b :: bins
    rw [ih hp.2]

theorem Bin.key_dropEvent (h : b.dropEvent p = some c) : c.key = b.key := by
  unfold dropEvent at h
  split at h
  · cases h
  · cases h
    rfl

theorem sorted_dropEvent (h : bins.Pairwise fun a b => a.key < b.key) :
    (dropEvent p bins).Pairwise fun a b => a.key < b.key := by
  refine List.Pairwise.filterMap (Bin.dropEvent p) ?_ h
  intro a a' hlt b hb c hc
  rw [Bin.key_dropEvent hb, Bin.key_dropEvent hc]
  exact hlt

/-- The bins without an event of the first one. -/
theorem dropEvent_cons (hb : b.dropEvent p = some c) (hrest : p ∉ members bins) :
    dropEvent p (b :: bins) = c :: bins := by
  rw [dropEvent, filterMap_cons, hb]
  show c :: dropEvent p bins = c :: bins
  rw [dropEvent_eq_self hrest]

section
variable {h : Heap} {head : Option Ptr} {b : Bin} {bins : List Bin} {p : Ptr} {e : Event}

section
variable (hr : Rep h head (b :: bins))
include hr

/-- An event of the first bin is in no other bin. -/
theorem Rep.notMem_tail (hp : p ∈ b.members) : p ∉ members bins := by
  have hnodup := hr.nodup
  rw [members_cons, nodup_append] at hnodup
  exact fun h => hnodup.2.2 p hp p h rfl

theorem Rep.nodup_first : b.members.Nodup := by
  have hnodup := hr.nodup
  rw [members_cons, nodup_append] at hnodup
  exact hnodup.1

/-- An event that is not behind the first bin in the order is in it. -/
theorem Rep.mem_first (hp : p ∈ members (b :: bins))
    (he : h p = some e) (hle : e.key ≤ b.key) : p ∈ b.members := by
  obtain ⟨d, hd, hpd⟩ := mem_members.mp hp
  obtain ⟨e', he', hkey⟩ := hr.key d hd p hpd
  rw [he] at he'
  cases he'
  rcases mem_cons.mp hd with rfl | hd
  · exact hpd
  · have hlt := (pairwise_cons.mp hr.sorted).1 d hd
    exact absurd (hkey ▸ hle) (not_le.mpr hlt)

end

theorem length_le_members (bins : List Bin) : bins.length ≤ (members bins).length := by
  induction bins with
  | nil => exact Nat.le_refl 0
  | cons =>
    rw [members_cons, length_append, Bin.members, length_cons, length_cons]
    omega

/-- The events below the top of the first bin. -/
theorem Rep.below (hr : Rep h head (b :: bins)) :
    ∃ e, h b.top = some e ∧ Linked (nextInBinOf h) e.nextInBin b.rest := by
  obtain ⟨_, o, ho, hbelow⟩ := hr.stack b mem_cons_self
  obtain ⟨e, he, rfl⟩ := Option.map_eq_some_iff.mp ho
  exact ⟨e, he, hbelow⟩

theorem Rep.filter_top (hr : Rep h head (b :: bins)) :
    b.members.filter (fun r => r ≠ b.top) = b.rest := by
  rw [Bin.members, filter_cons_of_neg (by simp), filter_eq_self]
  intro r hrest
  have hne : r ≠ b.top := fun h => (nodup_cons.mp hr.nodup_first).1 (h ▸ hrest)
  simpa using hne

theorem Rep.nodup_dropEvent (hr : Rep h head bins) (p : Ptr) :
    (members (dropEvent p bins)).Nodup := by
  rw [members_dropEvent]
  exact hr.nodup.filter _

/-- A bin with one event goes away with it. -/
theorem Rep.dropTop_nil (hr : Rep h head (b :: bins)) (he : h b.top = some e)
    (hrest : b.rest = []) : Rep h e.nextBin (dropEvent b.top (b :: bins)) := by
  obtain ⟨e', he', _, _, htail⟩ := hr.tail
  rw [he] at he'
  cases he'
  have hdrop : b.dropEvent b.top = none := by rw [Bin.dropEvent, hr.filter_top, hrest]
  rw [dropEvent, filterMap_cons, hdrop]
  show Rep h e.nextBin (dropEvent b.top bins)
  rw [dropEvent_eq_self (hr.notMem_tail b.top_mem_members)]
  exact htail

/-- The event below the top becomes the top. It gets the `nextBin` of the old top, because its
own may be stale. -/
theorem Rep.dropTop_cons (hr : Rep h head (b :: bins)) {en : Event} {next : Ptr} {below : List Ptr}
    (he : h b.top = some e) (hrest : b.rest = next :: below) (hen : h next = some en) :
    Rep (update h next (some { en with nextBin := e.nextBin })) (some next)
      (dropEvent b.top (b :: bins)) := by
  obtain ⟨e', he', _, _, htail⟩ := hr.tail
  obtain ⟨e'', he'', hbelow⟩ := hr.below
  rw [he] at he' he''
  cases he'
  cases he''
  rw [hrest] at hbelow
  have hnext : next ∈ b.members := by simp [Bin.members, hrest]
  have hdrop : b.dropEvent b.top = some ⟨b.key, next, below⟩ := by
    rw [Bin.dropEvent, hr.filter_top, hrest]
  have hnodup := hr.nodup_dropEvent b.top
  have hsorted := sorted_dropEvent (p := b.top) hr.sorted
  rw [dropEvent_cons hdrop (hr.notMem_tail b.top_mem_members)] at hnodup hsorted ⊢
  have hother : ∀ r, r ≠ next → update h next (some { en with nextBin := e.nextBin }) r = h r :=
    fun r hr => update_of_ne hr _ _
  refine Rep.cons (e := { en with nextBin := e.nextBin })
    (htail.congr fun r hr' => hother r ?_) (update_self _ _ _) ?_ ?_ hnodup hsorted
  · rintro rfl
    exact hr.notMem_tail hnext hr'
  · rw [hbelow.1] at hbelow
    refine hbelow.congr fun r _ => ?_
    rw [nextInBinOf, nextInBinOf]
    by_cases hrn : r = next
    · rw [hrn, update_self, hen]
      rfl
    · rw [hother r hrn]
  · intro r hr'
    have hmem : r ∈ b.members := by
      rw [Bin.members, hrest]
      exact mem_cons_of_mem _ hr'
    obtain ⟨er, her, hkey⟩ := hr.key b mem_cons_self r hmem
    by_cases hrn : r = next
    · subst hrn
      rw [hen] at her
      cases her
      exact ⟨_, update_self _ _ _, hkey⟩
    · exact ⟨er, by rw [hother r hrn]; exact her, hkey⟩

/-- A list without repetition, without one of its elements. -/
theorem filter_ne_of_nodup {α : Type} [DecidableEq α] {xs ys : List α} {x : α}
    (h : (xs ++ x :: ys).Nodup) : (xs ++ x :: ys).filter (fun r => r ≠ x) = xs ++ ys := by
  have hperm : (xs ++ x :: ys).Perm (x :: (xs ++ ys)) := perm_middle
  have hx := (nodup_cons.mp (hperm.nodup_iff.mp h)).1
  have hself : (xs ++ ys).filter (fun r => r ≠ x) = xs ++ ys := by
    rw [filter_eq_self]
    intro r hr
    have hne : r ≠ x := fun heq => hx (heq ▸ hr)
    simpa using hne
  rw [filter_append] at hself
  rw [filter_append, filter_cons_of_neg (by simp)]
  exact hself

/-- An event below the top is left out when the event above it gets its link. -/
theorem Rep.dropBelow (hr : Rep h head (b :: bins)) {c : Ptr} {above below : List Ptr}
    {ec ep : Event} (hsplit : b.top :: b.rest = above ++ c :: p :: below) (hec : h c = some ec)
    (hep : h p = some ep) :
    Rep (update h c (some { ec with nextInBin := ep.nextInBin })) (some b.top)
      (dropEvent p (b :: bins)) := by
  obtain ⟨et, het, _, _, htail⟩ := hr.tail
  have hmembers : b.members = above ++ c :: p :: below := hsplit
  have hmembers' : b.members = (above ++ [c]) ++ p :: below := by rw [hmembers]; simp
  have hnodup := hr.nodup_first
  have hp : p ∈ b.members := by rw [hmembers]; simp
  have hc : c ∈ b.members := by rw [hmembers]; simp
  have hfilter : b.members.filter (fun r => r ≠ p) = above ++ c :: below := by
    rw [hmembers'] at hnodup ⊢
    rw [filter_ne_of_nodup hnodup]
    simp
  -- the top stays
  obtain ⟨rest, hrest⟩ : ∃ rest, above ++ c :: below = b.top :: rest := by
    cases above with
    | nil =>
      rw [nil_append, cons.injEq] at hsplit
      exact ⟨below, by rw [hsplit.1]; rfl⟩
    | cons a above =>
      rw [cons_append, cons.injEq] at hsplit
      exact ⟨above ++ c :: below, by rw [hsplit.1]; rfl⟩
  have hdrop : b.dropEvent p = some ⟨b.key, b.top, rest⟩ := by
    rw [Bin.dropEvent, hfilter, hrest]
  have hnodup' := hr.nodup_dropEvent p
  have hsorted' := sorted_dropEvent (p := p) hr.sorted
  rw [dropEvent_cons hdrop (hr.notMem_tail hp)] at hnodup' hsorted' ⊢
  have hother : ∀ r, r ≠ c → update h c (some { ec with nextInBin := ep.nextInBin }) r = h r :=
    fun r hr => update_of_ne hr _ _
  -- every event keeps its key and its `nextBin`
  have hfields : ∀ r e, h r = some e → ∃ e',
      update h c (some { ec with nextInBin := ep.nextInBin }) r = some e' ∧
        e'.nextBin = e.nextBin ∧ e'.key = e.key := by
    intro r e he
    by_cases hrc : r = c
    · subst hrc
      rw [hec] at he
      cases he
      exact ⟨_, update_self _ _ _, rfl, rfl⟩
    · exact ⟨e, by rw [hother r hrc]; exact he, rfl, rfl⟩
  obtain ⟨et', het', hbin, _⟩ := hfields b.top et het
  refine Rep.cons (b := ⟨b.key, b.top, rest⟩) ?_ het' ?_ ?_ hnodup' hsorted'
  · rw [hbin]
    refine htail.congr fun r hr' => hother r ?_
    rintro rfl
    exact hr.notMem_tail hc hr'
  · show Linked _ _ (b.top :: rest)
    have hstack := hr.stack b mem_cons_self
    -- the events below the removed one hang below `c`
    obtain ⟨o, ho, hbelow⟩ : ∃ o, nextInBinOf h p = some o ∧ Linked (nextInBinOf h) o below := by
      rw [hmembers'] at hstack
      exact hstack.suffix
    rw [nextInBinOf, hep] at ho
    cases ho
    have hne : ∀ r ∈ above ++ below, r ≠ c := by
      rintro r hr' rfl
      rw [hmembers] at hnodup
      have hperm : (above ++ r :: p :: below).Perm (r :: (above ++ p :: below)) := perm_middle
      refine (nodup_cons.mp (hperm.nodup_iff.mp hnodup)).1 ?_
      simp only [mem_append] at hr' ⊢
      tauto
    have hlink : ∀ r ∈ above ++ below,
        nextInBinOf (update h c (some { ec with nextInBin := ep.nextInBin })) r
          = nextInBinOf h r := fun r hr' => by
      rw [nextInBinOf, nextInBinOf, hother r (hne r hr')]
    rw [← hrest]
    rw [hmembers] at hstack
    refine hstack.splice (fun r hr' => hlink r (by simp [hr'])) ?_
      (hbelow.congr fun r hr' => hlink r (by simp [hr']))
    rw [nextInBinOf, update_self]
    rfl
  · intro r hr'
    have hmem : r ∈ b.members := by
      have hr'' : r ∈ b.top :: rest := hr'
      rw [← hrest, ← hfilter] at hr''
      exact mem_of_mem_filter hr''
    obtain ⟨e, he, hkey⟩ := hr.key b mem_cons_self r hmem
    obtain ⟨e', he', _, hkey'⟩ := hfields r e he
    exact ⟨e', he', hkey'.trans hkey⟩

end

end Gem5.Sim
