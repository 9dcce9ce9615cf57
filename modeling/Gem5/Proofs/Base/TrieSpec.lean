import Gem5.Proofs.Base.Trie

/-!
# `Gem5.Proofs.Base.TrieSpec`: what the functions of the trie do

`live t` maps the handles to the entries of the trie: the nodes that hold a value. Each function
is specified by its effect on `live` and by the invariant it keeps. `lookupHandle` finds the
entry with the shortest mask that matches (`lookupHandle_spec`), `insert` adds one entry
(`insert_spec`), and `remove` takes one away (`remove_spec`). All of them return, so none of
their assertions and panics is reached.
-/

namespace Gem5.Base

open Function Option Gem5.Lib

variable {w : Nat} {V : Type}

/-- What was inserted: the prefix, its mask and the value. -/
structure Entry (w : Nat) (V : Type) where
  key : BitVec w
  mask : BitVec w
  value : V
  deriving Repr, DecidableEq

/-- The prefix matches a key. -/
def Entry.Matches (e : Entry w V) (key : BitVec w) : Prop := key &&& e.mask = e.key

/-- The entry of a node that holds a value. -/
def Node.entry (n : Node w V) : Option (Entry w V) :=
  n.value.map fun v => { key := n.key, mask := n.mask, value := v }

namespace Trie

/-- The entries of the trie by handle. -/
def live (t : Trie w V) (p : Ptr) : Option (Entry w V) := (t.heap p).bind Node.entry

variable {t : Trie w V} {p : Ptr} {n : Node w V} {e : Entry w V}

theorem live_eq_some (h : t.live p = some e) :
    ∃ n, t.heap p = some n ∧ n.value = some e.value ∧ n.key = e.key ∧ n.mask = e.mask := by
  obtain ⟨n, hn, hmap⟩ := bind_eq_some_iff.mp h
  obtain ⟨v, hv, rfl⟩ := map_eq_some_iff.mp hmap
  exact ⟨n, hn, hv, rfl, rfl⟩

theorem live_of_value {v : V} (hp : t.heap p = some n) (hv : n.value = some v) :
    t.live p = some { key := n.key, mask := n.mask, value := v } := by
  simp [live, Node.entry, hp, hv]

theorem live_of_none (hp : t.heap p = some n) (hv : n.value = none) : t.live p = none := by
  simp [live, Node.entry, hp, hv]

/-- A write sets the entry of one handle. -/
theorem live_put (t : Trie w V) (p : Ptr) (o : Option (Node w V)) :
    (t.put p o).live = Function.update t.live p (o.bind Node.entry) := by
  funext r
  by_cases hr : r = p
  · subst hr
    rw [live, put_self, update_self]
  · rw [live, put_of_ne _ _ hr, update_of_ne hr]
    rfl

/-- Writing parents does not change the entries. -/
theorem live_adopted (t : Trie w V) (p : Ptr) (kid : Option Ptr) :
    (t.adopted p kid).live = t.live := by
  cases kid with
  | none => rfl
  | some c =>
    rw [adopted, live_put]
    refine update_eq_self_iff.mpr ?_
    rw [live]
    cases t.heap c with
    | none | some => rfl

/-- A new node adds its entry. -/
theorem live_placed (m : Node w V) (hp : t.heap p = some n) (hpa : p ≠ t.next) (i : Bool) :
    (t.placed m p n i).live = Function.update t.live t.next m.entry := by
  have hpush : (t.push m).live = Function.update t.live t.next m.entry := live_put t _ _
  rw [placed, live_put, live_adopted, hpush]
  refine update_eq_self_iff.mpr ?_
  rw [update_of_ne hpa, live, hp]
  rfl

theorem live_unlink (hp : t.heap p = some n) (i : Bool) (kid : Option Ptr) :
    (t.unlink p n i kid).live = t.live := by
  obtain ⟨hkey, hmask, _, hvalue⟩ := pack_fields (n.setKid i kid)
  rw [unlink, live_put, live_adopted]
  refine update_eq_self_iff.mpr ?_
  rw [live, hp, bind_some, Node.entry, hkey, hmask, hvalue]
  rfl

/-- The entry that a lookup should find: the one with the shortest mask among those that
match. -/
def Shortest (entries : Ptr → Option (Entry w V)) (key : BitVec w) : Option Ptr → Prop
  | none => ∀ p e, entries p = some e → ¬ e.Matches key
  | some h => ∃ e, entries h = some e ∧ e.Matches key ∧
      ∀ p e', entries p = some e' → e'.Matches key → p = h ∨ maskLength e.mask < maskLength e'.mask

section
variable {t : Trie w V} {p : Ptr} {n : Node w V}

theorem returns_deref {Q : Node w V → Trie w V → Prop} (h : t.heap p = some n) :
    Returns (deref p) t Q ↔ Q n t := by
  unfold deref
  rw [returns_bind, returns_get, h]
  simp

variable {Q : Unit → Trie w V → Prop}

theorem returns_update {f : Node w V → Node w V} (h : t.heap p = some n) :
    Returns (update p f) t Q ↔ Q () (t.put p (some (f n))) := by
  unfold update
  rw [returns_bind, returns_deref h, returns_modify]

theorem returns_alloc {Q : Ptr → Trie w V → Prop} :
    Returns (alloc n) t Q ↔ Q t.next (t.push n) := by
  unfold alloc
  rw [returns_bind, returns_get, returns_bind, returns_modify, returns_pure]

theorem returns_assert {condition : Bool} {text : String} :
    Returns (assert condition text) t Q ↔ condition = true ∧ Q () t := by
  unfold assert
  cases condition with
  | true | false => simp

end

/-- A node matches when its bits agree with the key. -/
theorem matchesTest_iff (h : UpWF t p n) (key : BitVec w) :
    n.matchesTest key = true ↔ Agree n.len key n.key := by
  obtain ⟨hmask, _, hkey⟩ := h.cut
  unfold Node.matchesTest
  rw [beq_iff_eq, hmask]
  exact and_topMask_eq_iff hkey

theorem matches_iff (h : UpWF t p n) (hkey : n.key = e.key) (hmask : n.mask = e.mask)
    (key : BitVec w) : e.Matches key ↔ Agree n.len key n.key := by
  rw [Entry.Matches, ← hkey, ← hmask, ← matchesTest_iff h key, Node.matchesTest, beq_iff_eq]

section
variable {x : Option Ptr} {t : Trie w V} {a : Ptr} {n : Node w V} {key : BitVec w}

/-- Every entry that matches the key lies below the node. -/
def AllBelow (t : Trie w V) (key : BitVec w) (a : Ptr) : Prop :=
  ∀ p m, t.heap p = some m → m.value ≠ none → Agree m.len key m.key → WF.Below t a p

section
variable (h : WF x t) (ha : t.heap a = some n) (hvalue : n.value = none) (hall : AllBelow t key a)
include h ha hvalue hall

/-- Below a node without a value, a matching entry lies below a kid that matches. -/
theorem AllBelow.exists_kid {p : Ptr} {k : Node w V} (hk : t.heap p = some k)
    (hkvalue : k.value ≠ none) (hkmatch : Agree k.len key k.key) :
    ∃ j d o, n.kids j = some d ∧ t.heap d = some o ∧ n.len < o.len ∧ Agree o.len key o.key ∧
      WF.Below t d p := by
  have hne : p ≠ a := fun heq => by
    rw [heq, ha] at hk
    cases hk
    exact hkvalue hvalue
  obtain ⟨j, d, hd, hbelow⟩ := h.below_kid (hall p k hk hkvalue hkmatch) hne ha
  obtain ⟨o, ho, _, hlen, _⟩ := h.kid ha hd
  obtain ⟨hle, hagree, _⟩ := h.below_agree hbelow ho hk
  exact ⟨j, d, o, hd, ho, hlen, (hkmatch.mono hle).trans hagree, hbelow⟩

/-- All matching entries lie below the kid that matches. -/
theorem AllBelow.kid {i : Bool} {c : Ptr} {m : Node w V} (hc : n.kids i = some c)
    (hm : t.heap c = some m) (hmatch : Agree m.len key m.key) : AllBelow t key c := by
  intro p k hk hkvalue hkmatch
  obtain ⟨j, d, o, hd, ho, hlen, hdmatch, hbelow⟩ :=
    hall.exists_kid h ha hvalue hk hkvalue hkmatch
  obtain ⟨_, hlen', _⟩ := h.kid_at ha hc hm
  by_cases hij : i = j
  · subst hij
    cases hc.symm.trans hd
    exact hbelow
  · -- two kids cannot both match
    have hcd : Agree (n.len + 1) m.key o.key := (hmatch.mono hlen').symm.trans (hdmatch.mono hlen)
    exact absurd hcd ((h.down a n ha).apart i j c d m o hij hc hd hm ho)

/-- Nothing matches when no kid does. -/
theorem AllBelow.none
    (hno : ∀ i c m, n.kids i = some c → t.heap c = some m → ¬ Agree m.len key m.key) :
    Shortest t.live key none := by
  intro p e he hmatch
  obtain ⟨k, hk, hkvalue, hkey, hmask⟩ := live_eq_some he
  obtain ⟨j, d, o, hd, ho, _, hdmatch, _⟩ := hall.exists_kid h ha hvalue hk (by rw [hkvalue]; simp)
    ((matches_iff (h.up p k hk) hkey hmask key).mp hmatch)
  exact hno j d o hd ho hdmatch

end

section
variable {test : Option Ptr → TrieM w V (Option Ptr)} {P : Node w V → Prop}

/-- The test finds out whether a kid satisfies `P`. -/
def TestsKids (test : Option Ptr → TrieM w V (Option Ptr)) (P : Node w V → Prop) (t : Trie w V)
    (n : Node w V) : Prop :=
  ∀ i, Returns (test (n.kids i)) t fun r t' => t' = t ∧
    (∀ c, r = some c → n.kids i = some c ∧ ∃ m, t.heap c = some m ∧ P m) ∧
    (r = none → ∀ c m, n.kids i = some c → t.heap c = some m → ¬ P m)

/-- A test that reads the kid and decides `P`. -/
theorem testsKids_of_good (h : WF x t) (ha : t.heap a = some n) {good : Node w V → Bool}
    (hnone : test none = pure none)
    (hsome : ∀ c, test (some c) = do
      let m ← deref c
      return if good m then some c else none)
    (hgood : ∀ c m, t.heap c = some m → (good m = true ↔ P m)) : TestsKids test P t n := by
  intro i
  cases hc : n.kids i with
  | none =>
    rw [hnone, returns_pure]
    exact ⟨rfl, by simp, by simp⟩
  | some c =>
    obtain ⟨m, hm, _⟩ := h.kid ha hc
    rw [hsome, returns_bind, returns_deref hm, returns_pure]
    refine ⟨rfl, fun d hd => ?_, fun hnot d m' hd hm' => ?_⟩
    · split at hd
      · rename_i hyes
        cases hd
        exact ⟨rfl, m, hm, (hgood c m hm).mp hyes⟩
      · cases hd
    · split at hnot
      · cases hnot
      · rename_i hno
        cases hd
        cases hm.symm.trans hm'
        exact fun hP => hno ((hgood c m hm).mpr hP)

/-- The loops go on at the first kid that passes their test. -/
theorem returns_descend {α : Type} (h : WF x t) (ha : t.heap a = some n)
    (htest : TestsKids test P t n) {go : Ptr → TrieM w V α} {stay : TrieM w V α}
    {Q : α → Trie w V → Prop}
    (hgo : ∀ i c m, n.kids i = some c → t.heap c = some m → n.len < m.len → P m →
      Returns (go c) t Q)
    (hstay : (∀ i c m, n.kids i = some c → t.heap c = some m → ¬ P m) → Returns stay t Q) :
    Returns (do
      match ← test (n.kids false) with
      | some c => go c
      | none =>
        match ← test (n.kids true) with
        | some c => go c
        | none => stay) t Q := by
  rw [returns_bind]
  refine (htest false).mono ?_
  rintro r t' ⟨rfl, hsome, hnone⟩
  cases r with
  | some c =>
    obtain ⟨hc, m, hm, hP⟩ := hsome c rfl
    exact hgo false c m hc hm (h.kid_at ha hc hm).2.1 hP
  | none =>
    rw [returns_bind]
    refine (htest true).mono ?_
    rintro r t' ⟨rfl, hsome', hnone'⟩
    cases r with
    | some c =>
      obtain ⟨hc, m, hm, hP⟩ := hsome' c rfl
      exact hgo true c m hc hm (h.kid_at ha hc hm).2.1 hP
    | none =>
      refine hstay fun i c m hc hm => ?_
      cases i with
      | false => exact hnone rfl c m hc hm
      | true => exact hnone' rfl c m hc hm

end

/-- The loop of `lookupHandle`. -/
theorem lookupFrom_spec (h : WF x t) (fuel : Nat) :
    ∀ {a : Ptr} {n : Node w V}, t.heap a = some n → Agree n.len key n.key → AllBelow t key a →
      w < n.len + fuel →
      Returns (lookupFrom key fuel a) t fun r t' => t' = t ∧ Shortest t.live key r := by
  induction fuel with
  | zero =>
    intro a n ha _ _ hfuel
    have hle := (h.up a n ha).cut.2.1
    omega
  | succ fuel ih =>
    intro a n ha hmatch hall hfuel
    rw [lookupFrom, returns_bind, returns_deref ha]
    cases hvalue : n.value with
    | some =>
      rw [if_pos (by simp), returns_pure]
      refine ⟨rfl, _, live_of_value ha hvalue, ?_, fun p e he hmatch' => ?_⟩
      · exact (matches_iff (h.up a n ha) rfl rfl key).mpr hmatch
      · obtain ⟨k, hk, hkvalue, hkey, hmask⟩ := live_eq_some he
        have hkmatch := (matches_iff (h.up p k hk) hkey hmask key).mp hmatch'
        have hbelow := hall p k hk (by rw [hkvalue]; simp) hkmatch
        obtain ⟨_, _, hlt⟩ := h.below_agree hbelow ha hk
        by_cases hpa : p = a
        · exact .inl hpa
        · refine .inr ?_
          rw [← hmask]
          exact hlt hpa
    | none =>
      have htest : TestsKids (lookupFrom.matching key) (fun m => Agree m.len key m.key) t n :=
        testsKids_of_good h ha rfl (fun _ => rfl) fun c m hm => matchesTest_iff (h.up c m hm) key
      refine returns_descend h ha htest (fun i c m hc hm hlen hcmatch => ?_) fun hno => ?_
      · exact ih hm hcmatch (hall.kid h ha hvalue hc hm hcmatch) (by omega)
      · rw [returns_pure]
        exact ⟨rfl, hall.none h ha hvalue hno⟩

/-- `lookupHandle` finds the shortest entry that matches. -/
theorem lookupHandle_spec (h : WF x t) (key : BitVec w) :
    Returns (lookupHandle key) t fun r t' => t' = t ∧ Shortest t.live key r := by
  obtain ⟨r, hr, _⟩ := h.root
  have hlen : r.len = 0 := ((h.up _ r hr).top rfl).1
  refine lookupFrom_spec h (w + 1) hr ?_ (fun p m hm _ _ => h.below_root hm) (by omega)
  rw [hlen]
  exact agree_zero _ _

end

/-! ### `insert` -/

section
variable {x : Option Ptr} {t : Trie w V} {a : Ptr} {n : Node w V} {key : BitVec w} {d : Nat}

/-- A kid passes if the new node goes after it. -/
theorem goesAfter_tests (h : WF x t) (ha : t.heap a = some n) (hd : d ≤ w) :
    TestsKids (fun kid => goesAfter kid key (topMask w d))
      (fun m => Agree m.len key m.key ∧ m.len ≤ d) t n := by
  refine testsKids_of_good h ha rfl (fun _ => rfl) fun c m hm => ?_
  obtain ⟨hmask, hle, _⟩ := (h.up c m hm).cut
  rw [Bool.and_eq_true, matchesTest_iff (h.up c m hm) key, beq_iff_eq, hmask, topMask_and]
  refine and_congr_right fun _ => ⟨fun heq => ?_, fun hle' => by rw [Nat.min_eq_left hle']⟩
  have hmin := topMask_inj (by omega) hle heq
  omega

/-- The walk ends at a node that the new one goes after, and at none of whose kids. -/
theorem walk_spec (h : WF x t) (hd : d ≤ w) (fuel : Nat) :
    ∀ {a : Ptr} {n : Node w V}, t.heap a = some n → Agree n.len key n.key → n.len ≤ d →
      w < n.len + fuel →
      Returns (walk key (topMask w d) fuel a) t fun r t' => t' = t ∧
        ∃ m, t.heap r = some m ∧ Agree m.len key m.key ∧ m.len ≤ d ∧
          ∀ i c k, m.kids i = some c → t.heap c = some k → ¬ (Agree k.len key k.key ∧ k.len ≤ d) := by
  induction fuel with
  | zero =>
    intro a n ha _ _ hfuel
    omega
  | succ fuel ih =>
    intro a n ha hmatch hlen hfuel
    rw [walk, returns_bind, returns_deref ha]
    refine returns_descend h ha (goesAfter_tests h ha hd)
      (fun i c m hc hm hlt hafter => ?_) fun hno => ?_
    · exact ih hm hafter.1 hafter.2 (by omega)
    · rw [returns_pure]
      exact ⟨rfl, n, ha, hmatch, hlen, hno⟩

variable {m : Node w V} {e : Nat}

theorem extendMask_topMask (hw : 0 < w) (he : e < w) :
    extendMask (topMask w e) = topMask w (e + 1) := by
  rw [extendMask, topMask_succ hw (by omega), Nat.min_eq_left he]

/-- The inner loop finds where the new key leaves the key of the kid. -/
theorem splitMask_spec (hw : 0 < w) (hd : d ≤ w) {kidKey : BitVec w} (fuel : Nat) :
    ∀ {e : Nat}, e ≤ d → Agree e key kidKey → d < e + fuel →
      Returns (splitMask key (topMask w d) kidKey fuel (topMask w e)) t fun m t' => t' = t ∧
        ∃ e', m = topMask w e' ∧ e ≤ e' ∧ e' ≤ d ∧ Agree e' key kidKey ∧
          (e' = d ∨ ¬ Agree (e' + 1) key kidKey) := by
  induction fuel with
  | zero =>
    intro e he _ hfuel
    omega
  | succ fuel ih =>
    intro e he hagree hfuel
    rw [splitMask]
    by_cases hed : e = d
    · subst hed
      rw [if_pos (by simp), returns_pure]
      exact ⟨rfl, e, rfl, Nat.le_refl _, Nat.le_refl _, hagree, .inl rfl⟩
    · have hne : topMask w e ≠ topMask w d := fun heq => hed (topMask_inj (by omega) hd heq)
      rw [extendMask_topMask hw (by omega)]
      by_cases hmore : Agree (e + 1) key kidKey
      · have hsame : key &&& topMask w (e + 1) = kidKey &&& topMask w (e + 1) := hmore
        rw [if_neg (by simp [hsame, hne])]
        refine (ih (by omega) hmore (by omega)).mono ?_
        rintro m t' ⟨rfl, e', hm, hle, hrest⟩
        exact ⟨rfl, e', hm, by omega, hrest⟩
      · have hdiff : key &&& topMask w (e + 1) ≠ kidKey &&& topMask w (e + 1) := hmore
        rw [if_pos (by simp [hdiff]), returns_pure]
        exact ⟨rfl, e, rfl, Nat.le_refl _, he, hagree, .inr hmore⟩

/-- A new node is cut to its mask. -/
theorem cut_new (key : BitVec w) (he : e ≤ w) (hmask : m.mask = topMask w e)
    (hkey : m.key = key &&& topMask w e) : m.Cut ∧ m.len = e := by
  have hlen : m.len = e := by
    rw [Node.len, hmask]
    exact maskLength_topMask he
  refine ⟨⟨by rw [hlen, hmask], by rw [hlen]; exact he, ?_⟩, hlen⟩
  rw [hlen, hkey, BitVec.and_assoc, BitVec.and_self]

/-- The new entry is the only change. -/
def Inserted (t : Trie w V) (e : Entry w V) (p : Ptr) (t' : Trie w V) : Prop :=
  WF none t' ∧ t.live p = none ∧ t'.live = Function.update t.live p (some e)

/-- The next address holds no entry. -/
theorem WF.live_next (h : WF x t) : t.live t.next = none := by
  simp [live, h.unused t.next (Nat.le_refl _)]

/-- A leaf below a node. -/
theorem inserted_attach {i : Bool} (val : V) (h : WF x t) (ha : t.heap a = some n)
    (hnone : n.kids i = none) (hd : d ≤ w) (hkey : key = key &&& topMask w d) (hlen : n.len < d)
    (hmatch : Agree n.len key n.key)
    (hfirst : i = true → ∃ c k, n.kids false = some c ∧ t.heap c = some k ∧
      ¬ Agree (n.len + 1) k.key key) (hx : ∀ q, x = some q → q = a ∧ i = true) :
    Inserted t { key := key, mask := topMask w d, value := val } t.next
      (((t.push { Node.new key (topMask w d) (some val) with parent := some a }).put a
        (some (n.setKid i (some t.next))))) := by
  generalize hm : ({ Node.new key (topMask w d) (some val) with parent := some a } : Node w V) = m
  have hmkey : m.key = key &&& topMask w d := by rw [← hm]; rfl
  obtain ⟨hcut, hmlen⟩ := cut_new key hd (by rw [← hm]; rfl) hmkey
  rw [← hkey] at hmkey
  have hplaced : t.placed m a n i = (t.push m).put a (some (n.setKid i (some t.next))) := by
    rw [placed, hnone]
    rfl
  rw [← hplaced]
  refine ⟨h.attach ha hnone hcut (by rw [← hm]) (by rw [← hm]; exact fun _ => rfl)
    (by rw [← hm]; simp [Node.new]) (by rw [hmlen]; exact hlen) (by rw [hmkey]; exact hmatch)
    (by rw [hmkey]; exact hfirst) hx, h.live_next, ?_⟩
  rw [live_placed m ha (h.next_free ha), Node.entry, hmkey, ← hm]
  rfl

/-- One round of the last loop of `insert`: the leg is not the right one, or the entry is
inserted. -/
theorem insertKid_spec (hw : 0 < w) (h : WF none t) (ha : t.heap a = some n) (hd : d ≤ w)
    (hkey : key = key &&& topMask w d) (hlen : n.len < d) (hmatch : Agree n.len key n.key)
    (i : Bool) (val : V)
    (hno : ∀ c k, n.kids i = some c → t.heap c = some k → ¬ (Agree k.len key k.key ∧ k.len ≤ d))
    (hfirst : i = true → ∃ c k, n.kids false = some c ∧ t.heap c = some k ∧
      ¬ Agree (n.len + 1) k.key key) :
    Returns (insertKid a i key (topMask w d) val) t fun r t' =>
      (r = none ∧ t' = t ∧ ∃ c k, n.kids i = some c ∧ t.heap c = some k ∧
        ¬ Agree (n.len + 1) k.key key) ∨
      ∃ p, r = some p ∧ Inserted t { key := key, mask := topMask w d, value := val } p t' := by
  have hat : a ≠ t.next := h.next_free ha
  unfold insertKid
  rw [returns_bind, returns_deref ha]
  cases hc : n.kids i with
  | none =>
    rw [returns_bind, returns_alloc, returns_bind, returns_update ((push_of_ne _ hat).trans ha),
      returns_pure]
    exact .inr ⟨t.next, rfl, inserted_attach val h ha hc hd hkey hlen hmatch hfirst (by simp)⟩
  | some c =>
    obtain ⟨k, hk, hkparent, hnk, hkn⟩ := h.kid ha hc
    have hct : c ≠ t.next := h.next_free hk
    have hca : c ≠ a := (WF.ne_of_len ha hk hnk).symm
    obtain ⟨hmask, hnw, _⟩ := (h.up a n ha).cut
    rw [returns_bind, returns_deref hk, returns_bind, hmask]
    refine (splitMask_spec hw hd (w + 1) (Nat.le_of_lt hlen) (hmatch.trans hkn.symm)
      (by omega)).mono ?_
    rintro cur t' ⟨hsteady, e, rfl, hne, hed, hagree, hstop⟩
    subst t'
    by_cases hsame : e = n.len
    · rw [if_pos (by rw [hsame]; simp), returns_pure]
      refine .inl ⟨rfl, rfl, c, k, rfl, hk, fun hcontra => ?_⟩
      rw [hsame] at hstop
      exact (hstop.resolve_left (by omega)) hcontra.symm
    · have hmasks : topMask w e ≠ topMask w n.len := fun heq =>
        hsame (topMask_inj (by omega) hnw heq)
      rw [if_neg (by simpa using hmasks)]
      -- the kid is longer than the part of the key that it shares
      have hek : e < k.len := by
        by_contra hle
        exact hno c k hc hk ⟨hagree.mono (by omega), by omega⟩
      rw [returns_bind, returns_alloc, returns_bind,
        returns_update ((push_of_ne _ hct).trans hk), returns_bind,
        returns_update ((put_of_ne _ _ hct.symm).trans (push_self _ _)), push_put _ _ hct]
      generalize hmid : Node.setKid { Node.new key (topMask w e) none with parent := some a } false
        (some c) = mid
      have hmkey : mid.key = key &&& topMask w e := by rw [← hmid]; rfl
      obtain ⟨hcut, hmlen⟩ := cut_new key (by omega) (by rw [← hmid]; rfl) hmkey
      have hmfalse : mid.kids false = some c := by rw [← hmid, setKid_self]
      have hmtrue : mid.kids true = none := by rw [← hmid]; rfl
      have hmvalue : mid.value = none := by rw [← hmid]; rfl
      have hsplit := h.split ha hc hk hcut (by rw [← hmid]; rfl) hmfalse hmtrue (by omega)
        (by omega) (by rw [hmlen, hmkey]; exact hagree.symm.trans (agree_and e key).symm)
      rw [returns_bind, returns_update
        ((put_of_ne _ _ hca.symm).trans ((push_of_ne _ hat).trans ha))]
      -- the edge is split, and the entries are the same
      have ht₁ : ((t.push mid).put c (some { k with parent := some t.next })).put a
          (some (n.setKid i (some t.next))) = t.placed mid a n i := by
        rw [placed, hc, adopted, push_of_ne _ hct, hk]
        rfl
      have hmid₁ := h.placed_new mid ha i
      have hkid₁ := h.placed_kid mid ha hc hk
      have hlive₁ : (t.placed mid a n i).live = t.live := by
        rw [live_placed mid ha hat, Node.entry, hmvalue]
        exact update_eq_self_iff.mpr h.live_next.symm
      rw [ht₁]
      generalize t.placed mid a n i = t₁ at *
      by_cases hend : e = d
      · -- the key ends here
        rw [if_pos (by rw [hend]; simp), returns_bind, returns_update hmid₁, returns_pure]
        refine .inr ⟨t.next, rfl, ?_, h.live_next, ?_⟩
        · exact (hsplit.setValue hmid₁ h.next_ne_root (fun q hq => (some.inj hq).symm)
            (some val)).settle (put_self _ _ _) (.inr (.inl (by simp)))
        · rw [live_put, hlive₁]
          show Function.update t.live t.next (some (Entry.mk mid.key mid.mask val)) = _
          rw [hmkey, hcut.1, hmlen, hend, ← hkey]
      · have hmasks' : topMask w e ≠ topMask w d := fun heq =>
          hend (topMask_inj (by omega) hd heq)
        rw [if_neg (by simpa using hmasks'), returns_bind, returns_alloc, returns_bind,
          returns_update ((push_of_ne _ (hsplit.next_free hmid₁)).trans hmid₁), returns_pure]
        have hins := inserted_attach val hsplit hmid₁ hmtrue hd hkey (by omega)
          (by rw [hmlen, hmkey]; exact (agree_and e key).symm)
          (fun _ => ⟨c, _, hmfalse, hkid₁, fun hcontra => by
            rw [hmlen] at hcontra
            exact (hstop.resolve_left hend) hcontra.symm⟩)
          (fun q hq => ⟨(some.inj hq).symm, rfl⟩)
        rw [Inserted, hlive₁] at hins
        exact .inr ⟨t₁.next, rfl, hins⟩

/-- The mask of a width. -/
theorem widthMask_eq (width : Nat) : (widthMask width : BitVec w) = topMask w (min width w) := by
  unfold widthMask
  split
  · rw [Nat.min_eq_left (by omega)]
    rfl
  · rename_i hge
    rw [Nat.min_eq_right (by omega), topMask_full]

/-- `insert` adds one entry, if there is none with the same prefix and mask. -/
theorem insert_spec (hw : 0 < w) (h : WF none t) (key : BitVec w) {width : Nat} (val : V)
    (hwidth : 1 ≤ width)
    (hdistinct : ∀ p e, t.live p = some e →
      ¬ (e.key = key &&& widthMask width ∧ e.mask = widthMask width)) :
    Returns (insert key width val) t fun p t' =>
      Inserted t { key := key &&& widthMask width, mask := widthMask width, value := val } p t' := by
  have hd : min width w ≤ w := Nat.min_le_right _ _
  have hpos : 0 < min width w := by omega
  unfold insert
  dsimp only
  rw [widthMask_eq] at hdistinct ⊢
  generalize min width w = d at *
  have hkey : key &&& topMask w d = (key &&& topMask w d) &&& topMask w d := by
    rw [BitVec.and_assoc, BitVec.and_self]
  generalize key &&& topMask w d = key at *
  obtain ⟨r, hr, _⟩ := h.root
  have hrlen : r.len = 0 := ((h.up _ r hr).top rfl).1
  rw [returns_bind]
  refine (walk_spec h hd (w + 1) hr (by rw [hrlen]; exact agree_zero _ _)
    (by omega) (by omega)).mono ?_
  rintro a t' ⟨hsteady, n, ha, hmatch, hlen, hno⟩
  subst t'
  obtain ⟨hmask, hnw, hnkey⟩ := (h.up a n ha).cut
  rw [returns_bind, returns_deref ha]
  by_cases hsame : n.len = d
  · -- the node is there, and it has no value
    rw [if_pos (by rw [hmask, hsame]; simp), returns_bind, returns_assert]
    have hnkey' : n.key = key := by
      rw [hsame] at hnkey hmatch
      rw [hkey, hnkey]
      exact hmatch.symm
    have hvalue : n.value = none := by
      cases hv : n.value with
      | none => rfl
      | some =>
        refine absurd ⟨hnkey', ?_⟩ (hdistinct a _ (live_of_value ha hv))
        rw [hmask, hsame]
    have hroot : a ≠ Trie.root := fun heq => by
      have hzero := ((h.up a n ha).top heq).1
      omega
    refine ⟨by rw [hvalue]; rfl, ?_⟩
    rw [returns_bind, returns_update ha, returns_pure]
    refine ⟨(h.setValue ha hroot (by simp) (some val)).settle (put_self _ _ _)
      (.inr (.inl (by simp))), live_of_none ha hvalue, ?_⟩
    rw [live_put]
    show Function.update t.live a (some (Entry.mk n.key n.mask val)) = _
    rw [hnkey', hmask, hsame]
  · have hmasks : topMask w n.len ≠ topMask w d := fun heq => hsame (topMask_inj hnw hd heq)
    rw [hmask, if_neg (by simpa using hmasks), returns_bind]
    refine (insertKid_spec hw h ha hd hkey (by omega) hmatch false val
      (hno false) (by simp)).mono ?_
    rintro res t₁ (⟨rfl, rfl, c, k, hc, hk, hnot⟩ | ⟨p, rfl, hins⟩)
    · rw [returns_bind]
      refine (insertKid_spec hw h ha hd hkey (by omega) hmatch true val
        (hno true) (fun _ => ⟨c, k, hc, hk, hnot⟩)).mono ?_
      rintro res t₂ (⟨rfl, rfl, c', k', hc', hk', hnot'⟩ | ⟨p, rfl, hins⟩)
      · -- the key cannot leave both kids at the same bit
        obtain ⟨_, _, hagree⟩ := h.kid_at ha hc hk
        obtain ⟨_, _, hagree'⟩ := h.kid_at ha hc' hk'
        have hboth := agree_succ_of_not_agree (hagree.trans hmatch.symm) (hagree'.trans hmatch.symm)
          hnot hnot'
        exact absurd hboth
          ((h.down a n ha).apart false true c c' k k' Bool.false_ne_true hc hc' hk hk')
      · rw [returns_pure]
        exact hins
    · rw [returns_pure]
      exact hins

end

/-! ### `remove` -/

section
variable {t : Trie w V} {p q : Ptr} {n pn : Node w V} {i : Bool}

/-- A node that is neither the parent nor the kid may be deleted before or after. -/
theorem unlink_free (t : Trie w V) (pn : Node w V) (i : Bool) {kid : Option Ptr} (hqp : q ≠ p)
    (hkid : kid ≠ some q) : (t.put q none).unlink p pn i kid = (t.unlink p pn i kid).put q none := by
  have hadopted : (t.put q none).adopted p kid = (t.adopted p kid).put q none := by
    cases kid with
    | none => rfl
    | some c =>
      have hcq : c ≠ q := fun heq => hkid (heq ▸ rfl)
      rw [adopted, adopted, put_of_ne _ _ hcq, put_comm _ _ _ hcq]
  rw [unlink, unlink, hadopted, put_comm _ _ _ hqp]

/-- A node and its parent in a heap, as `remove` needs them. The node has at most one kid. -/
structure Removable (t : Trie w V) (q : Ptr) (n : Node w V) (p : Ptr) (pn : Node w V) (i : Bool) :
    Prop where
  node : t.heap q = some n
  parent : n.parent = some p
  above : t.heap p = some pn
  ne : q ≠ p
  kid : pn.kids i = some q
  index : i = true → pn.kids false ≠ some q
  one : n.kids true = none
  below : ∀ c, n.kids false = some c → c ≠ p ∧ ∃ k, t.heap c = some k

/-- The writes of `remove` are those of `unlink`. -/
theorem returns_unlink (h : Removable t q n p pn i) {Q : Unit → Trie w V → Prop} :
    (Returns (adopt (n.kids false) p) t fun _ t₁ =>
      Returns (replaceKid p q (n.kids false)) t₁ fun _ t₂ => Returns (packKids p) t₂ Q)
      ↔ Q () (t.unlink p pn i (n.kids false)) := by
  have hadopt : ∀ Q' : Unit → Trie w V → Prop,
      Returns (adopt (n.kids false) p) t Q' ↔ Q' () (t.adopted p (n.kids false)) := by
    intro Q'
    cases hc : n.kids false with
    | none => simp [adopt, adopted]
    | some c =>
      obtain ⟨_, k, hk⟩ := h.below c hc
      rw [adopt, returns_update hk, adopted, hk]
      rfl
  have hp : (t.adopted p (n.kids false)).heap p = some pn := by
    rw [adopted_of_ne _ _ fun hc => (h.below p hc).1 rfl, h.above]
  have hreplace : ∀ Q' : Unit → Trie w V → Prop,
      Returns (replaceKid p q (n.kids false)) (t.adopted p (n.kids false)) Q' ↔
        Q' () ((t.adopted p (n.kids false)).put p (some (pn.setKid i (n.kids false)))) := by
    intro Q'
    unfold replaceKid
    rw [returns_bind, returns_deref hp]
    cases i with
    | false => rw [if_pos h.kid, returns_update hp]
    | true => rw [if_neg (h.index rfl), if_pos h.kid, returns_update hp]
  rw [hadopt, hreplace, packKids, returns_update (put_self _ _ _), put_put]
  rfl

/-- `remove` of a node with at most one kid: the links are written, the parent is removed too if
it is of no more use, and the node is deleted. -/
theorem returns_removeNode (h : Removable t q n p pn i) (fuel : Nat)
    {Q : Option V → Trie w V → Prop} :
    Returns (removeNode (fuel + 1) q) t Q ↔
      if (((pn.setKid i (n.kids false)).pack.kids true).isNone && pn.value.isNone
          && pn.parent.isSome) = true then
        Returns (removeNode fuel p) (t.unlink p pn i (n.kids false)) fun _ t' =>
          Q n.value (t'.put q none)
      else Q n.value ((t.unlink p pn i (n.kids false)).put q none) := by
  obtain ⟨_, _, hparent, hvalue⟩ := pack_fields (pn.setKid i (n.kids false))
  rw [removeNode, returns_bind, returns_deref h.node, if_neg (by rw [h.one]; simp), h.parent]
  simp only [returns_bind]
  rw [returns_unlink h, returns_deref (unlink_self _ _ _ _ _), hparent, hvalue]
  show Returns (if (((pn.setKid i (n.kids false)).pack.kids true).isNone && pn.value.isNone
    && pn.parent.isSome) = true then _ else _) _ _ ↔ _
  split <;> simp only [free, returns_bind, returns_modify, returns_pure]

variable {c d r : Ptr}

theorem WF.removable {x : Option Ptr} (h : WF x t) (hq : t.heap q = some n) (hroot : q ≠ Trie.root)
    (hone : n.kids true = none) : ∃ p pn i, Removable t q n p pn i := by
  obtain ⟨p, pn, i, hparent, hp, hi, hlen, _⟩ := (h.up q n hq).up hroot
  refine ⟨p, pn, i, hq, hparent, hp, (WF.ne_of_len hp hq hlen).symm, hi, fun htrue hfalse => ?_,
    hone, fun c hc => ?_⟩
  · cases (h.kid_index hp hfalse hi).trans htrue
  · obtain ⟨k, hk, _, hlen', _⟩ := h.kid hq hc
    exact ⟨(WF.ne_of_len hp hk (Nat.lt_trans hlen hlen')).symm, k, hk⟩

/-- Removing works the same way when there is one more node on the heap. -/
theorem Removable.of_free (h : Removable (t.put r none) q n p pn i) :
    Removable t q n p pn i ∧ r ≠ p ∧ n.kids false ≠ some r := by
  have hread : ∀ {a : Ptr} {m : Node w V}, (t.put r none).heap a = some m →
      t.heap a = some m ∧ r ≠ a := by
    intro a m ha
    by_cases har : a = r
    · rw [har, put_self] at ha
      cases ha
    · rw [put_of_ne _ _ har] at ha
      exact ⟨ha, Ne.symm har⟩
  refine ⟨⟨(hread h.node).1, h.parent, (hread h.above).1, h.ne, h.kid, h.index, h.one,
    fun c hc => ?_⟩, (hread h.above).2, fun hr => ?_⟩
  · obtain ⟨hne, k, hk⟩ := h.below c hc
    exact ⟨hne, k, (hread hk).1⟩
  · obtain ⟨_, k, hk⟩ := h.below r hr
    exact (hread hk).2 rfl

/-- The entry is gone, and nothing else changes. -/
def Removed (t : Trie w V) (q : Ptr) (t' : Trie w V) : Prop :=
  WF none t' ∧ t'.live = Function.update t.live q none

/-- `remove` of a node without a value and with one kid, when there is one more node on the heap
that is to be deleted. -/
theorem removeNode_collapse (h : WF (some q) (t.put r none)) (hq : t.heap q = some n) (hqr : q ≠ r)
    (hroot : q ≠ Trie.root) (hvalue : n.value = none) (hone : n.kids true = none) {s : Ptr}
    (hs : n.kids false = some s) (fuel : Nat) :
    Returns (removeNode (fuel + 1) q) t fun _ t' => Removed t r (t'.put r none) := by
  have hq' : (t.put r none).heap q = some n := (put_of_ne _ _ hqr).trans hq
  obtain ⟨p, pn, i, hrem'⟩ := h.removable hq' hroot hone
  obtain ⟨hrem, hrp, hrk⟩ := hrem'.of_free
  -- the parent has a value or two kids, and keeps them
  have hstop : ¬ ((((pn.setKid i (n.kids false)).pack.kids true).isNone && pn.value.isNone
      && pn.parent.isSome) = true) := by
    rw [Bool.and_eq_true, Bool.and_eq_true, isNone_iff_eq_none, isNone_iff_eq_none,
      isSome_iff_exists]
    rintro ⟨⟨hnone, hpvalue⟩, pp, hpp⟩
    obtain ⟨hproot, _⟩ := h.of_parent hrem'.above hpp
    obtain ⟨d, hd⟩ := h.full p pn hrem'.above hproot (fun heq => hrem.ne (some.inj heq)) hpvalue
    obtain ⟨c, hc⟩ := (h.down p pn hrem'.above).first d hd
    obtain ⟨d', hd'⟩ := pack_setKid_true hc hd i s
    rw [hs, hd'] at hnone
    cases hnone
  have hheap : ((t.unlink p pn i (n.kids false)).put q none).put r none
      = ((t.put r none).unlink p pn i (n.kids false)).put q none := by
    rw [unlink_free t pn i hrp hrk, put_comm _ _ _ hqr]
  have hsplice := h.splice (y := none) hq' hrem.parent hrem'.above hrem.kid hone
    (fun r hr => (some.inj hr).symm) (.inr ⟨s, hs⟩)
  rw [returns_removeNode hrem fuel, if_neg hstop, hheap]
  refine ⟨hsplice, ?_⟩
  rw [live_put, live_unlink hrem'.above, live_put]
  refine update_eq_self_iff.mpr ?_
  rw [update_of_ne hqr, live_of_none hq hvalue]
  rfl

variable (h : WF none t)
include h

/-- `remove` takes one entry away. -/
theorem remove_spec {e : Entry w V} (he : t.live q = some e) :
    Returns (remove q) t fun r t' => r = some e.value ∧ Removed t q t' := by
  obtain ⟨n, hq, hvalue, _, _⟩ := live_eq_some he
  have hroot : q ≠ Trie.root := fun heq => by
    obtain ⟨m, hm, hnone⟩ := h.root
    rw [heq, hm] at hq
    cases hq
    rw [hnone] at hvalue
    cases hvalue
  unfold remove
  cases hone : n.kids true with
  | some d =>
    -- the node has two kids, so it stays as a place where keys part
    rw [removeNode, returns_bind, returns_deref hq, if_pos (by rw [hone]; rfl), returns_bind,
      returns_assert]
    refine ⟨by rw [hvalue]; rfl, ?_⟩
    rw [returns_bind, returns_update hq, returns_pure]
    refine ⟨hvalue, ?_, live_put _ _ _⟩
    exact (h.setValue hq hroot (by simp) none).settle (put_self _ _ _) (.inr (.inr ⟨d, hone⟩))
  | none =>
    obtain ⟨p, pn, i, hrem⟩ := h.removable hq hroot hone
    have hw : 0 < w := by
      obtain ⟨_, pn', _, _, _, hlen, _⟩ := h.of_parent hq hrem.parent
      have hle := (h.up q n hq).cut.2.1
      omega
    obtain ⟨fuel, rfl⟩ : ∃ fuel, w = fuel + 1 := ⟨w - 1, by omega⟩
    have hsplice := h.splice hq hrem.parent hrem.above hrem.kid hone (by simp) (.inl rfl)
    have hlive := live_put (t.unlink p pn i (n.kids false)) q none
    rw [live_unlink hrem.above] at hlive
    obtain ⟨_, _, hpparent, hpvalue⟩ := pack_fields (pn.setKid i (n.kids false))
    have hp' := t.unlink_self p pn i (n.kids false)
    have hp'' := (put_of_ne _ none (Ne.symm hrem.ne)).trans hp'
    rw [returns_removeNode hrem]
    split
    · rename_i hcond
      rw [Bool.and_eq_true, Bool.and_eq_true, isNone_iff_eq_none,
        isNone_iff_eq_none, isSome_iff_exists] at hcond
      obtain ⟨⟨hnone, hpnone⟩, pp, hpp⟩ := hcond
      obtain ⟨hproot, _⟩ := h.of_parent hrem.above hpp
      obtain ⟨d, hd⟩ := h.full p pn hrem.above hproot (by simp) hpnone
      obtain ⟨c, hc⟩ := (h.down p pn hrem.above).first d hd
      -- the parent had two kids, so the node had none
      have hleaf : n.kids false = none := by
        cases hkid : n.kids false with
        | none => rfl
        | some k =>
          obtain ⟨d', hd'⟩ := pack_setKid_true hc hd i k
          rw [hkid, hd'] at hnone
          cases hnone
      obtain ⟨s, hs⟩ := pack_setKid_none hc hd i
      rw [← hleaf] at hs
      refine (removeNode_collapse hsplice hp'
        (Ne.symm hrem.ne) hproot (hpvalue.trans hpnone) hnone hs fuel).mono fun _ t' hremoved => ?_
      rw [Removed, live_unlink hrem.above] at hremoved
      exact ⟨hvalue, hremoved⟩
    · rename_i hcond
      refine ⟨hvalue, hsplice.settle hp'' ?_, hlive⟩
      by_contra hcontra
      push Not at hcontra
      obtain ⟨hproot, hpnone, hnone⟩ := hcontra
      obtain ⟨pp, _, _, hpp, _⟩ := (h.up p pn hrem.above).up hproot
      have hpnone' : pn.value = none := hpvalue.symm.trans hpnone
      refine hcond ?_
      rw [eq_none_iff_forall_ne_some.mpr hnone, hpnone', hpp]
      rfl

/-- `remove` of a key takes away the entry that a lookup finds. -/
theorem removeKey_spec (key : BitVec w) :
    Returns (removeKey key) t fun r t' => ∃ found, Shortest t.live key found ∧ match found with
      | none => r = none ∧ t' = t
      | some q => ∃ e, t.live q = some e ∧ r = some e.value ∧ Removed t q t' := by
  unfold removeKey
  rw [returns_bind]
  refine (lookupHandle_spec h key).mono ?_
  rintro found t' ⟨hsteady, hshort⟩
  subst t'
  cases found with
  | none =>
    rw [returns_pure]
    exact ⟨none, hshort, rfl, rfl⟩
  | some q =>
    obtain ⟨e, he, _⟩ := id hshort
    refine (remove_spec h he).mono ?_
    rintro r t' ⟨hr, hremoved⟩
    exact ⟨some q, hshort, e, he, hr, hremoved⟩

/-- `lookup` returns the value of the shortest entry that matches. -/
theorem lookup_spec (key : BitVec w) :
    Returns (lookup key) t fun r t' => t' = t ∧ ∃ found, Shortest t.live key found ∧
      r = found.bind fun q => (t.live q).map Entry.value := by
  unfold lookup
  rw [returns_bind]
  refine (lookupHandle_spec h key).mono ?_
  rintro found t' ⟨hsteady, hshort⟩
  subst t'
  cases found with
  | none =>
    rw [returns_pure]
    exact ⟨rfl, none, hshort, rfl⟩
  | some q =>
    obtain ⟨e, he, _⟩ := id hshort
    obtain ⟨n, hq, hvalue, _⟩ := live_eq_some he
    rw [returns_bind, returns_deref hq, returns_pure]
    refine ⟨rfl, some q, hshort, ?_⟩
    rw [bind_some, he, hvalue]
    rfl

end

end Trie

end Gem5.Base
