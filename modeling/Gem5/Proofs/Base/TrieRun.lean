import Gem5.Lib.Session
import Gem5.Proofs.Base.TrieSpec

/-!
# `Gem5.Proofs.Base.TrieRun`: the trie is a prefix map

The specification of the trie is a map from handles to entries. `insert` puts an entry under a
new handle, `remove` takes away the entry of a handle, and `lookup` and `remove` of a key find
the entry with the shortest mask that matches. It is allowed to insert a prefix that no entry
has, and to remove a handle that holds an entry.

`refines_prefixMap` is the result. It holds in every session, for keys of any width.
-/

namespace Gem5.Base

open Function Gem5.Lib

variable {w : Nat} {V : Type}

namespace Trie

/-- The calls of a trie. -/
inductive Call (w : Nat) (V : Type)
  | insert (key : BitVec w) (width : Nat) (val : V)
  | remove (handle : Ptr)
  | removeKey (key : BitVec w)
  | lookup (key : BitVec w)

/-- What a call returns. -/
inductive Result (V : Type)
  | handle (p : Ptr)
  | value (v : Option V)

/-- The code of a call. -/
def call : Call w V → TrieM w V (Result V)
  | .insert key width val => .handle <$> insert key width val
  | .remove handle => .value <$> remove handle
  | .removeKey key => .value <$> removeKey key
  | .lookup key => .value <$> lookup key

/-- The entries by handle. -/
abbrev PrefixMap (w : Nat) (V : Type) := Ptr → Option (Entry w V)

namespace PrefixMap

/-- The entry of an insertion: the first `width` bits of the key, or all of them. -/
def entry (key : BitVec w) (width : Nat) (val : V) : Entry w V :=
  { key := key &&& topMask w (min width w), mask := topMask w (min width w), value := val }

/-- What a user of the trie may call. -/
def Allowed (m : PrefixMap w V) : Call w V → Prop
  | .insert key width val => 1 ≤ width ∧ ∀ p e, m p = some e →
      ¬ (e.key = (entry key width val).key ∧ e.mask = (entry key width val).mask)
  | .remove handle => ∃ e, m handle = some e
  | .removeKey _ => True
  | .lookup _ => True

/-- What a call does to the entries, and what it returns. -/
inductive Moves (m : PrefixMap w V) : Call w V → Result V → PrefixMap w V → Prop
  | insert {key : BitVec w} {width : Nat} {val : V} {p : Ptr} (hnew : m p = none) :
      Moves m (.insert key width val) (.handle p)
        (Function.update m p (some (entry key width val)))
  | remove {handle : Ptr} {v : V} (hv : (m handle).map Entry.value = some v) :
      Moves m (.remove handle) (.value (some v)) (Function.update m handle none)
  | removeKey {key : BitVec w} {handle : Ptr} {v : V} (hfound : Shortest m key (some handle))
      (hv : (m handle).map Entry.value = some v) :
      Moves m (.removeKey key) (.value (some v)) (Function.update m handle none)
  | removeNone {key : BitVec w} (hnone : Shortest m key none) :
      Moves m (.removeKey key) (.value none) m
  | lookup {key : BitVec w} {handle : Ptr} {v : V} (hfound : Shortest m key (some handle))
      (hv : (m handle).map Entry.value = some v) :
      Moves m (.lookup key) (.value (some v)) m
  | lookupNone {key : BitVec w} (hnone : Shortest m key none) :
      Moves m (.lookup key) (.value none) m

/-- The shortest entry that matches is one entry. -/
theorem shortest_unique {m : PrefixMap w V} {key : BitVec w} {p q : Ptr}
    (hp : Shortest m key (some p)) (hq : Shortest m key (some q)) : p = q := by
  obtain ⟨e, he, hmatch, hmin⟩ := hp
  obtain ⟨e', he', hmatch', hmin'⟩ := hq
  rcases hmin q e' he' hmatch' with heq | hlt
  · exact heq.symm
  · rcases hmin' p e he hmatch with heq | hlt'
    · exact heq
    · omega

/-- The result of a call determines the entries after it. -/
theorem Moves.unique {m m' m'' : PrefixMap w V} {c : Call w V} {r : Result V}
    (h : Moves m c r m') (h' : Moves m c r m'') : m' = m'' := by
  cases h with
  | insert => cases h' with | insert => rfl
  | remove => cases h' with | remove => rfl
  | removeKey hfound _ => cases h' with
    | removeKey hfound' => rw [shortest_unique hfound hfound']
  | removeNone => cases h' with | removeNone => rfl
  | lookup => cases h' with | lookup => rfl
  | lookupNone => cases h' with | lookupNone => rfl

end PrefixMap

open PrefixMap

/-- The trie holds the entries of the map. -/
def Holds (t : Trie w V) (m : PrefixMap w V) : Prop := WF none t ∧ t.live = m

/-- The trie implements the prefix map. -/
theorem implements_prefixMap (hw : 0 < w) :
    Implements (call : Call w V → TrieM w V (Result V)) Allowed Moves Holds := by
  refine ⟨?_, Moves.unique⟩
  rintro t m c ⟨hwf, rfl⟩ hallowed
  cases c with
  | insert key width val =>
    obtain ⟨hwidth, hdistinct⟩ := hallowed
    have hspec := insert_spec hw hwf key val hwidth (by rw [widthMask_eq]; exact hdistinct)
    rw [widthMask_eq] at hspec
    show Returns (Result.handle <$> insert key width val) t _
    rw [returns_map]
    refine hspec.mono ?_
    rintro p t' ⟨hwf', hnew, hlive⟩
    exact ⟨_, .insert hnew, hwf', hlive⟩
  | remove handle =>
    obtain ⟨e, he⟩ := hallowed
    show Returns (Result.value <$> remove handle) t _
    rw [returns_map]
    refine (remove_spec hwf he).mono ?_
    rintro r t' ⟨rfl, hwf', hlive⟩
    exact ⟨_, .remove (by rw [he]; rfl), hwf', hlive⟩
  | removeKey key =>
    show Returns (Result.value <$> removeKey key) t _
    rw [returns_map]
    refine (removeKey_spec hwf key).mono ?_
    rintro r t' ⟨found, hshort, hfound⟩
    cases found with
    | none =>
      obtain ⟨rfl, rfl⟩ := hfound
      exact ⟨_, .removeNone hshort, hwf, rfl⟩
    | some =>
      obtain ⟨e, he, rfl, hwf', hlive⟩ := hfound
      exact ⟨_, .removeKey hshort (by rw [he]; rfl), hwf', hlive⟩
  | lookup key =>
    show Returns (Result.value <$> lookup key) t _
    rw [returns_map]
    refine (lookup_spec hwf key).mono ?_
    rintro r t' ⟨hsteady, found, hshort, hr⟩
    subst t'
    cases found with
    | none =>
      rw [hr]
      exact ⟨_, .lookupNone hshort, hwf, rfl⟩
    | some =>
      obtain ⟨e, he, _⟩ := id hshort
      rw [hr, Option.bind_some, he]
      exact ⟨_, .lookup hshort (by rw [he]; rfl), hwf, rfl⟩

/-- The trie refines a prefix map. In every session of calls that the prefix map allows, on keys
of any width,

- the nodes with a value are the entries of the map, each under the handle that its `insert`
  returned;
- every call that is allowed next returns, so it reaches no panic and no assertion, and it
  returns what the map admits: a lookup finds the value of the shortest prefix that matches, or
  none;
- a node other than the root that has no value has two kids;
- the keys of two kids of a node agree within the mask of the node, and differ within this mask
  extended by one bit. -/
theorem refines_prefixMap (hw : 0 < w) {l : List (Call w V × Result V)} {t : Trie w V}
    {m : PrefixMap w V} (hs : Session call Allowed Moves new (fun _ => none) l t m) :
    (∀ p e, m p = some e ↔ ∃ n, t.heap p = some n ∧ n.value = some e.value ∧ n.key = e.key ∧
      n.mask = e.mask) ∧
    (∀ c, Allowed m c → ∃ r t' m', call c t = .ok (r, t') ∧ Moves m c r m') ∧
    (∀ p n, t.heap p = some n → p ≠ root → n.value = none →
      ∃ c d, n.kids false = some c ∧ n.kids true = some d ∧ c ≠ d) ∧
    ∀ p n c d k o, t.heap p = some n → n.kids false = some c → n.kids true = some d →
      t.heap c = some k → t.heap d = some o → k.key &&& n.mask = o.key &&& n.mask ∧
        k.key &&& extendMask n.mask ≠ o.key &&& extendMask n.mask := by
  have hnew : Holds (new : Trie w V) fun _ => none := by
    refine ⟨wf_new, funext fun p => ?_⟩
    show live new p = none
    by_cases hp : p = root
    · rw [hp]
      rfl
    · simp [live, new, hp]
  obtain ⟨hwf, rfl⟩ := (implements_prefixMap hw).session hnew hs
  refine ⟨fun p e => ⟨live_eq_some, ?_⟩, fun c hc => ?_, fun p n hp hroot hvalue => ?_,
    fun p n c d k o hp hc hd hk ho => ?_⟩
  · rintro ⟨n, hp, hvalue, hkey, hmask⟩
    rw [live_of_value hp hvalue, hkey, hmask]
  · obtain ⟨r, t', hcall, m', hmoves, _⟩ := (implements_prefixMap hw).call_tr ⟨hwf, rfl⟩ hc
    exact ⟨r, t', m', hcall, hmoves⟩
  · obtain ⟨d, hd⟩ := hwf.full p n hp hroot (by simp) hvalue
    obtain ⟨c, hc⟩ := (hwf.down p n hp).first d hd
    refine ⟨c, d, hc, hd, fun hcd => ?_⟩
    cases hwf.kid_index hp hc (hcd ▸ hd)
  · -- the mask of a node with two kids can be extended to the bit after it
    obtain ⟨_, hlen, hagree⟩ := hwf.kid_at hp hc hk
    obtain ⟨_, _, hagree'⟩ := hwf.kid_at hp hd ho
    have hkw := (hwf.up c k hk).cut.2.1
    rw [(hwf.up p n hp).cut.1, extendMask_topMask (by omega) (by omega)]
    exact ⟨hagree.trans hagree'.symm, (hwf.down p n hp).apart false true c d k o
      Bool.false_ne_true hc hd hk ho⟩

/-- After `insert(0x80, 1)` and `insert(0xc0, 2)` the second entry has its own handle, and every
lookup returns. -/
theorem refines_prefixMap_two : ∃ (t : Trie 8 Nat) (m : PrefixMap 8 Nat),
    Session call Allowed Moves new (fun _ => none)
      [(.insert 0x80 1 7, .handle 1), (.insert 0xc0 2 8, .handle 2)] t m ∧
    (∃ n, t.heap 2 = some n ∧ n.value = some 8) ∧
    ∀ key, ∃ r t' m', call (.lookup key) t = .ok (r, t') ∧ Moves m (.lookup key) r m' := by
  have hallowed : Allowed
      (Function.update (fun _ => none) 1 (some (entry 0x80 1 7)) : PrefixMap 8 Nat)
      (.insert 0xc0 2 8) := by
    refine ⟨by decide, fun p e he => ?_⟩
    by_cases hp : p = 1
    · rw [hp] at he
      cases he
      decide
    · rw [update_of_ne hp] at he
      cases he
  have hfirst : Allowed (fun _ => none : PrefixMap 8 Nat) (.insert 0x80 1 7) :=
    ⟨by decide, fun p e he => nomatch he⟩
  obtain ⟨t₂, hcalls₂⟩ : ∃ t₂, ∃ t₁, call (.insert 0x80 1 7) (new : Trie 8 Nat) = .ok
      (.handle 1, t₁) ∧ call (.insert 0xc0 2 8) t₁ = .ok (.handle 2, t₂) := ⟨_, _, rfl, rfl⟩
  obtain ⟨t₁, hcall₁, hcall₂⟩ := hcalls₂
  have hs := Session.next (Session.next .start hfirst hcall₁ (Moves.insert rfl)) hallowed hcall₂
    (Moves.insert rfl)
  obtain ⟨hentries, hcalls, _⟩ := refines_prefixMap (by decide) hs
  obtain ⟨n, hn, hvalue, _⟩ := (hentries 2 (entry 0xc0 2 8)).mp (update_self _ _ _)
  exact ⟨_, _, hs, ⟨n, hn, hvalue⟩, fun key => hcalls (.lookup key) trivial⟩

end Trie

end Gem5.Base
