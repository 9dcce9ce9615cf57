import Gem5.Base.Trie
import Gem5.Lib.PrefixMask
import Mathlib.Logic.Relation

/-!
# `Gem5.Proofs.Base.Trie`: the invariant of the trie

The invariant is local. Each node has a mask of leading bits and a key cut to this mask. Each
node but the root is a kid of its parent, has a longer mask than the parent, and its key
continues the one of the parent. Two kids of a node part at the first bit behind its mask. A
node without a value has two kids, except the root.

Masks grow strictly from a parent to its kids, so every node lies below the root
(`WF.below_root`), a walk down the tree ends, and all nodes that match a key lie on one path from
the root.

The code gives a node a value or takes it (`WF.setValue`), attaches a leaf (`WF.attach`), splits an
edge by a new node (`WF.split`), and takes out a node with at most one kid (`WF.splice`). Between
two of these one node may miss a kid or a value: `WF x` is the invariant where the node `x` may.
-/

namespace Gem5.Base

open Function Option Gem5.Lib

variable {w : Nat} {V : Type}

/-- The number of bits of a node that count. -/
def Node.len (n : Node w V) : Nat := maskLength n.mask

/-- The mask is one of leading bits, and the key is cut to it. -/
def Node.Cut (n : Node w V) : Prop :=
  n.mask = topMask w n.len ∧ n.len ≤ w ∧ n.key = n.key &&& topMask w n.len

namespace Trie

/-- What holds between a node and its parent. -/
structure UpWF (t : Trie w V) (p : Ptr) (n : Node w V) : Prop where
  cut : n.Cut
  top : p = Trie.root → n.len = 0 ∧ n.parent = none
  up : p ≠ Trie.root → ∃ q m i, n.parent = some q ∧ t.heap q = some m ∧ m.kids i = some p ∧
    m.len < n.len ∧ Agree m.len n.key m.key

/-- The kids of a node point to it, and part at the first bit behind its mask. -/
structure KidsWF (t : Trie w V) (p : Ptr) (n : Node w V) : Prop where
  down : ∀ i c, n.kids i = some c → ∃ m, t.heap c = some m ∧ m.parent = some p
  apart : ∀ i j c d m k, i ≠ j → n.kids i = some c → n.kids j = some d → t.heap c = some m →
    t.heap d = some k → ¬ Agree (n.len + 1) m.key k.key

/-- What holds between a node and its kids. The first place is taken first. -/
structure DownWF (t : Trie w V) (p : Ptr) (n : Node w V) : Prop extends KidsWF t p n where
  first : ∀ d, n.kids true = some d → ∃ c, n.kids false = some c

/-- The invariant of the trie. The node `x` may have neither a value nor two kids. -/
structure WF (x : Option Ptr) (t : Trie w V) : Prop where
  unused : ∀ p, t.next ≤ p → t.heap p = none
  root : ∃ n, t.heap root = some n ∧ n.value = none
  up : ∀ p n, t.heap p = some n → UpWF t p n
  down : ∀ p n, t.heap p = some n → DownWF t p n
  full : ∀ p n, t.heap p = some n → p ≠ Trie.root → x ≠ some p → n.value = none →
    ∃ d, n.kids true = some d

variable {i j : Bool} {c d p : Ptr} {t : Trie w V} {n : Node w V}
variable {r : Ptr} {n' : Node w V} {t' : Trie w V}

/-! ### Writes -/

@[simp] theorem put_self (t : Trie w V) (p : Ptr) (o : Option (Node w V)) :
    (t.put p o).heap p = o := update_self _ _ _

theorem put_of_ne (t : Trie w V) (o : Option (Node w V)) (h : r ≠ p) :
    (t.put p o).heap r = t.heap r := update_of_ne h _ _

@[simp] theorem push_self (t : Trie w V) (n : Node w V) : (t.push n).heap t.next = some n :=
  update_self _ _ _

theorem push_of_ne (n : Node w V) (h : r ≠ t.next) : (t.push n).heap r = t.heap r :=
  update_of_ne h _ _

theorem put_comm (t : Trie w V) (o o' : Option (Node w V)) (h : p ≠ r) :
    (t.put p o).put r o' = (t.put r o').put p o := by
  simp only [put, update_comm h]

theorem put_put (t : Trie w V) (p : Ptr) (o o' : Option (Node w V)) :
    (t.put p o).put p o' = t.put p o' := by
  simp only [put, update_idem]

/-- A new node is written again. -/
theorem push_put (n n' : Node w V) {o : Option (Node w V)} (h : p ≠ t.next) :
    ((t.push n).put p o).put t.next (some n') = (t.push n').put p o := by
  rw [put_comm _ _ _ h]
  simp only [push, put, update_idem]

/-- The parent of a kid is written, if there is a kid. -/
def adopted (t : Trie w V) (p : Ptr) : Option Ptr → Trie w V
  | none => t
  | some c => t.put c ((t.heap c).map fun k => { k with parent := some p })

theorem adopted_of_ne (t : Trie w V) (p : Ptr) {kid : Option Ptr} (h : kid ≠ some r) :
    (t.adopted p kid).heap r = t.heap r := by
  cases kid with
  | none => rfl
  | some c => exact t.put_of_ne _ fun heq => h (heq ▸ rfl)

theorem adopted_next (t : Trie w V) (p : Ptr) (kid : Option Ptr) :
    (t.adopted p kid).next = t.next := by
  cases kid with
  | none | some => rfl

/-- The trie after the node `m` took the place `i` below `p`. What was there is its kid. -/
def placed (t : Trie w V) (m : Node w V) (p : Ptr) (n : Node w V) (i : Bool) : Trie w V :=
  ((t.push m).adopted t.next (n.kids i)).put p (some (n.setKid i (some t.next)))

/-- The trie after `kid` took the place `i` below `p`. -/
def unlink (t : Trie w V) (p : Ptr) (pn : Node w V) (i : Bool) (kid : Option Ptr) : Trie w V :=
  (t.adopted p kid).put p (some (pn.setKid i kid).pack)

theorem unlink_self (t : Trie w V) (p : Ptr) (pn : Node w V) (i : Bool) (kid : Option Ptr) :
    (t.unlink p pn i kid).heap p = some (pn.setKid i kid).pack := put_self _ _ _

/-- The parent may change as long as it keeps its key and the kid. -/
theorem UpWF.frame (h : UpWF t p n) (hkey : n'.key = n.key) (hmask : n'.mask = n.mask)
    (hparent : n'.parent = n.parent)
    (hq : ∀ q m i, n.parent = some q → t.heap q = some m → m.kids i = some p →
      ∃ m' j, t'.heap q = some m' ∧ m'.key = m.key ∧ m'.mask = m.mask ∧ m'.kids j = some p) :
    UpWF t' p n' := by
  have hlen : n'.len = n.len := congrArg maskLength hmask
  refine ⟨by rw [Node.Cut, hmask, hlen, hkey]; exact h.cut, by rw [hlen, hparent]; exact h.top,
    fun hp => ?_⟩
  obtain ⟨q, m, i, hpar, hm, hi, hlt, hagree⟩ := h.up hp
  obtain ⟨m', j, hm', hkey', hmask', hj⟩ := hq q m i hpar hm hi
  have hlen' : m'.len = m.len := congrArg maskLength hmask'
  refine ⟨q, m', j, hparent.trans hpar, hm', hj, by rw [hlen, hlen']; exact hlt, ?_⟩
  rw [hlen', hkey, hkey']
  exact hagree

/-- The kids may change as long as they keep their key and their parent. -/
theorem DownWF.frame (h : DownWF t p n) (hmask : n'.mask = n.mask) (hkids : n'.kids = n.kids)
    (hc : ∀ i c m, n.kids i = some c → t.heap c = some m →
      ∃ m', t'.heap c = some m' ∧ m'.key = m.key ∧ m'.parent = m.parent) : DownWF t' p n' := by
  have hlen : n'.len = n.len := congrArg maskLength hmask
  have hkid : ∀ i c, n.kids i = some c → ∃ m m', t.heap c = some m ∧ t'.heap c = some m' ∧
      m'.key = m.key ∧ m'.parent = some p := by
    intro i c hi
    obtain ⟨m, hm, hpar⟩ := h.down i c hi
    obtain ⟨m', hm', hkey, hpar'⟩ := hc i c m hi hm
    exact ⟨m, m', hm, hm', hkey, hpar'.trans hpar⟩
  refine ⟨⟨?_, ?_⟩, ?_⟩ <;> rw [hkids]
  · intro i c hi
    obtain ⟨_, m', _, hm', _, hpar⟩ := hkid i c hi
    exact ⟨m', hm', hpar⟩
  · intro i j c d m' k' hij hi hj hm' hk'
    obtain ⟨m, _, hm, hm'', hkey, _⟩ := hkid i c hi
    obtain ⟨k, _, hk, hk'', hkey', _⟩ := hkid j d hj
    cases hm''.symm.trans hm'
    cases hk''.symm.trans hk'
    rw [hlen, hkey, hkey']
    exact h.apart i j c d m k hij hi hj hm hk
  · exact h.first

theorem DownWF.of_leaf (h : ∀ i, n.kids i = none) : DownWF t p n := by
  have hno : ∀ i c, n.kids i ≠ some c := fun i c hi => by
    rw [h i] at hi
    cases hi
  exact ⟨⟨fun i c hi => absurd hi (hno i c), fun i _ c _ _ _ _ hc => absurd hc (hno i c)⟩,
    fun d hd => absurd hd (hno true d)⟩

/-- The kids part when the one at `i`, and no other, continues a key behind the mask. -/
theorem KidsWF.of_key (key : BitVec w) (hkids : ∀ j c, n.kids j = some c → ∃ m,
    t.heap c = some m ∧ m.parent = some p ∧ (Agree (n.len + 1) m.key key ↔ j = i)) :
    KidsWF t p n := by
  refine ⟨fun j c hc => ?_, fun j j' c d m k hjj hc hd hm hk hagree => ?_⟩
  · obtain ⟨m, hm, hpar, _⟩ := hkids j c hc
    exact ⟨m, hm, hpar⟩
  · obtain ⟨_, hm', _, hiff⟩ := hkids j c hc
    obtain ⟨_, hk', _, hiff'⟩ := hkids j' d hd
    cases hm'.symm.trans hm
    cases hk'.symm.trans hk
    by_cases hji : j = i
    · exact hjj (hji.trans (hiff'.mp (hagree.symm.trans (hiff.mpr hji))).symm)
    · have hji' : j' ≠ i := fun heq => hji (hiff.mp (hagree.trans (hiff'.mpr heq)))
      exact hjj ((Bool.eq_not_of_ne hji).trans (Bool.eq_not_of_ne hji').symm)

/-- The kids of a node after one of them was replaced. -/
theorem setKid_eq_some {kid : Option Ptr} (h : (n.setKid i kid).kids j = some c) :
    (j = i ∧ kid = some c) ∨ (j ≠ i ∧ n.kids j = some c) := by
  unfold Node.setKid at h
  dsimp only at h
  by_cases hji : j = i
  · subst hji
    rw [update_self] at h
    exact .inl ⟨rfl, h⟩
  · rw [update_of_ne hji] at h
    exact .inr ⟨hji, h⟩

@[simp] theorem setKid_self (n : Node w V) (i : Bool) (kid : Option Ptr) :
    (n.setKid i kid).kids i = kid := update_self _ _ _

theorem setKid_of_ne (n : Node w V) (kid : Option Ptr) (h : j ≠ i) :
    (n.setKid i kid).kids j = n.kids j := update_of_ne h _ _

/-- Packing keeps the kids. -/
theorem pack_eq_some (h : n.pack.kids j = some c) : ∃ j', n.kids j' = some c := by
  unfold Node.pack at h
  split at h
  · rcases setKid_eq_some h with ⟨_, hnone⟩ | ⟨_, h'⟩
    · cases hnone
    · rcases setKid_eq_some h' with ⟨_, hc⟩ | ⟨_, hc⟩
      · exact ⟨true, hc⟩
      · exact ⟨j, hc⟩
  · exact ⟨j, h⟩

/-- No kid is lost by packing. -/
theorem exists_pack (h : n.kids j = some c) : ∃ j', n.pack.kids j' = some c := by
  unfold Node.pack
  split
  · rename_i hpack
    rw [Bool.and_eq_true, isNone_iff_eq_none] at hpack
    cases j with
    | false =>
      rw [hpack.2] at h
      cases h
    | true => exact ⟨false, by rw [setKid_of_ne _ _ Bool.false_ne_true, setKid_self]; exact h⟩
  · exact ⟨j, h⟩

/-- A packed node with a second kid was packed before. -/
theorem pack_of_true (h : n.pack.kids true = some d) :
    n.pack = n ∧ ∃ c, n.kids false = some c := by
  unfold Node.pack at h ⊢
  split at h
  · cases h
  · rename_i hpack
    rw [if_neg hpack]
    refine ⟨rfl, ?_⟩
    cases hfalse : n.kids false with
    | none => simp [h, hfalse] at hpack
    | some c => exact ⟨c, rfl⟩

/-- So was one with two kids. -/
theorem pack_of_two (hij : i ≠ j) (hc : n.pack.kids i = some c) (hd : n.pack.kids j = some d) :
    n.pack = n := by
  cases i with
  | true => exact (pack_of_true hc).1
  | false =>
    cases j with
    | true => exact (pack_of_true hd).1
    | false => exact absurd rfl hij

/-- Packing fills the first place. -/
theorem KidsWF.pack (h : KidsWF t p n) : DownWF t p n.pack where
  down := fun j d hj => by
    obtain ⟨j', hj'⟩ := pack_eq_some hj
    exact h.down j' d hj'
  apart := fun i j c d m k hij hc hd => by
    have hpack := pack_of_two hij hc hd
    rw [hpack] at hc hd ⊢
    exact h.apart i j c d m k hij hc hd
  first := fun d hd => by
    obtain ⟨hpack, hc⟩ := pack_of_true hd
    rw [hpack]
    exact hc

theorem pack_of_both (h : n.kids false = some c) : n.pack = n := by
  unfold Node.pack
  rw [if_neg (by simp [h])]

theorem pack_fields (n : Node w V) :
    n.pack.key = n.key ∧ n.pack.mask = n.mask ∧ n.pack.parent = n.parent ∧
      n.pack.value = n.value := by
  unfold Node.pack
  split <;> exact ⟨rfl, rfl, rfl, rfl⟩

/-- A node with two kids still has two after one of them was replaced. -/
theorem pack_setKid_true (hc : n.kids false = some c) (hd : n.kids true = some d) (i : Bool)
    (kid : Ptr) : ∃ d', (n.setKid i (some kid)).pack.kids true = some d' := by
  cases i with
  | false =>
    rw [pack_of_both (setKid_self _ _ _)]
    exact ⟨d, hd⟩
  | true =>
    rw [pack_of_both ((setKid_of_ne _ _ (by simp)).trans hc), setKid_self]
    exact ⟨kid, rfl⟩

/-- A node with two kids keeps one when the other one goes. -/
theorem pack_setKid_none (hc : n.kids false = some c) (hd : n.kids true = some d) (i : Bool) :
    ∃ s, (n.setKid i none).pack.kids false = some s := by
  cases i with
  | false =>
    have htrue : (n.setKid false none).kids true = some d := (setKid_of_ne _ _ (by simp)).trans hd
    refine ⟨d, ?_⟩
    unfold Node.pack
    rw [if_pos (by rw [htrue]; rfl), setKid_of_ne _ _ (by simp), setKid_self, htrue]
  | true =>
    have hfalse : (n.setKid true none).kids false = some c := (setKid_of_ne _ _ (by simp)).trans hc
    rw [pack_of_both hfalse]
    exact ⟨c, hfalse⟩

/-- The new trie has a root only. -/
theorem wf_new : WF none (new : Trie w V) := by
  have hmask : maskLength (0#w) = 0 := by
    rw [← topMask_zero]
    exact maskLength_topMask (Nat.zero_le w)
  have hheap : ∀ p n, (new : Trie w V).heap p = some n → p = Trie.root ∧ n = Node.new 0 0 none := by
    intro p n h
    simp only [new] at h
    split at h
    · rename_i hp
      exact ⟨hp, (some.inj h).symm⟩
    · cases h
  refine ⟨fun p hp => ?_, ⟨Node.new 0 0 none, rfl, rfl⟩, fun p n h => ?_, fun p n h => ?_,
    fun p n h hp => absurd (hheap p n h).1 hp⟩
  · have hp' : p ≠ Trie.root := fun heq => by
      rw [heq] at hp
      exact absurd hp (Nat.not_succ_le_self 0)
    simp [new, hp']
  · obtain ⟨rfl, rfl⟩ := hheap p n h
    refine ⟨?_, fun _ => ⟨hmask, rfl⟩, fun hne => absurd rfl hne⟩
    show (0#w) = topMask w (maskLength (0#w)) ∧ maskLength (0#w) ≤ w ∧
      0#w &&& 0#w = (0#w &&& 0#w) &&& _
    rw [hmask, topMask_zero]
    exact ⟨rfl, Nat.zero_le w, by simp⟩
  · obtain ⟨rfl, rfl⟩ := hheap p n h
    exact .of_leaf fun _ => rfl

namespace WF

variable {x : Option Ptr} {t : Trie w V} {c p : Ptr} {m n : Node w V} {i : Bool}

section
variable (h : WF x t)
include h

/-- A node is a kid of its parent. -/
theorem of_parent (hc : t.heap c = some m) (hparent : m.parent = some p) :
    c ≠ Trie.root ∧ ∃ n i, t.heap p = some n ∧ n.kids i = some c ∧ n.len < m.len ∧
      Agree n.len m.key n.key := by
  have hroot : c ≠ Trie.root := fun heq => by
    rw [((h.up c m hc).top heq).2] at hparent
    cases hparent
  obtain ⟨p', n, i, hparent', hp, hi, hlen, hagree⟩ := (h.up c m hc).up hroot
  rw [hparent] at hparent'
  cases hparent'
  exact ⟨hroot, n, i, hp, hi, hlen, hagree⟩

/-- A kid has a longer mask and continues the key. -/
theorem kid (hp : t.heap p = some n) (hc : n.kids i = some c) :
    ∃ m, t.heap c = some m ∧ m.parent = some p ∧ n.len < m.len ∧ Agree n.len m.key n.key := by
  obtain ⟨m, hm, hparent⟩ := (h.down p n hp).down i c hc
  obtain ⟨_, n', _, hp', _, hkid⟩ := h.of_parent hm hparent
  cases hp.symm.trans hp'
  exact ⟨m, hm, hparent, hkid⟩

theorem kid_at (hp : t.heap p = some n) (hc : n.kids i = some c)
    (hm : t.heap c = some m) : m.parent = some p ∧ n.len < m.len ∧ Agree n.len m.key n.key := by
  obtain ⟨m', hm', hkid⟩ := h.kid hp hc
  cases hm.symm.trans hm'
  exact hkid

section
variable (hp : t.heap p = some n)
include hp

/-- A node is one kid of its parent only. -/
theorem kid_index (hi : n.kids i = some c) (hj : n.kids j = some c) : i = j := by
  by_contra hij
  obtain ⟨m, hm, _⟩ := h.kid hp hi
  exact (h.down p n hp).apart i j c c m m hij hi hj hm hm (Agree.refl _ _)

theorem next_free : p ≠ t.next := by
  rintro rfl
  rw [h.unused t.next (Nat.le_refl _)] at hp
  cases hp

end

theorem next_ne_root : t.next ≠ Trie.root := fun heq => by
  obtain ⟨r, hr, _⟩ := h.root
  exact h.next_free hr heq.symm

end

/-- `p` lies below `a`, or is `a`. -/
def Below (t : Trie w V) : Ptr → Ptr → Prop :=
  Relation.ReflTransGen fun a p => ∃ m, t.heap p = some m ∧ m.parent = some a

/-- Every node lies below the root. -/
theorem below_root (h : WF x t) (hp : t.heap p = some n) : Below t Trie.root p := by
  -- by induction on the length of the mask
  induction hlen : n.len using Nat.strong_induction_on generalizing p n with
  | _ l ih =>
    by_cases hroot : p = Trie.root
    · rw [hroot]
      exact .refl
    · obtain ⟨q, m, i, hparent, hq, _, hlt, _⟩ := (h.up p n hp).up hroot
      exact (ih m.len (hlen ▸ hlt) hq rfl).tail ⟨n, hp, hparent⟩

variable {a : Ptr}

/-- Below a node, masks are longer and keys continue. -/
theorem below_agree (h : WF x t) (hbelow : Below t a p) (ha : t.heap a = some n)
    (hm : t.heap p = some m) :
    n.len ≤ m.len ∧ Agree n.len m.key n.key ∧ (p ≠ a → n.len < m.len) := by
  induction hbelow generalizing m with
  | refl =>
    cases ha.symm.trans hm
    exact ⟨Nat.le_refl _, Agree.refl _ _, fun hne => absurd rfl hne⟩
  | @tail q p _ hstep ih =>
    obtain ⟨k, hk, hparent⟩ := hstep
    cases hm.symm.trans hk
    obtain ⟨_, l, _, hl, _, hlt, hagree⟩ := h.of_parent hm hparent
    obtain ⟨hlen, hagree', _⟩ := ih hl
    exact ⟨by omega, (hagree.mono hlen).trans hagree', fun _ => by omega⟩

/-- What lies below a node lies below one of its kids. -/
theorem below_kid (h : WF x t) (hbelow : Below t a p) (hne : p ≠ a) (ha : t.heap a = some n) :
    ∃ i c, n.kids i = some c ∧ Below t c p := by
  obtain heq | ⟨c, ⟨m, hm, hparent⟩, hrest⟩ := Relation.ReflTransGen.cases_head hbelow
  · exact absurd heq.symm hne
  · obtain ⟨_, n', i, ha', hi, _⟩ := h.of_parent hm hparent
    rw [ha] at ha'
    cases ha'
    exact ⟨i, c, hi, hrest⟩

/-- A node that has a value or two kids is no exception. -/
theorem settle (h : WF (some p) t) (hp : t.heap p = some n)
    (hfull : p = Trie.root ∨ n.value ≠ none ∨ ∃ d, n.kids true = some d) : WF none t := by
  refine { h with full := fun q m hq hroot _ hvalue => ?_ }
  by_cases hqp : q = p
  · subst hqp
    rw [hp] at hq
    cases hq
    rcases hfull with hq | hne | hd
    · exact absurd hq hroot
    · exact absurd hvalue hne
    · exact hd
  · exact h.full q m hq hroot (fun heq => hqp (some.inj heq).symm) hvalue

theorem lt_next (h : WF x t) (hp : t.heap p = some n) : p < t.next := by
  by_contra hle
  rw [h.unused p (Nat.le_of_not_lt hle)] at hp
  cases hp

section change
variable {y : Option Ptr} {t' : Trie w V} {l l' : Node w V} {q : Ptr}

/-- The parent of a node did not change. -/
theorem up_of_parent (h : WF x t) (hq : t.heap q = some l) (hkey : l'.key = l.key)
    (hmask : l'.mask = l.mask) (hparent : l'.parent = l.parent)
    (hsame : ∀ r m, l.parent = some r → t.heap r = some m → m.len < l.len →
      t'.heap r = t.heap r) : UpWF t' q l' := by
  refine (h.up q l hq).frame hkey hmask hparent fun r m j hr hm hj => ?_
  obtain ⟨_, m', _, hm', _, hlt, _⟩ := h.of_parent hq hr
  cases hm.symm.trans hm'
  exact ⟨m, j, (hsame r m hr hm hlt).trans hm, rfl, rfl, hj⟩

/-- The kids of a node did not change. -/
theorem down_of_kids (h : WF x t) (hq : t.heap q = some l) (hmask : l'.mask = l.mask)
    (hkids : l'.kids = l.kids)
    (hsame : ∀ c m, t.heap c = some m → l.len < m.len → t'.heap c = t.heap c) : DownWF t' q l' := by
  refine (h.down q l hq).frame hmask hkids fun j c m hj hm => ?_
  exact ⟨m, (hsame c m hm (h.kid_at hq hj hm).2.1).trans hm, rfl, rfl⟩

/-- The nodes of `S` change. Those that have a neighbour outside of `S` are still its parent or
its kid. -/
theorem change (h : WF x t) (S : Ptr → Prop) (hother : ∀ q, ¬S q → t'.heap q = t.heap q)
    (hnext : t.next ≤ t'.next) (hfree : ∀ q, S q → q < t'.next ∨ t'.heap q = none)
    (hroot : S Trie.root → ∃ n, t'.heap Trie.root = some n ∧ n.value = none)
    (hx : ∀ q, x = some q → S q ∨ y = some q)
    (hkept : ∀ q l, S q → t.heap q = some l → (∀ r, l.parent = some r → ¬S r →
        ∃ l', t'.heap q = some l' ∧ l'.key = l.key ∧ l'.parent = l.parent) ∧
      ∀ i r, l.kids i = some r → ¬S r →
        ∃ l' j, t'.heap q = some l' ∧ l'.key = l.key ∧ l'.mask = l.mask ∧ l'.kids j = some r)
    (hnew : ∀ q l, S q → t'.heap q = some l → UpWF t' q l ∧ DownWF t' q l ∧
      (q ≠ Trie.root → y ≠ some q → l.value = none → ∃ d, l.kids true = some d)) : WF y t' := by
  refine ⟨fun q hq => ?_, ?_, fun q l hq => ?_, fun q l hq => ?_, fun q l hq hne hy hvalue => ?_⟩
  · by_cases hS : S q
    · exact (hfree q hS).resolve_left (Nat.not_lt.mpr hq)
    · rw [hother q hS]
      exact h.unused q (Nat.le_trans hnext hq)
  · by_cases hS : S Trie.root
    · exact hroot hS
    · rw [hother _ hS]
      exact h.root
  · by_cases hS : S q
    · exact (hnew q l hS hq).1
    rw [hother q hS] at hq
    refine (h.up q l hq).frame rfl rfl rfl fun r m j _ hm hj => ?_
    by_cases hr : S r
    · exact (hkept r m hr hm).2 j q hj hS
    · exact ⟨m, j, (hother r hr).trans hm, rfl, rfl, hj⟩
  · by_cases hS : S q
    · exact (hnew q l hS hq).2.1
    rw [hother q hS] at hq
    refine (h.down q l hq).frame rfl rfl fun j c m hj hm => ?_
    by_cases hc : S c
    · exact (hkept c m hc hm).1 q (h.kid_at hq hj hm).1 hS
    · exact ⟨m, (hother c hc).trans hm, rfl, rfl⟩
  · by_cases hS : S q
    · exact (hnew q l hS hq).2.2 hne hy hvalue
    · rw [hother q hS] at hq
      exact h.full q l hq hne (fun heq => (hx q heq).elim hS hy) hvalue

end change

theorem ne_of_len {q : Ptr} (hp : t.heap p = some n) (hq : t.heap q = some m)
    (hlen : n.len < m.len) : p ≠ q := by
  rintro rfl
  cases hp.symm.trans hq
  exact absurd hlen (Nat.lt_irrefl _)

/-- A value is written. The node may then be an exception. -/
theorem setValue (h : WF x t) (hp : t.heap p = some n) (hroot : p ≠ Trie.root)
    (hx : ∀ q, x = some q → q = p) (v : Option V) :
    WF (some p) (t.put p (some { n with value := v })) := by
  have hself := t.put_self p (some { n with value := v })
  have hother := fun q => t.put_of_ne (r := q) (p := p) (some { n with value := v })
  refine h.change (· = p) hother (Nat.le_refl _) (fun q hq => .inl (by rw [hq]; exact h.lt_next hp))
    (fun hr => absurd hr.symm hroot) (fun q hq => .inl (hx q hq)) ?_ ?_
  · rintro q l rfl hl
    cases hp.symm.trans hl
    exact ⟨fun _ _ _ => ⟨_, hself, rfl, rfl⟩, fun j _ hj _ => ⟨_, j, hself, rfl, rfl, hj⟩⟩
  · rintro q l rfl hl
    cases hself.symm.trans hl
    exact ⟨h.up_of_parent hp rfl rfl rfl fun r m _ hm hlt => hother r (ne_of_len hm hp hlt),
      h.down_of_kids hp rfl rfl fun c m hm hlt => hother c (ne_of_len hp hm hlt).symm,
      fun _ hy => absurd rfl hy⟩

/-- The new node in its place. -/
theorem placed_new (h : WF x t) (m : Node w V) (hp : t.heap p = some n) (i : Bool) :
    (t.placed m p n i).heap t.next = some m := by
  rw [placed, put_of_ne _ _ (h.next_free hp).symm, adopted_of_ne, push_self]
  intro hi
  obtain ⟨k, hk, _⟩ := h.kid hp hi
  exact h.next_free hk rfl

/-- Its kid. -/
theorem placed_kid {k : Node w V} (h : WF x t) (m : Node w V) (hp : t.heap p = some n)
    (hc : n.kids i = some c) (hk : t.heap c = some k) :
    (t.placed m p n i).heap c = some { k with parent := some t.next } := by
  rw [placed, put_of_ne _ _ (ne_of_len hp hk (h.kid_at hp hc hk).2.1).symm, hc, adopted, put_self,
    push_of_ne _ (h.next_free hk), hk]
  rfl

/-- A new node takes a place below `p`. It may be an exception, if it has no value. -/
theorem place {y : Option Ptr} (h : WF x t) (hp : t.heap p = some n)
    (hkid : ∀ c k, n.kids i = some c → t.heap c = some k →
      m.len < k.len ∧ Agree m.len k.key m.key)
    (hm : m.Cut) (hparent : m.parent = some p) (hfalse : m.kids false = n.kids i)
    (htrue : m.kids true = none) (hlen : n.len < m.len) (hagree : Agree n.len m.key n.key)
    (hfirst : i = true → ∃ c, n.kids false = some c)
    (hapart : ∀ j d o, j ≠ i → n.kids j = some d → t.heap d = some o →
      ¬ Agree (n.len + 1) m.key o.key) (hx : ∀ q, x = some q → q = p ∧ i = true)
    (hy : m.value ≠ none ∨ y = some t.next) : WF y (t.placed m p n i) := by
  have hself : (t.placed m p n i).heap p = some (n.setKid i (some t.next)) := put_self _ _ _
  have hother : ∀ q, q ≠ p → q ≠ t.next → n.kids i ≠ some q →
      (t.placed m p n i).heap q = t.heap q := fun q hqp hqa hqc => by
    rw [placed, put_of_ne _ _ hqp, adopted_of_ne _ _ hqc, push_of_ne _ hqa]
  have hmid := h.placed_new m hp i
  have hmoved := fun c k => h.placed_kid (i := i) (c := c) (k := k) m hp
  have hnext : (t.placed m p n i).next = t.next + 1 := adopted_next _ _ _
  generalize t.placed m p n i = t' at *
  -- a kid of `p` is the new node, or one that it had and that stays
  have hkids : KidsWF t' p (n.setKid i (some t.next)) := by
    refine .of_key (i := i) m.key fun j d hj => ?_
    rcases setKid_eq_some hj with ⟨hji, hd⟩ | ⟨hji, hd⟩
    · cases hd
      exact ⟨m, hmid, hparent, iff_of_true (Agree.refl _ _) hji⟩
    · obtain ⟨o, ho, hpar, hlt, _⟩ := h.kid hp hd
      have hsame := hother d (ne_of_len hp ho hlt).symm (h.next_free ho)
        fun hi => hji (h.kid_index hp hd hi)
      exact ⟨o, hsame.trans ho, hpar,
        iff_of_false (fun hcontra => hapart j d o hji hd ho hcontra.symm) hji⟩
  refine h.change (fun q => q = p ∨ q = t.next ∨ n.kids i = some q) (fun q hq => ?_)
    (Nat.le.intro hnext.symm) (fun q hq => .inl ?_) ?_ (fun q hq => .inl (.inl (hx q hq).1)) ?_ ?_
  · rw [not_or, not_or] at hq
    exact hother q hq.1 hq.2.1 hq.2.2
  · rw [hnext]
    rcases hq with rfl | rfl | hq
    · exact Nat.lt_succ_of_lt (h.lt_next hp)
    · exact Nat.lt_succ_self _
    · obtain ⟨k, hk, _⟩ := h.kid hp hq
      exact Nat.lt_succ_of_lt (h.lt_next hk)
  · rintro (hr | hr | hr)
    · obtain ⟨r, hr', hrvalue⟩ := h.root
      rw [hr] at hr' ⊢
      cases hp.symm.trans hr'
      exact ⟨_, hself, hrvalue⟩
    · exact absurd hr.symm h.next_ne_root
    · obtain ⟨k, hk, hkparent, _⟩ := h.kid hp hr
      exact absurd rfl (h.of_parent hk hkparent).1
  · rintro q l (rfl | rfl | hq) hl
    · cases hp.symm.trans hl
      refine ⟨fun _ _ _ => ⟨_, hself, rfl, rfl⟩, fun j r hj hr => ⟨_, j, hself, rfl, rfl, ?_⟩⟩
      rw [setKid_of_ne _ _ fun hji : j = i => hr (.inr (.inr (hji ▸ hj)))]
      exact hj
    · exact absurd rfl (h.next_free hl)
    · obtain ⟨hkparent, _⟩ := h.kid_at hp hq hl
      refine ⟨fun r hr hS => ?_, fun j _ hj _ => ⟨_, j, hmoved q l hq hl, rfl, rfl, hj⟩⟩
      exact absurd (.inl (some.inj (hkparent.symm.trans hr)).symm) hS
  · rintro q l (rfl | rfl | hq) hl
    · cases hself.symm.trans hl
      refine ⟨h.up_of_parent hp rfl rfl rfl fun r l _ hr hlt => ?_,
        { hkids with first := fun d hd => ?_ }, fun hqroot _ hqvalue => ?_⟩
      · refine hother r (ne_of_len hr hp hlt) (h.next_free hr) fun hi => ?_
        obtain ⟨k, hk, _, hnk, _⟩ := h.kid hp hi
        exact ne_of_len hr hk (Nat.lt_trans hlt hnk) rfl
      · cases i with
        | false => exact ⟨t.next, setKid_self _ _ _⟩
        | true =>
          obtain ⟨e, he⟩ := hfirst rfl
          exact ⟨e, (setKid_of_ne _ _ Bool.false_ne_true).trans he⟩
      · by_cases hti : true = i
        · subst hti
          exact ⟨t.next, setKid_self _ _ _⟩
        · obtain ⟨d, hd⟩ := h.full q n hp hqroot (fun heq => hti (hx q heq).2.symm) hqvalue
          exact ⟨d, (setKid_of_ne _ _ hti).trans hd⟩
    · cases hmid.symm.trans hl
      -- the new node has one kid at most
      have honly : ∀ {j d}, m.kids j = some d → j = false ∧ n.kids i = some d := by
        intro j d hj
        cases j with
        | false => exact ⟨rfl, hfalse ▸ hj⟩
        | true =>
          rw [htrue] at hj
          cases hj
      refine ⟨⟨hm, fun heq => absurd heq h.next_ne_root,
          fun _ => ⟨p, _, i, hparent, hself, setKid_self _ _ _, hlen, hagree⟩⟩,
        ⟨⟨fun j d hj => ?_, fun j j' _ _ _ _ hjj hd he => ?_⟩, fun d hd => ?_⟩,
        fun _ hne hv => absurd hv (hy.resolve_right hne)⟩
      · obtain ⟨k, hk, _⟩ := h.kid hp (honly hj).2
        exact ⟨_, hmoved d k (honly hj).2 hk, rfl⟩
      · exact absurd ((honly hd).1.trans (honly he).1.symm) hjj
      · cases (honly hd).1
    · obtain ⟨k, hk, hkparent, hnk, _⟩ := h.kid hp hq
      obtain ⟨hlen', hagree'⟩ := hkid q k hq hk
      cases (hmoved q k hq hk).symm.trans hl
      refine ⟨⟨(h.up q k hk).cut, fun heq => absurd heq (h.of_parent hk hkparent).1,
          fun _ => ⟨t.next, m, false, rfl, hmid, hfalse.trans hq, hlen', hagree'⟩⟩,
        h.down_of_kids hk rfl rfl fun d o ho hlt => ?_,
        fun hqroot _ hqvalue => h.full q k hk hqroot (fun heq => ?_) hqvalue⟩
      · refine hother d (ne_of_len hp ho (Nat.lt_trans hnk hlt)).symm (h.next_free ho) fun hd => ?_
        cases hq.symm.trans hd
        exact ne_of_len hk ho hlt rfl
      · exact ne_of_len hp hk hnk (hx q heq).1.symm

/-- A leaf is attached in a free place below `p`. -/
theorem attach (h : WF x t) (hp : t.heap p = some n) (hnone : n.kids i = none) (hm : m.Cut)
    (hparent : m.parent = some p) (hkids : ∀ j, m.kids j = none) (hvalue : m.value ≠ none)
    (hlen : n.len < m.len) (hagree : Agree n.len m.key n.key)
    (hfirst : i = true → ∃ c k, n.kids false = some c ∧ t.heap c = some k ∧
      ¬ Agree (n.len + 1) k.key m.key) (hx : ∀ q, x = some q → q = p ∧ i = true) :
    WF none (t.placed m p n i) := by
  refine h.place hp (fun c k hc => ?_) hm hparent ((hkids false).trans hnone.symm) (hkids true)
    hlen hagree (fun hi => ?_) (fun j d o hji hd ho => ?_) hx (.inl hvalue)
  · rw [hnone] at hc
    cases hc
  · obtain ⟨c, _, hc, _⟩ := hfirst hi
    exact ⟨c, hc⟩
  · cases i with
    | false =>
      -- the free place is `kids[0]`, so there is no second kid
      obtain rfl : j = true := by simpa using hji
      obtain ⟨c, hc⟩ := (h.down p n hp).first d hd
      rw [hnone] at hc
      cases hc
    | true =>
      obtain rfl : j = false := by simpa using hji
      obtain ⟨c, k, hc, hk, hnot⟩ := hfirst rfl
      cases hc.symm.trans hd
      cases hk.symm.trans ho
      exact fun hcontra => hnot hcontra.symm

/-- An edge is split by a new node. It may be an exception, until it gets a value or a second
kid. -/
theorem split {k : Node w V} (h : WF none t) (hp : t.heap p = some n) (hc : n.kids i = some c)
    (hk : t.heap c = some k) (hm : m.Cut) (hparent : m.parent = some p)
    (hfalse : m.kids false = some c) (htrue : m.kids true = none) (hlen : n.len < m.len)
    (hlen' : m.len < k.len) (hagree : Agree m.len k.key m.key) :
    WF (some t.next) (t.placed m p n i) := by
  obtain ⟨_, hnk, hkagree⟩ := h.kid_at hp hc hk
  refine h.place hp (fun d l hd hl => ?_) hm hparent (hfalse.trans hc.symm) htrue hlen
    ((hagree.symm.mono (Nat.le_of_lt hlen)).trans hkagree)
    (fun hi => (h.down p n hp).first c (hi ▸ hc)) (fun j d o hji hd ho hcontra => ?_)
    (fun q hq => by cases hq) (.inr rfl)
  · cases hc.symm.trans hd
    cases hk.symm.trans hl
    exact ⟨hlen', hagree⟩
  · -- the new node continues the key of `c` past the bit where the kids part
    exact (h.down p n hp).apart i j c d k o hji.symm hc hd hk ho ((hagree.mono hlen).trans hcontra)

end WF

/-- A node with at most one kid is taken out. Its parent may be an exception then, if there was
no kid to take the place. -/
theorem WF.splice {x y : Option Ptr} {q : Ptr} {pn : Node w V} (h : WF x t) (hq : t.heap q = some n)
    (hparent : n.parent = some p) (hp : t.heap p = some pn) (hi : pn.kids i = some q)
    (htrue : n.kids true = none) (hx : ∀ r, x = some r → r = q)
    (hy : y = some p ∨ ∃ c, n.kids false = some c) :
    WF y ((t.unlink p pn i (n.kids false)).put q none) := by
  obtain ⟨hqroot, pn', _, hp', _, hpn, hqagree⟩ := h.of_parent hq hparent
  cases hp.symm.trans hp'
  have hqp : q ≠ p := (WF.ne_of_len hp hq hpn).symm
  have hnext : ((t.unlink p pn i (n.kids false)).put q none).next = t.next := adopted_next _ _ _
  have hgone : ((t.unlink p pn i (n.kids false)).put q none).heap q = none := put_self _ _ _
  have hself : ((t.unlink p pn i (n.kids false)).put q none).heap p
      = some (pn.setKid i (n.kids false)).pack := by
    rw [put_of_ne _ _ hqp.symm, unlink_self]
  have hother : ∀ r, r ≠ p → r ≠ q → n.kids false ≠ some r →
      ((t.unlink p pn i (n.kids false)).put q none).heap r = t.heap r := by
    intro r h₁ h₂ h₃
    rw [put_of_ne _ _ h₂, unlink, put_of_ne _ _ h₁, adopted_of_ne _ _ h₃]
  have hkid : ∀ c, n.kids false = some c → ∃ k, t.heap c = some k ∧
      ((t.unlink p pn i (n.kids false)).put q none).heap c = some { k with parent := some p } ∧
        k.parent = some q ∧ n.len < k.len ∧ Agree n.len k.key n.key := by
    intro c hc
    obtain ⟨k, hk, hkparent, hlen, hkagree⟩ := h.kid hq hc
    refine ⟨k, hk, ?_, hkparent, hlen, hkagree⟩
    rw [put_of_ne _ _ (WF.ne_of_len hq hk hlen).symm, unlink,
      put_of_ne _ _ (WF.ne_of_len hp hk (Nat.lt_trans hpn hlen)).symm, hc, adopted, put_self, hk]
    rfl
  generalize (t.unlink p pn i (n.kids false)).put q none = t' at *
  obtain ⟨hpkey, hpmask, hpparent, hpvalue⟩ := pack_fields (pn.setKid i (n.kids false))
  -- a kid of `p` is the kid of `q`, which continues the key of `q`, or one that it had
  have hkids : KidsWF t' p (pn.setKid i (n.kids false)) := by
    refine .of_key (i := i) n.key fun j d hj => ?_
    rcases setKid_eq_some hj with ⟨hji, hd⟩ | ⟨hji, hd⟩
    · obtain ⟨k, _, hd', _, _, hagree⟩ := hkid d hd
      exact ⟨_, hd', rfl, iff_of_true (hagree.mono hpn) hji⟩
    · obtain ⟨o, ho, hpar, hlt, _⟩ := h.kid hp hd
      have hdq : d ≠ q := fun heq => hji (h.kid_index hp (heq ▸ hd) hi)
      have hdk : n.kids false ≠ some d := fun heq => by
        obtain ⟨k, hk, _, hkparent, _⟩ := hkid d heq
        cases hk.symm.trans ho
        exact hqp (some.inj (hkparent.symm.trans hpar))
      exact ⟨o, (hother d (WF.ne_of_len hp ho hlt).symm hdq hdk).trans ho, hpar,
        iff_of_false ((h.down p pn hp).apart j i d q o n hji hd hi ho hq) hji⟩
  refine h.change (fun r => r = p ∨ r = q ∨ n.kids false = some r) (fun r hr => ?_)
    (Nat.le_of_eq hnext.symm) ?_ ?_ (fun r hr => .inl (.inr (.inl (hx r hr)))) ?_ ?_
  · rw [not_or, not_or] at hr
    exact hother r hr.1 hr.2.1 hr.2.2
  · rw [hnext]
    rintro r (rfl | rfl | hr)
    · exact .inl (h.lt_next hp)
    · exact .inr hgone
    · obtain ⟨k, hk, _⟩ := hkid r hr
      exact .inl (h.lt_next hk)
  · rintro (hr | hr | hr)
    · obtain ⟨r, hr', hrvalue⟩ := h.root
      rw [hr] at hr' ⊢
      cases hp.symm.trans hr'
      exact ⟨_, hself, hpvalue.trans hrvalue⟩
    · exact absurd hr.symm hqroot
    · obtain ⟨k, hk, _, hkparent, _⟩ := hkid _ hr
      exact absurd rfl (h.of_parent hk hkparent).1
  · rintro r l (rfl | rfl | hr) hl
    · cases hp.symm.trans hl
      refine ⟨fun _ _ _ => ⟨_, hself, hpkey, hpparent⟩, fun j d hj hd => ?_⟩
      obtain ⟨j', hj'⟩ := exists_pack (n := pn.setKid i (n.kids false)) (by
        rw [setKid_of_ne _ _ fun hji => ?_]
        · exact hj
        · rw [hji, hi] at hj
          exact hd (.inr (.inl (some.inj hj).symm)))
      exact ⟨_, j', hself, hpkey, hpmask, hj'⟩
    · cases hq.symm.trans hl
      refine ⟨fun s hs hS => absurd (.inl (some.inj (hparent.symm.trans hs)).symm) hS,
        fun j d hj hS => ?_⟩
      cases j with
      | false => exact absurd (.inr (.inr hj)) hS
      | true =>
        rw [htrue] at hj
        cases hj
    · obtain ⟨k, hk, hk', hkparent, _⟩ := hkid r hr
      cases hk.symm.trans hl
      refine ⟨fun s hs hS => ?_, fun j d hj _ => ⟨_, j, hk', rfl, rfl, hj⟩⟩
      exact absurd (.inr (.inl (some.inj (hkparent.symm.trans hs)).symm)) hS
  · rintro r l (rfl | rfl | hr) hl
    · cases hself.symm.trans hl
      refine ⟨h.up_of_parent hp hpkey hpmask hpparent fun s m _ hm hlt => ?_, hkids.pack,
        fun hrroot hry hvalue => ?_⟩
      · refine hother s (WF.ne_of_len hm hp hlt) (WF.ne_of_len hm hq (Nat.lt_trans hlt hpn))
          fun hs => ?_
        obtain ⟨k, hk, _, _, hlen, _⟩ := hkid s hs
        cases hm.symm.trans hk
        omega
      · obtain ⟨c, hc⟩ := hy.resolve_left hry
        obtain ⟨d, hd⟩ := h.full r pn hp hrroot (fun heq => hqp (hx r heq).symm)
          (hpvalue.symm.trans hvalue)
        obtain ⟨e, he⟩ := (h.down r pn hp).first d hd
        rw [hc]
        exact pack_setKid_true he hd i c
    · cases hgone.symm.trans hl
    · -- the kid has a new parent
      obtain ⟨k, hk, hk', hkparent, hlen, hagree⟩ := hkid r hr
      cases hk'.symm.trans hl
      obtain ⟨j, hj⟩ := exists_pack ((setKid_self pn i (n.kids false)).trans hr)
      refine ⟨⟨(h.up r k hk).cut, fun heq => absurd heq (h.of_parent hk hkparent).1,
          fun _ => ⟨p, _, j, rfl, hself, hj, ?_, ?_⟩⟩,
        h.down_of_kids hk rfl rfl fun d o ho hlt => ?_, fun hrroot _ hvalue => ?_⟩
      · show maskLength _ < maskLength _
        rw [hpmask]
        exact Nat.lt_trans hpn hlen
      · show Agree (maskLength _) k.key _
        rw [hpmask, hpkey]
        exact (hagree.mono (Nat.le_of_lt hpn)).trans hqagree
      · refine hother d (WF.ne_of_len hp ho (by omega)).symm (WF.ne_of_len hq ho (by omega)).symm
          fun hd => ?_
        cases hr.symm.trans hd
        exact WF.ne_of_len hk ho hlt rfl
      · exact h.full r k hk hrroot (fun heq => WF.ne_of_len hq hk hlen (hx r heq).symm) hvalue

end Trie

end Gem5.Base
