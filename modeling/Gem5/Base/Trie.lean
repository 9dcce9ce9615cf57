import Gem5.Lib.Returns
import Mathlib.Logic.Function.Basic

/-!
# `Gem5.Base.Trie`: the trie of key prefixes

The model of `src/base/trie.hh`. A node holds a key, the mask of the bits that count, a value
or none, its parent and two kids. The root is part of the trie. The other nodes are allocated
and deleted by `insert` and `remove`. A handle is the address of a node.

`Key` is an unsigned type with `w` bits, so `MaxBits` is `w`. Every loop walks down or up the
tree, one node with a longer or shorter mask at a time, and runs at most `w + 1` rounds.

`clear` and `dump` are left out.
-/

namespace Gem5.Base

open Gem5.Lib (Fault)

/-- The address of a node. -/
abbrev Ptr := Nat

/-- `Trie::Node`. `kids false` is `kids[0]`, and `kids true` is `kids[1]`. -/
structure Node (w : Nat) (V : Type) where
  key : BitVec w
  mask : BitVec w
  value : Option V
  parent : Option Ptr
  kids : Bool → Option Ptr

namespace Node

variable {w : Nat} {V : Type}

/-- `Node::Node`. -/
def new (key mask : BitVec w) (value : Option V) : Node w V :=
  { key := key &&& mask, mask := mask, value := value, parent := none, kids := fun _ => none }

variable (n : Node w V)

/-- `matches`. -/
def matchesTest (test : BitVec w) : Bool := test &&& n.mask == n.key

/-- `kids[i] = kid`. -/
def setKid (i : Bool) (kid : Option Ptr) : Node w V :=
  { n with kids := Function.update n.kids i kid }

/-- An only kid becomes `kids[0]`. -/
def pack : Node w V :=
  if (n.kids true).isSome && (n.kids false).isNone then
    (n.setKid false (n.kids true)).setKid true none
  else n

end Node

/-- `Trie`. Addresses from `next` on are free. -/
structure Trie (w : Nat) (V : Type) where
  heap : Ptr → Option (Node w V)
  next : Ptr

/-- A piece of code over the trie. -/
abbrev TrieM (w : Nat) (V : Type) := StateT (Trie w V) (Except Fault)

namespace Trie

variable {w : Nat} {V : Type}

/-- `&head`. -/
def root : Ptr := 0

/-- `Trie::Trie`. -/
def new : Trie w V :=
  { heap := fun p => if p = root then some (Node.new 0 0 none) else none, next := root + 1 }

/-- Writes `*p`. -/
def put (t : Trie w V) (p : Ptr) (n : Option (Node w V)) : Trie w V :=
  { t with heap := Function.update t.heap p n }

/-- Puts a node at the next free address. -/
def push (t : Trie w V) (n : Node w V) : Trie w V :=
  { t.put t.next (some n) with next := t.next + 1 }

/-- `*p`. -/
def deref (p : Ptr) : TrieM w V (Node w V) := do
  match (← get).heap p with
  | some n => return n
  | none => throw .badPointer

/-- Writes fields of `*p`. -/
def update (p : Ptr) (f : Node w V → Node w V) : TrieM w V Unit := do
  let n ← deref p
  modify fun t => t.put p (some (f n))

/-- `new Node`. -/
def alloc (n : Node w V) : TrieM w V Ptr := do
  let p := (← get).next
  modify fun t => t.push n
  return p

/-- `delete p`. -/
def free (p : Ptr) : TrieM w V Unit :=
  modify fun t => t.put p none

/-- `assert`. -/
def assert (condition : Bool) (text : String) : TrieM w V Unit :=
  if condition then pure () else throw (.assertion text)

/-- `goesAfter`. It returns the node to move to. -/
def goesAfter (kid : Option Ptr) (key newMask : BitVec w) : TrieM w V (Option Ptr) := do
  match kid with
  | none => return none
  | some c =>
    let n ← deref c
    return if n.matchesTest key && n.mask &&& newMask == n.mask then some c else none

/-- `extendMask`. -/
def extendMask (orig : BitVec w) : BitVec w :=
  orig ||| orig >>> 1 ||| BitVec.twoPow w (w - 1)

/-- The loop of `lookupHandle`. -/
def lookupFrom (key : BitVec w) : Nat → Ptr → TrieM w V (Option Ptr)
  | 0, _ => throw .outOfFuel
  | fuel + 1, node => do
      let n ← deref node
      if n.value.isSome then return some node
      else
        match ← matching (n.kids false) with
        | some c => lookupFrom key fuel c
        | none =>
          match ← matching (n.kids true) with
          | some c => lookupFrom key fuel c
          | none => return none
where
  /-- The kid, if there is one that matches. -/
  matching (kid : Option Ptr) : TrieM w V (Option Ptr) := do
    match kid with
    | none => return none
    | some c =>
      let n ← deref c
      return if n.matchesTest key then some c else none

variable (key : BitVec w)

/-- `lookupHandle`. -/
def lookupHandle : TrieM w V (Option Ptr) := lookupFrom key (w + 1) root

/-- `lookup`. -/
def lookup : TrieM w V (Option V) := do
  match ← lookupHandle key with
  | none => return none
  | some node => return (← deref node).value

/-- The mask that `insert` builds from the width. -/
def widthMask (width : Nat) : BitVec w :=
  if width < w then BitVec.allOnes w <<< (w - width) else BitVec.allOnes w

/-- The first loop of `insert`: it walks past the nodes that the new one goes after. -/
def walk (key newMask : BitVec w) : Nat → Ptr → TrieM w V Ptr
  | 0, _ => throw .outOfFuel
  | fuel + 1, node => do
      let n ← deref node
      match ← goesAfter (n.kids false) key newMask with
      | some c => walk key newMask fuel c
      | none =>
        match ← goesAfter (n.kids true) key newMask with
        | some c => walk key newMask fuel c
        | none => return node

/-- The inner loop of `insert`: it walks down a leg until something does not match or the new
mask is used up. -/
def splitMask (key newMask kidKey : BitVec w) : Nat → BitVec w → TrieM w V (BitVec w)
  | 0, _ => throw .outOfFuel
  | fuel + 1, lastMask =>
    let curMask := extendMask lastMask
    if key &&& curMask != kidKey &&& curMask || lastMask == newMask then return lastMask
    else splitMask key newMask kidKey fuel curMask

/-- The body of the last loop of `insert` for one kid. The result is the handle, or none to try
the other kid. -/
def insertKid (node : Ptr) (i : Bool) (key newMask : BitVec w) (val : V) :
    TrieM w V (Option Ptr) := do
  let n ← deref node
  match n.kids i with
  | none =>
    let p ← alloc { Node.new key newMask (some val) with parent := some node }
    update node fun n => n.setKid i (some p)
    return some p
  | some kid =>
    let k ← deref kid
    let curMask ← splitMask key newMask k.key (w + 1) n.mask
    if curMask == n.mask then return none
    else
      let p ← alloc { Node.new key curMask none with parent := some node }
      update kid fun k => { k with parent := some p }
      update p fun n => n.setKid false (some kid)
      update node fun n => n.setKid i (some p)
      if curMask == newMask then
        update p fun n => { n with value := some val }
        return some p
      else
        let p' ← alloc { Node.new key newMask (some val) with parent := some p }
        update p fun n => n.setKid true (some p')
        return some p'

/-- `insert`. -/
def insert (key : BitVec w) (width : Nat) (val : V) : TrieM w V Ptr := do
  let newMask := widthMask width
  let key := key &&& newMask
  let node ← walk key newMask (w + 1) root
  let n ← deref node
  if n.mask == newMask then
    assert n.value.isNone "!node->value"
    update node fun n => { n with value := some val }
    return node
  else
    match ← insertKid node false key newMask val with
    | some p => return p
    | none =>
      match ← insertKid node true key newMask val with
      | some p => return p
      | none => throw (.panic "Reached the end of the Trie insert function!\n")

/-- The part of `remove` that puts the kid of a node in its place below the parent. -/
def replaceKid (parent node : Ptr) (kid : Option Ptr) : TrieM w V Unit := do
  let p ← deref parent
  if p.kids false = some node then update parent fun p => p.setKid false kid
  else if p.kids true = some node then update parent fun p => p.setKid true kid
  else throw (.panic "Trie: Inconsistent parent/kid relationship.\n")

/-- The part of `remove` that makes an only kid `kids[0]`. -/
def packKids (parent : Ptr) : TrieM w V Unit :=
  update parent Node.pack

/-- The part of `remove` that writes the parent of the kid. -/
def adopt (kid : Option Ptr) (parent : Ptr) : TrieM w V Unit :=
  match kid with
  | none => pure ()
  | some c => update c fun n => { n with parent := some parent }

/-- `remove` of a handle. -/
def removeNode : Nat → Ptr → TrieM w V (Option V)
  | 0, _ => throw .outOfFuel
  | fuel + 1, node => do
      let n ← deref node
      if (n.kids true).isSome then
        assert n.value.isSome "node->value"
        update node fun n => { n with value := none }
        return n.value
      else
        match n.parent with
        | none => throw (.panic "Trie: Can't remove root node.\n")
        | some parent =>
          adopt (n.kids false) parent
          replaceKid parent node (n.kids false)
          packKids parent
          let p ← deref parent
          if (p.kids true).isNone && p.value.isNone && p.parent.isSome then
            let _ ← removeNode fuel parent
            free node
          else free node
          return n.value

/-- `remove` of a handle. -/
def remove (handle : Ptr) : TrieM w V (Option V) := removeNode (w + 1) handle

/-- `remove` of a key. -/
def removeKey : TrieM w V (Option V) := do
  match ← lookupHandle key with
  | none => return none
  | some handle => remove handle

end Trie

end Gem5.Base
