import Gem5.Base.AddrRange

/-!
# `Gem5.Base.AddrRangeMap`: a map from address ranges, with a cache

The model of `src/base/addr_range_map.hh`. The tree is the list of its entries in the order of the
keys. An iterator names an entry. An entry that is inserted gets a new name, so an iterator to an
entry that was erased names nothing any more. The cache is a list of iterators. Reading through an
iterator that names nothing is the fault `badPointer`.

`begin`, `end`, `size` and `empty` are read off the tree. `contains` of an address is `contains` of
a range of size one.
-/

namespace Gem5.Base

open Gem5.Lib (Fault)

/-- An iterator of the tree. -/
abbrev Iter := Nat

namespace AddrRangeMap

/-- An entry of the tree. -/
structure Entry (V : Type) where
  it : Iter
  range : AddrRange
  value : V
  deriving Repr, DecidableEq

end AddrRangeMap

/-- `AddrRangeMap`. `fresh` is the name of the next entry. -/
structure AddrRangeMap (V : Type) where
  tree : List (AddrRangeMap.Entry V)
  cache : List Iter
  fresh : Iter
  deriving Repr, DecidableEq

namespace AddrRangeMap

variable {V : Type}

/-- A piece of code over the map. -/
abbrev MapM (V : Type) := StateT (AddrRangeMap V) (Except Fault)

def new : AddrRangeMap V := { tree := [], cache := [], fresh := 0 }

/-- `*it`. -/
def deref (it : Iter) : MapM V (Entry V) := do
  match (← get).tree.find? fun e => e.it == it with
  | some e => return e
  | none => throw .badPointer

variable (maxCacheSize : BitVec 32)

/-- The list that `addNewEntryToCache` leaves. `maxCacheSize` is an `int`, and the comparison with
the size of the list is one of unsigned 64-bit numbers. -/
def addNewEntryToCache (it : Iter) (cache : List Iter) : List Iter :=
  if maxCacheSize ≠ 0 then
    if (maxCacheSize.signExtend 64).toNat ≤ cache.length then
      if 1 < maxCacheSize.toInt then it :: cache.dropLast else cache.dropLast ++ [it]
    else it :: cache
  else cache

/-- The first loop of `find`: the first entry of the cache that satisfies the condition goes to the
front. `seen` are the iterators that the loop has passed, the last one first. -/
def findCached (cond : AddrRange → Except Fault Bool) :
    List Iter → List Iter → MapM V (Option Iter)
  | _, [] => return none
  | seen, it :: rest => do
      let e ← deref it
      if ← StateT.lift (cond e.range) then
        modify fun m => { m with cache := it :: (seen.reverse ++ rest) }
        return some it
      else findCached cond (it :: seen) rest

/-- The entry at `upper_bound`, if it satisfies the condition. -/
def testNext (cond : AddrRange → Except Fault Bool) : List (Entry V) →
    Except Fault (Option (Entry V))
  | [] => .ok none
  | next :: _ => do
      if ← cond next.range then return some next else return none

/-- The second loop of `find`: from one entry downwards, as long as the ranges merge. -/
def searchBack (cond : AddrRange → Except Fault Bool) : List (Entry V) →
    Except Fault (Option (Entry V))
  | [] => .ok none
  | i :: rest => do
      if ← cond i.range then return some i
      else
        match rest with
        | [] => return none
        | next :: _ =>
          if next.range.mergesWith i.range then searchBack cond rest else return none

variable (r : AddrRange)

/-- The search of `find` in the tree. -/
def search (cond : AddrRange → Except Fault Bool) (tree : List (Entry V)) :
    Except Fault (Option (Entry V)) := do
  let (before, after) := tree.span fun e => !r.lt e.range
  match ← testNext cond after with
  | some e => return some e
  | none => searchBack cond before.reverse

/-- `find`. No iterator is `end()`. -/
def find (cond : AddrRange → Except Fault Bool) :
    MapM V (Option Iter) := do
  match ← findCached cond [] (← get).cache with
  | some it => return some it
  | none =>
    match ← StateT.lift (search r cond (← get).tree) with
    | some e =>
      modify fun m => { m with cache := addNewEntryToCache maxCacheSize e.it m.cache }
      return some e.it
    | none => return none

/-- `contains`. -/
def contains : MapM V (Option Iter) :=
  find maxCacheSize r r.isSubset

/-- `intersects`. -/
def intersects (maxCacheSize : BitVec 32) (r : AddrRange) : MapM V (Option Iter) :=
  find maxCacheSize r r.intersects

/-- `tree.insert`. An entry with an equivalent key stays as it is. -/
def treeInsert (d : V) : MapM V Iter := do
  let m ← get
  let (before, after) := m.tree.span fun e => e.range.lt r
  match after with
  | e :: _ =>
    if r.lt e.range then
      modify fun m =>
        { m with tree := before ++ { it := m.fresh, range := r, value := d } :: after
                 fresh := m.fresh + 1 }
      return m.fresh
    else return e.it
  | [] =>
    modify fun m =>
      { m with tree := before ++ [{ it := m.fresh, range := r, value := d }]
               fresh := m.fresh + 1 }
    return m.fresh

/-- `insert`. -/
def insert (d : V) : MapM V (Option Iter) := do
  match ← intersects maxCacheSize r with
  | some _ => return none
  | none => return some (← treeInsert r d)

/-- `erase` of one entry. -/
def erase (p : Iter) : MapM V Unit := do
  let _ ← deref p
  modify fun m =>
    { m with cache := m.cache.filter (· ≠ p), tree := m.tree.filter fun e => e.it ≠ p }

/-- The entries from `p` up to `q`, with those before and those after them. -/
def cutRange (p q : Option Iter) (tree : List (Entry V)) :
    List (Entry V) × List (Entry V) × List (Entry V) :=
  let (before, rest) := tree.span fun e => some e.it ≠ p
  let (erased, after) := rest.span fun e => some e.it ≠ q
  (before, erased, after)

/-- `erase` of a range of entries. The loop removes `p` from the cache once for each of them. `q` is
reachable from `p`. -/
def eraseRange (p q : Option Iter) : MapM V Unit := do
  let m ← get
  let (before, erased, after) := cutRange p q m.tree
  if p.isSome && before.length = m.tree.length || q.isSome && after.isEmpty then throw .badPointer
  else
    modify fun m =>
      { m with cache := erased.foldl (fun cache _ => cache.filter fun it => some it ≠ p) m.cache
               tree := before ++ after }

/-- `clear`. -/
def clear : MapM V Unit :=
  modify fun m => { m with cache := [], tree := [] }

/-- The calls of a map. -/
inductive Call (V : Type)
  | insert (r : AddrRange) (d : V)
  | erase (p : Iter)
  | eraseRange (p q : Option Iter)
  | clear
  | contains (r : AddrRange)
  | intersects (r : AddrRange)
  deriving Repr, DecidableEq

/-- The code of a call. -/
def code : Call V → MapM V (Option Iter)
  | .insert r d => insert maxCacheSize r d
  | .erase p => do
      erase p
      return none
  | .eraseRange p q => do
      eraseRange p q
      return none
  | .clear => do
      clear
      return none
  | .contains r => contains maxCacheSize r
  | .intersects r => intersects maxCacheSize r

/-- The map after a call that returns. -/
def step (m : AddrRangeMap V) (c : Call V) : Option (AddrRangeMap V) :=
  match code maxCacheSize c m with
  | .ok (_, m') => some m'
  | .error _ => none

end AddrRangeMap

end Gem5.Base
