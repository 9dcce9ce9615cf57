import Mathlib.Logic.Basic

/-!
# `Gem5.Lib.Returns`: programs over a state that can fail

A program is `StateT σ (Except ε) α`: it reads and writes a state, and it can stop with a
fault. `Returns m s Q` says that `m` does not stop: from the state `s` it returns a value and
a state, and they satisfy `Q`. There is one rule for each way to build a program. With these
rules as simp lemmas, a program is executed symbolically, one command after the other.
`Ensures m s Q` is the partial version: if `m` returns, then the result satisfies `Q`.

`Fault` lists the ways in which code with pointers and loops stops. A loop is modelled with a
bound on its rounds, and `outOfFuel` says that the bound was too small.
-/

namespace Gem5.Lib

/-- How code can stop. -/
inductive Fault where
  | panic (message : String)
  | fatal (message : String)
  | assertion (condition : String)
  | badPointer
  | outOfFuel
  deriving Repr, DecidableEq

section
variable {σ ε α β : Type}

variable {s : σ} {x : Except ε α} {m : StateT σ (Except ε) α} {Q : α → σ → Prop}
variable {f : α → Except ε β} {a : α} {P : α → σ → Prop}

/-- Two computations in a row return when both do. -/
theorem bind_eq_ok {b : β} : (x >>= f) = .ok b ↔ ∃ a, x = .ok a ∧ f a = .ok b := by
  cases x with
  | error e => exact ⟨fun h => (by cases h), fun ⟨a, ha, _⟩ => (by cases ha)⟩
  | ok a => exact ⟨fun h => ⟨a, rfl, h⟩, fun ⟨a', ha, h⟩ => (by cases ha; exact h)⟩

/-- A loop whose rounds all return. -/
theorem mapM_eq_ok {g : α → β} {l : List α} (h : ∀ a ∈ l, f a = .ok (g a)) :
    l.mapM f = .ok (l.map g) := by
  induction l with
  | nil => rfl
  | cons a l ih =>
    rw [List.mapM_cons, h a List.mem_cons_self, ih fun b hb => h b (List.mem_cons_of_mem a hb)]
    rfl

/-- From `s`, `m` returns a value and a state that satisfy `Q`. -/
def Returns (m : StateT σ (Except ε) α) (s : σ) (Q : α → σ → Prop) : Prop :=
  ∃ a s', m s = .ok (a, s') ∧ Q a s'

@[simp] theorem returns_pure (a : α) (s : σ) (Q : α → σ → Prop) :
    Returns (pure a : StateT σ (Except ε) α) s Q ↔ Q a s := by
  constructor
  · rintro ⟨b, t, h, hQ⟩
    cases h
    exact hQ
  · intro hQ
    exact ⟨a, s, rfl, hQ⟩

/-- The second computation starts where the first ends. -/
@[simp] theorem returns_bind (m : StateT σ (Except ε) α) (f : α → StateT σ (Except ε) β) (s : σ)
    (Q : β → σ → Prop) : Returns (m >>= f) s Q ↔ Returns m s fun a t => Returns (f a) t Q := by
  constructor
  · rintro ⟨b, u, h, hQ⟩
    change (m s >>= fun x => f x.1 x.2) = _ at h
    cases hm : m s with
    | error e =>
      rw [hm] at h
      cases h
    | ok x =>
      rw [hm] at h
      exact ⟨x.1, x.2, hm, b, u, h, hQ⟩
  · rintro ⟨a, t, hm, b, u, hf, hQ⟩
    refine ⟨b, u, ?_, hQ⟩
    change (m s >>= fun x => f x.1 x.2) = _
    rw [hm]
    exact hf

@[simp] theorem returns_map (f : α → β) (m : StateT σ (Except ε) α) (s : σ) (Q : β → σ → Prop) :
    Returns (f <$> m) s Q ↔ Returns m s fun a t => Q (f a) t := by
  rw [map_eq_pure_bind, returns_bind]
  simp [returns_pure]

@[simp] theorem returns_get (s : σ) (Q : σ → σ → Prop) :
    Returns (get : StateT σ (Except ε) σ) s Q ↔ Q s s :=
  returns_pure s s Q

@[simp] theorem returns_modify (f : σ → σ) (s : σ) (Q : PUnit → σ → Prop) :
    Returns (modify f : StateT σ (Except ε) PUnit) s Q ↔ Q ⟨⟩ (f s) := by
  constructor
  · rintro ⟨b, t, h, hQ⟩
    cases h
    exact hQ
  · intro hQ
    exact ⟨⟨⟩, f s, rfl, hQ⟩

@[simp] theorem returns_throw (e : ε) (s : σ) (Q : α → σ → Prop) :
    Returns (throw e : StateT σ (Except ε) α) s Q ↔ False := by
  constructor
  · rintro ⟨b, t, h, _⟩
    cases h
  · exact False.elim

/-- A computation without state that returns. -/
theorem returns_lift (hx : x = .ok a) (s : σ) (Q : α → σ → Prop) :
    Returns (StateT.lift x) s Q ↔ Q a s := by
  subst hx
  exact returns_pure a s Q

/-- What a program returns may be weakened. -/
theorem Returns.mono (h : Returns m s P) (hPQ : ∀ a t, P a t → Q a t) : Returns m s Q := by
  obtain ⟨a, t, hm, hP⟩ := h
  exact ⟨a, t, hm, hPQ a t hP⟩

/-- A program has one result. -/
theorem Returns.of_eq {t : σ} (h : Returns m s Q) (hm : m s = .ok (a, t)) : Q a t := by
  obtain ⟨b, u, hm', hQ⟩ := h
  rw [hm] at hm'
  cases hm'
  exact hQ

/-- From `s`, if `m` returns, then the value and the state satisfy `Q`. -/
def Ensures (m : StateT σ (Except ε) α) (s : σ) (Q : α → σ → Prop) : Prop :=
  ∀ a s', m s = .ok (a, s') → Q a s'

@[simp] theorem ensures_pure (a : α) (s : σ) (Q : α → σ → Prop) :
    Ensures (pure a : StateT σ (Except ε) α) s Q ↔ Q a s := by
  constructor
  · intro h
    exact h a s rfl
  · intro hQ b t h
    cases h
    exact hQ

/-- The same for a computation that may fail. -/
@[simp] theorem ensures_bind (m : StateT σ (Except ε) α) (f : α → StateT σ (Except ε) β) (s : σ)
    (Q : β → σ → Prop) : Ensures (m >>= f) s Q ↔ Ensures m s fun a t => Ensures (f a) t Q := by
  constructor
  · intro h a t hm b u hf
    refine h b u ?_
    show (m s >>= fun x => f x.1 x.2) = _
    rw [hm]
    exact hf
  · intro h b u hbind
    change (m s >>= fun x => f x.1 x.2) = _ at hbind
    cases hm : m s with
    | error e =>
      rw [hm] at hbind
      cases hbind
    | ok x =>
      rw [hm] at hbind
      exact h x.1 x.2 hm b u hbind

@[simp] theorem ensures_get (s : σ) (Q : σ → σ → Prop) :
    Ensures (get : StateT σ (Except ε) σ) s Q ↔ Q s s :=
  ensures_pure s s Q

@[simp] theorem ensures_modify (f : σ → σ) (s : σ) (Q : PUnit → σ → Prop) :
    Ensures (modify f : StateT σ (Except ε) PUnit) s Q ↔ Q ⟨⟩ (f s) := by
  constructor
  · intro h
    exact h ⟨⟩ (f s) rfl
  · intro hQ b t h
    cases h
    exact hQ

@[simp] theorem ensures_throw (e : ε) (s : σ) (Q : α → σ → Prop) :
    Ensures (throw e : StateT σ (Except ε) α) s Q ↔ True := by
  refine ⟨fun _ => trivial, fun _ a t h => ?_⟩
  cases h

/-- A computation without state. -/
theorem ensures_lift (h : ∀ a, x = .ok a → Q a s) : Ensures (StateT.lift x) s Q := by
  intro a t hx
  cases x with
  | error e => cases hx
  | ok b =>
    cases hx
    exact h _ rfl

/-- What a program ensures may be weakened. -/
theorem Ensures.mono (h : Ensures m s P) (hPQ : ∀ a t, P a t → Q a t) : Ensures m s Q :=
  fun a t hm => hPQ a t (h a t hm)

end

end Gem5.Lib
