import Gem5.Base.TimeBuffer

/-!
# `Gem5.MyMinor.SelfStallingPipeline`: the pipeline of a functional unit

The model of `SelfStallingPipeline` in `src/cpu/myminor/buffers.hh`. It is a `TimeBuffer` with
`depth` past slots. An element is pushed at slot 0 and is popable at slot `-depth`, and a
non-bubble there stalls the pipeline until the user clears `stalled`.
-/

namespace Gem5.MyMinor

open Gem5.Base

/-- `BubbleTraits`. -/
class BubbleTraits (α : Type) where
  bubble : α
  isBubble : α → Bool
  isBubble_bubble : isBubble bubble = true

attribute [simp] BubbleTraits.isBubble_bubble

open BubbleTraits

/-- `SelfStallingPipeline`. -/
structure SelfStallingPipeline (α : Type) where
  buffer : TimeBuffer α
  stalled : Bool
  occupancy : Nat

namespace SelfStallingPipeline

variable {α : Type} [Inhabited α] [BubbleTraits α]

/-- The constructor. It writes a bubble to every slot. -/
def new (depth : Nat) : SelfStallingPipeline α :=
  { buffer := (List.range (depth + 1)).foldl (fun b (i : Nat) => b.set (-(i : Int)) bubble)
      (TimeBuffer.new depth 0)
    stalled := false, occupancy := 0 }

variable (p : SelfStallingPipeline α)

/-- The slot `i` advances after the push. -/
def slot (i : Nat) : α := p.buffer.get (-(i : Int))

/-- The slots, from the one of the push to the end. -/
def contents : List α := (List.range (p.buffer.past + 1)).map p.slot

/-- `front`, through `popWire`. -/
def front : α := p.slot p.buffer.past

/-- `alreadyPushed`. -/
def alreadyPushed : Bool := !isBubble (p.slot 0)

/-- `isPopable`. -/
def isPopable : Bool := !isBubble p.front

/-- `push`, with its assertion. -/
def push (elem : α) : Option (SelfStallingPipeline α) :=
  if p.alreadyPushed then none
  else some { p with
    buffer := p.buffer.set 0 elem
    occupancy := if isBubble elem then p.occupancy else p.occupancy + 1 }

/-- `advance`. -/
def advance : SelfStallingPipeline α :=
  if p.stalled then p
  else
    let moved := { p with buffer := p.buffer.advance }
    { buffer := moved.buffer.set 0 bubble
      stalled := moved.isPopable
      occupancy := if p.isPopable then p.occupancy - 1 else p.occupancy }

end SelfStallingPipeline

/-- What the users of a pipeline do. `unstall` clears `stalled`. -/
inductive PipelineCall (α : Type) where
  | push (elem : α)
  | advance
  | unstall

/-- A pipeline and its history. An effective advance ends a cycle. `history` has what was pushed in
each cycle, the current one first, and a bubble for a cycle without a push. `pushes` has the
non-bubbles of all pushes, the latest first. `cleared` says that the user has cleared `stalled` in
this cycle. -/
structure PipelineSession (α : Type) where
  pipe : SelfStallingPipeline α
  history : List α
  pushes : List α
  cleared : Bool

namespace PipelineSession

variable {α : Type} [Inhabited α] [BubbleTraits α]

/-- A new pipeline, after cycles without a push. -/
def init (depth : Nat) : PipelineSession α :=
  { pipe := .new depth, history := List.replicate (depth + 1) bubble, pushes := [], cleared := false }

/-- One call. A push that fails the assertion does not happen. -/
def step (s : PipelineSession α) : PipelineCall α → Option (PipelineSession α)
  | .push elem => (s.pipe.push elem).map fun p =>
    { s with
      pipe := p
      history := elem :: s.history.tail
      pushes := if isBubble elem then s.pushes else elem :: s.pushes }
  | .advance => some { s with
    pipe := s.pipe.advance
    history := if s.pipe.stalled then s.history else bubble :: s.history
    cleared := s.pipe.stalled && s.cleared }
  | .unstall => some { s with pipe := { s.pipe with stalled := false }, cleared := true }

end PipelineSession

end Gem5.MyMinor
