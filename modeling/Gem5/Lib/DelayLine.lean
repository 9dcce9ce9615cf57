import Mathlib.Data.List.Basic

/-!
# `Gem5.Lib.DelayLine`: a latch with a fixed delay

A delay line of length `n` is the list of the last `n` inputs, oldest first. A cycle puts a
value in and takes the oldest one out. With length 0 the value passes at once.

`push_spec` is the law of one cycle: what comes out, followed by what is inside after it, is what
was inside followed by what went in. Nothing is lost, doubled or reordered.
-/

namespace Gem5.Lib.DelayLine
variable {α : Type}

/-- One cycle: the value that comes out, and the line after it. -/
def push : List α → α → α × List α
  | [], x => (x, [])
  | y :: line, x => (y, line ++ [x])

/-- What comes out in one cycle, followed by what is inside after it, is what was inside
followed by what went in. -/
theorem push_spec (line : List α) (x : α) : (push line x).1 :: (push line x).2 = line ++ [x] := by
  cases line <;> rfl

end Gem5.Lib.DelayLine
