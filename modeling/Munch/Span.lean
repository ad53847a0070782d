/-
Byte ranges inside a rule or a text, as errors report them. The two
offsets are 32-bit counts: a larger one is reported as the largest.
-/
import Munch.Text.Basic

namespace Munch

/-- A byte range, its end excluded. -/
structure Span where
  start : Nat
  stop : Nat
deriving DecidableEq

namespace Span

/-- The largest offset a span can hold. -/
def limit : Nat := 4294967295

/-- The span between two offsets, each cut off at the limit. -/
def between (start stop : Nat) : Span := ⟨min start limit, min stop limit⟩

/-- The part of a text that a span covers, if both its ends are
boundaries of the text, in order. -/
def of? (s : Span) (t : Text) : Option Text := t.slice? s.start s.stop

/-- The two ends with two dots between. -/
def render (s : Span) : String := s!"{s.start}..{s.stop}"

end Span

end Munch
