/-
Places in a text as a reader counts them: lines and columns from one,
columns in characters. A position is what walking over the characters
before it yields.
-/
import Munch.Text.Basic

namespace Munch

/-- A line and a column, both counted from one. -/
structure Position where
  line : Nat
  column : Nat
deriving DecidableEq

namespace Position

/-- Where a text begins. -/
def origin : Position := ⟨1, 1⟩

/-- The position after one more character: a line feed opens a line. -/
def next (p : Position) (c : Char) : Position :=
  if c = '\n' then ⟨p.line + 1, 1⟩ else ⟨p.line, p.column + 1⟩

/-- The position reached from the origin over a whole text. -/
def after (t : Text) : Position := t.foldl next origin

/-- The position of an offset, the end of the text standing for all
offsets past it. An offset inside a character has none. -/
def ofOffset? (t : Text) (offset : Nat) : Option Position :=
  (t.before? (min offset t.size)).map after

end Position

end Munch
