/-
Where a character of a rule stands: inside or outside a string literal,
and how many groups deep. Both passes over a rule walk the same places,
so they cannot disagree on what is a literal or where a group ends.

In a literal a backslash covers the next character, and `\u` covers the
four characters after it, whatever they are; a quote among those does
not end the literal.
-/
import Munch.Text.Basic

namespace Munch.Rule

/-- A place relative to string literals. -/
inductive Quote where
  | outside
  | inside
  /-- Right after a backslash. -/
  | escape
  /-- In the four characters after `\u`; so many follow the next one. -/
  | unicode (left : Nat)
deriving DecidableEq

/-- The place after one more character. -/
def Quote.next : Quote → Char → Quote
  | outside, c => if c = '"' then inside else outside
  | inside, c =>
      if c = '"' then outside else if c = '\\' then escape else inside
  | escape, c => if c = 'u' then unicode 3 else inside
  | unicode 0, _ => inside
  | unicode (left + 1), _ => unicode left

/-- A place relative to literals and groups. -/
structure Place where
  quote : Quote
  /-- How many groups are open. -/
  depth : Nat
deriving DecidableEq

namespace Place

/-- Where a rule begins. -/
def origin : Place := ⟨.outside, 0⟩

/-- The place after one more character. Parentheses in a literal are
text. -/
def next (p : Place) (c : Char) : Place where
  quote := p.quote.next c
  depth :=
    if p.quote = .outside then
      if c = '(' then p.depth + 1
      else if c = ')' then p.depth - 1
      else p.depth
    else p.depth

/-- The place that a stretch of text leads to. -/
def after (p : Place) (t : Text) : Place := t.foldl next p

/-- Outside all literals and groups. -/
def IsTop (p : Place) : Prop := p.quote = .outside ∧ p.depth = 0

instance (p : Place) : Decidable p.IsTop :=
  inferInstanceAs (Decidable (_ ∧ _))

end Place

end Munch.Rule
