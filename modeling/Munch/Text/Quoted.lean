/-
Texts as they are shown in messages: between quotes, with the quote and
the backslash escaped, the four commonest controls by letter, and every
other character without a form of its own by its number.
-/
import Munch.Text.Basic
import Munch.Text.Unprintable

namespace Munch.Text

/-- One character inside the given quotes. -/
def escape (quote c : Char) : Text :=
  if c = quote ∨ c = '\\' then ['\\', c]
  else if c = '\x00' then ['\\', '0']
  else if c = '\t' then ['\\', 't']
  else if c = '\n' then ['\\', 'n']
  else if c = '\r' then ['\\', 'r']
  else if isUnprintable c then
    '\\' :: 'u' :: '{' :: (Nat.toDigits 16 c.toNat ++ ['}'])
  else [c]

/-- A text between quotes. -/
def quoted (quote : Char) (t : Text) : Text :=
  quote :: (t.flatMap (escape quote) ++ [quote])

end Munch.Text
