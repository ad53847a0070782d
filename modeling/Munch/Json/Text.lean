/-
JSON strings: what stands between the quotes, escapes resolved.

An escape by number names a unit of UTF-16. Two units can name one
character between them; a half of such a pair that stands alone names
none, and a string with one in it is well formed but spells no text.
-/
import Munch.Text.Basic

namespace Munch.Json

/-- The value of a hexadecimal digit. -/
def hexDigit? (c : Char) : Option Nat :=
  if c.isDigit then some (c.toNat - '0'.toNat)
  else if 'a' ≤ c ∧ c ≤ 'f' then some (c.toNat - 'a'.toNat + 10)
  else if 'A' ≤ c ∧ c ≤ 'F' then some (c.toNat - 'A'.toNat + 10)
  else none

/-- The unit that four hexadecimal digits name. -/
def unit? (a b c d : Char) : Option Nat :=
  match hexDigit? a, hexDigit? b, hexDigit? c, hexDigit? d with
  | some a, some b, some c, some d => some (((a * 16 + b) * 16 + c) * 16 + d)
  | _, _, _, _ => none

/-- The character that a backslash and a letter stand for. -/
def escaped? (c : Char) : Option Char :=
  match c with
  | '"' => some '"'
  | '\\' => some '\\'
  | '/' => some '/'
  | 'b' => some '\x08'
  | 'f' => some '\x0c'
  | 'n' => some '\n'
  | 'r' => some '\r'
  | 't' => some '\t'
  | _ => none

/-- A character of a string, or a unit of UTF-16 named by number. -/
inductive Piece where
  | char (c : Char)
  | unit (value : Nat)
deriving DecidableEq

/-- The pieces of a string up to its closing quote, and what follows the
quote. A string holds no control characters as they are. -/
def pieces : Text → Option (List Piece × Text)
  | [] => none
  | '"' :: rest => some ([], rest)
  | '\\' :: 'u' :: a :: b :: c :: d :: rest =>
      match unit? a b c d, pieces rest with
      | some value, some (later, rest) => some (.unit value :: later, rest)
      | _, _ => none
  | '\\' :: c :: rest =>
      match escaped? c, pieces rest with
      | some c, some (later, rest) => some (.char c :: later, rest)
      | _, _ => none
  | c :: rest =>
      if c < ' ' then none
      else
        match pieces rest with
        | some (later, rest) => some (.char c :: later, rest)
        | none => none

/-- Whether a unit is the first half of a pair. -/
def isLeading (value : Nat) : Bool := 0xd800 ≤ value && value < 0xdc00

/-- Whether a unit is the second half of a pair. -/
def isTrailing (value : Nat) : Bool := 0xdc00 ≤ value && value < 0xe000

/-- The text that pieces spell, if every half finds its other half. -/
def spell? : List Piece → Option Text
  | [] => some []
  | .char c :: rest => (spell? rest).map (c :: ·)
  | .unit high :: .unit low :: rest =>
      if isLeading high then
        if isTrailing low then
          (spell? rest).map
            (Char.ofNat
              ((high - 0xd800) * 0x400 + (low - 0xdc00) + 0x10000) :: ·)
        else none
      else if isTrailing high then none
      else (spell? (.unit low :: rest)).map (Char.ofNat high :: ·)
  | .unit value :: rest =>
      if isLeading value || isTrailing value then none
      else (spell? rest).map (Char.ofNat value :: ·)

end Munch.Json
