/-
Layout: the tabs, line ends and other white space between tokens. It
comes in units. A carriage return and the line feed after it are one
unit; any other white space character is one by itself.
-/
import Munch.Dictionary.Basic

namespace Munch

/-- The layout token of a character by itself. -/
def layoutOf (c : Char) : Option Builtin :=
  if c = '\t' then some .tab
  else if c = '\r' ∨ c = '\n' then some .newline
  else if isBlank c then some .whitespace
  else none

/-- What is reached by skipping layout. -/
inductive Lead where
  /-- A unit of layout that is reported. -/
  | unit (builtin : Builtin) (start stop : Nat)
  /-- A place without layout, and the text from there. -/
  | text (position : Nat) (rest : Text)
deriving DecidableEq

/-- Skips the layout that is not kept, at the beginning of a text that
begins at an offset. -/
def skipLayout (r : Retention) : Nat → Text → Lead
  | position, [] => .text position []
  | position, '\r' :: '\n' :: rest =>
      if r.newlines then .unit .newline position (position + 2)
      else skipLayout r (position + 2) rest
  | position, c :: rest =>
      match layoutOf c with
      | none => .text position (c :: rest)
      | some b =>
          if r.keeps b then .unit b position (position + c.utf8Size)
          else skipLayout r (position + c.utf8Size) rest

end Munch
