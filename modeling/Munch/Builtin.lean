/-
What every dictionary knows without being told: character classes that
rules can name, the layout tokens, and the two sentinels that a scan
reports. Built-in codes count down from -1, so they never meet the codes
of registered tokens, which count up from 0.
-/
import Munch.Text.Basic
import Munch.Text.Alphabetic
import Munch.Text.Numeric

namespace Munch

/-- A raw matching function. Of a text, a start and an end offset it
answers where the match ends, if there is one. -/
abbrev Primitive := Text → Nat → Nat → Option Nat

-- ================================================== character classes

/-- The classes of characters that rules can name. -/
inductive CharClass where
  | digit
  | letter
  | alphanumeric
deriving DecidableEq

namespace CharClass

/-- Whether a character is in the class. Digits are the ASCII ones;
letters and alphanumerics follow Unicode. -/
def has : CharClass → Char → Bool
  | digit, c => c.isDigit
  | letter, c => isAlphabetic c
  | alphanumeric, c => isAlphabetic c || isNumeric c

/-- Matches one character of the class. What lies between the two
offsets has to be a part of the text, cut at characters. -/
def scan (k : CharClass) : Primitive := fun text start stop =>
  if start < stop then
    match text.slice? start stop with
    | some (c :: _) => if k.has c then some (start + c.utf8Size) else none
    | _ => none
  else none

end CharClass

-- ==================================================== built-in tokens

/-- The tokens that need no registration. -/
inductive Builtin where
  | whitespace
  | tab
  | newline
  /-- Reported where no token matches. -/
  | reserved
  /-- Reported at the end of the text. -/
  | finished
  | digit
  | letter
  | alphanumeric
deriving DecidableEq

namespace Builtin

/-- All built-in tokens, by falling code. -/
def all : List Builtin :=
  [whitespace, tab, newline, reserved, finished, digit, letter, alphanumeric]

def code : Builtin → Int
  | whitespace => -1
  | tab => -2
  | newline => -3
  | reserved => -4
  | finished => -5
  | digit => -6
  | letter => -7
  | alphanumeric => -8

def key : Builtin → String
  | whitespace => "whitespace"
  | tab => "tab"
  | newline => "newline"
  | reserved => "reserved"
  | finished => "finished"
  | digit => "digit"
  | letter => "letter"
  | alphanumeric => "alphanumeric"

def ofCode? (code : Int) : Option Builtin := all.find? (·.code = code)

def ofKey? (key : String) : Option Builtin := all.find? (·.key = key)

/-- The character class behind a built-in, if it is one. -/
def charClass? : Builtin → Option CharClass
  | digit => some .digit
  | letter => some .letter
  | alphanumeric => some .alphanumeric
  | _ => none

/-- White space, tabs and line ends, which a scan skips or reports as
the dictionary's layout settings say. -/
def isLayout : Builtin → Bool
  | whitespace | tab | newline => true
  | _ => false

/-- A built-in is read back from its code. -/
@[simp] theorem ofCode?_code (b : Builtin) : ofCode? b.code = some b := by
  cases b <;> decide

/-- A built-in is read back from its key. -/
@[simp] theorem ofKey?_key (b : Builtin) : ofKey? b.key = some b := by
  cases b <;> decide

/-- No registered token has the code of a built-in. -/
theorem code_neg (b : Builtin) : b.code < 0 := by cases b <;> decide

end Builtin

end Munch
