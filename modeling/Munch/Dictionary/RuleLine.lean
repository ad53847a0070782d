/-
A line of a rule file: `KEY -> RULE`, or `!KEY -> RULE` for a token that
keeps the text it matched. The line is split at its first arrow, so keys
hold no arrow and rules may.
-/
import Munch.Error

namespace Munch

/-- A key and its rule. -/
structure RuleLine where
  key : String
  rule : Text
  keepText : Bool
deriving DecidableEq

namespace RuleLine

/-- What stands before the first arrow of a text, and what after. -/
def splitArrow : Text → Option (Text × Text)
  | [] => none
  | '-' :: '>' :: t => some ([], t)
  | c :: t => (splitArrow t).map fun (head, tail) => (c :: head, tail)

/-- Whether the text before the arrow carries the mark of a token that
keeps its text, and the key behind the mark. -/
def splitMark : Text → Bool × Text
  | '!' :: t => (true, Text.trimStart t)
  | t => (false, t)

/-- Reads a line; a blank one holds nothing. -/
def parse (line : Text) : Except LineFault (Option RuleLine) :=
  let line := line.trim
  if line = [] then .ok none
  else
    match splitArrow line with
    | none => .error .missingArrow
    | some (head, rule) =>
        let (keepText, key) := splitMark head.trim
        if key = [] then .error .emptyKey
        else if key.any isBlank then .error .multiWordKey
        else .ok (some ⟨String.ofList key, rule.trim, keepText⟩)

end RuleLine

end Munch
