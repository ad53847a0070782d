/-
Everything that can go wrong, each cause with the data that its message
shows. The wording is in one place, `Error.message`; the rest of the
library only names causes.

The last group of causes is no complaint about rules or texts. They
arise where a caller hands over an index that names nothing or a
primitive that answers with an offset no text can be cut at, and where a
match calls itself without end.
-/
import Munch.Span
import Munch.Text.Quoted

namespace Munch

-- ============================================================= causes

/-- What is wrong with a rule. -/
inductive RuleFault where
  /-- A star with no item before it. -/
  | danglingStar
  | unterminatedLiteral
  /-- A closing parenthesis without its opening one, or the other way
  around. -/
  | unbalancedGroup
  /-- The rule, one of its alternatives or one of its groups is empty. -/
  | emptyRule
deriving DecidableEq

/-- A fault of a rule and the part of the rule that it is about. -/
structure SpannedFault where
  fault : RuleFault
  span : Span
deriving DecidableEq

/-- Why a line is not a key and a rule. -/
inductive LineFault where
  | missingArrow
  | emptyKey
  | multiWordKey
deriving DecidableEq

/-- What can go wrong. -/
inductive Error where
  | duplicateKey (key : String)
  /-- Every code is taken. -/
  | tooManyTokens
  /-- A line, counted from one, that is not a key and a rule. -/
  | malformedLine (line : Nat) (text : Text) (fault : LineFault)
  | rule (key : String) (fault : SpannedFault)
  | unknownKey (key : String)
  | unknownCode (code : Int)
  /-- A reference names neither a token nor a character class. -/
  | unresolvedReference (expression reference : String)
  /-- A reference names a token that has nothing to match with. -/
  | noMatcher (expression reference : String)
  /-- A reference was followed before it was linked. -/
  | unlinked (reference : String)
  /-- The dictionary has changed since it was last linked. -/
  | notLinked
  /-- A scan was to start inside a character. -/
  | notCharBoundary (offset : Nat)
  /-- No token matches at an offset. -/
  | unscannable (offset line column : Nat) (found : Char)
  /-- No expression has this index. -/
  | noSuchExpression (index : Nat)
  /-- No token has this index. -/
  | noSuchToken (index : Nat)
  /-- A text cannot be cut at these two offsets. -/
  | noSuchSlice (start stop : Nat)
  /-- An expression calls itself again and again at one offset. -/
  | endless
deriving DecidableEq

-- ============================================================ messages

/-- The wording of a fault of a rule. -/
def RuleFault.reason : RuleFault → String
  | .danglingStar => "'*' is not placed after a token or group"
  | .unterminatedLiteral => "unterminated string literal"
  | .unbalancedGroup => "unbalanced parentheses"
  | .emptyRule => "empty rule"

/-- The wording of a fault of a line. -/
def LineFault.reason : LineFault → String
  | .missingArrow => "expected `KEY -> RULE`"
  | .emptyKey => "missing token key"
  | .multiWordKey => "token key must be a single word"

namespace Error

/-- The largest token code, which the message on capacity names. -/
def largestCode : Nat := 32767

/-- The wording of an error. -/
def message : Error → String
  | duplicateKey key => s!"Dictionary already contains token `{key}`"
  | tooManyTokens =>
      s!"Dictionary cannot hold more than {largestCode} tokens"
  | malformedLine line text fault =>
      s!"Line {line}: {fault.reason}\n  {String.ofList text}"
  | rule key fault =>
      s!"Rule `{key}` at {fault.span.render}: {fault.fault.reason}"
  | unknownKey key => s!"Unexpected key `{key}`"
  | unknownCode code => s!"Unexpected code {code}"
  | unresolvedReference expression reference =>
      s!"Expression `{expression}` references unknown `{reference}`"
  | noMatcher expression reference =>
      s!"Expression `{expression}` references `{reference}` " ++
        "which cannot be scanned"
  | unlinked reference =>
      s!"Expression requires linking, `{reference}` is unresolved"
  | notLinked => "Dictionary must be linked before scanning"
  | notCharBoundary offset =>
      s!"Offset {offset} is not on a character boundary"
  | unscannable offset line column found =>
      s!"Unable to find scannable token at {line}:{column} " ++
        s!"(offset {offset}), found " ++
        String.ofList (Text.quoted '\'' [found])
  | noSuchExpression index => s!"No expression has index {index}"
  | noSuchToken index => s!"No token has index {index}"
  | noSuchSlice start stop => s!"No text lies at {start}..{stop}"
  | endless => "Expression calls itself without end"

end Error

end Munch
