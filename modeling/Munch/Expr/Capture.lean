/-
Matching a tree against a text.

An alternation is an ordered choice. A starred item is greedy and is
never taken back: once it stops matching, the rest of the sequence has
to match from there. An attempt that matches without moving ends the
repetition.

A tree is matched relative to what calls to other expressions answer
(`Node.matchWith`), by recursion on the tree alone. The expressions of a
set then answer each other's calls up to a bound on the depth of the
calls (`captureWithin`), which also bounds each repetition. A match that
uses the bound up is reported as `endless`; what matching comes to is
what some bound gives, and then every larger one.

# The budget

`capture` and `captureNode` take one bound, the `budget`. It is enough
where primitives stay in range, that is, answer with an offset between
the start and the limit: expressions that do not call themselves without
moving then need at most one call of each expression per byte of the
text. A primitive that does not stay in range can lead a repetition to
more places than the text has, and make it longer than the budget. For
`capture` such a match is `endless`, though a larger bound answers it.
So what is said of arbitrary primitives is said of the forms that take
the bound, `captureBounded` and `captureNodeWithin`.
-/
import Munch.Error
import Munch.Expr.Basic

namespace Munch

/-- Where a match ends, if there is one. -/
abbrev Answer := Except Error (Option Nat)

-- ============================================================== trees

/-- Where a literal that starts at an offset ends, if it stands there and
ends at the limit or before. -/
def literalAt (text : Text) (limit : Nat) (literal : Text) (start : Nat) :
    Option Nat :=
  if start + literal.size ≤ limit then
    if literal = [] then some start
    else
      match text.after? start with
      | some rest =>
          if literal.isPrefixOf rest then some (start + literal.size) else none
      | none => none
  else none

/-- The offset at which a repetition stops: where an attempt fails, or
where it matches without moving. -/
def repeatFrom (attempt : Nat → Answer) : Nat → Nat → Except Error Nat
  | 0, _ => .error .endless
  | bound + 1, position =>
      match attempt position with
      | .error e => .error e
      | .ok none => .ok position
      | .ok (some next) =>
          if next = position then .ok position
          else repeatFrom attempt bound next

section Matching

variable (call : Nat → Nat → Answer) (text : Text) (limit bound : Nat)

mutual

/-- Matches a tree from an offset up to the limit. A reference to an
expression is answered by `call`, given its index and the offset. -/
def Node.matchWith : Node → Nat → Answer
  | .literal literal, start => .ok (literalAt text limit literal start)
  | .reference _ (some (.expression index)), start => call index start
  | .reference _ (some (.primitive scan)), start => .ok (scan text start limit)
  | .reference key none, _ => .error (.unlinked key)
  | .sequence elements, start => matchElements elements start
  | .alternation choices, start => matchChoices choices start

/-- Matches items one after another. -/
def matchElements : List Element → Nat → Answer
  | [], position => .ok (some position)
  | ⟨node, true⟩ :: rest, position =>
      match repeatFrom node.matchWith bound position with
      | .error e => .error e
      | .ok next => matchElements rest next
  | ⟨node, false⟩ :: rest, position =>
      match node.matchWith position with
      | .error e => .error e
      | .ok none => .ok none
      | .ok (some next) => matchElements rest next

/-- The answer of the first alternative that matches. -/
def matchChoices : List Node → Nat → Answer
  | [], _ => .ok none
  | node :: rest, start =>
      match node.matchWith start with
      | .error e => .error e
      | .ok (some next) => .ok (some next)
      | .ok none => matchChoices rest start

end

end Matching

-- ==================================================== expression sets

namespace ExpressionSet

/-- Matches an expression from an offset up to the limit, with calls
nested no deeper than the bound. -/
def captureWithin (s : ExpressionSet) (text : Text) (limit : Nat) :
    Nat → Nat → Nat → Answer
  | 0, _, _ => .error .endless
  | bound + 1, index, start =>
      match s.get? index with
      | none => .error (.noSuchExpression index)
      | some e =>
          e.root.matchWith (captureWithin s text limit bound) text limit bound
            start

/-- A bound on the depth of calls that leaves room for every expression
to call each other one at every offset of the text. It is enough where
primitives stay in range. -/
def budget (s : ExpressionSet) (text : Text) : Nat :=
  (text.size + 3) * (s.size + 2)

/-- Matches an expression from one offset up to another, the end of the
text standing for all offsets past it, with calls nested no deeper than
the bound. -/
def captureBounded (s : ExpressionSet) (bound index : Nat) (text : Text)
    (start stop : Nat) : Answer :=
  s.captureWithin text (min stop text.size) bound index start

/-- Matches an expression from one offset up to another. -/
def capture (s : ExpressionSet) (index : Nat) (text : Text)
    (start stop : Nat) : Answer :=
  s.captureBounded (s.budget text) index text start stop

/-- Matches an expression from the beginning of a text. -/
def captureAll (s : ExpressionSet) (index : Nat) (text : Text) : Answer :=
  s.capture index text 0 text.size

/-- Matches a tree whose references lead into a set, with calls nested no
deeper than the bound. -/
def captureNodeWithin (s : ExpressionSet) (bound : Nat) (node : Node)
    (text : Text) (start stop : Nat) : Answer :=
  let limit := min stop text.size
  node.matchWith (s.captureWithin text limit bound) text limit bound start

/-- Matches a tree whose references lead into a set. -/
def captureNode (s : ExpressionSet) (node : Node) (text : Text)
    (start stop : Nat) : Answer :=
  s.captureNodeWithin (s.budget text) node text start stop

end ExpressionSet

end Munch
