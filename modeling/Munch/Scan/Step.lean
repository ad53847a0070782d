/-
Scanning one token. Layout that is not kept is skipped; layout that is
kept is the token. Otherwise every registered token is tried at the
place reached, and the longest match wins. Of matches of one length the
token registered first wins, and a match of no length never does.

As matching does, a scan takes a bound on the depth of calls. `scanNext`
scans under the matcher's budget, which is enough where primitives stay
in range and no expression calls itself without moving; `scanNextWithin`
scans under any bound.
-/
import Munch.Expr.Capture
import Munch.Scan.Layout

namespace Munch

/-- What a scan found: where the token starts, where the scan goes on,
and the token. Where nothing matches there is no next place, and the
token is the sentinel `reserved`. -/
structure Step where
  start : Nat
  next : Option Nat
  token : Token

/-- Where a match by a matcher ends, from one offset up to another, its
expression among those of a set, with calls nested no deeper than the
bound. -/
def Matcher.captureWithin (m : Matcher) (expressions : ExpressionSet)
    (bound : Nat) (text : Text) (start stop : Nat) : Answer :=
  match m with
  | .expression index =>
      expressions.captureBounded bound index text start stop
  | .primitive scan => .ok (scan text start stop)
  | .none => .ok Option.none

/-- Where a token that starts at an offset ends, with calls nested no
deeper than the bound. -/
def Token.captureWithin (t : Token) (expressions : ExpressionSet)
    (bound : Nat) (text : Text) (start : Nat) : Answer :=
  t.matcher.captureWithin expressions bound text start text.size

/-- Where a token that starts at an offset ends. -/
def Token.capture (t : Token) (expressions : ExpressionSet) (text : Text)
    (start : Nat) : Answer :=
  t.captureWithin expressions (expressions.budget text) text start

/-- The token that matches furthest, with the end of its match. Only a
match beyond `reach` counts; `best` is the match that got there. -/
def longest (answer : Token → Answer) :
    Nat → Option (Nat × Token) → List Token →
      Except Error (Option (Nat × Token))
  | _, best, [] => .ok best
  | reach, best, t :: rest =>
      match answer t with
      | .error e => .error e
      | .ok none => longest answer reach best rest
      | .ok (some stop) =>
          if reach < stop then longest answer stop (some (stop, t)) rest
          else longest answer reach best rest

namespace Dictionary

/-- The step at a place without layout, with calls nested no deeper than
the bound. -/
def scanTokenWithin (d : Dictionary) (bound : Nat) (text : Text)
    (position : Nat) : Except Error Step :=
  let answer := fun t : Token =>
    t.captureWithin d.expressions bound text position
  match longest answer position none d.tokens.toList with
  | .error e => .error e
  | .ok none => .ok ⟨position, none, Builtin.reserved.token⟩
  | .ok (some (stop, t)) => .ok ⟨position, some stop, t⟩

/-- The step at a place without layout. -/
def scanToken (d : Dictionary) (text : Text) (position : Nat) :
    Except Error Step :=
  d.scanTokenWithin (d.expressions.budget text) text position

/-- Scans one token from an offset, which has to be on a character
boundary or past the end of the text, with calls nested no deeper than
the bound. -/
def scanNextWithin (d : Dictionary) (bound : Nat) (text : Text)
    (start : Nat) : Except Error Step :=
  if d.state = .linked then
    match text.after? (min start text.size) with
    | none => .error (.notCharBoundary start)
    | some rest =>
        match skipLayout d.retention (min start text.size) rest with
        | .unit b start stop => .ok ⟨start, some stop, b.token⟩
        | .text position [] =>
            .ok ⟨position, some position, Builtin.finished.token⟩
        | .text position (_ :: _) => d.scanTokenWithin bound text position
  else .error .notLinked

/-- Scans one token from an offset, which has to be on a character
boundary or past the end of the text. -/
def scanNext (d : Dictionary) (text : Text) (start : Nat) :
    Except Error Step :=
  d.scanNextWithin (d.expressions.budget text) text start

/-- Steps one after another, up to the first that is the end of the
text, finds nothing or fails; that one is the last of the list. -/
def scanFrom (d : Dictionary) (text : Text) :
    Nat → Nat → List (Except Error Step)
  | 0, _ => [.error .endless]
  | bound + 1, start =>
      match d.scanNext text start with
      | .error e => [.error e]
      | .ok step =>
          match step.next with
          | none => [.ok step]
          | some next =>
              if step.token.builtin? = some .finished then [.ok step]
              else .ok step :: d.scanFrom text bound next

/-- The steps of a scan from an offset. Each but the last moves on by a
byte at least, so the size of the text bounds their number. -/
def scanAll (d : Dictionary) (text : Text) (start : Nat) :
    List (Except Error Step) :=
  d.scanFrom text (text.size + 2) start

end Dictionary

end Munch
