/-
From the text of a rule to its tree.

A rule is read in two passes. The first cuts it at the bars outside
literals and groups; if there are any, each piece is a rule of its own.
Otherwise the second reads the items one after another, and what stands
in a group is again a rule of its own. The passes recur on ever shorter
texts, so the length of the rule bounds their depth.

Offsets in faults always count from the beginning of the outermost rule:
`offset` says where the text at hand begins in it.
-/
import Munch.Error
import Munch.Expr.Basic
import Munch.Rule.Place

namespace Munch.Rule

/-- The expression that a rule belongs to. Where the rule names it, the
reference leads back to it at once. -/
structure Owner where
  key : String
  index : Nat

/-- The result of reading a rule, or a part of one. -/
abbrev Parsed (α : Type) := Except SpannedFault α

/-- A fault between two offsets of the text that begins at `offset`. -/
def faultAt (fault : RuleFault) (offset start stop : Nat) : SpannedFault :=
  ⟨fault, .between (offset + start) (offset + stop)⟩

-- ======================================================= alternatives

/-- The first piece of a rule, up to a top-level bar, and the later
ones, each with the offset at which it begins. The walk is at offset `i`
and at the given place. -/
def cut (offset : Nat) : Place → Nat → Text → Parsed (Text × List (Nat × Text))
  | _, _, [] => .ok ([], [])
  | place, i, c :: rest =>
      if place.IsTop ∧ c = ')' then
        .error (faultAt .unbalancedGroup offset i (i + 1))
      else
        match cut offset (place.next c) (i + c.utf8Size) rest with
        | .error fault => .error fault
        | .ok (piece, later) =>
            if place.IsTop ∧ c = '|' then .ok ([], (i + 1, piece) :: later)
            else .ok (c :: piece, later)

-- ============================================================== items

/-- How far the second pass has come. Lists that grow at their end are
kept with the last entry first. -/
structure Pass where
  place : Place
  elements : List Element
  /-- The word being read. -/
  word : Text
  /-- Where the contents of the last top-level literal or group begin. -/
  opened : Nat
  /-- Those contents as far as they have been read. -/
  held : Text

namespace Pass

/-- Before the first character. -/
def start : Pass := ⟨.origin, [], [], 0, []⟩

/-- One more item. -/
def push (p : Pass) (node : Node) : Pass :=
  { p with elements := ⟨node, false⟩ :: p.elements }

/-- The end of a word, if one was being read. -/
def endWord (owner : Owner) (p : Pass) : Pass :=
  if p.word = [] then p
  else
    let key := String.ofList p.word.reverse
    let target := if key = owner.key then some (.expression owner.index)
      else none
    { p.push (.reference key target) with word := [] }

/-- A character that belongs to the contents of a literal or group. -/
def hold (p : Pass) (c : Char) : Pass := { p with held := c :: p.held }

/-- The opening of a top-level literal or group whose contents begin at
offset `i`. -/
def openAt (p : Pass) (i : Nat) : Pass := { p with opened := i, held := [] }

/-- A star marks the last item. -/
def star (p : Pass) (offset i : Nat) : Parsed Pass :=
  match p.elements with
  | [] => .error (faultAt .danglingStar offset i (i + 1))
  | last :: before =>
      .ok { p with elements := { last with starred := true } :: before }

/-- Whether a character ends the word before it. -/
def endsWord (c : Char) : Bool :=
  isBlank c || c = '*' || c = '"' || c = '(' || c = ')'

/-- A character outside literals and groups. -/
def stepTop (owner : Owner) (offset i : Nat) (p : Pass) (c : Char) :
    Parsed Pass :=
  if endsWord c then
    let p := p.endWord owner
    if c = '*' then p.star offset i
    else if c = ')' then .error (faultAt .unbalancedGroup offset i (i + 1))
    else if c = '"' ∨ c = '(' then .ok (p.openAt (i + 1))
    else .ok p
  else .ok { p with word := c :: p.word }

/-- The end of a top-level group at offset `i`. The contents are read as
a rule, less the white space around them. -/
def closeGroup (inner : Nat → Text → Parsed Node) (offset i : Nat) (p : Pass) :
    Parsed Pass :=
  let contents : Text := p.held.reverse
  if contents.trim = [] then
    .error (faultAt .emptyRule offset (p.opened - 1) (i + 1))
  else
    match inner (offset + p.opened + contents.indent) contents.trim with
    | .error fault => .error fault
    | .ok node => .ok (p.push node)

/-- One character at offset `i`, but for the move to the next place. -/
def step (owner : Owner) (inner : Nat → Text → Parsed Node) (offset i : Nat)
    (p : Pass) (c : Char) : Parsed Pass :=
  match p.place.quote, p.place.depth with
  | .outside, 0 => p.stepTop owner offset i c
  | .outside, 1 =>
      if c = ')' then p.closeGroup inner offset i else .ok (p.hold c)
  | .inside, 0 =>
      if c = '"' then .ok (p.push (.literal p.held.reverse))
      else .ok (p.hold c)
  | _, _ => .ok (p.hold c)

/-- The second pass over a text that it has reached at offset `i`. -/
def run (owner : Owner) (inner : Nat → Text → Parsed Node) (offset : Nat) :
    Nat → Pass → Text → Parsed Pass
  | _, p, [] => .ok p
  | i, p, c :: rest =>
      match p.step owner inner offset i c with
      | .error fault => .error fault
      | .ok q =>
          run owner inner offset (i + c.utf8Size)
            { q with place := p.place.next c } rest

/-- The tree of the items read, at the end of a text of the given
size. A single item without a star stands for itself. -/
def finish (owner : Owner) (offset size : Nat) (p : Pass) : Parsed Node :=
  if p.place.quote ≠ .outside then
    .error (faultAt .unterminatedLiteral offset (p.opened - 1) size)
  else if p.place.depth ≠ 0 then
    .error (faultAt .unbalancedGroup offset (p.opened - 1) size)
  else
    match (p.endWord owner).elements.reverse with
    | [] => .error (faultAt .emptyRule offset 0 size)
    | [⟨node, false⟩] => .ok node
    | elements => .ok (.sequence elements)

end Pass

/-- The items of a rule without top-level bars. -/
def items (owner : Owner) (inner : Nat → Text → Parsed Node) (offset : Nat)
    (rule : Text) : Parsed Node :=
  match Pass.run owner inner offset 0 .start rule with
  | .error fault => .error fault
  | .ok p => p.finish owner offset rule.size

-- ============================================================== rules

/-- The alternatives of a rule, each read less the white space around
it. -/
def alternatives (inner : Nat → Text → Parsed Node) (offset : Nat) :
    List (Nat × Text) → Parsed (List Node)
  | [] => .ok []
  | (start, piece) :: rest =>
      let start := start + piece.indent
      if piece.trim = [] then
        .error (faultAt .emptyRule offset start start)
      else
        match inner (offset + start) piece.trim with
        | .error fault => .error fault
        | .ok node =>
            match alternatives inner offset rest with
            | .error fault => .error fault
            | .ok nodes => .ok (node :: nodes)

/-- Reads a rule that begins at `offset` of the outermost one. Pieces
and groups are shorter than the rule they stand in, so a bound no less
than the length of the text is never used up before the text is. -/
def parseAt (owner : Owner) : Nat → Nat → Text → Parsed Node
  | 0, offset, _ => .error (faultAt .emptyRule offset 0 0)
  | bound + 1, offset, rule =>
      match cut offset .origin 0 rule with
      | .error fault => .error fault
      | .ok (_, []) => items owner (parseAt owner bound) offset rule
      | .ok (piece, later) =>
          match alternatives (parseAt owner bound) offset
            ((0, piece) :: later) with
          | .error fault => .error fault
          | .ok nodes => .ok (.alternation nodes)

/-- Reads the rule of an expression. -/
def parse (owner : Owner) (rule : Text) : Parsed Node :=
  parseAt owner rule.length 0 rule

end Munch.Rule
