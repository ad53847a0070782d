/-
Expressions as an indented outline: one line per node, children one
level below their parent, a starred item below a line of its own. The
outline is a list of lines first and a text last, so that what a line
says and how deep it stands are told apart.
-/
import Munch.Expr.Basic
import Munch.Text.Quoted

namespace Munch

/-- A line of an outline and how deep it stands. -/
structure OutlineLine where
  depth : Nat
  label : Text

/-- The line as written: two spaces per level, and a line end. -/
def OutlineLine.render (l : OutlineLine) : Text :=
  List.replicate (2 * l.depth) ' ' ++ l.label ++ ['\n']

/-- The line of a reference: its key and what it leads to. -/
def referenceLabel (s : ExpressionSet) (key : String) (target : Option Target) :
    Text :=
  let leadsTo : String :=
    match target with
    | some (.expression index) =>
        match s.get? index with
        | some e => " -> " ++ e.key
        | none => s!" -> ExprHandle({index})"
    | some (.primitive _) => " -> primitive"
    | none => ", unresolved"
  ("Reference(" ++ key ++ leadsTo ++ ")").toList

section Lines

variable (s : ExpressionSet)

mutual

/-- The outline of a tree at a depth. -/
def Node.outline : Nat → Node → List OutlineLine
  | depth, .literal text =>
      [⟨depth, "Literal(".toList ++ text.quoted '"' ++ [')']⟩]
  | depth, .reference key target => [⟨depth, referenceLabel s key target⟩]
  | depth, .sequence elements =>
      ⟨depth, "Sequence".toList⟩ :: outlineElements (depth + 1) elements
  | depth, .alternation choices =>
      ⟨depth, "Alternation".toList⟩ :: outlineChoices (depth + 1) choices

/-- The outlines of a sequence's items. -/
def outlineElements : Nat → List Element → List OutlineLine
  | _, [] => []
  | depth, ⟨node, true⟩ :: rest =>
      ⟨depth, "ZeroOrMore".toList⟩ :: Node.outline (depth + 1) node ++
        outlineElements depth rest
  | depth, ⟨node, false⟩ :: rest =>
      Node.outline depth node ++ outlineElements depth rest

/-- The outlines of a choice's alternatives. -/
def outlineChoices : Nat → List Node → List OutlineLine
  | _, [] => []
  | depth, node :: rest => Node.outline depth node ++ outlineChoices depth rest

end

/-- The outline of an expression: its key, and its tree below. -/
def Expression.outline (e : Expression) : List OutlineLine :=
  ⟨0, (e.key ++ " =").toList⟩ :: e.root.outline s 1

end Lines

/-- A tree's outline as a text. -/
def Node.render (s : ExpressionSet) (node : Node) : Text :=
  (node.outline s 0).flatMap OutlineLine.render

/-- The outlines of all expressions of a set, as a text. -/
def ExpressionSet.render (s : ExpressionSet) : Text :=
  (s.expressions.toList.flatMap (Expression.outline s)).flatMap
    OutlineLine.render

end Munch
