/-
Compiled rules: trees of literals, references, sequences and ordered
choices, and the set in which they find each other by index.

References carry their target beside the key, so rules that name each
other, or themselves, are plain data. A reference without a target has
not been linked yet.
-/
import Std.Data.HashMap
import Munch.Builtin

namespace Munch

-- ============================================================== trees

/-- What a linked reference leads to. -/
inductive Target where
  /-- The expression with this index. -/
  | expression (index : Nat)
  | primitive (scan : Primitive)

mutual

/-- A rule as a tree. -/
inductive Node where
  /-- The characters between two quotes, as they were written. -/
  | literal (text : Text)
  | reference (key : String) (target : Option Target)
  | sequence (elements : List Element)
  /-- Ordered choice. -/
  | alternation (choices : List Node)

/-- One item of a sequence; a starred one may occur any number of
times. -/
structure Element where
  node : Node
  starred : Bool

end

mutual

/-- The nodes of a tree, children before their parent. -/
def Node.postorder : Node → List Node
  | .literal text => [.literal text]
  | .reference key target => [.reference key target]
  | .sequence elements =>
      postorderElements elements ++ [.sequence elements]
  | .alternation choices => postorderNodes choices ++ [.alternation choices]

/-- The nodes of a sequence's elements. -/
def postorderElements : List Element → List Node
  | [] => []
  | ⟨node, _⟩ :: rest => node.postorder ++ postorderElements rest

/-- The nodes of a choice's alternatives. -/
def postorderNodes : List Node → List Node
  | [] => []
  | node :: rest => node.postorder ++ postorderNodes rest

end

-- ==================================================== expression sets

/-- A rule with its name. -/
structure Expression where
  key : String
  root : Node

/-- Expressions in the order of their definition, each found by its
index or by its key. -/
structure ExpressionSet where
  expressions : Array Expression
  /-- The index of each key. -/
  indices : Std.HashMap String Nat

namespace ExpressionSet

/-- No expressions. -/
def empty : ExpressionSet := ⟨#[], ∅⟩

def size (s : ExpressionSet) : Nat := s.expressions.size

def isEmpty (s : ExpressionSet) : Bool := s.expressions.isEmpty

/-- The expression with an index. -/
def get? (s : ExpressionSet) (index : Nat) : Option Expression :=
  s.expressions[index]?

/-- The index of a key. -/
def find? (s : ExpressionSet) (key : String) : Option Nat :=
  s.indices[key]?

/-- One more expression, under the next index. -/
def push (s : ExpressionSet) (e : Expression) : ExpressionSet :=
  ⟨s.expressions.push e, s.indices.insert e.key s.size⟩

end ExpressionSet

end Munch
