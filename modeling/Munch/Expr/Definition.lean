/-
How an expression comes into a set: its key is new, and its rule can be
read. A definition that fails leaves the set as it was, so a rule that
cannot be read does not take its key.
-/
import Munch.Rule.Parser

namespace Munch.ExpressionSet

/-- The expression that a key and a rule would make in a set, as the
next one. Where the rule names the key, the reference is linked. -/
def compile (s : ExpressionSet) (key : String) (rule : Text) :
    Except Error Expression :=
  if s.indices.contains key then .error (.duplicateKey key)
  else
    match Rule.parse ⟨key, s.size⟩ rule with
    | .error fault => .error (.rule key fault)
    | .ok root => .ok ⟨key, root⟩

/-- Adds an expression; answers its index. -/
def define (s : ExpressionSet) (key : String) (rule : Text) :
    ExpressionSet × Except Error Nat :=
  match s.compile key rule with
  | .error e => (s, .error e)
  | .ok e =>
      let index := s.size
      (s.push e, .ok index)

end Munch.ExpressionSet
