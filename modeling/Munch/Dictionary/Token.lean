/-
Tokens: a key, a code, and what matches the token in a text.
-/
import Munch.Expr.Link

namespace Munch

/-- What matches a token. -/
inductive Matcher where
  /-- The expression with this index. -/
  | expression (index : Nat)
  | primitive (scan : Primitive)
  /-- Nothing: the token is never found by its own rule. -/
  | none

/-- What a reference to a token with this matcher finds. -/
def Matcher.lookup : Matcher → Lookup
  | expression index => .found (.expression index)
  | primitive scan => .found (.primitive scan)
  | none => .notScannable

/-- A token. Codes of registered tokens are not negative. -/
structure Token where
  key : String
  code : Int
  matcher : Matcher
  /-- Whether a scan stores the text that the token matched. -/
  keepText : Bool

/-- The built-in that a token is, if its code says so. -/
def Token.builtin? (t : Token) : Option Builtin :=
  if t.code < 0 then Builtin.ofCode? t.code else none

/-- A built-in as a token. -/
def Builtin.token (b : Builtin) : Token where
  key := b.key
  code := b.code
  matcher :=
    match b.charClass? with
    | some k => .primitive k.scan
    | none => .none
  keepText := false

/-- The token of a built-in tells which one it is. -/
@[simp] theorem Builtin.builtin?_token (b : Builtin) :
    b.token.builtin? = some b := by
  simp [Token.builtin?, token, b.code_neg]

/-- What a token is to match with. -/
inductive TokenBody where
  | rule (text : Text)
  | primitive (scan : Primitive)
  /-- Nothing. -/
  | empty

/-- A token to be registered. -/
structure TokenDef where
  key : String
  body : TokenBody
  keepText : Bool := false

end Munch
