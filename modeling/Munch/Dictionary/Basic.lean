/-
The dictionary: registered tokens in order, their expressions, and the
built-ins that stand beside them.

The code of a token is the number of tokens registered before it. A
registration changes the dictionary only if it succeeds; the references
of its rule wait for `link`, which may succeed or stop, and until it has
succeeded the dictionary cannot scan.
-/
import Munch.Dictionary.RuleLine
import Munch.Dictionary.Token
import Munch.Expr.Definition

namespace Munch

/-- Which layout is reported as tokens; the rest is skipped. -/
structure Retention where
  whitespace : Bool := false
  tabs : Bool := false
  newlines : Bool := false
deriving DecidableEq

/-- Whether a built-in is reported. Only layout ever is. -/
def Retention.keeps (r : Retention) : Builtin → Bool
  | .whitespace => r.whitespace
  | .tab => r.tabs
  | .newline => r.newlines
  | _ => false

/-- Whether the references of a dictionary are known to be linked. -/
inductive LinkState where
  /-- A token was registered since the last link. -/
  | building
  | linked
deriving DecidableEq

/-- Registered tokens and their expressions. -/
structure Dictionary where
  tokens : Array Token
  /-- The index of each registered key. -/
  indices : Std.HashMap String Nat
  expressions : ExpressionSet
  retention : Retention
  state : LinkState

namespace Dictionary

/-- No tokens but the built-ins. -/
def empty : Dictionary := ⟨#[], ∅, .empty, {}, .building⟩

def size (d : Dictionary) : Nat := d.tokens.size

def isEmpty (d : Dictionary) : Bool := d.tokens.isEmpty

def isLinked (d : Dictionary) : Bool := d.state = .linked

def withRetention (d : Dictionary) (retention : Retention) : Dictionary :=
  { d with retention }

-- ======================================================= registration

/-- What a token with this key and body matches with, and the expression
that its rule makes, if it has one. -/
def compile (d : Dictionary) (key : String) :
    TokenBody → Except Error (Matcher × Option Expression)
  | .empty => .ok (.none, none)
  | .primitive scan => .ok (.primitive scan, none)
  | .rule text =>
      match d.expressions.compile key text with
      | .error e => .error e
      | .ok e => .ok (.expression d.expressions.size, some e)

/-- Whether a token can be added: its key is new, a code is left for it,
and its rule can be read. -/
def accept (d : Dictionary) (t : TokenDef) :
    Except Error (Matcher × Option Expression) :=
  if d.indices.contains t.key ∨ (Builtin.ofKey? t.key).isSome then
    .error (.duplicateKey t.key)
  else if d.size > Error.largestCode then .error .tooManyTokens
  else d.compile t.key t.body

/-- One more token, under the next code. -/
def push (d : Dictionary) (t : TokenDef) (matcher : Matcher)
    (expression : Option Expression) : Dictionary :=
  let code := d.size
  { d with
    tokens := d.tokens.push ⟨t.key, code, matcher, t.keepText⟩
    indices := d.indices.insert t.key code
    expressions :=
      match expression with
      | some e => d.expressions.push e
      | none => d.expressions
    state := .building }

/-- Adds a token; answers its index. -/
def register (d : Dictionary) (t : TokenDef) : Dictionary × Except Error Nat :=
  match d.accept t with
  | .error e => (d, .error e)
  | .ok (matcher, expression) =>
      let index := d.size
      (d.push t matcher expression, .ok index)

/-- Adds a token for each line, skipping blank ones, up to the first
line or rule that cannot be read; answers how many were added. The next
line has the given number, and `count` tokens came before it. -/
def importFrom (d : Dictionary) (number count : Nat) :
    List Text → Dictionary × Except Error Nat
  | [] => (d, .ok count)
  | line :: rest =>
      match RuleLine.parse line with
      | .error fault => (d, .error (.malformedLine number line fault))
      | .ok none => d.importFrom (number + 1) count rest
      | .ok (some l) =>
          match d.register ⟨l.key, .rule l.rule, l.keepText⟩ with
          | (d, .error e) => (d, .error e)
          | (d, .ok _) => d.importFrom (number + 1) (count + 1) rest

/-- Adds a token for each line of a rule file. -/
def importLines (d : Dictionary) (lines : List Text) :
    Dictionary × Except Error Nat :=
  d.importFrom 1 0 lines

-- ============================================================ linking

/-- What a reference finds: the token of that key, or else the character
class. -/
def lookup (d : Dictionary) (key : String) : Lookup :=
  match d.indices[key]? with
  | none => .builtin key
  | some index =>
      match d.tokens[index]? with
      | some t => t.matcher.lookup
      | none => .missing

/-- The pass over the references of all rules. -/
def linkPass (d : Dictionary) : Linked Unit := d.expressions.link d.lookup

/-- Links the references of all rules. A pass that stops leaves what it
had linked, and the state as it was. -/
def link (d : Dictionary) : Dictionary × Except Error Unit :=
  let pass := d.linkPass
  match pass.failure with
  | some e => ({ d with expressions := pass.set }, .error e)
  | none => ({ d with expressions := pass.set, state := .linked }, .ok ())

/-- The linked dictionary of a rule file. -/
def ofRules (lines : List Text) : Except Error Dictionary :=
  match empty.importLines lines with
  | (_, .error e) => .error e
  | (d, .ok _) =>
      match d.link with
      | (_, .error e) => .error e
      | (d, .ok _) => .ok d

-- ============================================================ look-up

/-- The token with an index. -/
def token (d : Dictionary) (index : Nat) : Except Error Token :=
  match d.tokens[index]? with
  | some t => .ok t
  | none => .error (.noSuchToken index)

/-- The token with a key, built-ins included. -/
def byKey (d : Dictionary) (key : String) : Except Error Token :=
  match d.indices[key]? with
  | some index => d.token index
  | none =>
      match Builtin.ofKey? key with
      | some b => .ok b.token
      | none => .error (.unknownKey key)

/-- The token with a code, built-ins included. -/
def byCode (d : Dictionary) (code : Int) : Except Error Token :=
  let found :=
    if code < 0 then (Builtin.ofCode? code).map Builtin.token
    else d.tokens[code.toNat]?
  match found with
  | some t => .ok t
  | none => .error (.unknownCode code)

/-- The expression behind the token with a key, if it has one. -/
def expression? (d : Dictionary) (key : String) :
    Except Error (Option Expression) :=
  match d.byKey key with
  | .error e => .error e
  | .ok t =>
      match t.matcher with
      | .expression index => .ok (d.expressions.get? index)
      | _ => .ok none

end Dictionary

end Munch
