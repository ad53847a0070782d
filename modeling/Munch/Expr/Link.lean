/-
Linking gives every reference of a set its target. It is one pass over
the references, expression by expression and left to right, that asks a
lookup for each key; references to the expression's own key were given
their target with the rule and are passed over. At the first key that
cannot be resolved the pass stops. What was linked before stays linked,
and what comes after keeps the target it had.

The lookup may keep a state of its own from one question to the next.
-/
import Munch.Error
import Munch.Expr.Basic

namespace Munch

/-- What a lookup answers for a key. -/
inductive Lookup where
  | found (target : Target)
  /-- The key is known, but there is nothing to match with. -/
  | notScannable
  | missing

/-- The lookup of the built-in character classes. -/
def Lookup.builtin (key : String) : Lookup :=
  match Builtin.ofKey? key with
  | none => missing
  | some b =>
      match b.charClass? with
      | some k => found (.primitive k.scan)
      | none => notScannable

/-- A reference that was given its target. -/
structure Resolution where
  /-- The key of the expression that holds the reference. -/
  expression : String
  reference : String
  target : Target

/-- How far a pass has come. -/
structure Linking (σ : Type) where
  /-- The state of the lookup. -/
  state : σ
  /-- The references resolved so far, the last one first. -/
  resolved : List Resolution
  failure : Option Error

section Pass

variable {σ : Type} (lookup : String → σ → Lookup × σ)

/-- The pass over one reference of the expression `owner`. -/
def linkReference (owner key : String) (target : Option Target)
    (l : Linking σ) : Node × Linking σ :=
  if l.failure.isSome ∨ key = owner then (.reference key target, l)
  else
    match lookup key l.state with
    | (.found new, state) =>
        (.reference key (some new),
          { l with state, resolved := ⟨owner, key, new⟩ :: l.resolved })
    | (.notScannable, state) =>
        (.reference key target,
          { l with state, failure := some (.noMatcher owner key) })
    | (.missing, state) =>
        (.reference key target,
          { l with state, failure := some (.unresolvedReference owner key) })

mutual

/-- The pass over a tree of the expression `owner`. -/
def Node.link (owner : String) : Node → Linking σ → Node × Linking σ
  | .literal text, l => (.literal text, l)
  | .reference key target, l => linkReference lookup owner key target l
  | .sequence elements, l =>
      let (elements, l) := linkElements owner elements l
      (.sequence elements, l)
  | .alternation choices, l =>
      let (choices, l) := linkNodes owner choices l
      (.alternation choices, l)

/-- The pass over the items of a sequence. -/
def linkElements (owner : String) :
    List Element → Linking σ → List Element × Linking σ
  | [], l => ([], l)
  | ⟨node, starred⟩ :: rest, l =>
      let (node, l) := node.link owner l
      let (rest, l) := linkElements owner rest l
      (⟨node, starred⟩ :: rest, l)

/-- The pass over the alternatives of a choice. -/
def linkNodes (owner : String) : List Node → Linking σ → List Node × Linking σ
  | [], l => ([], l)
  | node :: rest, l =>
      let (node, l) := node.link owner l
      let (rest, l) := linkNodes owner rest l
      (node :: rest, l)

end

/-- The pass over expressions. -/
def linkExpressions :
    List Expression → Linking σ → List Expression × Linking σ
  | [], l => ([], l)
  | ⟨key, root⟩ :: rest, l =>
      let (root, l) := root.link lookup key l
      let (rest, l) := linkExpressions rest l
      (⟨key, root⟩ :: rest, l)

end Pass

/-- What a pass over a set leaves: the set, the state of the lookup, the
references resolved, in order, and why it stopped early, if it did. -/
structure Linked (σ : Type) where
  set : ExpressionSet
  state : σ
  resolutions : List Resolution
  failure : Option Error

namespace Linked

/-- The number of references resolved, unless the pass stopped. -/
def outcome {σ : Type} (l : Linked σ) : Except Error Nat :=
  match l.failure with
  | some e => .error e
  | none => .ok l.resolutions.length

end Linked

namespace ExpressionSet

/-- Links a set through a lookup that starts from a state. -/
def linkWith {σ : Type} (s : ExpressionSet)
    (lookup : String → σ → Lookup × σ) (state : σ) : Linked σ :=
  let (expressions, l) :=
    linkExpressions lookup s.expressions.toList ⟨state, [], none⟩
  { set := { s with expressions := expressions.toArray }
    state := l.state
    resolutions := l.resolved.reverse
    failure := l.failure }

/-- Links a set through a lookup without a state. -/
def link (s : ExpressionSet) (lookup : String → Lookup) : Linked Unit :=
  s.linkWith (fun key state => (lookup key, state)) ()

/-- A set's own keys, and the character classes for all other keys. -/
def lookupLocal (s : ExpressionSet) (key : String) : Lookup :=
  match s.find? key with
  | some index => .found (.expression index)
  | none => .builtin key

/-- Links a set against itself. -/
def linkLocal (s : ExpressionSet) : Linked Unit := s.link s.lookupLocal

end ExpressionSet

end Munch
