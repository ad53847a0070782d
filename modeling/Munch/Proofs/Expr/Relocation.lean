/-
Matching in a set whose expressions stand elsewhere.

A relocation gives expressions other indices and puts primitives in the
place of others (`Target.relocate`). A tree with relocated targets
matches in the other set as it did before, also up to another limit, if
primitives and literals answer alike wherever they are asked
(`captureWithin_relocate`). Where that is, is told by a property `Good`
of positions that matching never leaves; every position is good where the
limit and the primitives stay the same.

As matching does, the proof takes the trees one call at a time: trees
match alike where their calls are answered alike
(`Node.matchWith_relocate`), and calls are trees under a smaller bound.
-/
import Munch.Expr.Capture
import Munch.Proofs.Expr.Retarget

namespace Munch

/-- A target in another set: its expression has another index there, its
primitive is replaced. -/
def Target.relocate (place : Nat → Nat) (replace : Primitive → Primitive) :
    Target → Target
  | .expression index => .expression (place index)
  | .primitive scan => .primitive (replace scan)

/-- The relocation of all targets of a tree. -/
def relocation (place : Nat → Nat) (replace : Primitive → Primitive)
    (_ : String) (target : Option Target) : Option Target :=
  target.map (Target.relocate place replace)

variable {place : Nat → Nat} {replace : Primitive → Primitive}

@[simp] theorem relocation_none (key : String) :
    relocation place replace key none = none := rfl

@[simp] theorem relocation_expression (key : String) (index : Nat) :
    relocation place replace key (some (.expression index))
      = some (.expression (place index)) := rfl

@[simp] theorem relocation_primitive (key : String) (scan : Primitive) :
    relocation place replace key (some (.primitive scan))
      = some (.primitive (replace scan)) := rfl

/-- A target that leads to an expression led to one before. -/
theorem relocation_eq_expression {key : String} {target : Option Target}
    {index : Nat} :
    relocation place replace key target = some (.expression index)
      ↔ ∃ before, target = some (.expression before)
        ∧ place before = index := by
  match target with
  | none => simp
  | some (.expression before) => simp
  | some (.primitive scan) => simp

/-- A target that is a primitive was one before. -/
theorem relocation_eq_primitive {key : String} {target : Option Target}
    {scan : Primitive} :
    relocation place replace key target = some (.primitive scan)
      ↔ ∃ before, target = some (.primitive before)
        ∧ replace before = scan := by
  match target with
  | none => simp
  | some (.expression before) => simp
  | some (.primitive before) => simp

-- ================================================================== trees

section Matching

variable {call call' : Nat → Nat → Answer} {text : Text}
  {limit limit' bound : Nat} {Good : Nat → Prop}
  {P : String → Option Target → Prop}

/-- At good positions, literals and what references with the property `P`
lead to are answered alike on both sides of a relocation, and matching
leads from one good position to another. -/
structure Transport (place : Nat → Nat) (replace : Primitive → Primitive)
    (call call' : Nat → Nat → Answer) (text : Text) (limit limit' bound : Nat)
    (Good : Nat → Prop) (P : String → Option Target → Prop) : Prop where
  literal : ∀ w p, Good p → literalAt text limit' w p = literalAt text limit w p
  expression : ∀ key index, P key (some (.expression index)) →
    ∀ p, Good p → call' (place index) p = call index p
  primitive : ∀ key scan, P key (some (.primitive scan)) →
    ∀ p, Good p → replace scan text p limit' = scan text p limit
  moves : ∀ node : Node, node.References P → ∀ p q, Good p →
    node.matchWith call text limit bound p = .ok (some q) → Good q

/-- Attempts that answer alike at good positions repeat alike, and end at
a good position. -/
theorem repeatFrom_congr {attempt attempt' : Nat → Answer}
    (hsame : ∀ p, Good p → attempt' p = attempt p)
    (hmoves : ∀ p q, Good p → attempt p = .ok (some q) → Good q) :
    ∀ rounds p, Good p → repeatFrom attempt' rounds p
      = repeatFrom attempt rounds p
      ∧ ∀ stop, repeatFrom attempt rounds p = .ok stop → Good stop := by
  intro rounds
  induction rounds with
  | zero =>
      intro p _
      exact ⟨rfl, fun stop h => nomatch h⟩
  | succ rounds ih =>
      intro p hp
      unfold repeatFrom
      rw [hsame p hp]
      cases ha : attempt p with
      | error e => exact ⟨rfl, fun stop h => nomatch h⟩
      | ok answer =>
          cases answer with
          | none =>
              refine ⟨rfl, fun stop h => ?_⟩
              obtain rfl := Except.ok.inj h
              exact hp
          | some next =>
              by_cases hnext : next = p
              · simp only [hnext, if_true, true_and]
                intro stop h
                obtain rfl := Except.ok.inj h
                exact hp
              · simp only [if_neg hnext]
                exact ih next (hmoves p next hp ha)

mutual

/-- A relocated tree matches as the tree does. -/
theorem Node.matchWith_relocate
    (h : Transport place replace call call' text limit limit' bound Good P) :
    ∀ (node : Node) (p : Nat), node.References P → Good p →
      (node.retarget (relocation place replace)).matchWith call' text
        limit' bound p
        = node.matchWith call text limit bound p
  | .literal w, p, _, hp => by
      rw [Node.retarget, Node.matchWith, Node.matchWith, h.literal w p hp]
  | .reference key (some (.expression index)), p, hnode, hp => by
      rw [Node.retarget, relocation_expression, Node.matchWith, Node.matchWith]
      exact h.expression key index (Node.references_reference.1 hnode) p hp
  | .reference key (some (.primitive scan)), p, hnode, hp => by
      rw [Node.retarget, relocation_primitive, Node.matchWith, Node.matchWith,
        h.primitive key scan (Node.references_reference.1 hnode) p hp]
  | .reference key none, p, _, _ => by
      rw [Node.retarget, relocation_none, Node.matchWith, Node.matchWith]
  | .sequence elements, p, hnode, hp => by
      rw [Node.retarget, Node.matchWith, Node.matchWith]
      exact matchElements_relocate h elements p
        (Node.references_sequence.1 hnode) hp
  | .alternation choices, p, hnode, hp => by
      rw [Node.retarget, Node.matchWith, Node.matchWith]
      exact matchChoices_relocate h choices p
        (Node.references_alternation.1 hnode) hp

private theorem matchElements_relocate
    (h : Transport place replace call call' text limit limit' bound Good P) :
    ∀ (elements : List Element) (p : Nat),
      (∀ e ∈ elements, e.node.References P) → Good p →
      matchElements call' text limit' bound
          (retargetElements (relocation place replace) elements) p
        = matchElements call text limit bound elements p
  | [], p, _, _ => by rw [retargetElements, matchElements, matchElements]
  | ⟨node, true⟩ :: rest, p, hnodes, hp => by
      obtain ⟨hnode, hrest⟩ := List.forall_mem_cons.1 hnodes
      obtain ⟨hsame, hstop⟩ := repeatFrom_congr
        (fun q hq => Node.matchWith_relocate h node q hnode hq)
        (fun q r hq hr => h.moves node hnode q r hq hr) bound p hp
      rw [retargetElements, matchElements, matchElements, hsame]
      cases hrepeat : repeatFrom (node.matchWith call text limit bound)
        bound p with
      | error e => rfl
      | ok next =>
          exact matchElements_relocate h rest next hrest (hstop next hrepeat)
  | ⟨node, false⟩ :: rest, p, hnodes, hp => by
      obtain ⟨hnode, hrest⟩ := List.forall_mem_cons.1 hnodes
      rw [retargetElements, matchElements, matchElements,
        Node.matchWith_relocate h node p hnode hp]
      cases hmatch : node.matchWith call text limit bound p with
      | error e => rfl
      | ok answer =>
          cases answer with
          | none => rfl
          | some next =>
              have hnext := h.moves node hnode p next hp hmatch
              exact matchElements_relocate h rest next hrest hnext

private theorem matchChoices_relocate
    (h : Transport place replace call call' text limit limit' bound Good P) :
    ∀ (choices : List Node) (p : Nat), (∀ c ∈ choices, c.References P) →
      Good p →
      matchChoices call' text limit' bound
          (retargetNodes (relocation place replace) choices) p
        = matchChoices call text limit bound choices p
  | [], p, _, _ => by rw [retargetNodes, matchChoices, matchChoices]
  | node :: rest, p, hnodes, hp => by
      obtain ⟨hnode, hrest⟩ := List.forall_mem_cons.1 hnodes
      rw [retargetNodes, matchChoices, matchChoices,
        Node.matchWith_relocate h node p hnode hp]
      cases hmatch : node.matchWith call text limit bound p with
      | error e => rfl
      | ok answer =>
          cases answer with
          | none => exact matchChoices_relocate h rest p hrest hp
          | some next => rfl

end

end Matching

-- ==================================================================== sets

/-- The expressions of a set stand in another one, relocated. -/
def ExpressionSet.Embeds (place : Nat → Nat) (replace : Primitive → Primitive)
    (s s' : ExpressionSet) : Prop :=
  ∀ index e, s.get? index = some e → ∃ key,
    s'.get? (place index) = some ⟨key,
      e.root.retarget (relocation place replace)⟩

section Sets

variable {s s' : ExpressionSet} {text : Text} {limit limit' : Nat}
  {P : String → Option Target → Prop} (Good : Nat → Prop)

/-- Relocated expressions match as the expressions do. -/
theorem captureWithin_relocate (hembeds : s.Embeds place replace s')
    (hs : ∀ e ∈ s.expressions, e.root.References P)
    (hexists : ∀ key index, P key (some (.expression index)) → index < s.size)
    (hliteral : ∀ w p, Good p → literalAt text limit' w p
      = literalAt text limit w p)
    (hprimitive : ∀ key scan, P key (some (.primitive scan)) →
      ∀ p, Good p → replace scan text p limit' = scan text p limit)
    (hmoves : ∀ bound (node : Node), node.References P → ∀ p q, Good p →
      node.matchWith (s.captureWithin text limit bound) text limit bound p
        = .ok (some q) → Good q) :
    ∀ bound index p, index < s.size → Good p →
      s'.captureWithin text limit' bound (place index) p
        = s.captureWithin text limit bound index p := by
  intro bound
  induction bound with
  | zero => intro index p _ _; rfl
  | succ bound ih =>
      intro index p hindex hp
      obtain ⟨e, he⟩ := ExpressionSet.exists_get? hindex
      obtain ⟨key, he'⟩ := hembeds index e he
      rw [ExpressionSet.captureWithin, ExpressionSet.captureWithin, he, he']
      refine Node.matchWith_relocate ⟨hliteral, ?_, hprimitive,
        hmoves bound⟩ e.root p
        (hs e (ExpressionSet.mem_of_get? he)) hp
      exact fun key index hkey q hq => ih index q (hexists key index hkey) hq

end Sets

end Munch
