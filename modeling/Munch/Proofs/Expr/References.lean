/-
What can be said of the references of a tree, and of a set: that they are
linked, or that the primitives they lead to behave. Both are one notion,
a property that every reference in the tree has (`Node.References`), read
off the nodes of the tree in `postorder` and taken apart constructor by
constructor below.
-/
import Munch.Expr.Basic

namespace Munch

-- ============================================================ vocabulary

/-- Every reference in a tree, its key and its target, satisfies `P`. -/
def Node.References (P : String → Option Target → Prop) (node : Node) : Prop :=
  ∀ key target, .reference key target ∈ node.postorder → P key target

/-- A target that leads somewhere in a set. -/
def Target.ExistsIn (s : ExpressionSet) : Target → Prop
  | .expression index => index < s.size
  | .primitive _ => True

/-- Every reference in a tree is linked, to an expression that exists or
to a primitive. -/
def Node.ResolvedIn (s : ExpressionSet) (node : Node) : Prop :=
  node.References fun _ target => ∃ t, target = some t ∧ t.ExistsIn s

/-- Every primitive that a tree refers to satisfies `P`. -/
def Node.Primitives (P : Primitive → Prop) (node : Node) : Prop :=
  node.References fun _ target => ∀ scan,
    target = some (.primitive scan) → P scan

namespace ExpressionSet

/-- Every reference of a set is linked. -/
def Resolved (s : ExpressionSet) : Prop :=
  ∀ e ∈ s.expressions, e.root.ResolvedIn s

/-- Every primitive that a set refers to satisfies `P`. -/
def Primitives (P : Primitive → Prop) (s : ExpressionSet) : Prop :=
  ∀ e ∈ s.expressions, e.root.Primitives P

theorem mem_of_get? {s : ExpressionSet} {index : Nat} {e : Expression}
    (h : s.get? index = some e) : e ∈ s.expressions :=
  Array.mem_of_getElem? h

/-- There is no expression from the size of the set on. -/
theorem get?_eq_none_iff {s : ExpressionSet} {index : Nat} :
    s.get? index = none ↔ s.size ≤ index :=
  Array.getElem?_eq_none_iff

/-- Below the size of the set, there is an expression. -/
theorem exists_get? {s : ExpressionSet} {index : Nat} (h : index < s.size) :
    ∃ e, s.get? index = some e :=
  ⟨_, Array.getElem?_eq_getElem h⟩

theorem lt_size_of_get? {s : ExpressionSet} {index : Nat} {e : Expression}
    (h : s.get? index = some e) : index < s.size :=
  (Array.getElem?_eq_some_iff.1 h).1

/-- Each expression has an index. -/
theorem exists_get?_of_mem {s : ExpressionSet} {e : Expression}
    (h : e ∈ s.expressions) : ∃ index, s.get? index = some e :=
  Array.getElem?_of_mem h

/-- An expression that is added stands behind all others. -/
theorem get?_push (s : ExpressionSet) (e : Expression) (index : Nat) :
    (s.push e).get? index = if index = s.size then some e else s.get? index :=
  Array.getElem?_push

/-- An expression that is added is found by its key. -/
theorem find?_push (s : ExpressionSet) (e : Expression) (key : String) :
    (s.push e).find? key = if e.key = key then some s.size
      else s.find? key := by
  simp only [find?, push, Std.HashMap.getElem?_insert, beq_iff_eq]

/-- A set is told by its keys and by the expressions in their places. -/
theorem ext_get? {s s' : ExpressionSet} (hkeys : s.indices = s'.indices)
    (h : ∀ index, s.get? index = s'.get? index) : s = s' := by
  cases s
  cases s'
  rw [mk.injEq]
  exact ⟨Array.ext_getElem? h, hkeys⟩

end ExpressionSet

-- ====================================================== nodes of a tree

/-- The nodes of items are those of their trees. -/
theorem mem_postorderElements {n : Node} {elements : List Element} :
    n ∈ postorderElements elements ↔ ∃ e ∈ elements, n ∈ e.node.postorder := by
  induction elements with
  | nil => simp [postorderElements]
  | cons e rest ih =>
      obtain ⟨node, starred⟩ := e
      rw [postorderElements, List.mem_append, ih]
      simp

/-- The nodes of choices are those of each. -/
theorem mem_postorderNodes {n : Node} {choices : List Node} :
    n ∈ postorderNodes choices ↔ ∃ c ∈ choices, n ∈ c.postorder := by
  induction choices with
  | nil => simp [postorderNodes]
  | cons c rest ih =>
      rw [postorderNodes, List.mem_append, ih]
      simp

mutual

/-- The nodes of a node of a tree are nodes of the tree. -/
theorem Node.postorder_trans {m n : Node} (hn : n ∈ m.postorder) :
    ∀ node : Node, m ∈ node.postorder → n ∈ node.postorder
  | .literal text, hm => by
      rw [Node.postorder, List.mem_singleton] at hm
      rw [← hm]
      exact hn
  | .reference key target, hm => by
      rw [Node.postorder, List.mem_singleton] at hm
      rw [← hm]
      exact hn
  | .sequence elements, hm => by
      rw [Node.postorder, List.mem_append, List.mem_singleton] at hm
      rcases hm with hm | hm
      · rw [Node.postorder, List.mem_append]
        exact .inl (postorderElements_trans hn elements hm)
      · rw [← hm]
        exact hn
  | .alternation choices, hm => by
      rw [Node.postorder, List.mem_append, List.mem_singleton] at hm
      rcases hm with hm | hm
      · rw [Node.postorder, List.mem_append]
        exact .inl (postorderNodes_trans hn choices hm)
      · rw [← hm]
        exact hn

private theorem postorderElements_trans {m n : Node} (hn : n ∈ m.postorder) :
    ∀ elements : List Element,
      m ∈ postorderElements elements → n ∈ postorderElements elements
  | [], hm => by cases hm
  | ⟨node, _⟩ :: rest, hm => by
      rw [postorderElements, List.mem_append] at hm ⊢
      rcases hm with hm | hm
      · exact .inl (Node.postorder_trans hn node hm)
      · exact .inr (postorderElements_trans hn rest hm)

private theorem postorderNodes_trans {m n : Node} (hn : n ∈ m.postorder) :
    ∀ choices : List Node,
      m ∈ postorderNodes choices → n ∈ postorderNodes choices
  | [], hm => by cases hm
  | node :: rest, hm => by
      rw [postorderNodes, List.mem_append] at hm ⊢
      rcases hm with hm | hm
      · exact .inl (Node.postorder_trans hn node hm)
      · exact .inr (postorderNodes_trans hn rest hm)

end

-- =================================================== references of a tree

namespace Node

variable {P Q : String → Option Target → Prop}

/-- What is known of all references may be weakened. -/
theorem References.mono {node : Node} (h : node.References P)
    (hpq : ∀ key target, P key target → Q key target) : node.References Q :=
  fun key target hmem => hpq key target (h key target hmem)

/-- What every reference of a tree has, every reference of its nodes
has. -/
theorem References.of_mem {node n : Node} (h : node.References P)
    (hn : n ∈ node.postorder) : n.References P :=
  fun key target hmem => h key target (postorder_trans hmem node hn)

/-- A literal has no reference. -/
@[simp] theorem references_literal (text : Text) :
    (Node.literal text).References P := by
  intro key target hmem
  rw [postorder, List.mem_singleton] at hmem
  cases hmem

/-- A reference is the only one it has. -/
@[simp] theorem references_reference {key : String} {target : Option Target} :
    (Node.reference key target).References P ↔ P key target := by
  constructor
  · intro h
    exact h key target (by rw [postorder, List.mem_singleton])
  · intro h key' target' hmem
    rw [postorder, List.mem_singleton] at hmem
    cases hmem
    exact h

/-- The references of a sequence are those of its items. -/
@[simp] theorem references_sequence {elements : List Element} :
    (Node.sequence elements).References P ↔
      ∀ e ∈ elements, e.node.References P := by
  constructor
  · intro h e he key target hmem
    apply h key target
    rw [postorder, List.mem_append]
    exact .inl (mem_postorderElements.2 ⟨e, he, hmem⟩)
  · intro h key target hmem
    rw [postorder, List.mem_append, List.mem_singleton] at hmem
    rcases hmem with hmem | hmem
    · obtain ⟨e, he, hmem⟩ := mem_postorderElements.1 hmem
      exact h e he key target hmem
    · cases hmem

/-- The references of an alternation are those of its choices. -/
@[simp] theorem references_alternation {choices : List Node} :
    (Node.alternation choices).References P ↔ ∀ c ∈ choices,
      c.References P := by
  constructor
  · intro h c hc key target hmem
    apply h key target
    rw [postorder, List.mem_append]
    exact .inl (mem_postorderNodes.2 ⟨c, hc, hmem⟩)
  · intro h key target hmem
    rw [postorder, List.mem_append, List.mem_singleton] at hmem
    rcases hmem with hmem | hmem
    · obtain ⟨c, hc, hmem⟩ := mem_postorderNodes.1 hmem
      exact h c hc key target hmem
    · cases hmem

end Node

end Munch
