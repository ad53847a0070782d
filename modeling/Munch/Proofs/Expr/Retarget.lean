/-
Trees that differ in nothing but where their references lead.

`Node.retarget f` gives every reference of a tree the target that `f`
says, from its key and the target it had; `Node.erase` takes all targets
away, and what it leaves is the tree as its rule was written. Sets that
were linked differently, at different times or with their expressions in
another order, hold trees that are equal once they are erased, so facts
that relate them are facts about `retarget`:

- the nodes of a retargeted tree are the nodes of the tree, retargeted
  (`Node.postorder_retarget`), which tells its references too
  (`Node.references_retarget`);
- what a tree is retargeted to depends on `f` at its references only
  (`Node.retarget_congr`).
-/
import Munch.Proofs.Expr.References

namespace Munch

mutual

/-- A tree with the targets that `f` gives to its references. -/
def Node.retarget (f : String → Option Target → Option Target) : Node → Node
  | .literal text => .literal text
  | .reference key target => .reference key (f key target)
  | .sequence elements => .sequence (retargetElements f elements)
  | .alternation choices => .alternation (retargetNodes f choices)

/-- The items of a sequence, retargeted. -/
def retargetElements (f : String → Option Target → Option Target) :
    List Element → List Element
  | [] => []
  | ⟨node, starred⟩ :: rest =>
      ⟨node.retarget f, starred⟩ :: retargetElements f rest

/-- The alternatives of a choice, retargeted. -/
def retargetNodes (f : String → Option Target → Option Target) :
    List Node → List Node
  | [] => []
  | node :: rest => node.retarget f :: retargetNodes f rest

end

/-- A tree without any targets. -/
def Node.erase (node : Node) : Node := node.retarget fun _ _ => none

variable {f g : String → Option Target → Option Target}

-- ============================================================== the nodes

mutual

/-- A tree with other targets has the same nodes, with theirs changed. -/
theorem Node.postorder_retarget :
    ∀ node : Node, (node.retarget f).postorder
      = node.postorder.map (·.retarget f)
  | .literal text => by simp [Node.retarget, Node.postorder]
  | .reference key target => by simp [Node.retarget, Node.postorder]
  | .sequence elements => by
      have ih := postorderElements_retarget elements
      simp [Node.retarget, Node.postorder, ih]
  | .alternation choices => by
      have ih := postorderNodes_retarget choices
      simp [Node.retarget, Node.postorder, ih]

private theorem postorderElements_retarget :
    ∀ elements : List Element, postorderElements (retargetElements f elements)
      = (postorderElements elements).map (·.retarget f)
  | [] => rfl
  | ⟨node, _⟩ :: rest => by
      have hnode := Node.postorder_retarget node
      have ih := postorderElements_retarget rest
      simp [retargetElements, postorderElements, hnode, ih]

private theorem postorderNodes_retarget :
    ∀ choices : List Node, postorderNodes (retargetNodes f choices)
      = (postorderNodes choices).map (·.retarget f)
  | [] => rfl
  | node :: rest => by
      have hnode := Node.postorder_retarget node
      have ih := postorderNodes_retarget rest
      simp [retargetNodes, postorderNodes, hnode, ih]

end

namespace Node

variable {P : String → Option Target → Prop} {node : Node}

/-- A reference was one before its target was changed. -/
theorem retarget_eq_reference {m : Node} {key : String}
    {target : Option Target} :
    m.retarget f = .reference key target
      ↔ ∃ before, m = .reference key before ∧ f key before = target := by
  cases m with
  | reference key' before =>
      simp only [retarget, reference.injEq]
      constructor
      · rintro ⟨rfl, h⟩
        exact ⟨before, ⟨rfl, rfl⟩, h⟩
      · rintro ⟨_, ⟨rfl, rfl⟩, h⟩
        exact ⟨rfl, h⟩
  | _ => simp [retarget]

/-- The references of a retargeted tree are those of the tree. -/
theorem references_retarget :
    (node.retarget f).References P
      ↔ node.References fun key target => P key (f key target) := by
  unfold References
  rw [postorder_retarget]
  constructor
  · intro h key target hmem
    apply h key (f key target)
    exact List.mem_map.2 ⟨_, hmem, by rw [retarget]⟩
  · intro h key target hmem
    obtain ⟨m, hm, hretarget⟩ := List.mem_map.1 hmem
    obtain ⟨before, rfl, rfl⟩ := retarget_eq_reference.1 hretarget
    exact h key before hm

/-- What holds of references whatever their targets holds in a tree if
it holds in the erased tree. -/
theorem references_erase {Q : String → Prop} :
    node.erase.References (fun key _ => Q key)
      ↔ node.References fun key _ => Q key :=
  references_retarget

end Node

-- ============================================================ composition

mutual

/-- Two changes that agree on the references of a tree change it alike. -/
theorem Node.retarget_congr : ∀ node : Node,
    node.References (fun key target => f key target = g key target) →
    node.retarget f = node.retarget g
  | .literal text, _ => by rw [Node.retarget, Node.retarget]
  | .reference key target, h => by
      have htarget := Node.references_reference.1 h
      rw [Node.retarget, Node.retarget, htarget]
  | .sequence elements, h => by
      have ih := retargetElements_congr elements (Node.references_sequence.1 h)
      rw [Node.retarget, Node.retarget, ih]
  | .alternation choices, h => by
      have ih := retargetNodes_congr choices (Node.references_alternation.1 h)
      rw [Node.retarget, Node.retarget, ih]

private theorem retargetElements_congr : ∀ elements : List Element,
    (∀ e ∈ elements,
      e.node.References fun key target => f key target = g key target) →
    retargetElements f elements = retargetElements g elements
  | [], _ => rfl
  | ⟨node, _⟩ :: rest, h => by
      obtain ⟨hnode, hrest⟩ := List.forall_mem_cons.1 h
      rw [retargetElements, retargetElements, Node.retarget_congr node hnode,
        retargetElements_congr rest hrest]

private theorem retargetNodes_congr : ∀ choices : List Node,
    (∀ c ∈ choices, c.References fun key target =>
      f key target = g key target) →
    retargetNodes f choices = retargetNodes g choices
  | [], _ => rfl
  | node :: rest, h => by
      obtain ⟨hnode, hrest⟩ := List.forall_mem_cons.1 h
      rw [retargetNodes, retargetNodes, Node.retarget_congr node hnode,
        retargetNodes_congr rest hrest]

end

mutual

/-- Targets that are changed twice are changed by both changes together. -/
theorem Node.retarget_retarget : ∀ node : Node,
    (node.retarget f).retarget g
      = node.retarget fun key target => g key (f key target)
  | .literal text => by simp only [Node.retarget]
  | .reference key target => by simp only [Node.retarget]
  | .sequence elements => by
      simp only [Node.retarget, retargetElements_retarget elements]
  | .alternation choices => by
      simp only [Node.retarget, retargetNodes_retarget choices]

private theorem retargetElements_retarget : ∀ elements : List Element,
    retargetElements g (retargetElements f elements)
      = retargetElements (fun key target => g key (f key target)) elements
  | [] => rfl
  | ⟨node, _⟩ :: rest => by
      simp only [retargetElements, Node.retarget_retarget node,
        retargetElements_retarget rest]

private theorem retargetNodes_retarget : ∀ choices : List Node,
    retargetNodes g (retargetNodes f choices)
      = retargetNodes (fun key target => g key (f key target)) choices
  | [] => rfl
  | node :: rest => by
      simp only [retargetNodes, Node.retarget_retarget node,
        retargetNodes_retarget rest]

end

mutual

/-- A change that keeps every target changes nothing. -/
theorem Node.retarget_id :
    ∀ node : Node, node.retarget (fun _ target => target) = node
  | .literal text => by simp only [Node.retarget]
  | .reference key target => by simp only [Node.retarget]
  | .sequence elements => by
      simp only [Node.retarget, retargetElements_id elements]
  | .alternation choices => by
      simp only [Node.retarget, retargetNodes_id choices]

private theorem retargetElements_id : ∀ elements : List Element,
    retargetElements (fun _ target => target) elements = elements
  | [] => rfl
  | ⟨node, _⟩ :: rest => by
      simp only [retargetElements, Node.retarget_id node,
        retargetElements_id rest]

private theorem retargetNodes_id : ∀ choices : List Node,
    retargetNodes (fun _ target => target) choices = choices
  | [] => rfl
  | node :: rest => by
      simp only [retargetNodes, Node.retarget_id node, retargetNodes_id rest]

end

namespace Node

variable {node : Node}

/-- A tree whose references have the targets they would be given is left
as it is. -/
theorem retarget_eq_self
    (h : node.References fun key target => f key target = target) :
    node.retarget f = node :=
  (retarget_congr (g := fun _ target => target) node h).trans node.retarget_id

/-- Without targets, a tree is as it was before they were changed. -/
@[simp] theorem erase_retarget (node : Node) :
    (node.retarget f).erase = node.erase :=
  node.retarget_retarget

/-- What was erased comes back with the targets that the keys tell. -/
theorem retarget_erase {target? : String → Option Target}
    (h : node.References fun key target => target = target? key) :
    node.erase.retarget (fun key _ => target? key) = node := by
  refine node.retarget_retarget.trans (retarget_eq_self (h.mono ?_))
  exact fun key target htarget => htarget.symm

end Node

-- =================================================================== lists

/-- Targets in items are changed item by item. -/
theorem retargetElements_eq_map (elements : List Element) :
    retargetElements f elements = elements.map fun e =>
      ⟨e.node.retarget f, e.starred⟩ := by
  induction elements with
  | nil => rfl
  | cons e rest ih =>
      obtain ⟨node, starred⟩ := e
      rw [retargetElements, ih, List.map_cons]

/-- Targets in choices are changed choice by choice. -/
theorem retargetNodes_eq_map (choices : List Node) :
    retargetNodes f choices = choices.map (·.retarget f) := by
  induction choices with
  | nil => rfl
  | cons node rest ih => rw [retargetNodes, ih, List.map_cons]

-- ==================================================================== sets

/-- An expression with the targets that `f` gives to its references. -/
def Expression.retarget (f : String → Option Target → Option Target)
    (e : Expression) : Expression :=
  ⟨e.key, e.root.retarget f⟩

/-- An expression without any targets. -/
def Expression.erase (e : Expression) : Expression := e.retarget fun _ _ => none

/-- Expressions differ in targets only if they have one key and trees that do.
-/
theorem Expression.erase_eq_iff {e e' : Expression} :
    e.erase = e'.erase ↔ e.key = e'.key ∧ e.root.erase = e'.root.erase := by
  unfold Expression.erase Expression.retarget
  rw [Expression.mk.injEq]
  rfl

namespace ExpressionSet

/-- A set with the targets that `f` gives to its references. -/
def retarget (f : String → Option Target → Option Target) (s : ExpressionSet) :
    ExpressionSet := ⟨s.expressions.map (Expression.retarget f), s.indices⟩

/-- A set without any targets. -/
def erase (s : ExpressionSet) : ExpressionSet := s.retarget fun _ _ => none

variable {s : ExpressionSet}

/-- An expression is found at its index, its targets changed. -/
theorem get?_retarget (f : String → Option Target → Option Target)
    (s : ExpressionSet) (index : Nat) :
    (s.retarget f).get? index = (s.get? index).map (Expression.retarget f) :=
  Array.getElem?_map

@[simp] theorem size_retarget (f : String → Option Target → Option Target)
    (s : ExpressionSet) : (s.retarget f).size = s.size :=
  Array.size_map

/-- An expression is found at its index, its targets erased. -/
theorem get?_erase (s : ExpressionSet) (index : Nat) :
    s.erase.get? index = (s.get? index).map Expression.erase :=
  get?_retarget _ s index

@[simp] theorem size_erase (s : ExpressionSet) : s.erase.size = s.size :=
  size_retarget _ s

/-- Erased, an expression that is added is added erased. -/
theorem erase_push (s : ExpressionSet) (e : Expression) :
    (s.push e).erase = s.erase.push e.erase := by
  simp only [push, erase, retarget, Array.map_push, Expression.erase,
    Expression.retarget,
    size, Array.size_map]

/-- What is true of the retargeted references of a set is true of the
references of the retargeted set. -/
theorem references_retarget {P : String → Option Target → Prop} :
    (∀ e ∈ (s.retarget f).expressions, e.root.References P)
      ↔ ∀ e ∈ s.expressions, e.root.References fun key target =>
        P key (f key target) := by
  constructor
  · intro h e he
    exact Node.references_retarget.1 (h _ (Array.mem_map.2 ⟨e, he, rfl⟩))
  · intro h e' he'
    obtain ⟨e, he, rfl⟩ := Array.mem_map.1 he'
    exact Node.references_retarget.2 (h e he)

end ExpressionSet

end Munch
