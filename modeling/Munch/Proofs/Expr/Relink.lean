/-
What a pass over the references of a set leaves, whether it ends or
stops.

- However far it comes, it changes nothing but targets
  (`Node.erase_link`), each expression by the pass over its own tree
  (`ExpressionSet.get?_link`).
- It does not stop exactly if it can resolve every reference that is not
  to the owner's own key (`ExpressionSet.link_failure_eq_none_iff`), and
  then each of these has the target that the lookup finds
  (`ExpressionSet.expressions_link`).
- It takes no target away, and gives no reference another one than it
  had, where the targets that were there are those the lookup finds
  (`Node.keeps_link`).
-/
import Mathlib.Data.List.Forall2
import Munch.Proofs.Expr.Retarget
import Munch.Proofs.Expr.Supply

namespace Munch

-- ============================================================ vocabulary

/-- What a lookup finds, if it finds anything. -/
def Lookup.target? : Lookup → Option Target
  | .found target => some target
  | .notScannable => none
  | .missing => none

/-- The lookup of a pass that asks without a state. -/
def Lookup.stateless (lookup : String → Lookup) (key : String) (state : Unit) :
    Lookup × Unit :=
  (lookup key, state)

/-- A pass over the expression `owner` gets past the references to a
key: it passes over the owner's own, and finds any other. -/
def Resolvable (lookup : String → Lookup) (owner key : String) : Prop :=
  key = owner ∨ ∃ target, lookup key = .found target

/-- The target of a reference that a pass over the expression `owner` has
got past. -/
def relinked (lookup : String → Lookup) (owner key : String)
    (target : Option Target) : Option Target :=
  if key = owner then target else (lookup key).target?

/-- `f` gives the references of the expression `owner` to other keys a
target whatever target they had. -/
def Overrides (owner : String) (f : String → Option Target → Option Target) :
    Prop :=
  ∀ key, key ≠ owner → ∀ before after, f key before = f key after

/-- A node that is a reference with a target is that reference still. -/
def Node.Keeps (m n : Node) : Prop :=
  ∀ key target, m = .reference key (some target) →
    n = .reference key (some target)

/-- A reference that a pass got past has a target, if the owner's own
references have theirs. -/
theorem relinked_isSome {lookup : String → Lookup} {owner key : String}
    {target : Option Target} (hkey : Resolvable lookup owner key)
    (hown : key = owner → target.isSome = true) :
    (relinked lookup owner key target).isSome = true := by
  unfold relinked
  by_cases howner : key = owner
  · rw [if_pos howner]
    exact hown howner
  · obtain ⟨found, hfound⟩ := hkey.resolve_left howner
    rw [if_neg howner, hfound]
    rfl

/-- A reference that has the target it would be given has it still. -/
theorem relinked_eq_self {lookup : String → Lookup} {owner key : String}
    {target : Target} (h : lookup key = .found target) :
    relinked lookup owner key (some target) = some target := by
  unfold relinked
  rw [h]
  split <;> rfl

/-- A tree keeps its own targets. -/
theorem Node.Keeps.refl (n : Node) : n.Keeps n := fun _ _ h => h

/-- What keeps what keeps a target keeps it. -/
theorem Node.Keeps.trans {l m n : Node} (hm : l.Keeps m) (hn : m.Keeps n) :
    l.Keeps n :=
  fun key target h => hn key target (hm key target h)

-- ====================================================== the shape of trees

section Shape

variable {σ : Type} {lookup : String → σ → Lookup × σ} {owner : String}

variable (lookup owner) in
/-- A reference stays one of the same key. -/
theorem linkReference_eq (key : String) (target : Option Target)
    (l : Linking σ) :
    ∃ after, (linkReference lookup owner key target l).1
      = .reference key after := by
  unfold linkReference
  split
  · exact ⟨target, rfl⟩
  · split
    · exact ⟨_, rfl⟩
    · exact ⟨target, rfl⟩
    · exact ⟨target, rfl⟩

/-- A reference of an expression to itself stays as it is. -/
private theorem linkReference_own {key : String} (h : key = owner)
    (target : Option Target) (l : Linking σ) :
    linkReference lookup owner key target l = (.reference key target, l) :=
  if_pos (.inr h)

variable {f : String → Option Target → Option Target}

mutual

/-- A pass changes nothing but targets, and none of the owner's own
references: what does not depend on another target stays. -/
theorem Node.retarget_link (hf : Overrides owner f) :
    ∀ (node : Node) (l : Linking σ),
      (node.link lookup owner l).1.retarget f = node.retarget f
  | .literal text, l => rfl
  | .reference key target, l => by
      rw [Node.link]
      by_cases howner : key = owner
      · rw [linkReference_own howner]
      · obtain ⟨after, h⟩ := linkReference_eq lookup owner key target l
        rw [h, Node.retarget, Node.retarget, hf key howner after target]
  | .sequence elements, l => by
      have ih := retarget_linkElements hf elements l
      simp only [Node.link, Node.retarget, ih]
  | .alternation choices, l => by
      have ih := retarget_linkNodes hf choices l
      simp only [Node.link, Node.retarget, ih]

private theorem retarget_linkElements (hf : Overrides owner f) :
    ∀ (elements : List Element) (l : Linking σ),
      retargetElements f (linkElements lookup owner elements l).1
        = retargetElements f elements
  | [], l => rfl
  | ⟨node, starred⟩ :: rest, l => by
      have hnode := Node.retarget_link hf node l
      have ih := retarget_linkElements hf rest (node.link lookup owner l).2
      simp only [linkElements, retargetElements, hnode, ih]

private theorem retarget_linkNodes (hf : Overrides owner f) :
    ∀ (choices : List Node) (l : Linking σ),
      retargetNodes f (linkNodes lookup owner choices l).1
        = retargetNodes f choices
  | [], l => rfl
  | node :: rest, l => by
      have hnode := Node.retarget_link hf node l
      have ih := retarget_linkNodes hf rest (node.link lookup owner l).2
      simp only [linkNodes, retargetNodes, hnode, ih]

end

/-- A pass changes nothing but targets. -/
theorem Node.erase_link (node : Node) (l : Linking σ) :
    (node.link lookup owner l).1.erase = node.erase :=
  Node.retarget_link (fun _ _ _ _ => rfl) node l

-- ============================================================ what is kept

/-- A pass leaves a target alone that is the one its lookup finds. -/
theorem keeps_linkReference {key : String} {target : Option Target}
    (h : ∀ t, target = some t →
      key = owner ∨ ∀ state, (lookup key state).1 = .found t)
    (l : Linking σ) :
    (Node.reference key target).Keeps
      (linkReference lookup owner key target l).1 := by
  intro key' t hbefore
  obtain ⟨rfl, rfl⟩ := Node.reference.inj hbefore
  unfold linkReference
  by_cases howner : l.failure.isSome ∨ key = owner
  · rw [if_pos howner]
  · rw [if_neg howner]
    have hfound : (lookup key l.state).1 = .found t := by
      rcases h t rfl with rfl | hfound
      · exact absurd (.inr rfl) howner
      · exact hfound l.state
    split
    · rename_i new state hnew
      rw [hnew] at hfound
      rw [Lookup.found.inj hfound]
    · rfl
    · rfl

mutual

/-- Node by node, a pass takes no target away and changes none, where the
targets that are there are those the lookup finds. -/
theorem Node.keeps_link :
    ∀ (node : Node) (l : Linking σ),
      (node.References fun key target => ∀ t, target = some t →
        key = owner ∨ ∀ state, (lookup key state).1 = .found t) →
      List.Forall₂ Node.Keeps node.postorder
        (node.link lookup owner l).1.postorder
  | .literal text, l, _ => by
      rw [Node.link, Node.postorder]
      exact .cons (.refl _) .nil
  | .reference key target, l, h => by
      have hkeeps := keeps_linkReference (Node.references_reference.1 h) l
      obtain ⟨after, hafter⟩ := linkReference_eq lookup owner key target l
      rw [Node.link, hafter, Node.postorder, Node.postorder]
      rw [hafter] at hkeeps
      exact .cons hkeeps .nil
  | .sequence elements, l, h => by
      have ih := keeps_linkElements elements l (Node.references_sequence.1 h)
      rw [Node.link, Node.postorder, Node.postorder]
      exact List.rel_append ih (.cons (fun _ _ h => nomatch h) .nil)
  | .alternation choices, l, h => by
      have ih := keeps_linkNodes choices l (Node.references_alternation.1 h)
      rw [Node.link, Node.postorder, Node.postorder]
      exact List.rel_append ih (.cons (fun _ _ h => nomatch h) .nil)

private theorem keeps_linkElements :
    ∀ (elements : List Element) (l : Linking σ),
      (∀ e ∈ elements, e.node.References fun key target => ∀ t,
        target = some t →
        key = owner ∨ ∀ state, (lookup key state).1 = .found t) →
      List.Forall₂ Node.Keeps (postorderElements elements)
        (postorderElements (linkElements lookup owner elements l).1)
  | [], l, _ => .nil
  | ⟨node, starred⟩ :: rest, l, h => by
      obtain ⟨hnode, hrest⟩ := List.forall_mem_cons.1 h
      exact List.rel_append (Node.keeps_link node l hnode)
        (keeps_linkElements rest (node.link lookup owner l).2 hrest)

private theorem keeps_linkNodes :
    ∀ (choices : List Node) (l : Linking σ),
      (∀ c ∈ choices, c.References fun key target => ∀ t, target = some t →
        key = owner ∨ ∀ state, (lookup key state).1 = .found t) →
      List.Forall₂ Node.Keeps (postorderNodes choices)
        (postorderNodes (linkNodes lookup owner choices l).1)
  | [], l, _ => .nil
  | node :: rest, l, h => by
      obtain ⟨hnode, hrest⟩ := List.forall_mem_cons.1 h
      exact List.rel_append (Node.keeps_link node l hnode)
        (keeps_linkNodes rest (node.link lookup owner l).2 hrest)

end

end Shape

-- =================================================== passes that do not stop

section Ends

variable {lookup : String → Lookup} {owner : String}

/-- A pass does not stop at a reference that can be resolved. -/
private theorem linkReference_failure_iff {key : String}
    {target : Option Target} {l : Linking Unit} :
    (linkReference (Lookup.stateless lookup) owner key target l).2.failure
      = none
      ↔ l.failure = none ∧ Resolvable lookup owner key := by
  unfold linkReference Lookup.stateless Resolvable
  by_cases howner : key = owner
  · simp [howner]
  · cases hl : l.failure with
    | some e => simp [hl]
    | none => cases lookup key <;> simp [howner]

/-- Where a pass does not stop, the reference has the target that is found. -/
private theorem linkReference_of_ok {key : String} {target : Option Target}
    {l : Linking Unit}
    (h : (linkReference (Lookup.stateless lookup) owner key target l).2.failure
      = none) :
    (linkReference (Lookup.stateless lookup) owner key target l).1
      = .reference key (relinked lookup owner key target) := by
  obtain ⟨hl, hkey⟩ := linkReference_failure_iff.1 h
  unfold linkReference relinked Lookup.stateless
  by_cases howner : key = owner
  · simp [howner]
  · obtain ⟨found, hfound⟩ := hkey.resolve_left howner
    simp [howner, hl, hfound, Lookup.target?]

mutual

/-- A pass over a tree does not stop exactly if it gets past every
reference. -/
theorem Node.link_failure_iff : ∀ (node : Node) (l : Linking Unit),
    (node.link (Lookup.stateless lookup) owner l).2.failure = none
      ↔ l.failure = none
        ∧ node.References fun key _ => Resolvable lookup owner key
  | .literal text, l => by simp [Node.link]
  | .reference key target, l => by
      rw [Node.link, linkReference_failure_iff, Node.references_reference]
  | .sequence elements, l => by
      simp only [Node.link]
      rw [linkElements_failure_iff elements l, Node.references_sequence]
  | .alternation choices, l => by
      simp only [Node.link]
      rw [linkNodes_failure_iff choices l, Node.references_alternation]

private theorem linkElements_failure_iff :
    ∀ (elements : List Element) (l : Linking Unit),
      (linkElements (Lookup.stateless lookup) owner elements l).2.failure = none
        ↔ l.failure = none
          ∧ ∀ e ∈ elements, e.node.References fun key _ =>
            Resolvable lookup owner key
  | [], l => by simp [linkElements]
  | ⟨node, starred⟩ :: rest, l => by
      simp only [linkElements]
      rw [linkElements_failure_iff rest, Node.link_failure_iff node l,
        and_assoc,
        List.forall_mem_cons]

private theorem linkNodes_failure_iff :
    ∀ (choices : List Node) (l : Linking Unit),
      (linkNodes (Lookup.stateless lookup) owner choices l).2.failure = none
        ↔ l.failure = none
          ∧ ∀ c ∈ choices, c.References fun key _ => Resolvable lookup owner key
  | [], l => by simp [linkNodes]
  | node :: rest, l => by
      simp only [linkNodes]
      rw [linkNodes_failure_iff rest, Node.link_failure_iff node l, and_assoc,
        List.forall_mem_cons]

end

mutual

/-- A pass over a tree that does not stop gives every reference the
target that the lookup finds. -/
theorem Node.link_of_ok : ∀ (node : Node) (l : Linking Unit),
    (node.link (Lookup.stateless lookup) owner l).2.failure = none →
    (node.link (Lookup.stateless lookup) owner l).1
      = node.retarget (relinked lookup owner)
  | .literal text, l, _ => by simp only [Node.link, Node.retarget]
  | .reference key target, l, h => by
      rw [Node.link] at h ⊢
      rw [linkReference_of_ok h, Node.retarget]
  | .sequence elements, l, h => by
      simp only [Node.link] at h ⊢
      rw [linkElements_of_ok elements l h, Node.retarget]
  | .alternation choices, l, h => by
      simp only [Node.link] at h ⊢
      rw [linkNodes_of_ok choices l h, Node.retarget]

private theorem linkElements_of_ok :
    ∀ (elements : List Element) (l : Linking Unit),
      (linkElements (Lookup.stateless lookup) owner elements l).2.failure
        = none →
      (linkElements (Lookup.stateless lookup) owner elements l).1
        = retargetElements (relinked lookup owner) elements
  | [], l, _ => rfl
  | ⟨node, starred⟩ :: rest, l, h => by
      simp only [linkElements] at h ⊢
      have hnode := ((linkElements_failure_iff rest _).1 h).1
      rw [Node.link_of_ok node l hnode, linkElements_of_ok rest _ h,
        retargetElements]

private theorem linkNodes_of_ok : ∀ (choices : List Node) (l : Linking Unit),
    (linkNodes (Lookup.stateless lookup) owner choices l).2.failure = none →
    (linkNodes (Lookup.stateless lookup) owner choices l).1
      = retargetNodes (relinked lookup owner) choices
  | [], l, _ => rfl
  | node :: rest, l, h => by
      simp only [linkNodes] at h ⊢
      have hnode := ((linkNodes_failure_iff rest _).1 h).1
      rw [Node.link_of_ok node l hnode, linkNodes_of_ok rest _ h, retargetNodes]

end

/-- A pass does not stop exactly if all references can be resolved. -/
private theorem linkExpressions_failure_iff (expressions : List Expression)
    (l : Linking Unit) :
    (linkExpressions (Lookup.stateless lookup) expressions l).2.failure = none
      ↔ l.failure = none ∧ ∀ e ∈ expressions,
          e.root.References fun key _ => Resolvable lookup e.key key := by
  induction expressions generalizing l with
  | nil => simp [linkExpressions]
  | cons e rest ih =>
      simp only [linkExpressions]
      rw [ih, Node.link_failure_iff, and_assoc, List.forall_mem_cons]

/-- Where a pass does not stop, all references have the targets that are
found. -/
private theorem linkExpressions_of_ok (expressions : List Expression)
    (l : Linking Unit)
    (h : (linkExpressions (Lookup.stateless lookup) expressions l).2.failure
      = none) :
    (linkExpressions (Lookup.stateless lookup) expressions l).1
      = expressions.map fun e => ⟨e.key,
        e.root.retarget (relinked lookup e.key)⟩ := by
  induction expressions generalizing l with
  | nil => rfl
  | cons e rest ih =>
      simp only [linkExpressions] at h ⊢
      have hroot := ((linkExpressions_failure_iff rest _).1 h).1
      rw [Node.link_of_ok e.root l hroot, ih _ h, List.map_cons]

end Ends

-- ======================================================= expressions of a set

section Expressions

variable {σ : Type} {lookup : String → σ → Lookup × σ}

variable (lookup) in
/-- The pass takes the expressions one after another, each by its tree. -/
theorem linkExpressions_getElem? {expressions : List Expression} {index : Nat}
    {e : Expression} (h : expressions[index]? = some e) (l : Linking σ) :
    ∃ l', (linkExpressions lookup expressions l).1[index]?
      = some ⟨e.key, (e.root.link lookup e.key l').1⟩ := by
  induction expressions generalizing index l with
  | nil => simp at h
  | cons e' rest ih =>
      cases index with
      | zero =>
          obtain rfl : e' = e := by simpa using h
          exact ⟨l, by simp [linkExpressions]⟩
      | succ index =>
          obtain ⟨l', hl'⟩ :=
            ih (by simpa using h) (e'.root.link lookup e'.key l).2
          exact ⟨l', by simpa [linkExpressions] using hl'⟩

/-- A pass leaves no expression out. -/
private theorem length_linkExpressions (expressions : List Expression)
    (l : Linking σ) :
    (linkExpressions lookup expressions l).1.length = expressions.length := by
  induction expressions generalizing l with
  | nil => rfl
  | cons e rest ih => simp [linkExpressions, ih]

/-- What no pass over a tree changes, none over expressions changes. -/
theorem map_linkExpressions {α : Type} {g : Expression → α}
    (hg : ∀ (e : Expression) (l : Linking σ),
      g ⟨e.key, (e.root.link lookup e.key l).1⟩ = g e)
    (expressions : List Expression) (l : Linking σ) :
    (linkExpressions lookup expressions l).1.map g = expressions.map g := by
  induction expressions generalizing l with
  | nil => rfl
  | cons e rest ih => exact congrArg₂ List.cons (hg e l) (ih _)

/-- What a change of targets does not touch, a pass over the set does not. -/
theorem ExpressionSet.map_linkWith {α : Type} {g : Expression → α}
    (hg : ∀ (e : Expression) (l : Linking σ),
      g ⟨e.key, (e.root.link lookup e.key l).1⟩ = g e) (s : ExpressionSet)
    (state : σ) :
    (s.linkWith lookup state).set.expressions.map g = s.expressions.map g := by
  rw [← Array.toList_inj, Array.toList_map, Array.toList_map]
  exact map_linkExpressions hg s.expressions.toList _

end Expressions

namespace ExpressionSet

variable {s : ExpressionSet} {lookup : String → Lookup} {index : Nat}

theorem link_eq : s.link lookup = s.linkWith (Lookup.stateless lookup) () := rfl

@[simp] theorem indices_link : (s.link lookup).set.indices = s.indices := rfl

@[simp] theorem size_link : (s.link lookup).set.size = s.size := by
  simp [link_eq, linkWith, size, length_linkExpressions]

variable (lookup) in
/-- An expression of a set after a pass is the one before it, after the
pass over its tree. -/
theorem get?_link {e : Expression} (h : s.get? index = some e) :
    ∃ l, (s.link lookup).set.get? index
      = some ⟨e.key, (e.root.link (Lookup.stateless lookup) e.key l).1⟩ := by
  have hlist : s.expressions.toList[index]? = some e := by
    rw [Array.getElem?_toList]
    exact h
  obtain ⟨l, hl⟩ :=
    linkExpressions_getElem? (Lookup.stateless lookup) hlist ⟨(), [], none⟩
  refine ⟨l, ?_⟩
  rw [← hl]
  simp [link_eq, linkWith, get?]

/-- An expression behind a pass is one before it, with its references linked.
-/
theorem of_get?_link {e' : Expression}
    (h : (s.link lookup).set.get? index = some e') :
    ∃ e l, s.get? index = some e
      ∧ e' = ⟨e.key, (e.root.link (Lookup.stateless lookup) e.key l).1⟩ := by
  have hindex : index < s.size := by
    have hafter : index < (s.link lookup).set.size := lt_size_of_get? h
    rwa [size_link] at hafter
  obtain ⟨e, he⟩ := exists_get? hindex
  obtain ⟨l, hl⟩ := get?_link lookup he
  rw [h] at hl
  exact ⟨e, l, he, Option.some.inj hl⟩

/-- The pass does not stop exactly if it gets past every reference. -/
theorem link_failure_eq_none_iff :
    (s.link lookup).failure = none ↔ ∀ e ∈ s.expressions,
      e.root.References fun key _ => Resolvable lookup e.key key := by
  rw [link_eq, linkWith]
  simp only [linkExpressions_failure_iff, true_and, Array.mem_toList_iff]

/-- A pass that does not stop gives every reference the target that the
lookup finds. -/
theorem expressions_link (h : (s.link lookup).failure = none) :
    (s.link lookup).set.expressions
      = s.expressions.map fun e =>
        ⟨e.key, e.root.retarget (relinked lookup e.key)⟩ := by
  have hlist := linkExpressions_of_ok s.expressions.toList ⟨(), [], none⟩ h
  rw [link_eq, linkWith]
  simp only [hlist]
  rw [← Array.toList_map, Array.toArray_toList]

/-- Behind a pass that does not stop, each reference has the target that is
found for its key. -/
theorem get?_link_of_ok (h : (s.link lookup).failure = none) (index : Nat) :
    (s.link lookup).set.get? index = (s.get? index).map fun e =>
      ⟨e.key, e.root.retarget (relinked lookup e.key)⟩ := by
  unfold get?
  rw [expressions_link h, Array.getElem?_map]

end ExpressionSet

end Munch
