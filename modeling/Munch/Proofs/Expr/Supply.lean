/-
Where the references of a tree come from. A tree that was read from a
rule has only references to words (`parse_references`), and those lead
nowhere, or back to the expression itself; the pass over a set adds to
them what its lookup finds, and nothing else (`link_primitives`). So no
primitive comes into a set but through the lookup.
-/
import Munch.Expr.Definition
import Munch.Expr.Link
import Munch.Proofs.Expr.References
import Munch.Proofs.Rule.Soundness

namespace Munch

variable {P : String → Option Target → Prop}

-- ===================================================== trees of a rule

namespace Rule

private theorem references_sequenced {elements : List Element}
    (h : ∀ e ∈ elements, e.node.References P) :
    (sequenced elements).References P := by
  unfold sequenced
  split
  · exact h _ List.mem_cons_self
  · exact Node.references_sequence.2 h

private theorem references_chosen {choices : List Node}
    (h : ∀ c ∈ choices, c.References P) : (chosen choices).References P := by
  unfold chosen
  split
  · exact h _ List.mem_cons_self
  · exact Node.references_alternation.2 h

variable {owner : Owner}

/-- What holds of every element before and of the next one. -/
theorem forall_mem_concat {elements : List Element} {node : Node}
    {starred : Bool} (hbefore : ∀ e ∈ elements, e.node.References P)
    (hnode : node.References P) :
    ∀ e ∈ elements ++ [⟨node, starred⟩], e.node.References P := by
  intro e he
  rcases List.mem_append.1 he with he | he
  · exact hbefore e he
  · rw [List.mem_singleton.1 he]
    exact hnode

mutual

/-- The references of items are those to their words. -/
private theorem Items.references
    (hword : ∀ word, (owner.reference word).References P) {t : Text}
    {elements : List Element} :
    Items owner t elements → ∀ e ∈ elements, e.node.References P
  | .nil => fun e he => by cases he
  | .blank before _ => before.references hword
  | .star before => by
      have h := before.references hword
      exact forall_mem_concat (fun e he => h e (List.mem_append_left _ he))
        (h _ (List.mem_append_right _ List.mem_cons_self))
  | .word before _ _ _ => forall_mem_concat (before.references hword) (hword _)
  | .literal before _ =>
      forall_mem_concat (before.references hword) (Node.references_literal _)
  | .group before inside =>
      forall_mem_concat (before.references hword)
        (references_chosen (inside.references hword))

/-- What holds of words holds of all references that are read. -/
private theorem Alternatives.references
    (hword : ∀ word, (owner.reference word).References P) {t : Text}
    {choices : List Node} :
    Alternatives owner t choices → ∀ c ∈ choices, c.References P
  | .last items _ => by
      intro c hc
      rw [List.mem_singleton.1 hc]
      exact references_sequenced (items.references hword)
  | .more items _ others =>
      List.forall_mem_cons.2
        ⟨references_sequenced (items.references hword), others.references hword⟩

end

/-- The references of a rule that was read are those to its words. -/
theorem parse_references {rule : Text} {node : Node}
    (hword : ∀ word, (owner.reference word).References P)
    (h : parse owner rule = .ok node) : node.References P := by
  obtain ⟨choices, hchoices, rfl⟩ := parseAt_sound _ _ _ _ h
  exact references_chosen (hchoices.references hword)

/-- A rule that was read refers to no primitive. -/
theorem parse_primitives {rule : Text} {node : Node} (Q : Primitive → Prop)
    (h : parse owner rule = .ok node) : node.Primitives Q := by
  refine parse_references (fun word => ?_) h
  refine Node.references_reference.2 fun scan hscan => ?_
  split at hscan
  · cases hscan
  · cases hscan

end Rule

-- ============================================================ built-in keys

/-- A key is that of a built-in or of none. -/
theorem Builtin.ofKey?_eq_some_iff {key : String} {b : Builtin} :
    Builtin.ofKey? key = some b ↔ b.key = key := by
  constructor
  · intro h
    have hkey := List.find?_some h
    simpa using hkey
  · rintro rfl
    exact Builtin.ofKey?_key b

/-- The lookup of built-in keys finds the character classes. -/
theorem Lookup.builtin_eq_found {key : String} {target : Target} :
    Lookup.builtin key = .found target
      ↔ ∃ b k, Builtin.key b = key ∧ b.charClass? = some k
        ∧ target = .primitive k.scan := by
  unfold Lookup.builtin
  constructor
  · intro h
    split at h
    · cases h
    · rename_i b hb
      split at h
      · rename_i k hk
        cases h
        exact ⟨b, k, Builtin.ofKey?_eq_some_iff.1 hb, hk, rfl⟩
      · cases h
  · rintro ⟨b, k, rfl, hk, rfl⟩
    rw [Builtin.ofKey?_key]
    simp [hk]

/-- A key that no built-in has is missing. -/
theorem Lookup.builtin_of_none {key : String} (h : Builtin.ofKey? key = none) :
    Lookup.builtin key = .missing := by
  unfold Lookup.builtin
  rw [h]

/-- A built-in that is no character class cannot be looked up. -/
theorem Lookup.builtin_eq_notScannable {key : String}
    (h : Lookup.builtin key = .notScannable) : ∃ b, Builtin.key b = key := by
  unfold Lookup.builtin at h
  split at h
  · cases h
  · rename_i b hb
    exact ⟨b, Builtin.ofKey?_eq_some_iff.1 hb⟩

/-- A key that is missing is that of no built-in. -/
theorem Lookup.builtin_eq_missing {key : String}
    (h : Lookup.builtin key = .missing) (b : Builtin) : b.key ≠ key := by
  intro hb
  unfold Lookup.builtin at h
  rw [Builtin.ofKey?_eq_some_iff.2 hb] at h
  cases hk : b.charClass? <;> simp [hk] at h

-- ============================================================== linking

section Linking

variable {σ : Type} {lookup : String → σ → Lookup × σ} {owner : String}

mutual

/-- What the pass does at each reference, it does to a tree. -/
theorem Node.link_references
    (hstep : ∀ key target l, P key target →
      (linkReference lookup owner key target l).1.References P) :
    ∀ (node : Node) (l : Linking σ), node.References P →
      (node.link lookup owner l).1.References P
  | .literal text, _, _ => Node.references_literal text
  | .reference key target, l, h =>
      hstep key target l (Node.references_reference.1 h)
  | .sequence elements, l, h =>
      Node.references_sequence.2
        (linkElements_references hstep elements l
          (Node.references_sequence.1 h))
  | .alternation choices, l, h =>
      Node.references_alternation.2
        (linkNodes_references hstep choices l (Node.references_alternation.1 h))

private theorem linkElements_references
    (hstep : ∀ key target l, P key target →
      (linkReference lookup owner key target l).1.References P) :
    ∀ (elements : List Element) (l : Linking σ),
      (∀ e ∈ elements, e.node.References P) →
      ∀ e ∈ (linkElements lookup owner elements l).1, e.node.References P
  | [], l, _ => fun e he => by cases he
  | ⟨node, starred⟩ :: rest, l, h => by
      obtain ⟨hnode, hrest⟩ := List.forall_mem_cons.1 h
      rw [linkElements]
      exact List.forall_mem_cons.2
        ⟨Node.link_references hstep node l hnode,
          linkElements_references hstep rest _ hrest⟩

private theorem linkNodes_references
    (hstep : ∀ key target l, P key target →
      (linkReference lookup owner key target l).1.References P) :
    ∀ (choices : List Node) (l : Linking σ), (∀ c ∈ choices, c.References P) →
      ∀ c ∈ (linkNodes lookup owner choices l).1, c.References P
  | [], l, _ => fun c hc => by cases hc
  | node :: rest, l, h => by
      obtain ⟨hnode, hrest⟩ := List.forall_mem_cons.1 h
      rw [linkNodes]
      exact List.forall_mem_cons.2
        ⟨Node.link_references hstep node l hnode,
          linkNodes_references hstep rest _ hrest⟩

end

/-- A reference after its turn is the one it was, or the one that the
lookup finds. -/
theorem linkReference_references {key : String} {target : Option Target}
    {l : Linking σ} (hkept : P key target)
    (hfound : ∀ new, key ≠ owner → (lookup key l.state).1 = .found new →
      P key (some new)) :
    (linkReference lookup owner key target l).1.References P := by
  unfold linkReference
  split
  · exact Node.references_reference.2 hkept
  · rename_i hpasses
    split
    · rename_i new state hnew
      refine Node.references_reference.2 (hfound new ?_ ?_)
      · exact fun howner => hpasses (.inr howner)
      · rw [hnew]
    · exact Node.references_reference.2 hkept
    · exact Node.references_reference.2 hkept

variable {Q : Primitive → Prop}

/-- A pass brings in no primitives that are not found. -/
private theorem linkReference_primitives
    (hlookup : ∀ key state scan,
      (lookup key state).1 = .found (.primitive scan) → Q scan)
    (key : String) (target : Option Target) (l : Linking σ)
    (h : ∀ scan, target = some (.primitive scan) → Q scan) :
    (linkReference lookup owner key target l).1.Primitives Q := by
  refine linkReference_references h fun new _ hnew scan hscan => ?_
  obtain rfl := Option.some.inj hscan
  exact hlookup key l.state scan hnew

/-- So does a pass over expressions. -/
private theorem linkExpressions_primitives
    (hlookup : ∀ key state scan,
      (lookup key state).1 = .found (.primitive scan) → Q scan)
    (expressions : List Expression) (l : Linking σ)
    (h : ∀ e ∈ expressions, e.root.Primitives Q) :
    ∀ e ∈ (linkExpressions lookup expressions l).1, e.root.Primitives Q := by
  induction expressions generalizing l with
  | nil => exact fun e he => by cases he
  | cons e rest ih =>
      obtain ⟨key, root⟩ := e
      obtain ⟨hroot, hrest⟩ := List.forall_mem_cons.1 h
      rw [linkExpressions]
      exact List.forall_mem_cons.2
        ⟨Node.link_references (linkReference_primitives hlookup) root l hroot,
          ih _ hrest⟩

end Linking

namespace ExpressionSet

variable {Q : Primitive → Prop} {s : ExpressionSet}

/-- The empty set has no primitives. -/
theorem primitives_empty : empty.Primitives Q :=
  fun e he => absurd he (Array.not_mem_empty e)

/-- An expression that is added brings in the primitives of its tree. -/
theorem primitives_push {e : Expression} (hs : s.Primitives Q)
    (he : e.root.Primitives Q) : (s.push e).Primitives Q := by
  intro e' he'
  rcases Array.mem_push.1 he' with he' | rfl
  · exact hs e' he'
  · exact he

/-- Linking brings in no primitives but those that the lookup finds. -/
theorem link_primitives {lookup : String → Lookup}
    (hlookup : ∀ key scan, lookup key = .found (.primitive scan) → Q scan)
    (hs : s.Primitives Q) : (s.link lookup).set.Primitives Q := by
  intro e he
  exact @linkExpressions_primitives Unit (fun key state =>
    (lookup key, state)) Q
    (fun key _ scan => hlookup key scan) s.expressions.toList ⟨(), [], none⟩
    (fun e he => hs e (Array.mem_toList_iff.1 he)) e (List.mem_toArray.1 he)

end ExpressionSet

end Munch
