/-
The trees that rules have.

A rule cannot make every tree: it has no choice with a single
alternative, no sequence of a single item without a star, no reference to
a key that is no word, and no literal that a quote would end too early.
A tree without such a node is `Node.Canonical`.

What may stand in a literal is told here by the walk over it
(`Rule.Enclosed`): from the opening quote on it never comes outside, and
it ends where a quote would close it. That is the same as being a body of
the grammar (`Rule.body_iff`).

The main result is `Rule.parse_canonical`, which follows the grammar.
-/
import Mathlib.Data.List.Induction
import Munch.Proofs.Expr.References
import Munch.Proofs.Rule.Soundness

namespace Munch

-- ============================================================= literals

namespace Rule

/-- The place relative to literals that a stretch of text leads to. -/
def Quote.after (q : Quote) (t : Text) : Quote := t.foldl next q

/-- A text that can be put between quotes: no part of it leads out of the
literal, and at its end a quote closes the literal. -/
structure Enclosed (t : Text) : Prop where
  within : ∀ front rest, t = front ++ rest →
    Quote.after .inside front ≠ .outside
  closed : Quote.after .inside t = .inside

private theorem Quote.after_concat (q : Quote) (t : Text) (c : Char) :
    q.after (t ++ [c]) = (q.after t).next c :=
  List.foldl_append

/-- The quotes of a walk do not depend on its groups. -/
theorem quote_after (p : Place) (t : Text) :
    (p.after t).quote = p.quote.after t := by
  induction t generalizing p with
  | nil => rfl
  | cons c t ih => exact ih (p.next c)

/-- A text that never leads out of a literal is a part of one. -/
theorem inBody_of_within {t : Text}
    (h : ∀ front rest, t = front ++ rest →
      Quote.after .inside front ≠ .outside) :
    InBody (Quote.after .inside t) t := by
  induction t using List.reverseRecOn with
  | nil => exact .nil
  | append_singleton t c ih =>
      have hbefore := ih fun front rest ht =>
        h front (rest ++ [c]) (by rw [ht, List.append_assoc])
      have hend : ¬ (Quote.after .inside t = .inside ∧ c = '"') := by
        rintro ⟨hquote, rfl⟩
        refine h (t ++ ['"']) [] (List.append_nil _).symm ?_
        rw [Quote.after_concat, hquote]
        rfl
      rw [Quote.after_concat]
      exact hbefore.next hend

/-- The body of a literal can be written between quotes. -/
theorem Body.enclosed {body : Text} (h : Body body) : Enclosed body := by
  obtain ⟨hvisits, hafter⟩ := h.loops 0
  have hclosed : Quote.after .inside body = .inside := by
    have hquote := quote_after ⟨.inside, 0⟩ body
    rw [hafter] at hquote
    exact hquote.symm
  refine ⟨fun front rest hbody => ?_, hclosed⟩
  subst hbody
  cases rest with
  | nil =>
      rw [List.append_nil] at hclosed
      rw [hclosed]
      exact Quote.noConfusion
  | cons c rest =>
      -- the character behind the part is still in the literal
      obtain ⟨hcovered, -⟩ := (visits_append.1 hvisits).2
      have hquote := hcovered.1
      rw [quote_after] at hquote
      exact hquote

/-- What can be put between quotes are the bodies of literals. -/
theorem body_iff {t : Text} : Body t ↔ Enclosed t := by
  constructor
  · exact Body.enclosed
  · rintro ⟨hwithin, hclosed⟩
    have hbody := inBody_of_within hwithin
    rw [hclosed] at hbody
    exact hbody

end Rule

-- ================================================================ trees

open Rule (Owner Enclosed IsWordChar)

/-- A node that a rule of this owner can make. -/
def Node.Regular (owner : Owner) : Node → Prop
  | .literal text => Enclosed text
  | .reference key target =>
      key.toList ≠ [] ∧ (∀ c ∈ key.toList, IsWordChar c)
        ∧ target = if key = owner.key then some (.expression owner.index)
          else none
  | .sequence elements => elements ≠ [] ∧ ∀ e, elements = [e] → e.starred = true
  | .alternation choices => 2 ≤ choices.length

/-- A tree all of whose nodes a rule of this owner can make. -/
def Node.Canonical (owner : Owner) (tree : Node) : Prop :=
  ∀ n ∈ tree.postorder, n.Regular owner

namespace Node

variable {owner : Owner}

/-- A literal is canonical if it can be written between quotes. -/
theorem canonical_literal {text : Text} :
    (Node.literal text).Canonical owner ↔ Enclosed text := by
  simp [Canonical, postorder, Regular]

/-- A reference is canonical if it is regular. -/
theorem canonical_reference {key : String} {target : Option Target} :
    (Node.reference key target).Canonical owner
      ↔ (Node.reference key target).Regular owner := by
  simp [Canonical, postorder]

/-- A sequence is canonical if its items are and it is regular. -/
theorem canonical_sequence {elements : List Element} :
    (Node.sequence elements).Canonical owner
      ↔ (∀ e ∈ elements, e.node.Canonical owner)
        ∧ (Node.sequence elements).Regular owner := by
  unfold Canonical
  rw [postorder, List.forall_mem_append, List.forall_mem_singleton]
  refine and_congr_left' ⟨fun h e he n hn => ?_, fun h n hn => ?_⟩
  · exact h n (mem_postorderElements.2 ⟨e, he, hn⟩)
  · obtain ⟨e, he, hmem⟩ := mem_postorderElements.1 hn
    exact h e he n hmem

/-- An alternation is canonical if its choices are and it is regular. -/
theorem canonical_alternation {choices : List Node} :
    (Node.alternation choices).Canonical owner
      ↔ (∀ c ∈ choices, c.Canonical owner)
        ∧ (Node.alternation choices).Regular owner := by
  unfold Canonical
  rw [postorder, List.forall_mem_append, List.forall_mem_singleton]
  refine and_congr_left' ⟨fun h c hc n hn => ?_, fun h n hn => ?_⟩
  · exact h n (mem_postorderNodes.2 ⟨c, hc, hn⟩)
  · obtain ⟨c, hc, hmem⟩ := mem_postorderNodes.1 hn
    exact h c hc n hmem

end Node

namespace Rule

variable {owner : Owner}

-- ====================================================== trees of a rule

/-- A word is read as a canonical reference. -/
private theorem canonical_word {word : Text} (filled : word ≠ [])
    (chars : ∀ c ∈ word, IsWordChar c) :
    (owner.reference word).Canonical owner := by
  refine Node.canonical_reference.2 ⟨?_, ?_, rfl⟩
  · rw [String.toList_ofList]
    exact filled
  · rw [String.toList_ofList]
    exact chars

/-- The tree of an alternative: a single item without a star stands for
itself. -/
theorem canonical_sequenced {elements : List Element} (filled : elements ≠ [])
    (h : ∀ e ∈ elements, e.node.Canonical owner) :
    (sequenced elements).Canonical owner := by
  unfold sequenced
  split
  · exact h _ List.mem_cons_self
  · rename_i hplain
    refine Node.canonical_sequence.2 ⟨h, filled, ?_⟩
    rintro ⟨node, starred⟩ rfl
    cases starred with
    | true => rfl
    | false => exact absurd rfl (hplain node)

/-- The tree of a rule: a single alternative stands for itself. -/
theorem canonical_chosen {choices : List Node} (filled : choices ≠ [])
    (h : ∀ c ∈ choices, c.Canonical owner) :
    (chosen choices).Canonical owner := by
  unfold chosen
  split
  · exact h _ List.mem_cons_self
  · rename_i hplain
    refine Node.canonical_alternation.2 ⟨h, ?_⟩
    show 2 ≤ choices.length
    match choices with
    | [] => exact absurd rfl filled
    | [c] => exact absurd rfl (hplain c)
    | _ :: _ :: _ => simp

/-- Items before the next one, and the next one. -/
theorem canonical_concat {elements : List Element} {node : Node}
    {starred : Bool} (hbefore : ∀ e ∈ elements, e.node.Canonical owner)
    (hnode : node.Canonical owner) :
    ∀ e ∈ elements ++ [⟨node, starred⟩], e.node.Canonical owner :=
  List.forall_mem_append.2 ⟨hbefore, List.forall_mem_singleton.2 hnode⟩

mutual

/-- Items that are read are canonical. -/
private theorem Items.canonical {t : Text} {elements : List Element} :
    Items owner t elements → ∀ e ∈ elements, e.node.Canonical owner
  | .nil => fun _ he => absurd he List.not_mem_nil
  | .blank before _ => before.canonical
  | .star before => by
      obtain ⟨hbefore, hlast⟩ := List.forall_mem_append.1 before.canonical
      exact canonical_concat hbefore (hlast _ List.mem_cons_self)
  | .word before filled chars _ =>
      canonical_concat before.canonical (canonical_word filled chars)
  | .literal before inside =>
      canonical_concat before.canonical
        (Node.canonical_literal.2 inside.enclosed)
  | .group before inside =>
      canonical_concat before.canonical
        (canonical_chosen inside.choices_ne_nil inside.canonical)

/-- Alternatives that are read are canonical. -/
private theorem Alternatives.canonical {t : Text} {choices : List Node} :
    Alternatives owner t choices → ∀ c ∈ choices, c.Canonical owner
  | .last items filled =>
      List.forall_mem_singleton.2 (canonical_sequenced filled items.canonical)
  | .more items filled others =>
      List.forall_mem_cons.2
        ⟨canonical_sequenced filled items.canonical, others.canonical⟩

end

/-- What is read from a rule is canonical. -/
theorem parse_canonical {rule : Text} {node : Node}
    (h : parse owner rule = .ok node) : node.Canonical owner := by
  obtain ⟨choices, hchoices, rfl⟩ := parseAt_sound _ _ _ _ h
  exact canonical_chosen hchoices.choices_ne_nil hchoices.canonical

end Rule

end Munch
