/-
A rule reads alike whatever expression it belongs to.

The owner of a rule comes in at one place only, the words that are its
own key: their references lead back to it, and all others wait. So the
text of a rule alone decides whether it can be read, and its tree but for
the targets (`parse_of_owner`). The grammar says so by induction, rule by
rule, and the parser follows it both ways.
-/
import Munch.Proofs.Expr.Retarget
import Munch.Proofs.Rule.Completeness

namespace Munch.Rule

/-- The targets that a rule gives to its references: only those to the
owner's own key have one. -/
def Owner.target (owner : Owner) (key : String) (_ : Option Target) :
    Option Target :=
  if key = owner.key then some (.expression owner.index) else none

variable {owner : Owner}

private theorem retarget_sequenced {f : String → Option Target → Option Target}
    (elements : List Element) :
    (sequenced elements).retarget f
      = sequenced (elements.map fun e => ⟨e.node.retarget f, e.starred⟩) := by
  match elements with
  | [] => rfl
  | [⟨node, false⟩] => rfl
  | [⟨node, true⟩] => rfl
  | ⟨node, starred⟩ :: e :: rest =>
      have hmore : sequenced (⟨node, starred⟩ :: e :: rest)
          = .sequence (⟨node, starred⟩ :: e :: rest) := by
        cases starred <;> rfl
      rw [hmore, Node.retarget, retargetElements_eq_map]
      cases starred <;> rfl

private theorem retarget_chosen {f : String → Option Target → Option Target}
    (choices : List Node) :
    (chosen choices).retarget f = chosen (choices.map (·.retarget f)) := by
  match choices with
  | [] => rfl
  | [node] => rfl
  | c :: c' :: rest =>
      show Node.alternation (retargetNodes f (c :: c' :: rest)) = _
      rw [retargetNodes_eq_map]
      rfl

mutual

/-- Items are items for another owner too, with that owner's targets. -/
private theorem Items.of_owner (other : Owner) {t : Text}
    {elements : List Element} :
    Items owner t elements →
    Items other t (elements.map fun e =>
      ⟨e.node.retarget other.target, e.starred⟩)
  | .nil => .nil
  | .blank before white => .blank (before.of_owner other) white
  | .star before => by
      have ih := before.of_owner other
      rw [List.map_append] at ih ⊢
      exact .star ih
  | .word before filled chars apart => by
      rw [List.map_append]
      exact .word (before.of_owner other) filled chars apart
  | .literal before inside => by
      rw [List.map_append]
      exact .literal (before.of_owner other) inside
  | .group before inside => by
      rw [List.map_append]
      simp only [List.map_cons, List.map_nil, retarget_chosen]
      exact .group (before.of_owner other) (inside.of_owner other)

/-- Alternatives are read alike for another owner, but for its own references.
-/
private theorem Alternatives.of_owner (other : Owner) {t : Text}
    {choices : List Node} :
    Alternatives owner t choices →
    Alternatives other t (choices.map (·.retarget other.target))
  | .last items filled => by
      rw [List.map_singleton, retarget_sequenced]
      exact .last (items.of_owner other) (by simpa using filled)
  | .more items filled others => by
      rw [List.map_cons, retarget_sequenced]
      exact .more (items.of_owner other) (by simpa using filled)
        (others.of_owner other)

end

/-- A rule is one for every owner, and its trees differ in nothing but
targets. -/
theorem Spells.of_owner (other : Owner) {rule : Text} {root : Node}
    (h : Spells owner rule root) :
    Spells other rule (root.retarget other.target) := by
  obtain ⟨choices, hchoices, rfl⟩ := h
  exact ⟨_, hchoices.of_owner other, retarget_chosen choices⟩

/-- A rule that one owner can read every owner can, and what it reads
differs in nothing but targets. -/
theorem parse_of_owner (other : Owner) {rule : Text} {root : Node}
    (h : parse owner rule = .ok root) :
    parse other rule = .ok (root.retarget other.target) := by
  rw [parse_eq_ok_iff] at h ⊢
  exact h.of_owner other

end Munch.Rule
