/-
Trees written as rules.

`Node.print` writes words as they are and literals between quotes, puts a
space between items, a star behind those that may occur again, a bar
between alternatives, and parentheses around every choice or sequence
that stands within another tree. So an item of a printed rule never
depends on what is printed around it, and its own contents are a rule
again.

Of a canonical tree the grammar takes the printed text for a rule of just
that tree (`spells_print`, by induction on the tree), so it is read
back as it was. The main result, `canonical_iff_parse_print`, says that
the canonical trees are exactly those that can be read from a rule, and
exactly those that come back.
-/
import Munch.Proofs.Rule.Canonical
import Munch.Proofs.Rule.Completeness

namespace Munch

-- ============================================================= printing

/-- The printed form of a tree as an item among others. -/
def Node.grouped : Node → Text → Text
  | .sequence _, t | .alternation _, t => '(' :: (t ++ [')'])
  | _, t => t

mutual

/-- A tree as the text of a rule. -/
def Node.print : Node → Text
  | .literal text => '"' :: (text ++ ['"'])
  | .reference key _ => key.toList
  | .sequence elements => List.intercalate [' '] (printElements elements)
  | .alternation choices => List.intercalate ['|'] (printNodes choices)

/-- The items of a sequence, each with its star. -/
def printElements : List Element → List Text
  | [] => []
  | ⟨node, starred⟩ :: rest =>
      (node.grouped node.print ++ if starred then ['*']
        else []) :: printElements rest

/-- The alternatives of a choice. -/
def printNodes : List Node → List Text
  | [] => []
  | node :: rest => node.grouped node.print :: printNodes rest

end

namespace Rule

variable {owner : Owner} {t : Text} {before elements : List Element}

-- ============================================================= one item

/-- A tree whose printed form is a rule of it can be printed as an
item. -/
theorem Items.grouped {node : Node} (ht : Items owner t before)
    (apart : ∀ c ∈ t.getLast?, ¬ IsWordChar c) (h : node.Canonical owner)
    (hnode : Spells owner node.print node) :
    Items owner (t ++ node.grouped node.print) (before ++ [⟨node, false⟩]) := by
  obtain ⟨choices, hchoices, hchosen⟩ := hnode
  cases node with
  | literal text => exact .literal ht (body_iff.2 (Node.canonical_literal.1 h))
  | reference key target =>
      obtain ⟨filled, chars, rfl⟩ := Node.canonical_reference.1 h
      have hword := Items.word ht filled chars apart
      rw [Owner.reference, String.ofList_toList] at hword
      exact hword
  | sequence elements =>
      have hgroup := Items.group ht hchoices
      rw [← hchosen] at hgroup
      exact hgroup
  | alternation choices =>
      have hgroup := Items.group ht hchoices
      rw [← hchosen] at hgroup
      exact hgroup

/-- The same with the star that the item may have. -/
theorem Items.starred {node : Node} (starred : Bool) (ht : Items owner t before)
    (apart : ∀ c ∈ t.getLast?, ¬ IsWordChar c) (h : node.Canonical owner)
    (hnode : Spells owner node.print node) :
    Items owner (t ++ (node.grouped node.print ++ if starred then ['*']
      else []))
      (before ++ [⟨node, starred⟩]) := by
  have hitem := ht.grouped apart h hnode
  cases starred with
  | true =>
      rw [← List.append_assoc]
      exact .star hitem
  | false =>
      rw [if_neg Bool.false_ne_true, List.append_nil]
      exact hitem

/-- Behind a space any item can follow. -/
theorem apart_space (t : Text) :
    ∀ c ∈ (t ++ [' ']).getLast?, ¬ IsWordChar c := by
  intro c hc
  rw [List.getLast?_concat] at hc
  obtain rfl := Option.some.inj hc
  exact fun hword => hword.not_blank (by decide)

-- ============================================================= all of them

/-- Of a single item without a star the tree is the item. -/
theorem sequenced_canonical (h : (Node.sequence elements).Regular owner) :
    sequenced elements = .sequence elements := by
  match elements with
  | [] => rfl
  | [⟨node, true⟩] => rfl
  | [⟨node, false⟩] => exact absurd (h.2 _ rfl) Bool.false_ne_true
  | ⟨_, true⟩ :: _ :: _ => rfl
  | ⟨_, false⟩ :: _ :: _ => rfl

mutual

/-- The printed items of a sequence are items, behind whatever they
follow. -/
theorem Items.print :
    ∀ elements : List Element, (∀ e ∈ elements, e.node.Canonical owner) →
      ∀ {t : Text} {before : List Element}, Items owner t before →
        (∀ c ∈ t.getLast?, ¬ IsWordChar c) →
        Items owner (t ++ List.intercalate [' '] (printElements elements))
          (before ++ elements)
  | [], _, t, before, ht, _ => by
      rw [printElements, List.intercalate_nil, List.append_nil, List.append_nil]
      exact ht
  | [⟨node, starred⟩], h, t, before, ht, apart => by
      have hnode := h _ List.mem_cons_self
      have hspells := spells_print node hnode
      rw [printElements, printElements, List.intercalate_singleton]
      exact ht.starred starred apart hnode hspells
  | ⟨node, starred⟩ :: ⟨next, starred'⟩ :: rest, h, t, before, ht, apart => by
      obtain ⟨hnode, hrest⟩ := List.forall_mem_cons.1 h
      have hspells := spells_print node hnode
      have hspace : isBlank ' ' = true := by decide
      have hitem := (ht.starred starred apart hnode hspells).blank hspace
      have hitems :=
        Items.print (⟨next, starred'⟩ :: rest) hrest hitem (apart_space _)
      rw [printElements] at hitems
      rw [printElements, printElements, List.intercalate_cons_cons]
      simpa only [List.append_assoc, List.singleton_append] using hitems

/-- The printed alternatives of a choice are alternatives. -/
theorem Alternatives.print : ∀ choices : List Node, choices ≠ [] →
    (∀ c ∈ choices, c.Canonical owner) →
    Alternatives owner (List.intercalate ['|'] (printNodes choices)) choices
  | [], filled, _ => absurd rfl filled
  | [node], _, h => by
      have hnode := h _ List.mem_cons_self
      have hspells := spells_print node hnode
      have hitem := Items.nil.grouped (by simp) hnode hspells
      rw [printNodes, printNodes, List.intercalate_singleton]
      exact .last hitem (List.cons_ne_nil _ _)
  | node :: c :: rest, _, h => by
      obtain ⟨hnode, hrest⟩ := List.forall_mem_cons.1 h
      have hspells := spells_print node hnode
      have hitem := Items.nil.grouped (by simp) hnode hspells
      have hothers :=
        Alternatives.print (c :: rest) (List.cons_ne_nil _ _) hrest
      rw [printNodes] at hothers
      rw [printNodes, printNodes, List.intercalate_cons_cons, List.append_assoc]
      exact .more hitem (List.cons_ne_nil _ _) hothers

/-- The printed form of a canonical tree is a rule of that tree. -/
theorem spells_print : ∀ node : Node, node.Canonical owner →
    Spells owner node.print node
  | .literal text, h => by
      have hbody := body_iff.2 (Node.canonical_literal.1 h)
      exact ⟨_, .last (.literal .nil hbody) (List.cons_ne_nil _ _), rfl⟩
  | .reference key target, h => by
      obtain ⟨filled, chars, rfl⟩ := Node.canonical_reference.1 h
      have hword :
          Items owner key.toList [⟨owner.reference key.toList, false⟩] :=
        .word .nil filled chars (by simp)
      rw [Owner.reference, String.ofList_toList] at hword
      exact ⟨_, .last hword (List.cons_ne_nil _ _), rfl⟩
  | .sequence elements, h => by
      obtain ⟨helements, hregular⟩ := Node.canonical_sequence.1 h
      have hitems := Items.print elements helements .nil (by simp)
      refine ⟨_, .last hitems hregular.1, ?_⟩
      exact (sequenced_canonical hregular).symm
  | .alternation choices, h => by
      obtain ⟨hchoices, hregular⟩ := Node.canonical_alternation.1 h
      have hlength : 2 ≤ choices.length := hregular
      refine ⟨choices, Alternatives.print choices ?_ hchoices,
        (chosen_of_two_le hlength).symm⟩
      rintro rfl
      cases hlength

end

/-- The canonical trees are those that can be read from some rule, and
each is read back from its printed form. -/
theorem canonical_iff_parse_print (owner : Owner) (node : Node) :
    (node.Canonical owner ↔ ∃ rule, parse owner rule = .ok node)
      ∧ (node.Canonical owner ↔ parse owner node.print = .ok node) := by
  have hprint : node.Canonical owner → parse owner node.print = .ok node := by
    intro h
    obtain ⟨choices, hchoices, hchosen⟩ := spells_print node h
    rw [hchosen]
    exact parseAt_complete _ _ _ _ (Nat.le_refl _) (hchosen ▸ hchoices)
  constructor
  · constructor
    · exact fun h => ⟨node.print, hprint h⟩
    · rintro ⟨rule, h⟩
      exact parse_canonical h
  · exact ⟨hprint, parse_canonical⟩

example : (Node.sequence [⟨.reference "Item" none, true⟩,
      ⟨.alternation [.literal ['|'], .sequence [⟨.literal ['('], true⟩]],
        true⟩]).print
    = "Item* (\"|\"|(\"(\"*))*".toList := by
  rfl

end Rule

end Munch
