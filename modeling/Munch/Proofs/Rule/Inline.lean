/-
A rule with another one, in parentheses, in the place of a word.

The words of a rule can be told from its text alone: a run of characters
that words are made of, outside literals and between characters that
words are not made of, is a word (`WordAt`). The rule can have a group
instead. Then it can still be read, and its tree has the tree of the
group in the one place where it had the reference
(`Spells.inline`).

The proof follows the grammar. What a constructor adds at the end of a
text begins with a character that is in no word, so the word stands
before it or behind it (`WordAt.split`), and is a whole word of the part
where it stands (`WordAt.left`, `WordAt.right`). Only a word can be added
that is the one in question itself (`WordAt.split_word`).
-/
import Munch.Proofs.Expr.Equivalence
import Munch.Proofs.Rule.Canonical
import Munch.Proofs.Rule.Completeness

namespace Munch.Rule

-- ================================================================= words

instance (c : Char) : Decidable (IsWordChar c) :=
  inferInstanceAs (Decidable (_ ∧ _))

/-- A text that can be a word. -/
structure IsWord (word : Text) : Prop where
  filled : word ≠ []
  chars : ∀ c ∈ word, IsWordChar c

/-- Between these two texts, which make up a rule with it, the text is a
whole word of the rule. -/
structure WordAt (before word after : Text) : Prop extends IsWord word where
  outside : Quote.after .outside before = .outside
  front : ∀ c ∈ before.getLast?, ¬ IsWordChar c
  back : ∀ c ∈ after.head?, ¬ IsWordChar c

/-- A rule in parentheses. -/
def grouped (rule : Text) : Text := '(' :: (rule ++ [')'])

private theorem not_isWordChar_of_blank {c : Char} (h : isBlank c = true) :
    ¬ IsWordChar c :=
  fun hc => hc.not_blank h

private theorem not_isWordChar_of_mem {c : Char}
    (h : c ∈ ['*', '"', '(', ')', '|']) : ¬ IsWordChar c :=
  fun hc => hc.2 h

/-- Behind what no word can go on with there is nothing of a word. -/
theorem nil_of_apart {t u : Text}
    (apart : ∀ c ∈ (t ++ u).getLast?, ¬ IsWordChar c)
    (chars : ∀ c ∈ u, IsWordChar c) : u = [] := by
  by_contra hne
  apply apart (u.getLast hne)
  · rw [List.getLast?_append, List.getLast?_eq_some_getLast hne]
    rfl
  · exact chars _ (List.getLast_mem hne)

/-- A text of word characters that begins with none is empty. -/
private theorem nil_of_apart_head {u : Text}
    (apart : ∀ c ∈ u.head?, ¬ IsWordChar c) (chars : ∀ c ∈ u, IsWordChar c) :
    u = [] := by
  cases u with
  | nil => rfl
  | cons c u => exact absurd (chars c List.mem_cons_self) (apart c rfl)

section Split

variable {before word after x y k : Text} {c : Char}

/-- A word is on one side of a character that is in no word. -/
theorem IsWord.split (h : IsWord word) (hc : ¬ IsWordChar c)
    (ht : x ++ c :: y = before ++ (word ++ after)) :
    (∃ k, x = before ++ (word ++ k) ∧ after = k ++ c :: y)
      ∨ ∃ k, before = x ++ c :: k ∧ y = k ++ (word ++ after) := by
  have hword : ∀ k tail, word ≠ k ++ c :: tail := by
    intro k tail hk
    exact hc (h.chars c (hk ▸ List.mem_append_cons_self))
  rcases List.append_eq_append_iff.1 ht with ⟨k, rfl, hk⟩ | ⟨k, rfl, hk⟩
  · rcases List.append_eq_cons_iff.1 hk.symm with ⟨-, hfirst⟩ | ⟨k, rfl, rfl⟩
    · rcases List.append_eq_cons_iff.1 hfirst with ⟨hnil, -⟩ | ⟨tail, htail, -⟩
      · exact absurd hnil h.filled
      · exact absurd htail (hword [] tail)
    · exact .inr ⟨k, rfl, rfl⟩
  · rcases List.append_eq_append_iff.1 hk
      with ⟨k, rfl, hafter⟩ | ⟨tail, htail, hafter⟩
    · exact .inl ⟨k, rfl, hafter⟩
    · rcases List.append_eq_cons_iff.1 hafter.symm
        with ⟨rfl, hrest⟩ | ⟨tail, rfl, -⟩
      · rw [List.append_nil] at htail
        exact .inl ⟨[], by rw [htail, List.append_nil], hrest⟩
      · exact absurd htail (hword k tail)

/-- It is not behind the last character, either. -/
theorem IsWord.split_last (h : IsWord word) (hc : ¬ IsWordChar c)
    (ht : x ++ [c] = before ++ (word ++ after)) :
    ∃ k, x = before ++ (word ++ k) ∧ after = k ++ [c] := by
  rcases h.split hc ht with hleft | ⟨k, -, hright⟩
  · exact hleft
  · have hnil :=
      List.append_eq_nil_iff.1 (List.append_eq_nil_iff.1 hright.symm).2
    exact absurd hnil.1 h.filled

/-- Of two whole words the one is before the other, or they are the
same. -/
theorem WordAt.split_word {t added : Text} (h : WordAt before word after)
    (chars : ∀ c ∈ added, IsWordChar c)
    (apart : ∀ c ∈ t.getLast?, ¬ IsWordChar c)
    (ht : t ++ added = before ++ (word ++ after)) :
    (∃ k, t = before ++ (word ++ k) ∧ after = k ++ added)
      ∨ t = before ∧ added = word ∧ after = [] := by
  rcases List.append_eq_append_iff.1 ht with ⟨k, rfl, rfl⟩ | ⟨k, rfl, hk⟩
  · obtain ⟨hk, hchars⟩ := List.forall_mem_append.1 chars
    obtain rfl := nil_of_apart h.front hk
    obtain rfl := nil_of_apart_head h.back (List.forall_mem_append.1 hchars).2
    exact .inr ⟨(List.append_nil t).symm, List.append_nil word, rfl⟩
  · rcases List.append_eq_append_iff.1 hk
      with ⟨k, rfl, hafter⟩ | ⟨tail, rfl, rfl⟩
    · exact .inl ⟨k, rfl, hafter⟩
    · obtain rfl := nil_of_apart apart (List.forall_mem_append.1 h.chars).1
      obtain rfl := nil_of_apart_head h.back (List.forall_mem_append.1 chars).2
      exact .inr ⟨List.append_nil before, List.append_nil tail, rfl⟩

/-- A whole word of a text is one of the part in front of something
else. -/
theorem WordAt.left (h : WordAt before word (k ++ y)) :
    WordAt before word k where
  filled := h.filled
  chars := h.chars
  outside := h.outside
  front := h.front
  back c hc := by
    apply h.back c
    rw [List.head?_append, Option.mem_def.1 hc]
    rfl

/-- So it is of the part behind what does not open a literal. -/
theorem WordAt.right (h : WordAt (x ++ c :: k) word after)
    (hx : Quote.after .outside x = .outside) (hc : c ≠ '"') :
      WordAt k word after where
  filled := h.filled
  chars := h.chars
  outside := by
    have hk : ((Quote.after .outside x).next c).after k = .outside :=
      List.foldl_append.symm.trans h.outside
    have hnext : Quote.next .outside c = .outside := if_neg hc
    rwa [hx, hnext] at hk
  front d hd := by
    apply h.front d
    rw [List.getLast?_append, List.getLast?_cons, Option.mem_def.1 hd]
    rfl
  back := h.back

end Split

-- ============================================================= one place

/-- Lists that differ in one place, and there by the relation. -/
inductive AtOne {α : Type} (R : α → α → Prop) : List α → List α → Prop
  | intro {a b : α} (front back : List α) (differ : R a b) :
      AtOne R (front ++ a :: back) (front ++ b :: back)

/-- An item with the same star, and a new node in one place. -/
structure ReplacesItem (old new : Node) (e e' : Element) : Prop where
  node : Node.Replaces old new e.node e'.node
  starred : e.starred = e'.starred

namespace AtOne

variable {α : Type} {R : α → α → Prop} {l l' : List α} {a b : α}

private theorem head (h : R a b) (l : List α) : AtOne R (a :: l) (b :: l) :=
  .intro [] l h

private theorem cons (h : AtOne R l l') (a : α) :
    AtOne R (a :: l) (a :: l') := by
  cases h with
  | intro front back h => exact .intro (a :: front) back h

private theorem last (h : R a b) (l : List α) : AtOne R (l ++ [a]) (l ++ [b]) :=
  .intro l [] h

private theorem concat (h : AtOne R l l') (a : α) :
    AtOne R (l ++ [a]) (l' ++ [a]) := by
  cases h with
  | intro front back h =>
      simp only [List.append_assoc, List.cons_append]
      exact .intro front (back ++ [a]) h

/-- Lists differ in their last place or before it. -/
theorem of_concat (h : AtOne R (l ++ [a]) l') :
    (∃ m, l' = m ++ [a] ∧ AtOne R l m) ∨ ∃ b, l' = l ++ [b] ∧ R a b := by
  generalize hl : l ++ [a] = k at h
  cases h with
  | @intro c d front back h =>
      rcases List.eq_nil_or_concat back with rfl | ⟨back, e, rfl⟩
      · obtain ⟨rfl, hlast⟩ := List.append_inj' hl rfl
        obtain rfl := List.singleton_inj.1 hlast
        exact .inr ⟨d, rfl, h⟩
      · rw [List.concat_eq_append, ← List.cons_append, ← List.append_assoc]
          at hl
        obtain ⟨rfl, hlast⟩ := List.append_inj' hl rfl
        obtain rfl := List.singleton_inj.1 hlast
        refine .inl ⟨front ++ d :: back, ?_, .intro front back h⟩
        simp

private theorem ne_nil (h : AtOne R l l') : l' ≠ [] := by
  cases h with
  | intro front back h => simp

end AtOne

section Replaced

variable {old new : Node}

/-- Items with a new node in one place make an alternative with the new
node in one place. -/
theorem AtOne.sequenced {elements elements' : List Element}
    (h : AtOne (ReplacesItem old new) elements elements') :
    Node.Replaces old new (sequenced elements) (sequenced elements') := by
  cases h with
  | @intro e e' front back h =>
      obtain ⟨node, starred⟩ := e
      obtain ⟨node', starred'⟩ := e'
      obtain ⟨hnode, rfl⟩ : Node.Replaces old new node node'
          ∧ starred = starred' :=
        ⟨h.node, h.starred⟩
      -- both lists are a single item without a star, or both sequences
      match front, back, starred with
      | [], [], false => exact hnode
      | [], [], true => exact .item [] [] true hnode
      | [], e :: back, true => exact .item [] (e :: back) true hnode
      | [], e :: back, false => exact .item [] (e :: back) false hnode
      | [⟨first, true⟩], back, starred =>
          exact .item [⟨first, true⟩] back starred hnode
      | [⟨first, false⟩], back, starred =>
          exact .item [⟨first, false⟩] back starred hnode
      | ⟨first, true⟩ :: e :: front, back, starred =>
          exact .item (⟨first, true⟩ :: e :: front) back starred hnode
      | ⟨first, false⟩ :: e :: front, back, starred =>
          exact .item (⟨first, false⟩ :: e :: front) back starred hnode

/-- So do alternatives make a rule. -/
theorem AtOne.chosen {choices choices' : List Node}
    (h : AtOne (Node.Replaces old new) choices choices') :
    Node.Replaces old new (chosen choices) (chosen choices') := by
  cases h with
  | intro front back h =>
      match front, back with
      | [], [] => exact h
      | [], c :: back => exact .choice [] (c :: back) h
      | [first], back => exact .choice [first] back h
      | first :: c :: front, back => exact .choice (first :: c :: front) back h

end Replaced

-- =========================================================== the grammar

/-- A run of items ends outside literals. -/
theorem Items.after_outside {owner : Owner} {t : Text} {elements : List Element}
    (h : Items owner t elements) : Quote.after .outside t = .outside := by
  have hquote := quote_after .origin t
  rw [h.loops_origin.2] at hquote
  exact hquote.symm

/-- No word is open behind a group and what is not part of a word. -/
theorem apart_grouped {front before k : Text} (rule : Text)
    (apart : ∀ c ∈ (front ++ k).getLast?, ¬ IsWordChar c) :
    ∀ c ∈ (before ++ (grouped rule ++ k)).getLast?, ¬ IsWordChar c := by
  rcases List.eq_nil_or_concat k with rfl | ⟨k, d, rfl⟩
  · intro c hc
    rw [grouped, List.append_nil, ← List.cons_append, ← List.append_assoc,
      List.getLast?_concat] at hc
    cases hc
    exact not_isWordChar_of_mem (by simp)
  · rw [List.concat_eq_append, ← List.append_assoc, List.getLast?_concat]
      at apart
    rw [List.concat_eq_append, ← List.append_assoc, ← List.append_assoc,
      List.getLast?_concat]
    exact apart

section Inline

variable {owner : Owner} {word contents : Text} {inner : List Node}

mutual

/-- Items with a group where they have a word. -/
theorem Items.inline (hinner : Alternatives owner contents inner) {t : Text}
    {elements : List Element} : Items owner t elements →
    ∀ before after, WordAt before word after → t = before ++ (word ++ after) →
    ∃ elements', Items owner (before ++ (grouped contents ++ after)) elements'
      ∧ AtOne (ReplacesItem (owner.reference word) (chosen inner)) elements
        elements'
  | .nil, before, after, hword, ht => by
      have hnil := List.append_eq_nil_iff.1 (List.append_eq_nil_iff.1 ht.symm).2
      exact absurd hnil.1 hword.filled
  | .blank items white, before, after, hword, ht => by
      have ih := Items.inline hinner items
      obtain ⟨k, hk, rfl⟩ := hword.split_last (not_isWordChar_of_blank white) ht
      obtain ⟨elements', hitems, hdiffer⟩ := ih before k hword.left hk
      refine ⟨elements', ?_, hdiffer⟩
      rw [← List.append_assoc (grouped contents), ← List.append_assoc]
      exact .blank hitems white
  | .star items, before, after, hword, ht => by
      have ih := Items.inline hinner items
      obtain ⟨k, hk, rfl⟩ :=
        hword.split_last (not_isWordChar_of_mem (by simp)) ht
      obtain ⟨elements', hitems, hdiffer⟩ := ih before k hword.left hk
      rw [← List.append_assoc (grouped contents), ← List.append_assoc]
      -- the star belongs to the last item, which may be the one in question
      rcases hdiffer.of_concat with ⟨others, rfl, hothers⟩
        | ⟨⟨node', _⟩, rfl, hlast⟩
      · exact ⟨_, .star hitems, hothers.concat _⟩
      · exact ⟨_, .star hitems, .last ⟨hlast.node, rfl⟩ _⟩
  | .word items filled chars apart, before, after, hword, ht => by
      have ih := Items.inline hinner items
      rcases hword.split_word chars apart ht
        with ⟨k, rfl, rfl⟩ | ⟨rfl, rfl, rfl⟩
      · obtain ⟨elements', hitems, hdiffer⟩ := ih before k hword.left rfl
        refine ⟨_, ?_, hdiffer.concat _⟩
        rw [← List.append_assoc] at apart
        rw [← List.append_assoc (grouped contents), ← List.append_assoc]
        exact .word hitems filled chars (apart_grouped contents apart)
      · refine ⟨_ ++ [⟨chosen inner, false⟩], ?_, .last ⟨.here, rfl⟩ _⟩
        rw [List.append_nil]
        exact .group items hinner
  | .literal items inside, before, after, hword, ht => by
      have ih := Items.inline hinner items
      have hquote : ¬ IsWordChar '"' := not_isWordChar_of_mem (by simp)
      rcases hword.split hquote ht with ⟨k, hk, rfl⟩ | ⟨k, rfl, hk⟩
      · obtain ⟨elements', hitems, hdiffer⟩ := ih before k hword.left hk
        refine ⟨_, ?_, hdiffer.concat _⟩
        rw [← List.append_assoc (grouped contents), ← List.append_assoc]
        exact .literal hitems inside
      · -- the word would stand in the literal
        obtain ⟨rest, hbody, -⟩ := hword.split_last hquote hk
        have houtside : (Quote.after .outside _).after ('"' :: k) = .outside :=
          List.foldl_append.symm.trans hword.outside
        rw [items.after_outside] at houtside
        exact absurd houtside (inside.enclosed.within k _ hbody)
  | .group items inside, before, after, hword, ht => by
      have ih := Items.inline hinner items
      have ihInside := Alternatives.inline hinner inside
      have hopen : ¬ IsWordChar '(' := not_isWordChar_of_mem (by simp)
      have hclose : ¬ IsWordChar ')' := not_isWordChar_of_mem (by simp)
      rcases hword.split hopen ht with ⟨k, hk, rfl⟩ | ⟨k, rfl, hk⟩
      · obtain ⟨elements', hitems, hdiffer⟩ := ih before k hword.left hk
        refine ⟨_, ?_, hdiffer.concat _⟩
        rw [← List.append_assoc (grouped contents), ← List.append_assoc]
        exact .group hitems inside
      · obtain ⟨rest, htext, rfl⟩ := hword.split_last hclose hk
        have hright := (hword.right items.after_outside (by decide)).left
        obtain ⟨choices', hchoices, hdiffer⟩ := ihInside k rest hright htext
        have hgroup := Items.group items hchoices
        refine ⟨_ ++ [⟨chosen choices', false⟩], ?_,
          .last ⟨hdiffer.chosen, rfl⟩ _⟩
        simp only [List.append_assoc, List.cons_append] at hgroup ⊢
        exact hgroup

/-- A rule with a group where it has a word. -/
theorem Alternatives.inline (hinner : Alternatives owner contents inner)
    {t : Text} {choices : List Node} : Alternatives owner t choices →
    ∀ before after, WordAt before word after → t = before ++ (word ++ after) →
    ∃ choices',
      Alternatives owner (before ++ (grouped contents ++ after)) choices'
      ∧ AtOne (Node.Replaces (owner.reference word) (chosen inner)) choices
        choices'
  | .last items filled, before, after, hword, ht => by
      obtain ⟨elements', hitems, hdiffer⟩ :=
        Items.inline hinner items before after hword ht
      exact ⟨_, .last hitems hdiffer.ne_nil, .head hdiffer.sequenced []⟩
  | .more items filled others, before, after, hword, ht => by
      have ih := Items.inline hinner items
      have ihOthers := Alternatives.inline hinner others
      have hbar : ¬ IsWordChar '|' := not_isWordChar_of_mem (by simp)
      rcases hword.split hbar ht with ⟨k, hk, rfl⟩ | ⟨k, rfl, hk⟩
      · obtain ⟨elements', hitems, hdiffer⟩ := ih before k hword.left hk
        refine ⟨_, ?_, .head hdiffer.sequenced _⟩
        rw [← List.append_assoc (grouped contents), ← List.append_assoc]
        exact .more hitems hdiffer.ne_nil others
      · have hright := hword.right items.after_outside (by decide)
        obtain ⟨choices', hchoices, hdiffer⟩ := ihOthers k after hright hk
        refine ⟨_, ?_, hdiffer.cons _⟩
        rw [List.append_assoc, List.cons_append]
        exact .more items filled hchoices

end

end Inline

/-- A rule can have another one, in parentheses, where it has a word. Its
tree then has the tree of the other where it had the reference. -/
theorem Spells.inline {owner : Owner} {before word after rule : Text}
    {node inner : Node} (h : Spells owner (before ++ (word ++ after)) node)
    (hword : WordAt before word after) (hinner : Spells owner rule inner) :
    ∃ node', Spells owner (before ++ (grouped rule ++ after)) node'
      ∧ Node.Replaces (owner.reference word) inner node node' := by
  obtain ⟨choices, hchoices, rfl⟩ := h
  obtain ⟨innerChoices, hrule, rfl⟩ := hinner
  obtain ⟨choices', hinlined, hdiffer⟩ :=
    hrule.inline hchoices before after hword rfl
  exact ⟨chosen choices', ⟨choices', hinlined, rfl⟩, hdiffer.chosen⟩

end Munch.Rule
