/-
The language of rules, and the tree each rule stands for.

A rule is one or more alternatives between bars; an alternative is one
or more items, each with any number of stars behind it, and white space
anywhere between them; an item is a word, a literal, or a rule in
parentheses. Two words need something between them, so a word is always
as long as it can be.

`Items` and `Alternatives` are that grammar, with the elements and the
trees it gives; `Spells` is the grammar of whole rules. Items are added
at the end of a text, one character of white space or one star at a
time, which is the order in which a rule is read.

White space at the ends of a rule makes no difference
(`alternatives_trim_iff`).
-/
import Munch.Proofs.Text.Trim
import Munch.Rule.Parser

namespace Munch.Rule

-- ============================================================ the items

/-- A character that words are made of. -/
def IsWordChar (c : Char) : Prop :=
  isBlank c = false ∧ c ∉ ['*', '"', '(', ')', '|']

/-- What may stand between the quotes of a literal. -/
inductive Body : Text → Prop
  | nil : Body []
  | plain {body : Text} {c : Char} (before : Body body) (quote : c ≠ '"')
      (backslash : c ≠ '\\') : Body (body ++ [c])
  | escape {body : Text} {c : Char} (before : Body body) (short : c ≠ 'u') :
      Body (body ++ ['\\', c])
  | unicode {body covered : Text} (before : Body body)
      (four : covered.length = 4) : Body (body ++ '\\' :: 'u' :: covered)

/-- The tree of a word. Only the owner's own key leads somewhere at
once. -/
def Owner.reference (owner : Owner) (word : Text) : Node :=
  .reference (String.ofList word)
    (if String.ofList word = owner.key then some (.expression owner.index)
      else none)

/-- The tree of an alternative. -/
def sequenced : List Element → Node
  | [⟨node, false⟩] => node
  | elements => .sequence elements

/-- The tree of a rule. -/
def chosen : List Node → Node
  | [node] => node
  | choices => .alternation choices

mutual

/-- A text is a run of items with their stars and the white space around
them. -/
inductive Items (owner : Owner) : Text → List Element → Prop
  | nil : Items owner [] []
  | blank {t : Text} {elements : List Element} {c : Char}
      (before : Items owner t elements) (white : isBlank c = true) :
      Items owner (t ++ [c]) elements
  | star {t : Text} {elements : List Element} {node : Node} {starred : Bool}
      (before : Items owner t (elements ++ [⟨node, starred⟩])) :
      Items owner (t ++ ['*']) (elements ++ [⟨node, true⟩])
  | word {t word : Text} {elements : List Element}
      (before : Items owner t elements) (filled : word ≠ [])
      (chars : ∀ c ∈ word, IsWordChar c)
      (apart : ∀ c ∈ t.getLast?, ¬ IsWordChar c) :
      Items owner (t ++ word) (elements ++ [⟨owner.reference word, false⟩])
  | literal {t body : Text} {elements : List Element}
      (before : Items owner t elements) (inside : Body body) :
      Items owner (t ++ '"' :: (body ++ ['"']))
        (elements ++ [⟨.literal body, false⟩])
  | group {t contents : Text} {elements : List Element} {choices : List Node}
      (before : Items owner t elements)
      (inside : Alternatives owner contents choices) :
      Items owner (t ++ '(' :: (contents ++ [')']))
        (elements ++ [⟨chosen choices, false⟩])

/-- A text is one or more runs of items, none of them empty, with bars
between them. -/
inductive Alternatives (owner : Owner) : Text → List Node → Prop
  | last {t : Text} {elements : List Element}
      (items : Items owner t elements) (filled : elements ≠ []) :
      Alternatives owner t [sequenced elements]
  | more {t rest : Text} {elements : List Element} {choices : List Node}
      (items : Items owner t elements) (filled : elements ≠ [])
      (others : Alternatives owner rest choices) :
      Alternatives owner (t ++ '|' :: rest) (sequenced elements :: choices)

end

/-- A text is a rule, and the node its tree. -/
def Spells (owner : Owner) (rule : Text) (node : Node) : Prop :=
  ∃ choices, Alternatives owner rule choices ∧ node = chosen choices

variable {owner : Owner}

-- ======================================================= nothing at all

/-- No character of a word is white space. -/
theorem IsWordChar.not_blank {c : Char} (h : IsWordChar c) :
    ¬ isBlank c = true := by
  rw [h.1]
  exact Bool.false_ne_true

private theorem Items.of_nil {elements : List Element}
    (h : Items owner [] elements) : elements = [] := by
  generalize ht : ([] : Text) = t at h
  cases h with
  | nil => rfl
  | word before filled =>
      exact absurd (List.append_eq_nil_iff.1 ht.symm).2 filled
  | _ => simp_all

/-- A rule has something in it. -/
theorem Alternatives.ne_nil {t : Text} {choices : List Node}
    (h : Alternatives owner t choices) : t ≠ [] := by
  intro ht
  subst ht
  generalize ht : ([] : Text) = t at h
  cases h with
  | last items filled => exact filled (Items.of_nil (ht ▸ items))
  | more => simp at ht

/-- There is at least one alternative. -/
theorem Alternatives.choices_ne_nil {t : Text} {choices : List Node}
    (h : Alternatives owner t choices) : choices ≠ [] := by
  cases h with
  | last => exact List.cons_ne_nil _ _
  | more => exact List.cons_ne_nil _ _

-- ================================================ white space at the ends

/-- White space behind items makes no difference. -/
private theorem items_concat_blank_iff {t : Text} {c : Char}
    {elements : List Element} (hc : isBlank c = true) :
    Items owner (t ++ [c]) elements ↔ Items owner t elements := by
  constructor
  · intro h
    generalize hs : t ++ [c] = s at h
    -- the last character tells which constructor was the last
    have hlast := congrArg List.getLast? hs
    rw [List.getLast?_concat] at hlast
    cases h with
    | nil => simp at hs
    | blank before =>
        obtain ⟨rfl, -⟩ := List.append_inj' hs rfl
        exact before
    | word before filled chars =>
        rw [List.getLast?_append, List.getLast?_eq_some_getLast filled] at hlast
        obtain rfl := Option.some.inj hlast
        exact absurd hc (chars _ (List.getLast_mem filled)).not_blank
    | _ =>
        simp only [List.getLast?_append, List.getLast?_cons, List.getLast?_nil,
          Option.some_or, Option.some.injEq, Option.getD_some] at hlast
        subst hlast
        exact absurd hc (by decide)
  · intro h
    exact .blank h hc

/-- What the last character of a text must not be, it need not be with
white space before the text, and conversely. -/
theorem apart_cons_blank_iff {c : Char} {t : Text} (hc : isBlank c = true) :
    (∀ d ∈ (c :: t).getLast?, ¬ IsWordChar d)
      ↔ ∀ d ∈ t.getLast?, ¬ IsWordChar d := by
  rw [List.getLast?_cons]
  cases t.getLast? with
  | none =>
      simp only [Option.getD_none, Option.mem_some_iff, forall_eq',
        Option.not_mem_none]
      exact ⟨fun _ d hd => hd.elim, fun _ h => h.not_blank hc⟩
  | some d => rfl

/-- White space that a text begins with comes before anything else in
it. -/
theorem cons_of_append_eq_cons {t u v : Text} {c d : Char}
    (hc : isBlank c = true) (hd : isBlank d = false)
    (h : t ++ d :: u = c :: v) : ∃ t', t = c :: t' ∧ v = t' ++ d :: u := by
  rcases List.append_eq_cons_iff.1 h with ⟨rfl, hcons⟩ | hlater
  · obtain ⟨rfl, -⟩ := List.cons.inj hcons
    rw [hc] at hd
    cases hd
  · exact hlater

private theorem Items.cons_blank {c : Char} (hc : isBlank c = true) {t : Text}
    {elements : List Element} :
    Items owner t elements → Items owner (c :: t) elements
  | .nil => .blank .nil hc
  | .blank before white => .blank (before.cons_blank hc) white
  | .star before => .star (before.cons_blank hc)
  | .word before filled chars apart =>
      .word (before.cons_blank hc) filled chars
        ((apart_cons_blank_iff hc).2 apart)
  | .literal before inside => .literal (before.cons_blank hc) inside
  | .group before inside => .group (before.cons_blank hc) inside

private theorem Items.of_cons_blank {c : Char} (hc : isBlank c = true)
    {s : Text} {elements : List Element} :
    Items owner s elements → ∀ t, s = c :: t → Items owner t elements
  | .nil, t, hs => by cases hs
  | .blank before white, t, hs => by
      have ih := Items.of_cons_blank hc before
      rcases List.append_eq_cons_iff.1 hs with ⟨rfl, hd⟩ | ⟨u, rfl, rfl⟩
      · obtain ⟨-, rfl⟩ := List.cons.inj hd
        exact before
      · exact .blank (ih u rfl) white
  | .star before, t, hs => by
      have ih := Items.of_cons_blank hc before
      obtain ⟨u, rfl, rfl⟩ := cons_of_append_eq_cons hc (by decide) hs
      exact .star (ih u rfl)
  | .word before filled chars apart, t, hs => by
      have ih := Items.of_cons_blank hc before
      rcases List.append_eq_cons_iff.1 hs with ⟨rfl, rfl⟩ | ⟨u, rfl, rfl⟩
      · exact absurd hc (chars c List.mem_cons_self).not_blank
      · exact .word (ih u rfl) filled chars
          ((apart_cons_blank_iff hc).1 apart)
  | .literal before inside, t, hs => by
      have ih := Items.of_cons_blank hc before
      obtain ⟨u, rfl, rfl⟩ := cons_of_append_eq_cons hc (by decide) hs
      exact .literal (ih u rfl) inside
  | .group before inside, t, hs => by
      have ih := Items.of_cons_blank hc before
      obtain ⟨u, rfl, rfl⟩ := cons_of_append_eq_cons hc (by decide) hs
      exact .group (ih u rfl) inside

/-- White space in front of items makes no difference. -/
private theorem items_cons_blank_iff {c : Char} {t : Text}
    {elements : List Element} (hc : isBlank c = true) :
    Items owner (c :: t) elements ↔ Items owner t elements :=
  ⟨fun h => h.of_cons_blank hc t rfl, fun h => h.cons_blank hc⟩

/-- White space in front of alternatives makes no difference. -/
private theorem alternatives_cons_blank_iff {c : Char} {t : Text}
    {choices : List Node} (hc : isBlank c = true) :
    Alternatives owner (c :: t) choices ↔ Alternatives owner t choices := by
  constructor
  · intro h
    generalize hs : c :: t = s at h
    cases h with
    | last items filled =>
        subst hs
        exact .last ((items_cons_blank_iff hc).1 items) filled
    | more items filled others =>
        obtain ⟨u, rfl, rfl⟩ := cons_of_append_eq_cons hc (by decide) hs.symm
        exact .more ((items_cons_blank_iff hc).1 items) filled others
  · intro h
    cases h with
    | last items filled => exact .last (items.cons_blank hc) filled
    | more items filled others =>
        exact .more (items.cons_blank hc) filled others

private theorem Alternatives.concat_blank {c : Char} (hc : isBlank c = true)
    {t : Text} {choices : List Node} :
    Alternatives owner t choices → Alternatives owner (t ++ [c]) choices
  | .last items filled => .last (.blank items hc) filled
  | .more items filled others => by
      rw [List.append_assoc, List.cons_append]
      exact .more items filled (others.concat_blank hc)

private theorem Alternatives.of_concat_blank {c : Char} (hc : isBlank c = true)
    {s : Text} {choices : List Node} :
    Alternatives owner s choices → ∀ t, s = t ++ [c] →
      Alternatives owner t choices
  | .last items filled, t, hs => by
      subst hs
      exact .last ((items_concat_blank_iff hc).1 items) filled
  | @Alternatives.more _ _ rest _ _ items filled others, t, hs => by
      have ih := Alternatives.of_concat_blank hc others
      -- the blank is the last one of the other alternatives
      rcases List.eq_nil_or_concat rest with hrest | ⟨rest', d, hrest⟩
      · exact absurd hrest others.ne_nil
      · rw [List.concat_eq_append] at hrest
        rw [hrest, ← List.cons_append, ← List.append_assoc] at hs
        obtain ⟨rfl, hd⟩ := List.append_inj' hs rfl
        obtain rfl := List.singleton_inj.1 hd
        exact .more items filled (ih rest' hrest)

/-- White space behind alternatives makes no difference. -/
private theorem alternatives_concat_blank_iff {c : Char} {t : Text}
    {choices : List Node} (hc : isBlank c = true) :
    Alternatives owner (t ++ [c]) choices ↔ Alternatives owner t choices :=
  ⟨fun h => h.of_concat_blank hc t rfl, fun h => h.concat_blank hc⟩

/-- White space around the items of an alternative makes no
difference. -/
theorem items_trim_iff {t : Text} {elements : List Element} :
    Items owner t.trim elements ↔ Items owner t elements :=
  Text.trim_iff (P := fun t => Items owner t elements)
    (fun _ _ hc => items_cons_blank_iff hc)
    (fun _ _ hc => items_concat_blank_iff hc) t

/-- White space around a rule makes no difference. -/
theorem alternatives_trim_iff {t : Text} {choices : List Node} :
    Alternatives owner t.trim choices ↔ Alternatives owner t choices :=
  Text.trim_iff (P := fun t => Alternatives owner t choices)
    (fun _ _ hc => alternatives_cons_blank_iff hc)
    (fun _ _ hc => alternatives_concat_blank_iff hc) t

end Munch.Rule
