/-
The outline of a set tells the set.

From bottom to top: a line as it is written tells its depth and its label
(`OutlineLine.render_append_inj`), since labels begin with no space and
have no line end in them (`OutlineLine.Plain`). The first letter of a
label tells what kind of node it is of (`Begins`). The label of a literal
tells the text, since quoted texts can be read back; that of a reference
tells the key, which ends at the first space (`referenceLabel_inj`). The
lines of a tree tell the tree and where they end, if what follows has left
its depth (`Leaves`): this is `Node.outline_append_inj`, by induction over
the tree, one case for each constructor.

Of the target of a reference the outline tells for certain only that
there is one; `Node.sketch` is the tree with just that. The main result is
`ExpressionSet.render_inj`.
-/
import Munch.Expr.Outline
import Munch.Proofs.Dictionary.RuleLine
import Munch.Proofs.Expr.LinkPass
import Munch.Proofs.Rule.Canonical
import Munch.Proofs.Text.Quoted

namespace Munch

-- ========================================================== vocabulary

/-- A key without white space that is not empty. -/
def KeyWord (key : String) : Prop :=
  key.toList ≠ [] ∧ ∀ c ∈ key.toList, isBlank c = false

/-- A tree whose references have no white space in their keys. -/
def Node.Legible (node : Node) : Prop :=
  node.References fun key _ => ∀ c ∈ key.toList, isBlank c = false

/-- A set whose keys, and those that its expressions refer to, have no
white space. -/
def ExpressionSet.Legible (s : ExpressionSet) : Prop :=
  ∀ e ∈ s.expressions, KeyWord e.key ∧ e.root.Legible

/-- Whether there is a target, in the form of one that tells nothing
else. -/
def whether (_ : String) (target : Option Target) : Option Target :=
  target.map fun _ => .expression 0

/-- A tree with its shape, its literals and its keys, and of the target of
each reference only whether there is one. -/
def Node.sketch (node : Node) : Node := node.retarget whether

/-- An expression with the sketch of its tree. -/
def Expression.sketch (e : Expression) : Expression := e.retarget whether

/-- It is kept whether there is a target, and nothing else. -/
private theorem whether_eq_iff {key : String} {target target' : Option Target} :
    whether key target = whether key target'
      ↔ target.isSome = target'.isSome := by
  cases target <;> cases target' <;> simp [whether]

variable {s s' : ExpressionSet}

-- =============================================================== lines

/-- A label that can be found in its line: it begins with no space and
has no line end in it. -/
structure OutlineLine.Plain (l : OutlineLine) : Prop where
  begins : ∃ c rest, l.label = c :: rest ∧ c ≠ ' '
  single : '\n' ∉ l.label

/-- Spaces in front of a text that begins with none can be counted. -/
private theorem replicate_append_inj {m n : Nat} {c d : Char} {t u : Text}
    (hc : c ≠ ' ') (hd : d ≠ ' ')
    (h : List.replicate m ' ' ++ c :: t = List.replicate n ' ' ++ d :: u) :
    m = n ∧ c :: t = d :: u := by
  induction m generalizing n with
  | zero =>
      cases n with
      | zero => exact ⟨rfl, h⟩
      | succ n => exact absurd (List.cons.inj h).1 hc
  | succ m ih =>
      cases n with
      | zero => exact absurd (List.cons.inj h).1.symm hd
      | succ n =>
          obtain ⟨rfl, ht⟩ := ih (List.cons.inj h).2
          exact ⟨rfl, ht⟩

/-- A line as it is written tells its depth and its label, and where it
ends. -/
theorem OutlineLine.render_append_inj {l l' : OutlineLine} {t t' : Text}
    (hl : l.Plain) (hl' : l'.Plain) (h : l.render ++ t = l'.render ++ t') :
    l = l' ∧ t = t' := by
  obtain ⟨depth, label⟩ := l
  obtain ⟨depth', label'⟩ := l'
  obtain ⟨⟨c, rest, rfl, hc⟩, hsingle⟩ := hl
  obtain ⟨⟨c', rest', rfl, hc'⟩, hsingle'⟩ := hl'
  have hend : ∀ n (u : Text), '\n' ∉ u → '\n' ∉ List.replicate n ' ' ++ u := by
    intro n u hu hmem
    rcases List.mem_append.1 hmem with hspace | hlabel
    · exact absurd (List.eq_of_mem_replicate hspace) (by decide)
    · exact hu hlabel
  have hline : List.replicate (2 * depth) ' ' ++ c :: rest ++ '\n' :: t
      = List.replicate (2 * depth') ' ' ++ c' :: rest' ++ '\n' :: t' := by
    simpa [render] using h
  obtain ⟨hwritten, rfl⟩ :=
    Text.append_cons_inj (hend _ _ hsingle) (hend _ _ hsingle') hline
  obtain ⟨hdepth, hlabel⟩ := replicate_append_inj hc hc' hwritten
  obtain rfl : depth = depth' := by omega
  exact ⟨congrArg (OutlineLine.mk depth) hlabel, rfl⟩

private theorem OutlineLine.render_ne_nil (l : OutlineLine) :
    l.render ≠ [] := by
  simp [render]

/-- Lines as they are written, one after another, tell the lines. -/
theorem lines_inj {ls ls' : List OutlineLine} (hls : ∀ l ∈ ls, l.Plain)
    (hls' : ∀ l ∈ ls', l.Plain)
    (h : ls.flatMap OutlineLine.render = ls'.flatMap OutlineLine.render) :
    ls = ls' := by
  induction ls generalizing ls' with
  | nil =>
      cases ls' with
      | nil => rfl
      | cons l' ls' =>
          exact absurd (List.append_eq_nil_iff.1 h.symm).1 l'.render_ne_nil
  | cons l ls ih =>
      cases ls' with
      | nil => exact absurd (List.append_eq_nil_iff.1 h).1 l.render_ne_nil
      | cons l' ls' =>
          obtain ⟨hl, hls⟩ := List.forall_mem_cons.1 hls
          obtain ⟨hl', hls'⟩ := List.forall_mem_cons.1 hls'
          rw [List.flatMap_cons, List.flatMap_cons] at h
          obtain ⟨hhead, hrest⟩ := OutlineLine.render_append_inj hl hl' h
          rw [hhead, ih hls hls' hrest]

-- ============================================================== labels

/-- A text without white space has no such character in it. -/
private theorem blank_not_mem {t : Text} {c : Char}
    (h : ∀ d ∈ t, isBlank d = false) (hc : isBlank c = true) : c ∉ t := by
  intro hmem
  rw [h c hmem] at hc
  cases hc

/-- What a reference leads to, as its label says it behind an arrow. -/
def Target.shown (s : ExpressionSet) : Target → Text
  | .expression index =>
      match s.get? index with
      | some e => e.key.toList
      | none => (s!"ExprHandle({index})").toList
  | .primitive _ => "primitive".toList

private theorem referenceLabel_none (s : ExpressionSet) (key : String) :
    referenceLabel s key none
      = "Reference(".toList ++ ((key.toList ++ [','])
        ++ ' ' :: "unresolved)".toList) := by
  unfold referenceLabel
  simp only [String.toList_append, List.append_assoc]
  rfl

private theorem referenceLabel_some (s : ExpressionSet) (key : String)
    (target : Target) :
    referenceLabel s key (some target)
      = "Reference(".toList ++ (key.toList ++ ' ' :: '-' :: '>' :: ' ' ::
        (target.shown s ++ [')'])) := by
  unfold referenceLabel Target.shown
  cases target with
  | expression index =>
      cases hget : s.get? index with
      | none =>
        simp only [hget, String.toList_append, List.append_assoc]
        rfl
      | some e =>
        simp only [hget, String.toList_append, List.append_assoc]
        rfl
  | primitive scan =>
      simp only [String.toList_append, List.append_assoc]
      rfl

/-- The label of a reference tells its key, and whether it has a
target. -/
theorem referenceLabel_inj {key key' : String} {target target' : Option Target}
    (hkey : ∀ c ∈ key.toList, isBlank c = false)
    (hkey' : ∀ c ∈ key'.toList, isBlank c = false)
    (h : referenceLabel s key target = referenceLabel s' key' target') :
    key = key' ∧ target.isSome = target'.isSome := by
  have hspace : ' ' ∉ key.toList := blank_not_mem hkey (by decide)
  have hspace' : ' ' ∉ key'.toList := blank_not_mem hkey' (by decide)
  have hcomma : ' ' ∉ key.toList ++ [','] := by simp [hspace]
  have hcomma' : ' ' ∉ key'.toList ++ [','] := by simp [hspace']
  cases target with
  | none =>
      cases target' with
      | none =>
          rw [referenceLabel_none, referenceLabel_none] at h
          have hbehind := List.append_cancel_left h
          obtain ⟨hkeys, -⟩ := Text.append_cons_inj hcomma hcomma' hbehind
          exact ⟨String.toList_inj.1 (List.append_cancel_right hkeys), rfl⟩
      | some target' =>
          rw [referenceLabel_none, referenceLabel_some] at h
          obtain ⟨-, hrest⟩ :=
            Text.append_cons_inj hcomma hspace' (List.append_cancel_left h)
          exact absurd (List.cons.inj hrest).1 (by decide)
  | some target =>
      cases target' with
      | none =>
          rw [referenceLabel_some, referenceLabel_none] at h
          obtain ⟨-, hrest⟩ :=
            Text.append_cons_inj hspace hcomma' (List.append_cancel_left h)
          exact absurd (List.cons.inj hrest).1 (by decide)
      | some target' =>
          rw [referenceLabel_some, referenceLabel_some] at h
          obtain ⟨hkeys, -⟩ :=
            Text.append_cons_inj hspace hspace' (List.append_cancel_left h)
          exact ⟨String.toList_inj.1 hkeys, rfl⟩

-- ========================================================= plain outlines

/-- A label that is a word. -/
theorem OutlineLine.Plain.word {depth : Nat} (label : String)
    (hfilled : label.toList ≠ []) (hspace : ' ' ∉ label.toList)
    (hline : '\n' ∉ label.toList) : Plain ⟨depth, label.toList⟩ := by
  refine ⟨?_, hline⟩
  obtain ⟨c, rest, hchars⟩ := List.exists_cons_of_ne_nil hfilled
  refine ⟨c, rest, hchars, ?_⟩
  rintro rfl
  exact hspace (by rw [hchars]; exact List.mem_cons_self)

/-- A target is shown on one line. -/
private theorem newline_not_mem_shown (hs : s.Legible) (target : Target) :
    '\n' ∉ target.shown s := by
  unfold Target.shown
  cases target with
  | expression index =>
      simp only
      cases hget : s.get? index with
      | some e =>
          exact blank_not_mem (hs e (ExpressionSet.mem_of_get? hget)).1.2
            (by decide)
      | none =>
        intro hmem
        have hdigits : '\n' ∉ Nat.toDigits 10 index := fun h =>
          absurd (Nat.isDigit_of_mem_toDigits (by decide) (by decide) h)
            (by decide)
        simp only [String.toList_append, List.mem_append] at hmem
        rcases hmem with (hmem | hmem) | hmem
        · exact absurd hmem (by decide)
        · exact hdigits (by simpa using hmem)
        · exact absurd hmem (by decide)
  | primitive scan =>
      show '\n' ∉ "primitive".toList
      decide

/-- A reference is shown on one line. -/
private theorem referenceLabel_plain (hs : s.Legible) {key : String}
    (hkey : ∀ c ∈ key.toList, isBlank c = false) (depth : Nat)
    (target : Option Target) :
    OutlineLine.Plain ⟨depth, referenceLabel s key target⟩ := by
  have hkeyLine : '\n' ∉ key.toList := blank_not_mem hkey (by decide)
  cases target with
  | none =>
      rw [referenceLabel_none]
      exact ⟨⟨_, _, rfl, by decide⟩, by simp [hkeyLine]⟩
  | some target =>
      have hshown := newline_not_mem_shown hs target
      rw [referenceLabel_some]
      exact ⟨⟨_, _, rfl, by decide⟩, by simp [hkeyLine, hshown]⟩

mutual

/-- A tree is shown in lines that are plain. -/
private theorem Node.outline_plain (hs : s.Legible) :
    ∀ (node : Node) (depth : Nat), node.Legible →
      ∀ l ∈ node.outline s depth, l.Plain
  | .literal text, depth, _ => by
      rw [Node.outline]
      refine List.forall_mem_singleton.2 ⟨⟨_, _, rfl, by decide⟩, ?_⟩
      have hquoted := Text.newline_not_mem_quoted text
      simp [hquoted]
  | .reference key target, depth, h => by
      rw [Node.outline]
      exact List.forall_mem_singleton.2
        (referenceLabel_plain hs (Node.references_reference.1 h) depth target)
  | .sequence elements, depth, h => by
      rw [Node.outline]
      exact List.forall_mem_cons.2 ⟨.word "Sequence" (by decide)
        (by decide) (by decide),
        outlineElements_plain hs elements (depth + 1)
          (Node.references_sequence.1 h)⟩
  | .alternation choices, depth, h => by
      rw [Node.outline]
      exact List.forall_mem_cons.2 ⟨.word "Alternation" (by decide)
        (by decide) (by decide),
        outlineChoices_plain hs choices (depth + 1)
          (Node.references_alternation.1 h)⟩

private theorem outlineElements_plain (hs : s.Legible) :
    ∀ (elements : List Element) (depth : Nat),
      (∀ e ∈ elements, e.node.Legible) →
        ∀ l ∈ outlineElements s depth elements, l.Plain
  | [], depth, _ => by
      rw [outlineElements]
      exact fun l hl => absurd hl List.not_mem_nil
  | ⟨node, true⟩ :: rest, depth, h => by
      obtain ⟨hnode, hrest⟩ := List.forall_mem_cons.1 h
      rw [outlineElements]
      have hstar : OutlineLine.Plain ⟨depth, "ZeroOrMore".toList⟩ :=
        .word "ZeroOrMore" (by decide) (by decide) (by decide)
      have hitem := List.forall_mem_cons.2 ⟨hstar,
        Node.outline_plain hs node (depth + 1) hnode⟩
      exact List.forall_mem_append.2 ⟨hitem,
        outlineElements_plain hs rest depth hrest⟩
  | ⟨node, false⟩ :: rest, depth, h => by
      obtain ⟨hnode, hrest⟩ := List.forall_mem_cons.1 h
      rw [outlineElements]
      exact List.forall_mem_append.2
        ⟨Node.outline_plain hs node depth hnode,
          outlineElements_plain hs rest depth hrest⟩

private theorem outlineChoices_plain (hs : s.Legible) :
    ∀ (choices : List Node) (depth : Nat),
      (∀ c ∈ choices, c.Legible) → ∀ l ∈ outlineChoices s depth choices, l.Plain
  | [], depth, _ => by
      rw [outlineChoices]
      exact fun l hl => absurd hl List.not_mem_nil
  | node :: rest, depth, h => by
      obtain ⟨hnode, hrest⟩ := List.forall_mem_cons.1 h
      rw [outlineChoices]
      exact List.forall_mem_append.2
        ⟨Node.outline_plain hs node depth hnode,
          outlineChoices_plain hs rest depth hrest⟩

end

/-- An expression is shown in lines that are plain. -/
private theorem Expression.outline_plain (hs : s.Legible) {e : Expression}
    (he : e ∈ s.expressions) : ∀ l ∈ e.outline s, l.Plain := by
  obtain ⟨⟨hfilled, hkey⟩, hroot⟩ := hs e he
  refine List.forall_mem_cons.2 ⟨⟨?_, ?_⟩, Node.outline_plain hs e.root 1 hroot⟩
  · have hword : OutlineLine.Plain ⟨0, e.key.toList⟩ :=
      .word e.key hfilled (blank_not_mem hkey (by decide))
        (blank_not_mem hkey (by decide))
    obtain ⟨c, rest, hchars, hc⟩ := hword.begins
    refine ⟨c, rest ++ " =".toList, ?_, hc⟩
    rw [String.toList_append, show e.key.toList = c :: rest from hchars]
    rfl
  · have hline : '\n' ∉ e.key.toList := blank_not_mem hkey (by decide)
    simp [hline]

-- =============================================================== heads

/-- Lines that begin at a depth, with a label that begins with a
character. -/
def Begins (depth : Nat) (initial : Char) (lines : List OutlineLine) : Prop :=
  ∃ label below, lines = ⟨depth, label⟩ :: below ∧ label.head? = some initial

/-- What comes behind lines at a depth stands higher up, or there is
nothing. -/
def Leaves (depth : Nat) (rest : List OutlineLine) : Prop :=
  ∀ l ∈ rest.head?, l.depth < depth

section Heads

variable {depth depth' : Nat} {c c' : Char} {lines rest : List OutlineLine}

private theorem Begins.append (h : Begins depth c lines)
    (rest : List OutlineLine) : Begins depth c (lines ++ rest) := by
  obtain ⟨label, below, rfl, hlabel⟩ := h
  exact ⟨label, below ++ rest, List.cons_append, hlabel⟩

/-- Lines begin with one letter. -/
private theorem Begins.initial_inj (h : Begins depth c lines)
    (h' : Begins depth' c' lines) : c = c' := by
  obtain ⟨label, below, rfl, hlabel⟩ := h
  obtain ⟨label', below', hlines, hlabel'⟩ := h'
  cases hlines
  exact Option.some.inj (hlabel.symm.trans hlabel')

/-- Lines that begin at a depth leave a tree if that is higher up. -/
private theorem Begins.leaves_iff (h : Begins depth' c lines) :
    Leaves depth lines ↔ depth' < depth := by
  obtain ⟨label, below, rfl, -⟩ := h
  simp [Leaves]

/-- Lines that leave a tree leave those further in. -/
private theorem Leaves.mono (h : Leaves depth rest) (hle : depth ≤ depth') :
    Leaves depth' rest :=
  fun l hl => Nat.lt_of_lt_of_le (h l hl) hle

end Heads

/-- The letter that the label of a node begins with. -/
def Node.initial : Node → Char
  | .literal _ => 'L'
  | .reference _ _ => 'R'
  | .sequence _ => 'S'
  | .alternation _ => 'A'

/-- The letter of the first line of an item. -/
def Element.initial (e : Element) : Char :=
  if e.starred then 'Z' else e.node.initial

private theorem Node.initial_ne_star (node : Node) : node.initial ≠ 'Z' := by
  cases node <;> simp [initial]

/-- The letter of an item tells whether it is starred. -/
theorem Element.starred_eq {e e' : Element} (h : e.initial = e'.initial) :
    e.starred = e'.starred := by
  obtain ⟨node, starred⟩ := e
  obtain ⟨node', starred'⟩ := e'
  cases starred with
  | true =>
      cases starred' with
      | true => rfl
      | false => exact absurd h.symm node'.initial_ne_star
  | false =>
      cases starred' with
      | true => exact absurd h node.initial_ne_star
      | false => rfl

/-- A tree is shown from its depth on, with the letter of its kind first. -/
private theorem Node.outline_begins (s : ExpressionSet) (depth : Nat)
    (node : Node) : Begins depth node.initial (node.outline s depth) := by
  cases node with
  | literal text => exact ⟨_, _, by rw [outline], rfl⟩
  | reference key target =>
      refine ⟨_, _, by rw [outline], ?_⟩
      cases target with
      | none => rw [referenceLabel_none]; rfl
      | some target => rw [referenceLabel_some]; rfl
  | sequence elements => exact ⟨_, _, by rw [outline], rfl⟩
  | alternation choices => exact ⟨_, _, by rw [outline], rfl⟩

/-- So are items, with the letter of a star if there is one. -/
private theorem outlineElements_begins (s : ExpressionSet) (depth : Nat)
    (e : Element) (rest : List Element) :
    Begins depth e.initial (outlineElements s depth (e :: rest)) := by
  obtain ⟨node, starred⟩ := e
  cases starred with
  | true => exact ⟨_, _, by rw [outlineElements, List.cons_append], rfl⟩
  | false =>
      rw [outlineElements]
      exact (node.outline_begins s depth).append _

/-- So are choices. -/
private theorem outlineChoices_begins (s : ExpressionSet) (depth : Nat)
    (node : Node) (rest : List Node) :
    Begins depth node.initial (outlineChoices s depth (node :: rest)) := by
  rw [outlineChoices]
  exact (node.outline_begins s depth).append _

-- =============================================================== trees

section Trees

variable {rest rest' : List OutlineLine}

/-- What leaves a tree, or goes on with its items, leaves each item. -/
private theorem leaves_elements (s : ExpressionSet) {depth : Nat}
    (h : Leaves depth rest) (elements : List Element) :
    Leaves (depth + 1) (outlineElements s depth elements ++ rest) := by
  cases elements with
  | nil =>
      rw [outlineElements]
      exact h.mono (Nat.le_succ depth)
  | cons e others =>
      have hbegins := (outlineElements_begins s depth e others).append rest
      exact hbegins.leaves_iff.2 (Nat.lt_succ_self depth)

/-- What leaves a tree, or goes on with its choices, leaves each choice. -/
private theorem leaves_choices (s : ExpressionSet) {depth : Nat}
    (h : Leaves depth rest) (choices : List Node) :
    Leaves (depth + 1) (outlineChoices s depth choices ++ rest) := by
  cases choices with
  | nil =>
      rw [outlineChoices]
      exact h.mono (Nat.le_succ depth)
  | cons node others =>
      have hbegins := (outlineChoices_begins s depth node others).append rest
      exact hbegins.leaves_iff.2 (Nat.lt_succ_self depth)

/-- Two trees with the same lines are nodes of one kind. -/
theorem Node.initial_eq {depth : Nat} {node node' : Node}
    (h : node.outline s depth ++ rest = node'.outline s' depth ++ rest') :
    node.initial = node'.initial := by
  have hbegins := (node.outline_begins s depth).append rest
  rw [h] at hbegins
  exact hbegins.initial_inj ((node'.outline_begins s' depth).append rest')

private theorem sketch_cons {node node' : Node} {others others' : List Element}
    (starred : Bool) (hnode : node.sketch = node'.sketch)
    (hothers : retargetElements whether others
      = retargetElements whether others') :
    retargetElements whether (⟨node, starred⟩ :: others)
      = retargetElements whether (⟨node', starred⟩ :: others') := by
  rw [retargetElements, retargetElements, hothers]
  exact congrArg (fun node => (⟨node, starred⟩ : Element) :: _) hnode

mutual

/-- The lines of a tree tell its sketch, and where they end. -/
theorem Node.outline_append_inj : ∀ (node node' : Node) (depth : Nat)
    (rest rest' : List OutlineLine), node.Legible → node'.Legible →
    Leaves (depth + 1) rest → Leaves (depth + 1) rest' →
    node.outline s depth ++ rest = node'.outline s' depth ++ rest' →
    node.sketch = node'.sketch ∧ rest = rest'
  | .literal text, node', depth, rest, rest', _, _, _, _, h => by
      cases node' with
      | literal text' =>
          simp only [Node.outline, List.singleton_append] at h
          obtain ⟨hline, rfl⟩ := List.cons.inj h
          have hlabel := congrArg OutlineLine.label hline
          have hquoted :=
            List.append_cancel_left (List.append_cancel_right hlabel)
          rw [Text.quoted_inj hquoted]
          exact ⟨rfl, rfl⟩
      | _ => exact absurd (Node.initial_eq h) (by simp [Node.initial])
  | .reference key target, node', depth, rest, rest', hnode, hnode', _, _,
      h => by
      cases node' with
      | reference key' target' =>
          simp only [Node.outline, List.singleton_append] at h
          obtain ⟨hline, rfl⟩ := List.cons.inj h
          obtain ⟨rfl, htarget⟩ :=
            referenceLabel_inj (Node.references_reference.1 hnode)
            (Node.references_reference.1 hnode')
              (congrArg OutlineLine.label hline)
          exact ⟨congrArg (Node.reference key) (whether_eq_iff.2 htarget), rfl⟩
      | _ => exact absurd (Node.initial_eq h) (by simp [Node.initial])
  | .sequence elements, node', depth, rest, rest', hnode, hnode', hrest,
      hrest', h => by
      cases node' with
      | sequence elements' =>
          simp only [Node.outline, List.cons_append] at h
          obtain ⟨hsketch, hrests⟩ :=
            outlineElements_append_inj elements elements' (depth + 1)
            rest rest' (Node.references_sequence.1 hnode)
              (Node.references_sequence.1 hnode')
            hrest hrest' (List.cons.inj h).2
          exact ⟨congrArg Node.sequence hsketch, hrests⟩
      | _ => exact absurd (Node.initial_eq h) (by simp [Node.initial])
  | .alternation choices, node', depth, rest, rest', hnode, hnode', hrest,
      hrest', h => by
      cases node' with
      | alternation choices' =>
          simp only [Node.outline, List.cons_append] at h
          obtain ⟨hsketch, hrests⟩ :=
            outlineChoices_append_inj choices choices' (depth + 1)
            rest rest' (Node.references_alternation.1 hnode)
            (Node.references_alternation.1 hnode') hrest hrest'
              (List.cons.inj h).2
          exact ⟨congrArg Node.alternation hsketch, hrests⟩
      | _ => exact absurd (Node.initial_eq h) (by simp [Node.initial])

private theorem outlineElements_append_inj :
    ∀ (elements elements' : List Element) (depth : Nat)
      (rest rest' : List OutlineLine), (∀ e ∈ elements, e.node.Legible) →
      (∀ e ∈ elements', e.node.Legible) → Leaves depth rest →
        Leaves depth rest' →
      outlineElements s depth elements ++ rest
        = outlineElements s' depth elements' ++ rest' →
      retargetElements whether elements = retargetElements whether elements'
        ∧ rest = rest'
  | [], elements', depth, rest, rest', _, _, hrest, _, h => by
      cases elements' with
      | nil =>
          exact ⟨rfl, by simpa only [outlineElements, List.nil_append] using h⟩
      | cons e' others' =>
          -- the item would stand at the depth that what comes behind has left
          have hbegins :=
            (outlineElements_begins s' depth e' others').append rest'
          rw [outlineElements, List.nil_append] at h
          rw [← h] at hbegins
          exact absurd (hbegins.leaves_iff.1 hrest) (Nat.lt_irrefl depth)
  | ⟨node, starred⟩ :: others, elements', depth, rest, rest', hall, hall',
      hrest, hrest', h => by
      obtain ⟨hnode, hothers⟩ := List.forall_mem_cons.1 hall
      have hbegins :=
        (outlineElements_begins s depth ⟨node, starred⟩ others).append rest
      cases elements' with
      | nil =>
          rw [h, outlineElements, List.nil_append] at hbegins
          exact absurd (hbegins.leaves_iff.1 hrest') (Nat.lt_irrefl depth)
      | cons e' others' =>
          obtain ⟨node', starred'⟩ := e'
          obtain ⟨hnode', hothers'⟩ := List.forall_mem_cons.1 hall'
          have hinitial : Element.initial ⟨node, starred⟩
              = Element.initial ⟨node', starred'⟩ := by
            rw [h] at hbegins
            exact hbegins.initial_inj
              ((outlineElements_begins s' depth _ others').append rest')
          obtain rfl : starred = starred' := Element.starred_eq hinitial
          have hbehind := leaves_elements s hrest others
          have hbehind' := leaves_elements s' hrest' others'
          cases starred with
          | true =>
              simp only [outlineElements, List.cons_append, List.append_assoc]
                at h
              obtain ⟨hsketch, hbelow⟩ :=
                Node.outline_append_inj node node' (depth + 1) _ _
                hnode hnode' (hbehind.mono (Nat.le_succ _))
                  (hbehind'.mono (Nat.le_succ _))
                (List.cons.inj h).2
              obtain ⟨hsketches, hrests⟩ :=
                outlineElements_append_inj others others' depth
                rest rest' hothers hothers' hrest hrest' hbelow
              exact ⟨sketch_cons true hsketch hsketches, hrests⟩
          | false =>
              simp only [outlineElements, List.append_assoc] at h
              obtain ⟨hsketch, hbelow⟩ :=
                Node.outline_append_inj node node' depth _ _
                hnode hnode' hbehind hbehind' h
              obtain ⟨hsketches, hrests⟩ :=
                outlineElements_append_inj others others' depth
                rest rest' hothers hothers' hrest hrest' hbelow
              exact ⟨sketch_cons false hsketch hsketches, hrests⟩

private theorem outlineChoices_append_inj :
    ∀ (choices choices' : List Node) (depth : Nat)
      (rest rest' : List OutlineLine), (∀ c ∈ choices, c.Legible) →
      (∀ c ∈ choices', c.Legible) → Leaves depth rest → Leaves depth rest' →
      outlineChoices s depth choices ++ rest = outlineChoices s' depth choices'
        ++ rest' →
      retargetNodes whether choices = retargetNodes whether choices'
        ∧ rest = rest'
  | [], choices', depth, rest, rest', _, _, hrest, _, h => by
      cases choices' with
      | nil =>
          exact ⟨rfl, by simpa only [outlineChoices, List.nil_append] using h⟩
      | cons node' others' =>
          have hbegins :=
            (outlineChoices_begins s' depth node' others').append rest'
          rw [outlineChoices, List.nil_append] at h
          rw [← h] at hbegins
          exact absurd (hbegins.leaves_iff.1 hrest) (Nat.lt_irrefl depth)
  | node :: others, choices', depth, rest, rest', hall, hall', hrest,
      hrest', h => by
      obtain ⟨hnode, hothers⟩ := List.forall_mem_cons.1 hall
      cases choices' with
      | nil =>
          have hbegins :=
            (outlineChoices_begins s depth node others).append rest
          rw [h, outlineChoices, List.nil_append] at hbegins
          exact absurd (hbegins.leaves_iff.1 hrest') (Nat.lt_irrefl depth)
      | cons node' others' =>
          obtain ⟨hnode', hothers'⟩ := List.forall_mem_cons.1 hall'
          simp only [outlineChoices, List.append_assoc] at h
          obtain ⟨hsketch, hbelow⟩ :=
            Node.outline_append_inj node node' depth _ _ hnode hnode'
            (leaves_choices s hrest others) (leaves_choices s' hrest' others') h
          obtain ⟨hsketches, hrests⟩ :=
            outlineChoices_append_inj others others' depth rest rest'
            hothers hothers' hrest hrest' hbelow
          exact ⟨congrArg₂ List.cons hsketch hsketches, hrests⟩

end

/-- The lines of expressions tell their keys and their sketches. -/
theorem outlines_inj {es es' : List Expression} (hes : ∀ e ∈ es, e.root.Legible)
    (hes' : ∀ e ∈ es', e.root.Legible)
    (h : es.flatMap (Expression.outline s)
      = es'.flatMap (Expression.outline s')) :
    es.map Expression.sketch = es'.map Expression.sketch := by
  -- the next expression begins at depth zero, and its tree is deeper
  have hleaves : ∀ (s : ExpressionSet) (es : List Expression),
      Leaves 2 (es.flatMap (Expression.outline s)) := by
    intro s es
    cases es with
    | nil => exact fun l hl => by cases hl
    | cons e es =>
        rintro l hl
        obtain rfl := Option.mem_some.1 hl
        exact Nat.zero_lt_two
  induction es generalizing es' with
  | nil =>
      cases es' with
      | nil => rfl
      | cons e' es' => exact absurd h (List.cons_ne_nil _ _).symm
  | cons e es ih =>
      cases es' with
      | nil => exact absurd h (List.cons_ne_nil _ _)
      | cons e' es' =>
          obtain ⟨he, hes⟩ := List.forall_mem_cons.1 hes
          obtain ⟨he', hes'⟩ := List.forall_mem_cons.1 hes'
          simp only [List.flatMap_cons, Expression.outline, List.cons_append]
            at h
          obtain ⟨hheader, hbelow⟩ := List.cons.inj h
          have hkey : e.key = e'.key := by
            have hlabel := congrArg OutlineLine.label hheader
            simp only [String.toList_append] at hlabel
            exact String.toList_inj.1 (List.append_cancel_right hlabel)
          obtain ⟨hsketch, hrest⟩ :=
            Node.outline_append_inj e.root e'.root 1 _ _ he he'
            (hleaves s es) (hleaves s' es') hbelow
          rw [List.map_cons, List.map_cons, ih hes hes' hrest]
          exact congrArg (· :: _) (congrArg₂ Expression.mk hkey hsketch)

end Trees

-- ================================================================ sets

namespace ExpressionSet

/-- Linking changes no key. -/
theorem legible_unlink : s.unlink.Legible ↔ s.Legible := by
  have hexpression : ∀ e : Expression,
    (KeyWord e.unlink.key ∧ e.unlink.root.Legible)
      ↔ (KeyWord e.key ∧ e.root.Legible) :=
    fun e => and_congr_right' Node.references_retarget
  constructor
  · intro h e he
    exact (hexpression e).1 (h _ (Array.mem_map.2 ⟨e, he, rfl⟩))
  · intro h e' he'
    obtain ⟨e, he, rfl⟩ := Array.mem_map.1 he'
    exact (hexpression e).2 (h e he)

/-- A rule that is read from a text is legible. -/
private theorem legible_push {key : String} {root : Node} (hs : s.Legible)
    (hkey : KeyWord key) (hroot : root.Legible) :
    (s.push ⟨key, root⟩).Legible := by
  intro e he
  rcases Array.mem_push.1 he with he | rfl
  · exact hs e he
  · exact ⟨hkey, hroot⟩

end ExpressionSet

/-- The words of a rule have no white space in them. -/
theorem legible_of_spells {owner : Rule.Owner} {rule : Text} {root : Node}
    (h : Rule.Spells owner rule root) : root.Legible := by
  have hcanonical := Rule.parse_canonical ((Rule.parse_eq_ok_iff _ _ _).2 h)
  intro key target hmem c hc
  obtain ⟨-, hchars, -⟩ := hcanonical _ hmem
  exact Bool.eq_false_iff.2 (hchars c hc).not_blank

/-- So a set is legible if the keys of its definitions are, whatever else
was done to it. -/
theorem Assembled.legible {definitions : Definitions}
    (h : Assembled definitions s) (hkeys : ∀ d ∈ definitions, KeyWord d.1) :
    s.Legible := by
  induction h with
  | empty => exact fun e he => absurd he (Array.not_mem_empty e)
  | define _ added ih =>
      obtain ⟨hbefore, hkey⟩ := List.forall_mem_append.1 hkeys
      obtain ⟨-, -, root, hroot, rfl⟩ := define_eq_ok_iff.1 added
      exact ExpressionSet.legible_push (ih hbefore) (hkey _ List.mem_cons_self)
        (legible_of_spells hroot)
  | refuse _ refused ih =>
      rw [ExpressionSet.define_of_error refused]
      exact ih hkeys
  | link _ lookup state ih =>
      rw [← ExpressionSet.legible_unlink, ExpressionSet.unlink_linkWith,
        ExpressionSet.legible_unlink]
      exact ih hkeys

namespace ExpressionSet

/-- The outlines of a legible set, as a text, tell the outlines. -/
theorem outlines_of_render (hs : s.Legible) (hs' : s'.Legible)
    (h : s.render = s'.render) :
    s.expressions.toList.flatMap (Expression.outline s)
      = s'.expressions.toList.flatMap (Expression.outline s') := by
  have hplain : ∀ s : ExpressionSet, s.Legible →
      ∀ l ∈ s.expressions.toList.flatMap (Expression.outline s), l.Plain := by
    intro s hs l hl
    obtain ⟨e, he, hmem⟩ := List.mem_flatMap.1 hl
    exact Expression.outline_plain hs (Array.mem_toList_iff.1 he) l hmem
  exact lines_inj (hplain s hs) (hplain s' hs') h

/-- Sets that are shown alike have the same sketches. -/
private theorem sketches_of_render (hs : s.Legible) (hs' : s'.Legible)
    (h : s.render = s'.render) :
    s.expressions.map Expression.sketch
      = s'.expressions.map Expression.sketch := by
  rw [← Array.toList_inj, Array.toList_map, Array.toList_map]
  exact outlines_inj (fun e he => (hs e (Array.mem_toList_iff.1 he)).2)
    (fun e he => (hs' e (Array.mem_toList_iff.1 he)).2)
      (outlines_of_render hs hs' h)

/-- Two sets with the same outline, whatever their histories, have the
same keys in the same order, and the trees of each key are the same but
for where their references lead: the same references have a target. For
that their keys have to be words, as those are that a rule file has. -/
theorem render_inj :
    (∀ (line : Text) (l : RuleLine), RuleLine.parse line = .ok (some l) →
      KeyWord l.key)
      ∧ ∀ (definitions definitions' : Definitions) (s s' : ExpressionSet),
          Assembled definitions s → Assembled definitions' s' →
          (∀ d ∈ definitions, KeyWord d.1) → (∀ d ∈ definitions', KeyWord d.1) →
          s.render = s'.render →
          s.expressions.map Expression.sketch
            = s'.expressions.map Expression.sketch := by
  refine ⟨fun line l h => ?_,
    fun definitions definitions' s s' h h' hkeys hkeys' hrender => ?_⟩
  · obtain ⟨-, -, -, -, hfilled, hword, -⟩ := RuleLine.parse_eq_some_iff.1 h
    exact ⟨hfilled, hword⟩
  · exact sketches_of_render (h.legible hkeys) (h'.legible hkeys') hrender

/-- A word, with all its references linked to one class of
characters. -/
def wordThrough (k : CharClass) : ExpressionSet :=
  (wordOnly.link fun _ => .found (.primitive k.scan)).set

/-- To which class, the outline does not tell. -/
theorem render_inj_primitives :
    (wordThrough .letter).render = (wordThrough .digit).render
      ∧ (wordThrough .letter).expressions.map Expression.sketch
        = (wordThrough .digit).expressions.map Expression.sketch := by
  have hassembled : ∀ k,
      Assembled [("Word", "letter Tail*".toList)] (wordThrough k) :=
    fun k => .link (.define .empty define_wordOnly) _ ()
  have hline : RuleLine.parse "Word -> letter Tail*".toList
      = .ok (some ⟨"Word", "letter Tail*".toList, false⟩) := by decide
  have hkeys : ∀ d ∈ [("Word", "letter Tail*".toList)], KeyWord d.1 :=
    List.forall_mem_singleton.2 (render_inj.1 _ _ hline)
  have hrender : (wordThrough .letter).render = (wordThrough .digit).render :=
    rfl
  exact ⟨hrender,
    render_inj.2 _ _ _ _ (hassembled .letter) (hassembled .digit) hkeys hkeys
      hrender⟩

end ExpressionSet

end Munch
