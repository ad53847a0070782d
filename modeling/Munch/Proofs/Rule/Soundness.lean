/-
What the reader makes of a rule is what the grammar says.

The second pass keeps an invariant (`Reads`): what it has read so far is
a run of items, whose elements it holds in reverse, and then the word,
the literal or the group it is in. A step preserves it (`Reads.step`),
so a whole run does (`Reads.run`); at the end nothing is left open. The
pieces of the first pass have one alternative each, so their trees are
those of alternatives (`alternatives_sound`).

The main result is `parseAt_sound`, by induction on the bound.
-/
import Munch.Proofs.Rule.Steps

namespace Munch.Rule

variable {owner : Owner} {inner : Nat → Text → Parsed Node} {offset i : Nat}

/-- Whatever the reader makes of a text is a tree of it. -/
def InnerSound (owner : Owner) (inner : Nat → Text → Parsed Node) : Prop :=
  ∀ offset t node, inner offset t = .ok node → Spells owner t node

-- =============================================================== bodies

/-- What has been read of a literal, by the place it has led to. -/
def InBody : Quote → Text → Prop
  | .outside, _ => False
  | .inside, held => Body held
  | .escape, held => ∃ body, Body body ∧ held = body ++ ['\\']
  | .unicode left, held =>
      ∃ body covered, Body body ∧ held = body ++ '\\' :: 'u' :: covered
        ∧ covered.length + left = 3

/-- One more character of a literal that it does not end. -/
theorem InBody.next {quote : Quote} {held : Text} {c : Char}
    (h : InBody quote held) (hend : ¬ (quote = .inside ∧ c = '"')) :
    InBody (quote.next c) (held ++ [c]) := by
  match quote with
  | .outside => exact h.elim
  | .inside =>
      have hquote : c ≠ '"' := fun hc => hend ⟨rfl, hc⟩
      by_cases hslash : c = '\\'
      · subst hslash
        exact ⟨held, h, rfl⟩
      · rw [Quote.next, if_neg hquote, if_neg hslash]
        exact .plain h hquote hslash
  | .escape =>
      obtain ⟨body, hbody, rfl⟩ := h
      rw [List.append_assoc, List.singleton_append]
      by_cases hu : c = 'u'
      · subst hu
        exact ⟨body, [], hbody, rfl, rfl⟩
      · rw [Quote.next, if_neg hu]
        exact .escape hbody hu
  | .unicode 0 =>
      obtain ⟨body, covered, hbody, rfl, hlength⟩ := h
      rw [List.append_assoc, List.cons_append, List.cons_append]
      refine .unicode hbody ?_
      rw [List.length_append, List.length_singleton]
      omega
  | .unicode (left + 1) =>
      obtain ⟨body, covered, hbody, rfl, hlength⟩ := h
      rw [List.append_assoc, List.cons_append, List.cons_append]
      refine ⟨body, covered ++ [c], hbody, rfl, ?_⟩
      rw [List.length_append, List.length_singleton]
      omega

-- ======================================================== the invariant

/-- What the second pass has read: items, and then a part of one. -/
inductive Reads (owner : Owner) (read : Text) (p : Pass) : Prop
  | between {t : Text} {elements : List Element} (place : p.place = .origin)
      (shape : read = t ++ p.word.reverse) (items : Items owner t elements)
      (listed : p.elements = elements.reverse)
      (chars : ∀ c ∈ p.word, IsWordChar c)
      (apart : ∀ c ∈ t.getLast?, ¬ IsWordChar c)
  | literal {t : Text} {elements : List Element} (level : p.place.depth = 0)
      (shape : read = t ++ '"' :: p.held.reverse)
      (items : Items owner t elements) (listed : p.elements = elements.reverse)
      (word : p.word = []) (body : InBody p.place.quote p.held.reverse)
  | group {t : Text} {elements : List Element} (deep : 1 ≤ p.place.depth)
      (shape : read = t ++ '(' :: p.held.reverse)
      (items : Items owner t elements) (listed : p.elements = elements.reverse)
      (word : p.word = [])

namespace Pass

variable {p q : Pass} {c : Char} {t read : Text} {elements : List Element}

/-- The word being read is an item when it ends. -/
theorem endWord_items (items : Items owner t elements)
    (listed : p.elements = elements.reverse)
    (chars : ∀ c ∈ p.word, IsWordChar c)
    (apart : ∀ c ∈ t.getLast?, ¬ IsWordChar c) :
    ∃ elements', Items owner (t ++ p.word.reverse) elements'
      ∧ (p.endWord owner).elements = elements'.reverse := by
  by_cases hword : p.word = []
  · refine ⟨elements, ?_, ?_⟩
    · rw [hword, List.reverse_nil, List.append_nil]
      exact items
    · rw [endWord_of_nil hword, listed]
  · refine ⟨_, .word items ?_ ?_ apart, ?_⟩
    · exact fun h => hword (List.reverse_eq_nil_iff.1 h)
    · exact fun c hc => chars c (List.mem_reverse.1 hc)
    · rw [endWord_of_ne_nil hword, List.reverse_append, ← listed]
      rfl

/-- A state at the top, after a character that is no part of a word. -/
theorem reads_top (items : Items owner (read ++ [c]) elements)
    (listed : p.elements = elements.reverse) (place : p.place = .origin)
    (word : p.word = []) (hc : ¬ IsWordChar c) :
    Reads owner (read ++ [c]) p := by
  refine .between place ?_ items listed ?_ ?_
  · rw [word, List.reverse_nil, List.append_nil]
  · rw [word]
    exact fun d hd => absurd hd List.not_mem_nil
  · intro d hd
    rw [List.getLast?_concat] at hd
    obtain rfl := Option.some.inj hd
    exact hc

/-- A character at the top. -/
theorem reads_stepTop (place : p.place = .origin)
    (shape : read = t ++ p.word.reverse) (items : Items owner t elements)
    (listed : p.elements = elements.reverse)
    (chars : ∀ c ∈ p.word, IsWordChar c)
    (apart : ∀ c ∈ t.getLast?, ¬ IsWordChar c) (hbar : c ≠ '|')
    (h : p.stepTop owner offset i c = .ok q) :
    Reads owner (read ++ [c]) { q with place := p.place.next c } := by
  obtain ⟨elements', items', listed'⟩ := endWord_items items listed chars apart
  rw [← shape] at items'
  rw [place]
  rcases stepTop_cases hbar h with ⟨hc, rfl⟩ | ⟨hc, rfl⟩
    | ⟨rfl, ⟨node, starred⟩, before, hlast, rfl⟩ | ⟨hc, rfl⟩
  · refine .between (next_outside fun hm => hc.not_mem ?_) ?_ items listed
      ?_ apart
    · exact List.mem_append_left ['|'] hm
    · rw [shape, List.append_assoc, List.reverse_cons]
    · exact List.forall_mem_cons.2 ⟨hc, chars⟩
  · exact reads_top (.blank items' hc) listed'
      (next_outside fun hm => not_mem_of_blank hc
        (List.mem_append_left ['|'] hm))
      (endWord_word owner p) fun hword => hword.not_blank hc
  · rw [hlast] at listed'
    have helements : elements' = before.reverse ++ [⟨node, starred⟩] := by
      rw [← List.reverse_reverse elements', ← listed', List.reverse_cons]
    rw [helements] at items'
    refine reads_top (.star items') ?_ rfl (endWord_word owner p)
      (by simp [IsWordChar])
    simp
  · rcases hc with rfl | rfl
    · exact .literal rfl rfl items' listed' (endWord_word owner p) .nil
    · exact .group (Nat.le_refl 1) rfl items' listed' (endWord_word owner p)

/-- A character in a top-level literal. -/
theorem reads_stepLiteral (level : p.place.depth = 0)
    (shape : read = t ++ '"' :: p.held.reverse) (items : Items owner t elements)
    (listed : p.elements = elements.reverse) (word : p.word = [])
    (body : InBody p.place.quote p.held.reverse)
    (h : p.step owner inner offset i c = .ok q) :
    Reads owner (read ++ [c]) { q with place := p.place.next c } := by
  by_cases hend : p.place.quote = .inside ∧ c = '"'
  · obtain ⟨hquote, rfl⟩ := hend
    have place : p.place = ⟨.inside, 0⟩ := by rw [← hquote, ← level]
    rw [step_quote place] at h
    obtain rfl := Except.ok.inj h
    rw [hquote] at body
    have items' := Items.literal items body
    rw [← List.cons_append, ← List.append_assoc, ← shape] at items'
    rw [place]
    refine reads_top items' ?_ rfl word (by simp [IsWordChar])
    rw [List.reverse_append, ← listed]
    rfl
  · have hquote : p.place.quote ≠ .outside := by
      intro hquote
      rw [hquote] at body
      exact body
    have hcovered : Covered 0 p.place c := ⟨hquote, level, hend⟩
    rw [step_holds (holds_of_covered _ _ hcovered)] at h
    obtain rfl := Except.ok.inj h
    have hheld : (p.hold c).held.reverse = p.held.reverse ++ [c] :=
      List.reverse_cons
    refine .literal hcovered.depth_next ?_ items listed word ?_
    · rw [shape, List.append_assoc, hheld]
      rfl
    · rw [hheld]
      exact body.next hend

/-- The contents of a group that could be read are a rule. -/
theorem closeGroup_sound (hinner : InnerSound owner inner)
    (h : p.closeGroup inner offset i = .ok q) :
    ∃ choices, Alternatives owner p.held.reverse choices
      ∧ q = p.push (chosen choices) := by
  unfold closeGroup at h
  simp only at h
  split at h
  · cases h
  · split at h
    · cases h
    · rename_i node hnode
      obtain ⟨choices, hchoices, rfl⟩ := hinner _ _ _ hnode
      exact ⟨choices, alternatives_trim_iff.1 hchoices, (Except.ok.inj h).symm⟩

/-- A character in a top-level group. -/
theorem reads_stepGroup (hinner : InnerSound owner inner)
    (deep : 1 ≤ p.place.depth) (shape : read = t ++ '(' :: p.held.reverse)
    (items : Items owner t elements) (listed : p.elements = elements.reverse)
    (word : p.word = []) (h : p.step owner inner offset i c = .ok q) :
    Reads owner (read ++ [c]) { q with place := p.place.next c } := by
  by_cases hend : p.place = ⟨.outside, 1⟩ ∧ c = ')'
  · obtain ⟨place, rfl⟩ := hend
    rw [step_close place] at h
    obtain ⟨choices, hchoices, rfl⟩ := closeGroup_sound hinner h
    have items' := Items.group items hchoices
    rw [← List.cons_append, ← List.append_assoc, ← shape] at items'
    rw [place]
    refine reads_top items' ?_ rfl word (by simp [IsWordChar])
    rw [List.reverse_append, ← listed]
    rfl
  · have hstays : Stays 1 p.place c := ⟨deep, hend⟩
    rw [step_holds (holds_of_stays _ _ hstays)] at h
    obtain rfl := Except.ok.inj h
    have hheld : (p.hold c).held.reverse = p.held.reverse ++ [c] :=
      List.reverse_cons
    refine .group hstays.depth_next ?_ items listed word
    rw [shape, List.append_assoc, hheld]
    rfl

end Pass

section Runs

variable {p q : Pass} {c : Char} {t read : Text}

/-- What a step preserves. -/
theorem Reads.step (hinner : InnerSound owner inner) (hp : Reads owner read p)
    (hc : Quiet 0 p.place c) (h : p.step owner inner offset i c = .ok q) :
    Reads owner (read ++ [c]) { q with place := p.place.next c } := by
  cases hp with
  | between place shape items listed chars apart =>
      rw [Pass.step_origin place] at h
      exact Pass.reads_stepTop place shape items listed chars apart
        (fun hbar => hc.2 ⟨place, hbar⟩) h
  | literal level shape items listed word body =>
      exact Pass.reads_stepLiteral level shape items listed word body h
  | group deep shape items listed word =>
      exact Pass.reads_stepGroup hinner deep shape items listed word h

/-- What a whole run preserves. -/
theorem Reads.run (hinner : InnerSound owner inner) (hp : Reads owner read p)
    (ht : Visits (Quiet 0) p.place t)
    (h : Pass.run owner inner offset i p t = .ok q) :
    Reads owner (read ++ t) q := by
  induction t generalizing i p read with
  | nil =>
      obtain rfl := Except.ok.inj h
      rw [List.append_nil]
      exact hp
  | cons c t ih =>
      unfold Pass.run at h
      split at h
      · cases h
      · rename_i next hnext
        have hstep := hp.step hinner ht.1 hnext
        rw [show read ++ c :: t = (read ++ [c]) ++ t from List.append_cons ..]
        exact ih hstep ht.2 h

private theorem reads_start : Reads owner [] .start :=
  .between rfl rfl .nil rfl (fun _ h => absurd h List.not_mem_nil)
    (fun _ h => by cases h)

/-- At the end nothing is left open, so all that was read is items. -/
theorem Reads.finish {size : Nat} {node : Node} (hp : Reads owner t p)
    (h : p.finish owner offset size = .ok node) :
    ∃ elements, Items owner t elements ∧ elements ≠ []
      ∧ node = sequenced elements := by
  obtain ⟨hplace, hne, hnode⟩ := Pass.finish_eq_ok_iff.1 h
  cases hp with
  | between place shape items listed chars apart =>
      obtain ⟨elements, hitems, hlisted⟩ :=
        Pass.endWord_items items listed chars apart
      rw [hlisted, List.reverse_reverse] at hne hnode
      exact ⟨elements, shape ▸ hitems, hne, hnode⟩
  | literal level shape items listed word body =>
      rw [hplace] at body
      exact body.elim
  | group deep =>
      rw [hplace] at deep
      exact absurd deep (by decide)

end Runs

-- ======================================================== the whole rule

/-- What can be read as items is items. -/
theorem items_sound (hinner : InnerSound owner inner) {t : Text} {node : Node}
    (ht : Visits (Quiet 0) .origin t)
    (h : items owner inner offset t = .ok node) :
    ∃ elements, Items owner t elements ∧ elements ≠ []
      ∧ node = sequenced elements := by
  unfold items at h
  split at h
  · cases h
  · rename_i p hp
    exact (reads_start.run hinner ht hp).finish h

/-- A piece that can be read is one alternative, and so on. -/
theorem alternatives_cons_sound (hinner : InnerSound owner inner) {start : Nat}
    {piece : Text} {later : List (Nat × Text)} {nodes : List Node}
    (hpiece : Visits (Quiet 0) .origin piece)
    (h : alternatives inner offset ((start, piece) :: later) = .ok nodes) :
    ∃ elements rest, Items owner piece elements ∧ elements ≠ []
      ∧ alternatives inner offset later = .ok rest
      ∧ nodes = sequenced elements :: rest := by
  simp only [alternatives] at h
  split at h
  · cases h
  split at h
  · cases h
  rename_i node hnode
  split at h
  · cases h
  rename_i rest hrest
  obtain ⟨choices, hchoices, rfl⟩ := hinner _ _ _ hnode
  obtain ⟨elements, hitems, hne, rfl⟩ :=
    (alternatives_trim_iff.1 hchoices).single hpiece
  exact ⟨elements, rest, hitems, hne, hrest, (Except.ok.inj h).symm⟩

/-- Pieces that can all be read are the alternatives of the text they
were cut from. -/
theorem alternatives_sound (hinner : InnerSound owner inner) {start : Nat}
    {piece : Text} {later : List (Nat × Text)} {nodes : List Node}
    (hpiece : Visits (Quiet 0) .origin piece)
    (hlater : ∀ q ∈ later, Visits (Quiet 0) .origin q.2)
    (h : alternatives inner offset ((start, piece) :: later) = .ok nodes) :
    Alternatives owner (joined piece later) nodes
      ∧ nodes.length = later.length + 1 := by
  induction later generalizing start piece nodes with
  | nil =>
      obtain ⟨elements, rest, hitems, hne, hrest, rfl⟩ :=
        alternatives_cons_sound hinner hpiece h
      obtain rfl := Except.ok.inj hrest
      exact ⟨.last hitems hne, rfl⟩
  | cons q later ih =>
      obtain ⟨elements, rest, hitems, hne, hrest, rfl⟩ :=
        alternatives_cons_sound hinner hpiece h
      obtain ⟨hq, hlater⟩ := List.forall_mem_cons.1 hlater
      obtain ⟨hothers, hlength⟩ := ih hq hlater hrest
      exact ⟨.more hitems hne hothers, congrArg (· + 1) hlength⟩

/-- Two or more trees make a choice. -/
theorem chosen_of_two_le {nodes : List Node} (h : 2 ≤ nodes.length) :
    chosen nodes = .alternation nodes := by
  match nodes with
  | [] => cases h
  | [_] => exact absurd h (by simp)
  | _ :: _ :: _ => rfl

/-- What is read as a rule is one, and the tree is its tree. -/
theorem parseAt_sound (bound : Nat) :
    InnerSound owner (parseAt owner bound) := by
  induction bound with
  | zero =>
      intro offset t node h
      cases h
  | succ bound ih =>
      intro offset t node h
      unfold parseAt at h
      split at h
      · cases h
      · rename_i piece hcut
        obtain ⟨rfl, hpiece, -⟩ := cut_sound hcut
        obtain ⟨elements, hitems, hne, rfl⟩ := items_sound ih hpiece h
        exact ⟨_, .last hitems hne, rfl⟩
      · rename_i piece later hsome hcut
        obtain ⟨rfl, hpiece, hlater⟩ := cut_sound hcut
        split at h
        · cases h
        rename_i nodes hnodes
        obtain ⟨hall, hlength⟩ := alternatives_sound ih hpiece hlater hnodes
        obtain rfl := Except.ok.inj h
        refine ⟨nodes, hall, (chosen_of_two_le ?_).symm⟩
        have := List.length_pos_iff.2 hsome
        omega

end Munch.Rule
