/-
The reader reads every rule.

A rule is longer than the rules in its groups and, if it has bars, than
its pieces, so a bound on its length is one on the depth of the reading.
What the reader finds in shorter rules is a hypothesis here
(`InnerFinds`), discharged in `parseAt_complete` by induction on the
bound.

The second pass comes through a run of items at the top, holding their
elements and perhaps one unfinished word (`Through`). That follows the
grammar: `Items.run` goes through it constructor by constructor.
-/
import Munch.Proofs.Rule.Soundness

namespace Munch.Rule

variable {owner : Owner} {inner : Nat → Text → Parsed Node}
  {offset i bound : Nat}

/-- The reader finds the tree of every rule no longer than the bound. -/
def InnerFinds (owner : Owner) (inner : Nat → Text → Parsed Node)
    (bound : Nat) : Prop :=
  ∀ offset t choices, t.length ≤ bound → Alternatives owner t choices →
    inner offset t = .ok (chosen choices)

namespace Pass

variable {p q : Pass} {c : Char} {s t : Text} {elements : List Element}

-- ================================================================= runs

/-- A pass goes on from the state behind the first character. -/
theorem run_cons (h : p.step owner inner offset i c = .ok q) (t : Text) :
    run owner inner offset i p (c :: t)
      = run owner inner offset (i + c.utf8Size)
          { q with place := p.place.next c } t := by
  rw [run, h]

/-- A pass goes on from the state behind the first part. -/
theorem run_append (h : run owner inner offset i p s = .ok q) (t : Text) :
    run owner inner offset i p (s ++ t)
      = run owner inner offset (i + s.size) q t := by
  induction s generalizing i p with
  | nil =>
      obtain rfl := Except.ok.inj h
      rfl
  | cons c s ih =>
      unfold run at h
      split at h
      · cases h
      · rename_i next hnext
        rw [List.cons_append, run_cons hnext, ih h, Text.size_cons,
          Nat.add_assoc]

/-- A stretch that is only kept. -/
theorem run_holds (h : Visits Holds p.place t) :
    run owner inner offset i p t
      = .ok { p with place := p.place.after t,
                     held := t.reverse ++ p.held } := by
  induction t generalizing i p with
  | nil => rfl
  | cons c t ih =>
      rw [run_cons (step_holds h.1), ih h.2, List.reverse_cons,
        List.append_assoc]
      rfl

/-- A stretch of a word. -/
theorem run_word (place : p.place = .origin) (h : ∀ c ∈ t, IsWordChar c) :
    run owner inner offset i p t
      = .ok { p with word := t.reverse ++ p.word } := by
  induction t generalizing i p with
  | nil => rfl
  | cons c t ih =>
      obtain ⟨hc, ht⟩ := List.forall_mem_cons.1 h
      have hends : endsWord c = false :=
        (endsWord_iff fun hbar => hc.2 (by simp [hbar])).2 hc
      have hstep : p.step owner inner offset i c
          = .ok { p with word := c :: p.word } := by
        rw [step_origin place]
        exact if_neg (by simp [hends])
      have hnext : p.place.next c = .origin := by
        rw [place]
        exact next_outside fun hm => hc.not_mem (List.mem_append_left ['|'] hm)
      rw [run_cons hstep, hnext, ih rfl ht, List.reverse_cons,
        List.append_assoc,
        place]
      rfl

/-- A literal or a group: its first character opens it, those between are
kept, and its last one adds an item. -/
theorem run_around (first last : Char) (inside : Place) (node : Node)
    (place : p.place = .origin)
    (hopen : p.stepTop owner offset i first
      = .ok ((p.endWord owner).openAt (i + 1)))
    (hin : Place.next .origin first = inside) (ht : Loops Holds inside t)
    (hclose : ∀ j (q : Pass), q.place = inside → q.held.reverse = t →
      q.step owner inner offset j last = .ok (q.push node))
    (hout : inside.next last = .origin) :
    ∃ q, run owner inner offset i p (first :: (t ++ [last])) = .ok q
      ∧ q.place = .origin ∧ q.word = []
      ∧ q.elements = ⟨node, false⟩ :: (p.endWord owner).elements := by
  rw [← @step_origin owner inner offset i p first place] at hopen
  rw [run_cons hopen, run_append (run_holds (by rw [place, hin]; exact ht.1))]
  have hplace : (p.place.next first).after t = inside := by
    rw [place, hin, ht.2]
  rw [run_cons (hclose _ _ hplace _)]
  · refine ⟨_, rfl, ?_, endWord_word owner p, rfl⟩
    exact (congrArg (Place.next · last) hplace).trans hout
  · show (t.reverse ++ []).reverse = t
    rw [List.append_nil, List.reverse_reverse]

/-- A group whose contents are a rule is closed with its tree. -/
theorem closeGroup_complete (hinner : InnerFinds owner inner bound)
    {choices : List Node} (hlength : p.held.reverse.length ≤ bound)
    (h : Alternatives owner p.held.reverse choices) :
    p.closeGroup inner offset i = .ok (p.push (chosen choices)) := by
  have htrim := alternatives_trim_iff.2 h
  have hfound := hinner (offset + p.opened + Text.indent p.held.reverse) _ _
    (Nat.le_trans (Text.length_trim_le _) hlength) htrim
  unfold closeGroup
  simp only
  rw [if_neg htrim.ne_nil, hfound]

-- ================================================================ items

/-- The state after a run of items from the top. -/
structure Through (owner : Owner) (t : Text) (elements : List Element)
    (p : Pass) :
    Prop where
  place : p.place = .origin
  listed : (p.endWord owner).elements = elements.reverse
  /-- Only at the end of a word may one still be open. -/
  midWord : p.word ≠ [] → ∃ c ∈ t.getLast?, IsWordChar c

/-- No word is open where an item was added or white space or a star was
read. -/
theorem through_of_word_nil (place : p.place = .origin) (word : p.word = [])
    (listed : p.elements = elements.reverse) : Through owner t elements p where
  place := place
  listed := by rw [endWord_of_nil word, listed]
  midWord h := absurd word h

/-- A pass goes through a star and has the last item starred. -/
private theorem Through.star {node : Node} {starred : Bool}
    (hp : Through owner t (elements ++ [⟨node, starred⟩]) p) :
    ∃ q, run owner inner offset i p ['*'] = .ok q
      ∧ Through owner (t ++ ['*']) (elements ++ [⟨node, true⟩]) q := by
  have hlisted := hp.listed
  rw [List.reverse_append] at hlisted
  have hstep : p.step owner inner offset i '*' = .ok { p.endWord owner with
      elements := ⟨node, true⟩ :: elements.reverse } := by
    rw [step_origin hp.place]
    show (p.endWord owner).star offset i = _
    unfold Pass.star
    rw [hlisted]
    rfl
  refine ⟨_, run_cons hstep [],
    through_of_word_nil ?_ (endWord_word owner p) ?_⟩
  · rw [hp.place]
    rfl
  · rw [List.reverse_append]
    rfl

section Items

variable (hp : Through owner t elements p)

include hp

/-- A pass goes through white space and has what it had. -/
private theorem Through.blank (white : isBlank c = true) :
    ∃ q, run owner inner offset i p [c] = .ok q
      ∧ Through owner (t ++ [c]) elements q := by
  have hm := not_mem_of_blank white
  simp only [List.mem_cons, List.not_mem_nil, or_false, not_or] at hm
  obtain ⟨hquote, hopen, hclose, -⟩ := hm
  have hstar : c ≠ '*' := by
    rintro rfl
    exact absurd white (by decide)
  have hstep : p.step owner inner offset i c = .ok (p.endWord owner) := by
    rw [step_origin hp.place, stepTop, if_pos (by simp [endsWord, white])]
    simp [hquote, hopen, hclose, hstar]
  refine ⟨_, run_cons hstep [],
    through_of_word_nil ?_ (endWord_word owner p) hp.listed⟩
  rw [hp.place]
  exact next_outside (by simp [hquote, hopen, hclose])

/-- A pass goes through a word and has a reference. -/
private theorem Through.word {word : Text} (filled : word ≠ [])
    (chars : ∀ c ∈ word, IsWordChar c)
    (apart : ∀ c ∈ t.getLast?, ¬ IsWordChar c) :
    ∃ q, run owner inner offset i p word = .ok q
      ∧ Through owner (t ++ word)
          (elements ++ [⟨owner.reference word, false⟩]) q := by
  have hnil : p.word = [] := by
    apply Decidable.byContradiction
    intro hne
    obtain ⟨c, hc, hword⟩ := hp.midWord hne
    exact apart c hc hword
  have hlisted := hp.listed
  rw [endWord_of_nil hnil] at hlisted
  refine ⟨_, run_word hp.place chars, hp.place, ?_, fun _ => ?_⟩
  · rw [endWord_of_ne_nil]
    · simp [push, hnil, hlisted]
    · simp [hnil, filled]
  · refine ⟨word.getLast filled, ?_, chars _ (List.getLast_mem filled)⟩
    rw [List.getLast?_append, List.getLast?_eq_some_getLast filled]
    rfl

/-- A pass goes through a literal and has it. -/
private theorem Through.literal {body : Text} (inside : Body body) :
    ∃ q, run owner inner offset i p ('"' :: (body ++ ['"'])) = .ok q
      ∧ Through owner (t ++ '"' :: (body ++ ['"']))
          (elements ++ [⟨.literal body, false⟩]) q := by
  obtain ⟨q, hq, hplace, hword, helements⟩ :=
    @run_around owner inner offset i p _ '"' '"' ⟨.inside, 0⟩ (.literal body)
      hp.place rfl rfl ((inside.loops 0).mono holds_of_covered)
      (fun j q hq hheld => by rw [step_quote hq, hheld]) rfl
  refine ⟨q, hq, through_of_word_nil hplace hword ?_⟩
  rw [helements, hp.listed, List.reverse_append]
  rfl

/-- A pass goes through a group and has its alternatives as one item. -/
theorem Through.group (hinner : InnerFinds owner inner bound) {contents : Text}
    {choices : List Node} (inside : Alternatives owner contents choices)
    (hlength : contents.length ≤ bound) :
    ∃ q, run owner inner offset i p ('(' :: (contents ++ [')'])) = .ok q
      ∧ Through owner (t ++ '(' :: (contents ++ [')']))
          (elements ++ [⟨chosen choices, false⟩]) q := by
  obtain ⟨q, hq, hplace, hword, helements⟩ :=
    @run_around owner inner offset i p _ '(' ')' ⟨.outside, 1⟩ (chosen choices)
      hp.place rfl rfl ((inside.loops 1).mono holds_of_stays)
      (fun j q hq hheld => by
        rw [step_close hq]
        exact closeGroup_complete hinner (by rw [hheld]; exact hlength)
          (by rw [hheld]; exact inside)) rfl
  refine ⟨q, hq, through_of_word_nil hplace hword ?_⟩
  rw [helements, hp.listed, List.reverse_append]
  rfl

end Items

end Pass

/-- The second pass comes through a run of items. -/
theorem Items.run (hinner : InnerFinds owner inner bound) {t : Text}
    {elements : List Element} : Items owner t elements → t.length ≤ bound + 1 →
    ∃ p, Pass.run owner inner offset 0 .start t = .ok p
      ∧ Pass.Through owner t elements p
  | .nil, _ => ⟨_, rfl, Pass.through_of_word_nil rfl rfl rfl⟩
  | .blank before white, hlength => by
      obtain ⟨p, hp, through⟩ := before.run hinner (by simp at hlength; omega)
      obtain ⟨q, hq, through'⟩ := through.blank white
      exact ⟨q, by rw [Pass.run_append hp, hq], through'⟩
  | .star before, hlength => by
      obtain ⟨p, hp, through⟩ := before.run hinner (by simp at hlength; omega)
      obtain ⟨q, hq, through'⟩ := through.star
      exact ⟨q, by rw [Pass.run_append hp, hq], through'⟩
  | .word before filled chars apart, hlength => by
      obtain ⟨p, hp, through⟩ := before.run hinner (by simp at hlength; omega)
      obtain ⟨q, hq, through'⟩ := through.word filled chars apart
      exact ⟨q, by rw [Pass.run_append hp, hq], through'⟩
  | .literal before inside, hlength => by
      obtain ⟨p, hp, through⟩ := before.run hinner (by simp at hlength; omega)
      obtain ⟨q, hq, through'⟩ := through.literal inside
      exact ⟨q, by rw [Pass.run_append hp, hq], through'⟩
  | .group before inside, hlength => by
      obtain ⟨p, hp, through⟩ := before.run hinner (by simp at hlength; omega)
      obtain ⟨q, hq, through'⟩ :=
        through.group hinner inside (by simp at hlength; omega)
      exact ⟨q, by rw [Pass.run_append hp, hq], through'⟩

-- ======================================================== the whole rule

/-- Items are read as such. -/
theorem items_complete (hinner : InnerFinds owner inner bound) {t : Text}
    {elements : List Element} (h : Items owner t elements) (hne : elements ≠ [])
    (hlength : t.length ≤ bound + 1) :
    items owner inner offset t = .ok (sequenced elements) := by
  obtain ⟨p, hp, through⟩ : ∃ p, Pass.run owner inner offset 0 .start t = .ok p
      ∧ Pass.Through owner t elements p := h.run hinner hlength
  unfold items
  rw [hp]
  refine Pass.finish_eq_ok_iff.2 ⟨through.place, ?_, ?_⟩
  · rw [through.listed, List.reverse_reverse]
    exact hne
  · rw [through.listed, List.reverse_reverse]

/-- The first pass finds no bar among items. -/
theorem cut_items {t : Text} {elements : List Element}
    (h : Items owner t elements) : cut offset .origin i t = .ok (t, []) := by
  have hcut : cut offset .origin i (t ++ []) = .ok (t ++ [], []) :=
    cut_append h.loops_origin.1 rfl
  rwa [List.append_nil] at hcut

/-- The first pass cuts at the bar behind items. -/
theorem cut_items_bar {t rest piece : Text} {elements : List Element}
    {later : List (Nat × Text)} (h : Items owner t elements)
    (hrest : cut offset .origin (i + t.size + 1) rest = .ok (piece, later)) :
    cut offset .origin i (t ++ '|' :: rest)
      = .ok (t, (i + t.size + 1, piece) :: later) := by
  have hcut : cut offset .origin i (t ++ '|' :: rest)
      = .ok (t ++ [], (i + t.size + 1, piece) :: later) :=
    cut_append h.loops_origin.1 (by rw [h.loops_origin.2]; exact cut_bar hrest)
  rwa [List.append_nil] at hcut

/-- A piece is read as the alternative that it is. -/
theorem alternatives_cons_complete (hinner : InnerFinds owner inner bound)
    {start : Nat} {piece : Text} {later : List (Nat × Text)} {nodes : List Node}
    {elements : List Element} (h : Items owner piece elements)
    (hne : elements ≠ []) (hlength : piece.length ≤ bound)
    (hlater : alternatives inner offset later = .ok nodes) :
    alternatives inner offset ((start, piece) :: later)
      = .ok (sequenced elements :: nodes) := by
  have htrim : Alternatives owner piece.trim [sequenced elements] :=
    .last (items_trim_iff.2 h) hne
  have hfound := hinner (offset + (start + piece.indent)) _ _
    (Nat.le_trans (Text.length_trim_le piece) hlength) htrim
  simp only [alternatives]
  rw [if_neg htrim.ne_nil, hfound, hlater]
  rfl

/-- Alternatives are cut into pieces that are read as what they are. -/
theorem Alternatives.pieces (hinner : InnerFinds owner inner bound) {t : Text}
    {choices : List Node} :
    Alternatives owner t choices → t.length ≤ bound → ∀ i,
      ∃ piece later, cut offset .origin i t = .ok (piece, later)
        ∧ ∀ start, alternatives inner offset ((start, piece) :: later)
          = .ok choices
  | .last items filled, hlength, i =>
      ⟨_, [], cut_items items, fun _ =>
        alternatives_cons_complete hinner items filled hlength rfl⟩
  | @Alternatives.more _ t rest _ _ items filled others, hlength, i => by
      rw [List.length_append, List.length_cons] at hlength
      obtain ⟨piece, later, hcut, hread⟩ :=
        others.pieces hinner (by omega) (i + t.size + 1)
      exact ⟨_, _, cut_items_bar items hcut, fun _ =>
        alternatives_cons_complete hinner items filled (by omega) (hread _)⟩

/-- A rule is read as its tree. -/
theorem parseAt_complete (bound : Nat) :
    InnerFinds owner (parseAt owner bound) bound := by
  induction bound with
  | zero =>
      intro offset t choices hlength h
      exact absurd (List.length_eq_zero_iff.1 (Nat.le_zero.1 hlength)) h.ne_nil
  | succ bound ih =>
      intro offset t choices hlength h
      unfold parseAt
      cases h with
      | last items filled =>
          rw [cut_items items]
          exact items_complete ih items filled hlength
      | more items filled others =>
          rw [List.length_append, List.length_cons] at hlength
          obtain ⟨piece, later, hcut, hread⟩ := others.pieces ih (by omega) _
          rw [cut_items_bar items hcut]
          simp only
          rw [alternatives_cons_complete ih items filled (by omega) (hread _)]
          have := List.length_pos_iff.2 others.choices_ne_nil
          refine congrArg Except.ok (chosen_of_two_le ?_).symm
          rw [List.length_cons]
          omega

/-- A text is a rule in no more than one way. -/
theorem Spells.unique {rule : Text} {a b : Node} (ha : Spells owner rule a)
    (hb : Spells owner rule b) : a = b := by
  obtain ⟨choices, hchoices, rfl⟩ := ha
  obtain ⟨choices', hchoices', rfl⟩ := hb
  have h := parseAt_complete rule.length 0 rule choices (Nat.le_refl _) hchoices
  rw [parseAt_complete rule.length 0 rule choices' (Nat.le_refl _) hchoices']
    at h
  exact (Except.ok.inj h).symm

/-- A rule is read exactly if it is one, and exactly as its tree. -/
theorem parse_eq_ok_iff (owner : Owner) (rule : Text) (node : Node) :
    parse owner rule = .ok node ↔ Spells owner rule node := by
  constructor
  · exact parseAt_sound rule.length 0 rule node
  · rintro ⟨choices, hchoices, rfl⟩
    exact parseAt_complete rule.length 0 rule choices (Nat.le_refl _) hchoices

example : parse ⟨"List", 3⟩ "\"|\" List* (Item|\")\")".toList
    = .ok (.sequence [⟨.literal ['|'], false⟩,
        ⟨.reference "List" (some (.expression 3)), true⟩,
        ⟨.alternation [.reference "Item" none, .literal [')']], false⟩]) := by
  rfl

end Munch.Rule
