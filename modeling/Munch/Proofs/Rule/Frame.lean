/-
What stands around a part of a rule that is read as a rule.

From a rule the reader comes down to its alternatives and into its
groups, takes the white space off, and begins again. What it needs to know
of the rest of the rule is little (`Frame`): the part follows a bar, an
opening parenthesis or the start of the rule, and precedes a bar, a
closing parenthesis or the end, each outside literals and with only white
space between; and if anything stands around it, the part closes no group
that it does not open.

This holds of the whole rule (`Frame.whole`), and every step down
preserves it: to a piece (`Frame.piece`), into a group (`Frame.group`),
and from a text to what is left of it without white space (`Frame.trim`).
-/
import Munch.Proofs.Rule.Canonical
import Munch.Proofs.Rule.PassFaults

namespace Munch.Rule

variable {p : Place} {c : Char} {d : Nat} {s t : Text}

-- ========================================================== white space

/-- White space does not lead out of a literal, nor into one. -/
theorem Quote.next_blank (q : Quote) (hc : isBlank c = true) :
    q.next c = .outside ↔ q = .outside := by
  have hquote : c ≠ '"' := fun h => not_mem_of_blank hc (by simp [h])
  cases q with
  | outside => simp [Quote.next, hquote]
  | inside =>
      by_cases hslash : c = '\\'
      · simp [Quote.next, hslash]
      · simp [Quote.next, hquote, hslash]
  | escape =>
      by_cases hu : c = 'u'
      · simp [Quote.next, hu]
      · simp [Quote.next, hu]
  | unicode left => cases left <;> simp [Quote.next]

/-- White space neither begins a literal nor ends one. -/
private theorem Quote.after_blank (q : Quote) (hs : s.Blank) :
    q.after s = .outside ↔ q = .outside := by
  induction s generalizing q with
  | nil => rfl
  | cons c s ih =>
      obtain ⟨hc, hs⟩ := List.forall_mem_cons.1 hs
      exact (ih (q.next c) hs).trans (q.next_blank hc)

/-- White space leaves the depth as it is. -/
private theorem Place.depth_next_blank (p : Place) (hc : isBlank c = true) :
    (p.next c).depth = p.depth := by
  have hmem := not_mem_of_blank hc
  simp only [List.mem_cons, not_or] at hmem
  simp [Place.next, hmem]

/-- A place outside literals is told by its depth. -/
theorem Place.eq_outside_iff :
    p = ⟨.outside, d⟩ ↔ p.quote = .outside ∧ p.depth = d := by
  cases p
  simp

/-- White space outside literals leads nowhere else. -/
theorem Place.after_blank (p : Place) (hs : s.Blank) :
    p.after s = ⟨.outside, d⟩ ↔ p = ⟨.outside, d⟩ := by
  induction s generalizing p with
  | nil => rfl
  | cons c s ih =>
      obtain ⟨hc, hs⟩ := List.forall_mem_cons.1 hs
      rw [Place.after_cons, ih (p.next c) hs]
      have hquote : (p.next c).quote = .outside ↔ p.quote = .outside :=
        p.quote.next_blank hc
      rw [Place.eq_outside_iff, Place.eq_outside_iff, hquote,
        p.depth_next_blank hc]

/-- A walk that does not close the group it is in stays in it. -/
theorem Visits.le_depth_after (ht : Visits (Stays d) p t) (hd : d ≤ p.depth) :
    d ≤ (p.after t).depth := by
  induction t generalizing p with
  | nil => exact hd
  | cons c t ih => exact ih ht.2 ht.1.depth_next

/-- White space behind a text ends no group. -/
theorem Visits.stays_blank (ht : Visits (Stays d) p t) (hd : d ≤ p.depth)
    (hs : s.Blank) : Visits (Stays d) p (t ++ s) := by
  refine visits_append.2 ⟨ht, ?_⟩
  have hafter := ht.le_depth_after hd
  generalize p.after t = q at hafter
  induction s generalizing q with
  | nil => trivial
  | cons c s ih =>
      obtain ⟨hc, hs⟩ := List.forall_mem_cons.1 hs
      have hclose : c ≠ ')' := fun h => not_mem_of_blank hc (by simp [h])
      have hstays : Stays d q c := ⟨hafter, fun h => hclose h.2⟩
      exact ⟨hstays, ih hs _ hstays.depth_next⟩

/-- A walk that does not end the literal it is in stays in it. -/
theorem Visits.covered_after (ht : Visits (Covered d) p t)
    (hquote : p.quote ≠ .outside) (hdepth : p.depth = d) :
    (p.after t).quote ≠ .outside ∧ (p.after t).depth = d := by
  induction t generalizing p with
  | nil => exact ⟨hquote, hdepth⟩
  | cons c t ih => exact ih ht.2 ht.1.quote_next ht.1.depth_next

/-- White space behind the beginning of a literal does not end it. -/
theorem Visits.covered_blank (ht : Visits (Covered d) p t)
    (hquote : p.quote ≠ .outside) (hdepth : p.depth = d) (hs : s.Blank) :
    Visits (Covered d) p (t ++ s) := by
  refine visits_append.2 ⟨ht, ?_⟩
  obtain ⟨hquote', hdepth'⟩ := ht.covered_after hquote hdepth
  generalize p.after t = q at hquote' hdepth'
  induction s generalizing q with
  | nil => trivial
  | cons c s ih =>
      obtain ⟨hc, hs⟩ := List.forall_mem_cons.1 hs
      have hend : c ≠ '"' := fun h => not_mem_of_blank hc (by simp [h])
      have hcovered : Covered d q c := ⟨hquote', hdepth', fun h => hend h.2⟩
      exact ⟨hcovered, ih hs _ hcovered.quote_next hcovered.depth_next⟩

-- ========================================================== groups around

/-- The same place in one more group. -/
def Place.raise (p : Place) : Place := ⟨p.quote, p.depth + 1⟩

private theorem stays_raise : Stays 1 p.raise c ↔ Stays 0 p c := by
  have hplace : p.raise = ⟨.outside, 1⟩ ↔ p = ⟨.outside, 0⟩ := by
    rw [Place.eq_outside_iff, Place.eq_outside_iff, Place.raise]
    simp
  unfold Stays
  rw [hplace]
  simp [Place.raise]

private theorem next_raise (h : Stays 0 p c) :
    p.raise.next c = (p.next c).raise := by
  obtain ⟨-, hclose⟩ := h
  rw [Place.eq_outside_iff] at hclose
  unfold Place.next Place.raise
  congr 1
  simp only
  by_cases hquote : p.quote = .outside
  · rw [if_pos hquote, if_pos hquote]
    split
    · rfl
    · split
      · have : p.depth ≠ 0 := fun h => hclose ⟨⟨hquote, h⟩, ‹_›⟩
        omega
      · rfl
  · rw [if_neg hquote, if_neg hquote]

/-- What closes no group of its own can be read a group further up. -/
theorem visits_raise : Visits (Stays 1) p.raise t ↔ Visits (Stays 0) p t := by
  induction t generalizing p with
  | nil => exact Iff.rfl
  | cons c t ih =>
      show Stays 1 p.raise c ∧ _ ↔ Stays 0 p c ∧ _
      rw [stays_raise]
      refine and_congr_right fun hc => ?_
      rw [next_raise hc]
      exact ih

private theorem after_raise (h : Visits (Stays 0) p t) :
    p.raise.after t = (p.after t).raise := by
  induction t generalizing p with
  | nil => rfl
  | cons c t ih =>
      rw [Place.after_cons, Place.after_cons, next_raise h.1]
      exact ih h.2

/-- A text that closes only what it opened does so at any depth. -/
private theorem visits_deeper (h : Visits (Stays 0) p t) (d : Nat) :
    Visits (Stays 0) ⟨p.quote, p.depth + d⟩ t := by
  induction d with
  | zero => exact h
  | succ d ih =>
      exact (visits_raise.2 ih).mono fun q c hc =>
        (Stays.quiet_of_succ q c hc).1

/-- A walk that closes no group but its own leads to the same places
however many groups there are around it. -/
theorem after_deeper (h : Visits (Stays 0) p t) (d : Nat) :
    Place.after ⟨p.quote, p.depth + d⟩ t = ⟨(p.after t).quote,
      (p.after t).depth + d⟩ := by
  induction d with
  | zero => rfl
  | succ d ih =>
      have hraise := after_raise (visits_deeper h d)
      rw [ih] at hraise
      exact hraise

/-- The contents of a group, read by themselves. -/
theorem Loops.lower (h : Loops (Stays 1) ⟨.outside, 1⟩ t) :
    Loops (Stays 0) .origin t := by
  obtain ⟨hvisits, hafter⟩ := h
  have hvisits' : Visits (Stays 0) .origin t := visits_raise.1 hvisits
  have hraise : (Place.origin.after t).raise = ⟨.outside, 1⟩ :=
    (after_raise hvisits').symm.trans hafter
  refine ⟨hvisits', Place.eq_outside_iff.2 ⟨?_, ?_⟩⟩
  · exact congrArg Place.quote hraise
  · exact Nat.succ.inj (congrArg Place.depth hraise)

-- ================================================================= sides

/-- A text behind which all literals have ended. -/
def Outside (t : Text) : Prop := Quote.after .outside t = .outside

/-- A text behind which all literals and groups have ended. -/
def Top (t : Text) : Prop := Place.origin.after t = .origin

private theorem Quote.after_append (q : Quote) (s t : Text) :
    q.after (s ++ t) = (q.after s).after t :=
  List.foldl_append

/-- Behind a text whose literals have ended, only those of the next one count.
-/
theorem outside_append_iff (hs : Outside s) : Outside (s ++ t) ↔ Outside t := by
  rw [Outside, Quote.after_append, hs]
  exact Iff.rfl

/-- Texts whose literals have ended may follow each other. -/
theorem Outside.append (hs : Outside s) (ht : Outside t) : Outside (s ++ t) :=
  (outside_append_iff hs).2 ht

/-- White space begins no literal and ends none. -/
theorem outside_append_blank (hs : s.Blank) : Outside (t ++ s) ↔ Outside t := by
  rw [Outside, Quote.after_append]
  exact Quote.after_blank _ hs

private theorem outside_of_blank (ht : t.Blank) : Outside t :=
  (Quote.after_blank .outside ht).2 rfl

/-- A character that is no quote begins no literal. -/
theorem outside_singleton (hc : c ≠ '"') : Outside [c] := if_neg hc

/-- Where literals and groups have ended, literals have. -/
theorem Top.outside (h : Top t) : Outside t := by
  have hquote := quote_after .origin t
  rw [h] at hquote
  exact hquote.symm

/-- The empty text leaves nothing open. -/
theorem top_nil : Top [] := rfl

/-- Texts that leave nothing open may follow each other. -/
theorem Top.append (hs : Top s) (ht : Top t) : Top (s ++ t) := by
  rw [Top, Place.after_append, hs]
  exact ht

private theorem top_of_blank (ht : t.Blank) : Top t :=
  (Place.after_blank .origin ht).2 rfl

/-- A text that closes only what it opened does so without the white space
around it. -/
theorem visits_trim (h : Visits (Stays 0) .origin t) :
    Visits (Stays 0) .origin t.trim := by
  obtain ⟨lead, trail, ht, hlead, -, -⟩ := Text.trim_split t
  rw [ht, visits_append, top_of_blank hlead, visits_append] at h
  exact h.2.1

/-- What comes behind a text follows a bar or an opening parenthesis
outside literals, or the start, with only white space between. -/
inductive Follows (front : Text) : Option Char → Prop
  | start (blank : front.Blank) : Follows front none
  | mark {u gap : Text} {c : Char} (opener : c = '|' ∨ c = '(')
      (shape : front = u ++ c :: gap) (outside : Outside u)
      (blank : gap.Blank) : Follows front (some c)

/-- What comes between two texts precedes a bar or a closing parenthesis
outside literals, or the end, with only white space between. -/
inductive Precedes (front back : Text) : Option Char → Prop
  | stop (blank : back.Blank) : Precedes front back none
  | mark {gap v : Text} {c : Char} (closer : c = '|' ∨ c = ')')
      (shape : back = gap ++ c :: v) (outside : Outside front)
      (blank : gap.Blank) : Precedes front back (some c)

section Sides

variable {front back : Text} {m : Option Char}

/-- Behind a mark, and behind the start, all literals have ended. -/
theorem Follows.outside (h : Follows front m) : Outside front := by
  cases h with
  | start blank => exact outside_of_blank blank
  | mark opener shape outside blank =>
      rw [shape]
      refine outside.append ((outside_singleton ?_).append
        (outside_of_blank blank))
      rintro rfl
      exact absurd opener (by decide)

/-- There may be more white space behind a mark. -/
theorem Follows.append_blank (h : Follows front m) (hs : s.Blank) :
    Follows (front ++ s) m := by
  cases h with
  | start blank => exact .start (blank.append hs)
  | mark opener shape outside blank =>
      refine .mark opener ?_ outside (blank.append hs)
      rw [shape, List.append_assoc]
      rfl

/-- There may be more white space before a mark. -/
private theorem Precedes.append_blank (h : Precedes (front ++ s) back m)
    (hs : s.Blank) : Precedes front (s ++ back) m := by
  cases h with
  | stop blank => exact .stop (hs.append blank)
  | @mark gap v c closer shape outside blank =>
      have hshape : s ++ back = (s ++ gap) ++ c :: v := by
        rw [shape, List.append_assoc]
      exact .mark closer hshape ((outside_append_blank hs).1 outside)
        (hs.append blank)

end Sides

-- =============================================================== a frame

/-- What stands around a part of a rule that is read as a rule. It is
closed, and then something precedes that ends it; or the rule ends with
it, and began at the top. -/
structure Frame (before part behind : Text) : Prop where
  follows : ∃ m, Follows before m
  precedes : (Top before ∧ behind.Blank)
    ∨ (Top part ∧ ∃ c, Precedes (before ++ part) behind (some c))
  balanced : Visits (Stays 0) .origin part ∨ before = [] ∧ behind = []

section Frames

variable {before part behind front branch rest contents : Text}

/-- Around the whole rule stands nothing. -/
theorem Frame.whole (rule : Text) : Frame [] rule [] where
  follows := ⟨none, .start .nil⟩
  precedes := .inl ⟨top_nil, .nil⟩
  balanced := .inr ⟨rfl, rfl⟩

/-- A part begins outside literals. -/
theorem Frame.outside (h : Frame before part behind) : Outside before := by
  obtain ⟨m, hm⟩ := h.follows
  exact hm.outside

/-- What the first part of a piece's text leads to is the top. -/
theorem Piece.top_front (hp : Piece t front branch rest) : Top front := by
  rcases hp.begins with rfl | ⟨u, rfl, hu⟩
  · exact top_nil
  · exact Top.append hu rfl

/-- What a piece follows. -/
theorem Frame.piece_follows (h : Frame before t behind)
    (hp : Piece t front branch rest) :
    ∃ m, Follows (before ++ front) m ∧ (front ≠ [] → m = some '|') := by
  rcases hp.begins with rfl | ⟨u, rfl, hu⟩
  · obtain ⟨m, hm⟩ := h.follows
    rw [List.append_nil]
    exact ⟨m, hm, fun hne => absurd rfl hne⟩
  · have hu' : Outside (before ++ u) := h.outside.append (Top.outside hu)
    exact ⟨some '|', .mark (.inl rfl) (List.append_assoc ..).symm hu' .nil,
      fun _ => rfl⟩

/-- What a piece precedes. -/
theorem Frame.piece_precedes (h : Frame before t behind)
    (hp : Piece t front branch rest) :
    (Top (before ++ front) ∧ rest = [] ∧ behind.Blank)
      ∨ (Top branch ∧ ∃ c,
        Precedes (before ++ front ++ branch) (rest ++ behind) (some c)
        ∧ (rest ≠ [] → c = '|')) := by
  rcases hp.ends with rfl | ⟨⟨v, rfl⟩, hpiece⟩
  · -- the last piece ends as the text does
    have ht : t = front ++ branch := by rw [hp.shape, List.append_nil]
    rcases h.precedes with ⟨htop, hblank⟩ | ⟨htop, c, hc⟩
    · exact .inl ⟨htop.append hp.top_front, rfl, hblank⟩
    · have hpiece : Top branch := by
        rw [ht, Top, Place.after_append, hp.top_front] at htop
        exact htop
      rw [ht, ← List.append_assoc] at hc
      exact .inr ⟨hpiece, c, hc, fun hne => absurd rfl hne⟩
  · have houtside : Outside (before ++ front ++ branch) :=
      (h.outside.append hp.top_front.outside).append (Top.outside hpiece)
    exact .inr ⟨hpiece, '|', .mark (.inl rfl) rfl houtside .nil, fun _ => rfl⟩

/-- What stands around a piece. -/
theorem Frame.piece (h : Frame before t behind)
    (hp : Piece t front branch rest) :
    Frame (before ++ front) branch (rest ++ behind) where
  follows := by
    obtain ⟨m, hm, -⟩ := h.piece_follows hp
    exact ⟨m, hm⟩
  precedes := by
    rcases h.piece_precedes hp with ⟨htop, rfl, hblank⟩ | ⟨htop, c, hc, -⟩
    · exact .inl ⟨htop, hblank⟩
    · exact .inr ⟨htop, c, hc⟩
  balanced := .inl (hp.quiet.mono fun _ _ h => h.1)

/-- What stands around the contents of a group. -/
theorem Frame.group (h : Frame before t behind) (top : Top front)
    (balanced : Loops (Stays 1) ⟨.outside, 1⟩ contents) :
    Frame (before ++ (front ++ ['('])) contents (')' :: rest ++ behind) := by
  have hlower := balanced.lower
  have hfront : Outside (before ++ front) := h.outside.append top.outside
  refine ⟨⟨some '(', .mark (.inr rfl) ?_ hfront .nil⟩,
    .inr ⟨hlower.2, ')', .mark (.inr rfl) rfl ?_ .nil⟩, .inl hlower.1⟩
  · exact (List.append_assoc ..).symm
  · rw [← List.append_assoc]
    refine (hfront.append (outside_singleton ?_)).append (Top.outside hlower.2)
    decide

/-- What stands around a text less the white space at its ends. -/
theorem Frame.trim (h : Frame before t behind)
    (balanced : Visits (Stays 0) .origin t) :
    ∃ before' behind', before' ++ (t.trim ++ behind') = before ++ (t ++ behind)
      ∧ before'.size = before.size + t.indent
        ∧ Frame before' t.trim behind' := by
  obtain ⟨lead, trail, ht, hlead, htrail, hsize⟩ := Text.trim_split t
  obtain ⟨m, hm⟩ := h.follows
  have htop : Top t → Top t.trim := by
    intro htop
    rw [ht, Top, Place.after_append, top_of_blank hlead, Place.after_append]
      at htop
    exact (Place.after_blank _ htrail).1 htop
  have hwhole : before ++ lead ++ (t.trim ++ (trail ++ behind))
      = before ++ (t ++ behind) := by
    conv_rhs => rw [ht]
    simp only [List.append_assoc]
  refine ⟨before ++ lead, trail ++ behind, hwhole, by
    rw [Text.size_append, hsize],
    ⟨m, hm.append_blank hlead⟩, ?_, .inl (visits_trim balanced)⟩
  rcases h.precedes with ⟨hbefore, hblank⟩ | ⟨ht', c, hc⟩
  · exact .inl ⟨hbefore.append (top_of_blank hlead), htrail.append hblank⟩
  · refine .inr ⟨htop ht', c, Precedes.append_blank ?_ htrail⟩
    rw [List.append_assoc, List.append_assoc, ← ht]
    exact hc

end Frames

end Munch.Rule
