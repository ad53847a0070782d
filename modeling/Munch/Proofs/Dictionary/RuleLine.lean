/-
Which keys and rules a line can hold.

A line is trimmed three times, cut at its first arrow, and may carry a
mark, so keys of dashes or exclamation marks, rules with arrows in them
and empty rules look like they might get in each other's way. What can be
read from some line is told by the key and the rule alone
(`RuleLine.WellFormed`), and all of it can be read from the line on which
it is written out (`RuleLine.WellFormed.parse_written`).

A text is cut at an arrow with none before it (`splitArrow_eq_some_iff`).
So half of the proof is about where no arrow can be: not in white space,
not across a mark or a blank (`arrow_infix_cons`, `arrow_infix_concat`).
The other half is about what trimming takes off, which
`Text.trim_append` tells wherever the text in between is known.

The main result is `RuleLine.wellFormed_iff`.
-/
import Munch.Dictionary.RuleLine
import Munch.Proofs.Text.Trim

namespace Munch

-- ============================================================ vocabulary

/-- What stands between a key and its rule. -/
def arrow : Text := ['-', '>']

namespace RuleLine

/-- A key and a rule that a line can hold: the key is one word without an
arrow in it, and the rule has no white space at its ends. A key can only
begin with the mark behind another mark. -/
structure WellFormed (l : RuleLine) : Prop where
  filled : l.key ≠ ""
  word : ∀ c ∈ l.key.toList, isBlank c = false
  arrowless : ¬ arrow <:+: l.key.toList
  marked : '!' ∈ l.key.toList.head? → l.keepText = true
  trimmed : l.rule.Trimmed

/-- What a line has before its arrow, with some text behind the mark if
there is one. -/
def head (l : RuleLine) (gap : Text) : Text :=
  (if l.keepText then '!' :: gap else []) ++ l.key.toList

/-- The line that holds a key and a rule, with some text behind the mark
if there is one. -/
def written (l : RuleLine) (gap : Text) : Text :=
  l.head gap ++ (" -> ".toList ++ l.rule)

-- ================================================================ arrows

/-- A character other than a dash begins no arrow. -/
theorem arrow_infix_cons {c : Char} (hc : c ≠ '-') {t : Text} :
    arrow <:+: c :: t ↔ arrow <:+: t := by
  rw [List.infix_cons_iff]
  refine or_iff_right fun hprefix => ?_
  obtain ⟨rest, hrest⟩ := hprefix
  exact hc (List.cons.inj hrest).1.symm

/-- A character other than the arrow's head ends no arrow. -/
theorem arrow_infix_concat {c : Char} (hc : c ≠ '>') {t : Text} :
    arrow <:+: t ++ [c] ↔ arrow <:+: t := by
  rw [List.infix_concat_iff]
  refine or_iff_right fun hsuffix => ?_
  obtain ⟨front, hfront⟩ := hsuffix
  have hlast := congrArg List.getLast? hfront
  rw [List.getLast?_concat, List.getLast?_append] at hlast
  exact hc (Option.some.inj hlast).symm

/-- There is no arrow in white space, nor does one begin there. -/
theorem arrow_infix_blank_append {gap : Text} (hgap : gap.Blank) {t : Text} :
    arrow <:+: gap ++ t ↔ arrow <:+: t := by
  induction gap with
  | nil => rfl
  | cons c gap ih =>
      obtain ⟨hc, hgap⟩ := List.forall_mem_cons.1 hgap
      rw [List.cons_append, arrow_infix_cons fun hdash => ?_, ih hgap]
      subst hdash
      exact absurd hc (by decide)

/-- A character that does not begin an arrow is in front of it. -/
private theorem splitArrow_cons {c : Char} {t : Text} (h : ¬ arrow <+: c :: t) :
    splitArrow (c :: t) = (splitArrow t).map fun (head, tail) =>
      (c :: head, tail) := by
  apply splitArrow.eq_3
  rintro rest rfl rfl
  exact h ⟨rest, rfl⟩

/-- A text is cut at its first arrow. -/
private theorem splitArrow_append {head : Text} (h : ¬ arrow <:+: head)
    (tail : Text) :
    splitArrow (head ++ (arrow ++ tail)) = some (head, tail) := by
  induction head with
  | nil => rfl
  | cons c head ih =>
      rw [List.infix_cons_iff, not_or] at h
      rw [List.cons_append, splitArrow_cons, ih h.2]
      · rfl
      · -- an arrow across the cut would begin with a dash and go on with one
        rintro ⟨rest, hrest⟩
        cases head with
        | nil => cases hrest
        | cons d head =>
            obtain ⟨hc, hnext⟩ := List.cons.inj hrest
            obtain ⟨hd, -⟩ := List.cons.inj hnext
            exact h.1 ⟨head, by rw [← hc, ← hd]; rfl⟩

/-- A text is cut at its first arrow. -/
theorem splitArrow_eq_some_iff {t head tail : Text} :
    splitArrow t = some (head, tail) ↔ t = head ++ (arrow ++ tail)
      ∧ ¬ arrow <:+: head := by
  refine ⟨fun h => ?_, fun ⟨ht, h⟩ => ht ▸ splitArrow_append h tail⟩
  induction t generalizing head with
  | nil => cases h
  | cons c t ih =>
      by_cases hprefix : arrow <+: c :: t
      · obtain ⟨rest, hrest⟩ := hprefix
        rw [← hrest] at h ⊢
        obtain ⟨rfl, rfl⟩ := Prod.mk.inj (Option.some.inj h)
        exact ⟨rfl, by decide⟩
      · rw [splitArrow_cons hprefix] at h
        obtain ⟨⟨head, tail'⟩, hsplit, hcut⟩ := Option.map_eq_some_iff.1 h
        obtain ⟨rfl, rfl⟩ := Prod.mk.inj hcut
        obtain ⟨rfl, harrow⟩ := ih hsplit
        refine ⟨rfl, ?_⟩
        rw [List.infix_cons_iff, not_or]
        exact ⟨fun hfront => hprefix (hfront.trans ⟨_, List.cons_append⟩),
          harrow⟩

-- ================================================================ the mark

/-- The mark is taken off where there is one, with the white space behind
it. -/
theorem splitMark_cases (t : Text) :
    (∃ rest, t = '!' :: rest ∧ splitMark t = (true, Text.trimStart rest))
      ∨ ('!' ∉ t.head? ∧ splitMark t = (false, t)) := by
  cases t with
  | nil => exact .inr ⟨Option.not_mem_none _, rfl⟩
  | cons c rest =>
      by_cases hc : c = '!'
      · subst hc
        exact .inl ⟨rest, rfl, rfl⟩
      · refine .inr ⟨fun hhead => hc (Option.some.inj hhead), ?_⟩
        apply splitMark.eq_2
        rintro rest' hmark
        exact hc (List.cons.inj hmark).1

-- ================================================================ the line

/-- A line is passed over if there is nothing but white space in it. -/
theorem parse_eq_none_iff {line : Text} :
    parse line = .ok none ↔ line.Blank := by
  rw [← Text.trim_eq_nil_iff]
  unfold parse
  by_cases hline : line.trim = []
  · simp [hline]
  · simp only [hline, if_false, iff_false]
    split
    · simp
    · split
      · simp
      · split <;> simp

/-- A line holds a key and a rule if it is cut in front of the rule, and
the key is one word behind the mark. -/
theorem parse_eq_some_iff {line : Text} {l : RuleLine} :
    parse line = .ok (some l) ↔ ∃ head tail,
      splitArrow line.trim = some (head, tail)
      ∧ splitMark head.trim = (l.keepText, l.key.toList) ∧ l.key.toList ≠ []
      ∧ (∀ c ∈ l.key.toList, isBlank c = false) ∧ l.rule = tail.trim := by
  have hword : ∀ key : Text, key.any isBlank = true
      ↔ ¬ ∀ c ∈ key, isBlank c = false := by
    simp
  unfold parse
  constructor
  · intro h
    simp only at h
    split at h
    · cases h
    split at h
    · cases h
    · rename_i head tail hsplit
      rcases hmark : splitMark head.trim with ⟨keepText, key⟩
      rw [hmark] at h
      simp only at h
      split at h
      · cases h
      split at h
      · cases h
      · rename_i hfilled hany
        obtain rfl := Option.some.inj (Except.ok.inj h)
        rw [hword, not_not] at hany
        refine ⟨head, tail, hsplit, ?_⟩
        rw [String.toList_ofList]
        exact ⟨hmark, hfilled, hany, rfl⟩
  · rintro ⟨head, tail, hsplit, hmark, hfilled, hkey, hrule⟩
    have hline : line.trim ≠ [] := by
      intro hempty
      rw [hempty] at hsplit
      cases hsplit
    simp only [if_neg hline, hsplit, hmark, if_neg hfilled]
    rw [if_neg (mt (hword _).1 (not_not.2 hkey)), String.ofList_toList, ← hrule]

/-- What is read from a line can be held by one. -/
theorem wellFormed_of_parse {line : Text} {l : RuleLine}
    (h : parse line = .ok (some l)) : l.WellFormed := by
  obtain ⟨head, tail, hsplit, hmark, hfilled, hword, hrule⟩ :=
    parse_eq_some_iff.1 h
  obtain ⟨-, harrow⟩ := splitArrow_eq_some_iff.1 hsplit
  have hplace : l.key.toList <:+: head
      ∧ ('!' ∈ l.key.toList.head? → l.keepText = true) := by
    rcases splitMark_cases head.trim with ⟨rest, hrest, hcut⟩ | ⟨hplain, hcut⟩
    · rw [hcut] at hmark
      obtain ⟨hkeep, hkey⟩ := Prod.mk.inj hmark
      have hsuffix : l.key.toList <:+ head.trim := by
        rw [← hkey, hrest]
        exact (List.dropWhile_suffix _).trans (List.suffix_cons _ _)
      exact ⟨hsuffix.isInfix.trans (Text.trim_infix head), fun _ => hkeep.symm⟩
    · rw [hcut] at hmark
      obtain ⟨-, hkey⟩ := Prod.mk.inj hmark
      rw [← hkey]
      exact ⟨Text.trim_infix head, fun hhead => absurd hhead hplain⟩
  exact {
    filled := fun hempty => hfilled (by rw [hempty]; rfl)
    word := hword
    arrowless := fun hkey => harrow (hkey.trans hplace.1)
    marked := hplace.2
    trimmed := hrule ▸ Text.trimmed_trim tail }

-- ========================================================== written out

namespace WellFormed

variable {l : RuleLine} (h : l.WellFormed) {gap : Text}

include h

private theorem key_ne_nil :
    l.key.toList ≠ [] := fun hempty =>
      h.filled (String.toList_eq_nil_iff.1 hempty)

/-- Key and mark have no white space around them. -/
private theorem trimmed_head : Text.Trimmed (l.head gap) := by
  have hlast : ∀ c ∈ l.key.toList.getLast?, isBlank c = false :=
    fun c hc => h.word c (List.mem_of_mem_getLast? hc)
  unfold head
  split
  · refine Text.trimmed_append (List.cons_ne_nil _ _) h.key_ne_nil
      (fun c hc => ?_) hlast
    obtain rfl := Option.some.inj hc
    decide
  · exact ⟨fun c hc => h.word c (List.mem_of_mem_head? hc), hlast⟩

/-- Key and mark have no arrow in them, nor make one with the arrow behind. -/
private theorem arrowless_head (hgap : gap.Blank) :
    ¬ arrow <:+: l.head gap ++ [' '] := by
  rw [arrow_infix_concat (by decide)]
  unfold head
  split
  · rw [List.cons_append, arrow_infix_cons (by decide),
      arrow_infix_blank_append hgap]
    exact h.arrowless
  · exact h.arrowless

/-- The mark is read back, and the key. -/
private theorem splitMark_head (hgap : gap.Blank) :
    splitMark (l.head gap) = (l.keepText, l.key.toList) := by
  unfold head
  cases hkeep : l.keepText with
  | true =>
      show (true, Text.trimStart (gap ++ l.key.toList)) = _
      rw [Text.trimStart_append hgap,
        Text.trimStart_eq_self fun c hc => h.word c (List.mem_of_mem_head? hc)]
  | false =>
      show splitMark l.key.toList = _
      rcases splitMark_cases l.key.toList with ⟨rest, hrest, -⟩ | ⟨-, hplain⟩
      · have hkept := h.marked (by rw [hrest]; rfl)
        rw [hkeep] at hkept
        cases hkept
      · exact hplain

end WellFormed

private theorem blank_space : Text.Blank [' '] := by decide

/-- Behind the arrow stands the rule, with white space around it; what of
it ends the line is taken off with the line's own. -/
theorem exists_tail {rule trail : Text} (hrule : rule.Trimmed)
    (htrail : trail.Blank) :
    ∃ tail blank : Text, ' ' :: (rule ++ trail) = tail ++ blank
      ∧ blank.Blank ∧ tail.trim = rule ∧ ∀ c ∈ tail.getLast?,
        isBlank c = false := by
  cases rule with
  | nil =>
      exact ⟨[], ' ' :: trail, rfl, blank_space.append htrail, rfl,
        fun c hc => by cases hc⟩
  | cons c rule =>
      refine ⟨' ' :: c :: rule, trail, rfl, htrail, ?_, hrule.back⟩
      have htrim := Text.trim_append blank_space hrule .nil
      rw [List.append_nil] at htrim
      exact htrim

/-- What a line can hold is read from the line on which it is written. -/
theorem WellFormed.parse_written {l : RuleLine} (h : l.WellFormed)
    {lead gap trail : Text} (hlead : lead.Blank) (hgap : gap.Blank)
    (htrail : trail.Blank) :
    parse (lead ++ (l.written gap ++ trail)) = .ok (some l) := by
  obtain ⟨tail, blank, hsplit, hblank, htail, hlast⟩ :=
    exists_tail h.trimmed htrail
  -- the line without the white space at its ends
  have hline : l.written gap ++ trail = (l.head gap ++ (' ' :: (arrow ++ tail)))
      ++ blank := by
    show (l.head gap ++ (' ' :: (arrow ++ (' ' :: l.rule)))) ++ trail = _
    simp only [List.append_assoc, List.cons_append]
    rw [hsplit]
  have htrimmed : Text.Trimmed (l.head gap ++ (' ' :: (arrow ++ tail))) := by
    refine Text.trimmed_append (List.append_ne_nil_of_right_ne_nil _
      h.key_ne_nil)
      (List.cons_ne_nil _ _) h.trimmed_head.front fun c hc => ?_
    cases tail with
    | nil =>
        obtain rfl := Option.some.inj hc
        decide
    | cons d tail => exact hlast c hc
  have htrim : (l.head gap ++ [' ']).trim = l.head gap :=
    Text.trim_append .nil h.trimmed_head blank_space
  refine parse_eq_some_iff.2 ⟨l.head gap ++ [' '], tail, ?_, ?_, h.key_ne_nil,
    h.word, htail.symm⟩
  · have hcut := splitArrow_append (h.arrowless_head hgap) tail
    rw [List.append_assoc] at hcut
    rw [hline, Text.trim_append hlead htrimmed hblank]
    exact hcut
  · rw [htrim, h.splitMark_head hgap]

/-- The keys and rules that are read from lines are those that a line can
hold, and all of these are read from the lines on which they are written,
whatever white space stands around them and behind the mark. -/
theorem wellFormed_iff (l : RuleLine) :
    ((∃ line, parse line = .ok (some l)) ↔ l.WellFormed)
      ∧ (l.WellFormed → ∀ lead gap trail : Text,
        lead.Blank → gap.Blank → trail.Blank →
          parse (lead ++ (l.written gap ++ trail)) = .ok (some l)) := by
  refine ⟨⟨fun ⟨line, h⟩ => wellFormed_of_parse h, fun h => ?_⟩,
    fun h lead gap trail hlead hgap htrail => h.parse_written hlead hgap htrail⟩
  exact ⟨_, h.parse_written .nil .nil .nil⟩

/-- A key of characters that mean something elsewhere, and a rule with an
arrow in it. -/
def dashes : RuleLine := ⟨"!-", "\"->\"".toList, true⟩

/-- A key of a mark and a dash, and a rule that quotes the arrow. -/
theorem wellFormed_iff_dashes :
    dashes.WellFormed ∧ parse "\t! !- -> \"->\"  ".toList
      = .ok (some dashes) := by
  have hword : dashes.key.toList.all (isBlank · = false) = true := by decide
  have hwell : dashes.WellFormed := by
    refine ⟨by decide, by simpa using hword, by decide, fun _ => rfl, ?_, ?_⟩
    · intro c hc
      obtain rfl := Option.some.inj hc
      decide
    · intro c hc
      obtain rfl := Option.some.inj hc
      decide
  obtain ⟨-, hwritten⟩ := wellFormed_iff dashes
  exact ⟨hwell, hwritten hwell ['\t'] [' '] [' ', ' '] (by decide)
    (by decide) (by decide)⟩

end RuleLine

end Munch
