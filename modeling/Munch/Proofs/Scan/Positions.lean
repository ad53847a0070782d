/-
What a position in a message says about the text.

An analysis that finds nothing at an offset reports the offset with its
line and column. Whatever else a scan complains of, it does not report a
position: a match fails only for want of a target or of an end
(`Error.OfMatch`), by induction on the bound and over the tree. So each
position that is reported is that of its offset
(`analyze_unscannable`), and where two analyses of one text stop at
different offsets, the line and the column that they print differ.

The main result is `positions_identify`.
-/
import Munch.Proofs.Scan.Safety
import Munch.Proofs.Text.Positions

namespace Munch

-- ================================================== why a match can fail

/-- Why a match can fail: a reference has no target, or leads nowhere, or
the match does not come to an end. -/
inductive Error.OfMatch : Error → Prop
  | unlinked (key : String) : OfMatch (.unlinked key)
  | noSuchExpression (index : Nat) : OfMatch (.noSuchExpression index)
  | endless : OfMatch .endless

private theorem repeatFrom_fails_ofMatch {attempt : Nat → Answer} {e : Error}
    (h : ∀ position e, attempt position = .error e → e.OfMatch)
    {bound position : Nat} (hf : repeatFrom attempt bound position = .error e) :
    e.OfMatch := by
  induction bound generalizing position with
  | zero =>
      obtain rfl := Except.error.inj hf
      exact .endless
  | succ bound ih =>
      unfold repeatFrom at hf
      split at hf
      · rename_i e' hattempt
        obtain rfl := Except.error.inj hf
        exact h _ _ hattempt
      · cases hf
      · split at hf
        · cases hf
        · exact ih hf

section Trees

variable {call : Nat → Nat → Answer} {text : Text} {limit bound : Nat}
  {e : Error}

mutual

/-- A tree fails only in the ways of matching. -/
private theorem matchWith_fails
    (hcall : ∀ index start e, call index start = .error e → e.OfMatch) :
    ∀ (node : Node) (start : Nat) (e : Error),
      node.matchWith call text limit bound start = .error e → e.OfMatch
  | .literal _, _, _, h => by rw [Node.matchWith] at h; cases h
  | .reference _ (some (.expression index)), start, e, h => by
      rw [Node.matchWith] at h
      exact hcall index start e h
  | .reference _ (some (.primitive _)), _, _, h => by
      rw [Node.matchWith] at h; cases h
  | .reference key none, _, e, h => by
      rw [Node.matchWith] at h
      obtain rfl := Except.error.inj h
      exact .unlinked key
  | .sequence elements, start, e, h => by
      rw [Node.matchWith] at h
      exact matchElements_fails hcall elements start e h
  | .alternation choices, start, e, h => by
      rw [Node.matchWith] at h
      exact matchChoices_fails hcall choices start e h

private theorem matchElements_fails
    (hcall : ∀ index start e, call index start = .error e → e.OfMatch) :
    ∀ (elements : List Element) (position : Nat) (e : Error),
      matchElements call text limit bound elements position = .error e →
        e.OfMatch
  | [], _, _, h => by rw [matchElements] at h; cases h
  | ⟨node, true⟩ :: rest, position, e, h => by
      rw [matchElements] at h
      split at h
      · rename_i e' hrepeat
        obtain rfl := Except.error.inj h
        exact repeatFrom_fails_ofMatch (matchWith_fails hcall node) hrepeat
      · exact matchElements_fails hcall rest _ e h
  | ⟨node, false⟩ :: rest, position, e, h => by
      rw [matchElements] at h
      split at h
      · rename_i e' hnode
        obtain rfl := Except.error.inj h
        exact matchWith_fails hcall node _ _ hnode
      · cases h
      · exact matchElements_fails hcall rest _ e h

private theorem matchChoices_fails
    (hcall : ∀ index start e, call index start = .error e → e.OfMatch) :
    ∀ (choices : List Node) (start : Nat) (e : Error),
      matchChoices call text limit bound choices start = .error e → e.OfMatch
  | [], _, _, h => by rw [matchChoices] at h; cases h
  | node :: rest, start, e, h => by
      rw [matchChoices] at h
      split at h
      · rename_i e' hnode
        obtain rfl := Except.error.inj h
        exact matchWith_fails hcall node _ _ hnode
      · cases h
      · exact matchChoices_fails hcall rest start e h

end

end Trees

/-- So does a call. -/
private theorem captureWithin_fails (s : ExpressionSet) (text : Text)
    (limit bound : Nat) :
    ∀ index start e, s.captureWithin text limit bound index start = .error e →
      e.OfMatch := by
  induction bound with
  | zero =>
      intro index start e h
      obtain rfl := Except.error.inj h
      exact .endless
  | succ bound ih =>
      intro index start e h
      unfold ExpressionSet.captureWithin at h
      split at h
      · obtain rfl := Except.error.inj h
        exact .noSuchExpression index
      · exact matchWith_fails ih _ start e h

-- =================================================== why a scan can fail

namespace Dictionary

variable {d : Dictionary} {text : Text} {e : Error}

/-- At a place without layout, a scan fails only in the ways of matching. -/
private theorem scanToken_fails {position : Nat}
    (h : d.scanToken text position = .error e) : e.OfMatch := by
  obtain ⟨t, -, ht⟩ := exists_of_scanTokenWithin_error h
  unfold Token.captureWithin Matcher.captureWithin at ht
  split at ht
  · exact captureWithin_fails _ _ _ _ _ _ _ ht
  · cases ht
  · cases ht

/-- A step reports no position. -/
theorem scanNext_ne_unscannable {start offset line column : Nat}
    {found : Char} :
    d.scanNext text start ≠ .error (.unscannable offset line column found) := by
  intro h
  unfold scanNext scanNextWithin at h
  split at h
  · split at h
    · cases h
    · split at h
      · cases h
      · cases h
      · cases scanToken_fails h
  · cases h

/-- A token of a sequence reports no position. -/
private theorem scanned_ne_unscannable {step : Step}
    {next offset line column : Nat} {found : Char} :
    step.scanned text next ≠ .error
      (.unscannable offset line column found) := by
  intro h
  unfold Step.scanned at h
  split at h
  · split at h
    · cases h
    · cases h
  · cases h

/-- The failure of a scan that found nothing reports the position of its
offset. -/
private theorem unscannableAt_eq {start offset line column : Nat} {found : Char}
    (h : unscannableAt text start = .unscannable offset line column found) :
    text.isBoundary offset = true
      ∧ Position.ofOffset? text offset = some ⟨line, column⟩ := by
  unfold unscannableAt at h
  split at h
  · rename_i p rest hp hrest
    obtain ⟨rfl, rfl, rfl, rfl⟩ := Error.unscannable.inj h
    refine ⟨?_, hp⟩
    unfold Text.isBoundary
    rw [hrest]
    rfl
  · cases h

/-- The position that an analysis reports is that of the offset, which is
a boundary of the text. -/
theorem analyze_unscannable {offset line column : Nat} {found : Char}
    (h : d.analyze text = .error (.unscannable offset line column found)) :
    text.isBoundary offset = true
      ∧ Position.ofOffset? text offset = some ⟨line, column⟩ := by
  unfold analyze at h
  generalize text.size + 2 = bound, 0 = start at h
  induction bound generalizing start with
  | zero => cases h
  | succ bound ih =>
      unfold analyzeFrom at h
      split at h
      · rename_i hstep
        obtain rfl := Except.error.inj h
        exact absurd hstep scanNext_ne_unscannable
      · split at h
        · exact unscannableAt_eq (Except.error.inj h)
        · split at h
          · cases h
          · split at h
            · rename_i hscanned
              obtain rfl := Except.error.inj h
              exact absurd hscanned scanned_ne_unscannable
            · split at h
              · rename_i hrest
                obtain rfl := Except.error.inj h
                exact ih _ hrest
              · cases h

end Dictionary

-- ================================================== positions in messages

/-- A line and a column are written in digits, with a colon between them. -/
private theorem toList_written (line column : Nat) :
    (s!"{line}:{column}").toList = Nat.toDigits 10 line
      ++ ':' :: Nat.toDigits 10 column := by
  rw [String.toList_append, String.toList_append,
    Nat.toString_eq_ofList_toDigits,
    Nat.toString_eq_ofList_toDigits, String.toList_ofList, String.toList_ofList]
  exact List.append_assoc ..

/-- A line and a column as a message writes them can be read back: the
colon is no digit. -/
theorem written_inj {line column m n : Nat}
    (h : s!"{line}:{column}" = s!"{m}:{n}") : line = m ∧ column = n := by
  have hdigits : ∀ n : Nat, ':' ∉ Nat.toDigits 10 n := fun n hmem =>
    absurd (Nat.isDigit_of_mem_toDigits (by decide) (by decide) hmem)
      (by decide)
  have hnumber : ∀ m n : Nat,
      Nat.toDigits 10 m = Nat.toDigits 10 n → m = n := fun m n hmn => by
    rw [← Nat.ofDigitChars_ten_toDigits (n := m), hmn,
      Nat.ofDigitChars_ten_toDigits]
  have hchars := congrArg String.toList h
  rw [toList_written, toList_written,
    List.append_cons_inj_of_notMem (hdigits line) (hdigits column)] at hchars
  exact ⟨hnumber _ _ hchars.1, hnumber _ _ hchars.2.2⟩

/-- Positions tell the offsets of a text apart. A later boundary has a
later position, and a position marks the one boundary that has it. An
analysis that stops reports the position of its offset, and analyses of
the text that stop at different offsets print different lines and
columns. -/
theorem positions_identify (text : Text) :
    (∀ o o', text.isBoundary o = true → text.isBoundary o' = true → o < o' →
      ∃ p p', Position.ofOffset? text o = some p
        ∧ Position.ofOffset? text o' = some p' ∧ p < p')
    ∧ (∀ o, text.isBoundary o = true →
      ∃ p, Position.ofOffset? text o = some p ∧ ∀ o', p.Marks text o' ↔ o' = o)
    ∧ (∀ (d : Dictionary) (o line column : Nat) (found : Char),
      d.analyze text = .error (.unscannable o line column found) →
      text.isBoundary o = true
        ∧ Position.ofOffset? text o = some ⟨line, column⟩)
    ∧ ∀ (d d' : Dictionary) (o line column o' m n : Nat) (found found' : Char),
      d.analyze text = .error (.unscannable o line column found) →
      d'.analyze text = .error (.unscannable o' m n found') → o ≠ o' →
      s!"{line}:{column}" ≠ s!"{m}:{n}" := by
  refine ⟨fun o o' ho ho' h => Position.ofOffset?_lt ho ho' h, fun o ho => ?_,
    fun d o line column found h => Dictionary.analyze_unscannable h, ?_⟩
  · obtain ⟨front, rest, rfl, rfl⟩ := Text.isBoundary_iff.1 ho
    have hp := Position.ofOffset?_append front rest
    refine ⟨_, hp, fun o' => ?_⟩
    rw [Position.marks_iff]
    constructor
    · rintro ⟨ho', hp'⟩
      exact Position.eq_of_ofOffset?_eq ho' ho hp' hp
    · rintro rfl
      exact ⟨ho, hp⟩
  · intro d d' o line column o' m n found found' h h' hne hwritten
    obtain ⟨ho, hp⟩ := Dictionary.analyze_unscannable h
    obtain ⟨ho', hp'⟩ := Dictionary.analyze_unscannable h'
    obtain ⟨rfl, rfl⟩ := written_inj hwritten
    exact hne (Position.eq_of_ofOffset?_eq ho ho' hp hp')

/-- Offsets before and behind a line end, and two analyses that stop at
different offsets: one has rules for all but the last character, and the
other has none. -/
theorem positions_identify_hyphenated :
    Dictionary.hyphenated.analyze "é-b\n 1\t?".toList
        = .error (.unscannable 8 2 4 '?')
      ∧ Dictionary.empty.link.1.analyze "é-b\n 1\t?".toList
        = .error (.unscannable 0 1 1 'é')
      ∧ Text.isBoundary "é-b\n 1\t?".toList 4 = true
      ∧ Text.isBoundary "é-b\n 1\t?".toList 5 = true
      ∧ (∃ p p', Position.ofOffset? "é-b\n 1\t?".toList 4 = some p
        ∧ Position.ofOffset? "é-b\n 1\t?".toList 5 = some p' ∧ p < p')
      ∧ (∃ p, Position.ofOffset? "é-b\n 1\t?".toList 5 = some p
        ∧ ∀ o, p.Marks "é-b\n 1\t?".toList o ↔ o = 5)
      ∧ Position.ofOffset? "é-b\n 1\t?".toList 8 = some ⟨2, 4⟩
      ∧ s!"{2}:{4}" ≠ s!"{1}:{1}" := by
  have hfigures :
      Dictionary.hyphenated.analyze "é-b\n 1\t?".toList
        = .error (.unscannable 8 2 4 '?') := by
    cbv
  have hbare :
      Dictionary.empty.link.1.analyze "é-b\n 1\t?".toList
        = .error (.unscannable 0 1 1 'é') :=
    rfl
  have hbefore : Text.isBoundary "é-b\n 1\t?".toList 4 = true := by decide
  have hbehind : Text.isBoundary "é-b\n 1\t?".toList 5 = true := by decide
  obtain ⟨horder, hmarks, hreported, hwritten⟩ :=
    positions_identify "é-b\n 1\t?".toList
  exact ⟨hfigures, hbare, hbefore, hbehind,
    horder 4 5 hbefore hbehind (by decide),
    hmarks 5 hbehind, (hreported _ _ _ _ _ hfigures).2,
    hwritten _ _ _ _ _ _ _ _ _ _ hfigures hbare (by decide)⟩

end Munch
