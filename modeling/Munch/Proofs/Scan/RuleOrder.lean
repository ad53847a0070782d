/-
The order of rules matters for ties only.

Two dictionaries are `Twins` if their tokens match alike, key by key, and
they keep the same layout; so are those of a rule file and of the file in
another order. From one place of a text, twins take steps that agree
(`Agree`): they begin and end at the same offsets, and where the keys
differ, both are keys of tokens that match just that far, and none
matches further. So they go on from the same place, and their runs agree
to the end (`Twins.scanFrom_agree`, `Twins.analyzeFrom_agree`).

The main result is `ofRules_perm`.
-/
import Munch.Proofs.Dictionary.Reorder
import Munch.Proofs.Scan.Safety

namespace Munch.Dictionary

variable {d d' : Dictionary} {text : Text}

-- =============================================================== agreement

/-- The steps of two dictionaries at one place of a text are the same but
for ties. -/
structure Agree (d d' : Dictionary) (text : Text) (step step' : Step) :
    Prop where
  start : step.start = step'.start
  next : step.next = step'.next
  /-- Both report the same built-in, or both a registered token. -/
  builtin : step.token.builtin? = step'.token.builtin?
  /-- Tokens of different keys are longest matches both, each in its own
  dictionary, and so is the other's in the one. -/
  tie : step.token.key ≠ step'.token.key → ∃ stop, step.next = some stop
    ∧ d.Longest text step.start stop step.token
      ∧ d'.Longest text step.start stop step'.token
    ∧ ∃ t, d.Longest text step.start stop t ∧ t.key = step'.token.key
  /-- A longest match that no other token reaches is no tie. -/
  sole : ∀ stop, step.next = some stop →
    (∃! t, d.Longest text step.start stop t) →
    step.token.key = step'.token.key

/-- A step agrees with itself. -/
theorem Agree.refl (d d' : Dictionary) (text : Text) (step : Step) :
    Agree d d' text step step where
  start := rfl
  next := rfl
  builtin := rfl
  tie h := absurd rfl h
  sole _ _ _ := rfl

/-- Two dictionaries that differ in the order of their tokens at most. -/
structure Twins (d d' : Dictionary) : Prop where
  ready : d.Ready
  sound' : d'.Sound Primitive.Aligned
  linked' : d'.state = .linked
  retention : d.retention = d'.retention
  sizes : d.expressions.size = d'.expressions.size
  covers : d.Covers d'
  covers' : d'.Covers d

/-- Tokens of one key that match alike come to the same. -/
theorem captures_iff_of_eq {t t' : Token} {start : Nat}
    {answer : Option Nat}
    (hsame : ∀ bound text start,
      t'.captureWithin d'.expressions bound text start
        = t.captureWithin d.expressions bound text start) :
    t'.Captures d'.expressions text start answer
      ↔ t.Captures d.expressions text start answer := by
  unfold Token.Captures
  simp only [hsame]

/-- A longest match in the one dictionary is one in the other. -/
theorem Longest.of_covers (hd : d.Covers d') (hd' : d'.Covers d)
    {start stop : Nat} {t : Token} (h : d.Longest text start stop t) :
    ∃ t', d'.Longest text start stop t' ∧ t'.key = t.key := by
  obtain ⟨t', ht', hkey, hsame⟩ := hd t h.registered
  refine ⟨t', ⟨ht', (captures_iff_of_eq hsame).2 h.reaches, ?_⟩, hkey⟩
  intro other hother stop' hstop'
  obtain ⟨t, ht, -, hsame'⟩ := hd' other hother
  exact h.furthest t ht stop' ((captures_iff_of_eq hsame').2 hstop')

/-- Behind a step that takes a piece, a run goes on. -/
theorem scanFrom_piece {front after : Text} {p : Piece} (hp : p.Found d after)
    (h : d.scanNext (front ++ (p.written ++ after)) front.size
      = .ok (p.step front.size)) (bound : Nat) :
    d.scanFrom (front ++ (p.written ++ after)) (bound + 1) front.size
      = .ok (p.step front.size)
        :: d.scanFrom (front ++ (p.written ++ after)) bound
          (Text.size (front ++ p.written)) := by
  have hgoes : (p.step front.size).token.builtin? ≠ some .finished :=
    hp.not_finished
  rw [scanFrom, h]
  simp only [p.step_next]
  rw [if_neg hgoes]

namespace Twins

variable (h : d.Twins d')

include h

-- ================================================================= one step

/-- Steps from one place without layout agree. -/
private theorem agree_scanToken {position : Nat}
    (hposition : text.isBoundary position = true) :
    ∃ step step', d.scanToken text position = .ok step
      ∧ d'.scanToken text position = .ok step'
        ∧ Agree d d' text step step' := by
  have hanswers : ∀ t ∈ d.tokens, ∃ a,
      t.capture d.expressions text position = .ok a :=
    fun t ht => h.ready.capture_returns ht hposition
  have hanswers' : ∀ t ∈ d'.tokens, ∃ a,
      t.capture d'.expressions text position = .ok a := by
    intro t' ht'
    obtain ⟨t, ht, -, hsame⟩ := h.covers' t' ht'
    have hanswer := hanswers t ht
    unfold Token.capture ExpressionSet.budget at hanswer ⊢
    rw [← h.sizes, ← hsame]
    exact hanswer
  rcases scanToken_cases hanswers
    with ⟨hnone, hshort⟩ | ⟨stop, t, hsome, hlt, hlongest⟩
  · rcases scanToken_cases hanswers'
      with ⟨hnone', -⟩ | ⟨stop', t', -, hlt', hlongest'⟩
    · exact ⟨_, _, hnone, hnone', .refl ..⟩
    · obtain ⟨t, hlongest, -⟩ := hlongest'.of_covers h.covers' h.covers
      have := hshort t hlongest.registered stop' hlongest.reaches
      omega
  · obtain ⟨s', hlongest₂, -⟩ := hlongest.of_covers h.covers h.covers'
    rcases scanToken_cases hanswers'
      with ⟨-, hshort'⟩ | ⟨stop', t', hsome', -, hlongest'⟩
    · have := hshort' s' hlongest₂.registered stop hlongest₂.reaches
      omega
    · obtain rfl := hlongest₂.unique hlongest'
      obtain ⟨s, hlongest₁, hkey⟩ := hlongest'.of_covers h.covers' h.covers
      refine ⟨_, _, hsome, hsome', rfl, rfl, ?_, ?_, ?_⟩
      · rw [h.ready.sound.builtin?_eq_none hlongest.registered,
          h.sound'.builtin?_eq_none hlongest'.registered]
      · exact fun _ => ⟨stop, rfl, hlongest, hlongest', s, hlongest₁, hkey⟩
      · intro stop' hstop' hunique
        obtain rfl := Option.some.inj hstop'
        rw [← hkey, hunique.unique hlongest hlongest₁]

/-- Steps from one boundary agree. -/
theorem agree_scanNext (front rest : Text) :
    ∃ step step', d.scanNext (front ++ rest) front.size = .ok step
      ∧ d'.scanNext (front ++ rest) front.size = .ok step'
      ∧ Agree d d' (front ++ rest) step step' := by
  rw [scanNext_append h.ready.linked, scanNext_append h.linked', ← h.retention]
  cases hlead : skipLayout d.retention front.size rest with
  | unit b start stop => exact ⟨_, _, rfl, rfl, .refl ..⟩
  | text position after =>
      obtain ⟨gap, rfl, -, -, rfl⟩ := skipLayout_eq_text_iff.1 hlead
      cases after with
      | nil => exact ⟨_, _, rfl, rfl, .refl ..⟩
      | cons c after =>
          apply h.agree_scanToken
          rw [← Text.size_append]
          exact isBoundary_gap front gap (c :: after)

/-- Steps that agree find nothing both, are at the end of the text both,
or take pieces of the same text. -/
theorem step_cases (front rest : Text) :
    ∃ step step', d.scanNext (front ++ rest) front.size = .ok step
      ∧ d'.scanNext (front ++ rest) front.size = .ok step'
      ∧ Agree d d' (front ++ rest) step step'
      ∧ (step.next = none
        ∨ (∃ next, step.next = some next ∧ step.token.builtin? = some .finished)
        ∨ ∃ (p p' : Piece) (after : Text), rest = p.written ++ after
          ∧ p'.written = p.written
            ∧ p.Found d after ∧ p'.Found d' after
            ∧ step = p.step front.size ∧ step' = p'.step front.size) := by
  obtain ⟨step, step', hstep, hstep', hagree⟩ := h.agree_scanNext front rest
  refine ⟨step, step', hstep, hstep', hagree, ?_⟩
  rcases h.ready.sound.scanNext_cases hstep
    with ⟨p, after, rfl, hp, rfl⟩ | ⟨-, hend⟩ | hnone
  · refine .inr (.inr ?_)
    rcases h.sound'.scanNext_cases hstep'
      with ⟨p', after', htext, hp', rfl⟩ | ⟨-, hend⟩ | hnone
    · -- pieces that begin and end at the same offsets are the same text
      have hstart := hagree.start
      have hnext := Option.some.inj hagree.next
      simp only [Piece.step] at hstart hnext
      have hsize : p'.written.size = p.written.size := by
        rw [p.size_written, p'.size_written]
        omega
      obtain ⟨hwritten, rfl⟩ := Text.append_inj_of_size htext.symm hsize
      exact ⟨p, p', after', rfl, hwritten, hp, hp', rfl, rfl⟩
    · have hbuiltin := hagree.builtin
      rw [hend, Builtin.builtin?_token] at hbuiltin
      exact absurd hbuiltin hp.not_finished
    · have hnext := hagree.next
      rw [hnone] at hnext
      cases hnext
  · cases hnext : step.next with
    | none => exact .inl rfl
    | some next =>
        refine .inr (.inl ⟨next, rfl, ?_⟩)
        rw [hend, Builtin.builtin?_token]
  · exact .inl hnone

-- ================================================================ all steps

end Twins

/-- What an analysis makes of the steps of a scan: their tokens, up to the
end of the text, or the first failure. -/
def collect (text : Text) :
    List (Except Error Step) → Except Error TokenSequence
  | [] => .ok []
  | .error e :: _ => .error e
  | .ok step :: rest =>
      match step.next with
      | none => .error (unscannableAt text step.start)
      | some next =>
          if step.token.builtin? = some .finished then .ok []
          else
            match step.scanned text next with
            | .error e => .error e
            | .ok token =>
                match collect text rest with
                | .error e => .error e
                | .ok tokens => .ok (token :: tokens)

/-- An analysis takes the steps of the scan from the same offset. -/
theorem analyzeFrom_eq_collect (d : Dictionary) (text : Text)
    (bound start : Nat) :
    d.analyzeFrom text bound start
      = collect text (d.scanFrom text bound start) := by
  induction bound generalizing start with
  | zero => rfl
  | succ bound ih =>
      rw [analyzeFrom, scanFrom]
      cases hstep : d.scanNext text start with
      | error e => rfl
      | ok step =>
          cases hnext : step.next with
          | none => simp only [collect, hnext]
          | some next =>
              by_cases hend : step.token.builtin? = some .finished
              · simp only [collect, hnext, if_pos hend]
              · cases hscanned : step.scanned text next with
                | error e =>
                    simp only [collect, hnext, if_neg hend, hscanned]
                | ok token =>
                    cases hrest : collect text (d.scanFrom text bound next) with
                    | error e =>
                        simp only [collect, hnext, if_neg hend, hscanned,
                          ih, hrest]
                    | ok tokens =>
                        simp only [collect, hnext, if_neg hend, hscanned,
                          ih, hrest]

/-- So the steps of a scan tell what an analysis comes to. -/
theorem analyze_eq_collect (d : Dictionary) (text : Text) :
    d.analyze text = collect text (d.scanAll text 0) :=
  d.analyzeFrom_eq_collect text (text.size + 2) 0

namespace Twins

variable (h : d.Twins d')

include h

/-- Runs from one boundary agree, step by step. -/
theorem scanFrom_agree {bound : Nat} (front rest : Text)
    (hbound : rest.size + 2 ≤ bound) :
    List.Forall₂ (fun a a' => ∃ step step', a = .ok step ∧ a' = .ok step'
        ∧ Agree d d' (front ++ rest) step step')
      (d.scanFrom (front ++ rest) bound front.size)
      (d'.scanFrom (front ++ rest) bound front.size) := by
  induction bound generalizing front rest with
  | zero => omega
  | succ bound ih =>
      obtain ⟨step, step', hstep, hstep', hagree, hcases⟩ :=
        h.step_cases front rest
      rcases hcases with hnone | ⟨next, hnext, hend⟩
        | ⟨p, p', after, rfl, hwritten, hp, hp', rfl, rfl⟩
      · have hnone' := hagree.next.symm.trans hnone
        rw [scanFrom, scanFrom, hstep, hstep']
        simp only [hnone, hnone']
        exact .cons ⟨step, step', rfl, rfl, hagree⟩ .nil
      · have hnext' := hagree.next.symm.trans hnext
        have hend' := hagree.builtin.symm.trans hend
        rw [scanFrom, scanFrom, hstep, hstep']
        simp only [hnext, hnext', hend, hend', if_true]
        exact .cons ⟨step, step', rfl, rfl, hagree⟩ .nil
      · rw [← hwritten] at hstep'
        rw [scanFrom_piece hp hstep]
        have hrest := scanFrom_piece hp' hstep' bound
        rw [hwritten] at hrest
        rw [hrest]
        refine .cons ⟨_, _, rfl, rfl, hagree⟩ ?_
        have hlater := ih (front ++ p.written) after (by
          have := hp.size_pos
          rw [Text.size_append] at hbound
          omega)
        rw [List.append_assoc] at hlater
        exact hlater

/-- Analyses from one boundary succeed both, or fail both at the same
place. -/
theorem analyzeFrom_agree {bound : Nat} (front rest : Text)
    (hbound : rest.size + 2 ≤ bound) :
    ((∃ tokens, d.analyzeFrom (front ++ rest) bound front.size = .ok tokens)
        ∧ ∃ tokens, d'.analyzeFrom (front ++ rest) bound front.size
          = .ok tokens)
      ∨ ∃ offset line column found,
          d.analyzeFrom (front ++ rest) bound front.size
              = .error (.unscannable offset line column found)
            ∧ d'.analyzeFrom (front ++ rest) bound front.size
              = .error (.unscannable offset line column found) := by
  induction bound generalizing front rest with
  | zero => omega
  | succ bound ih =>
      obtain ⟨step, step', hstep, hstep', hagree, hcases⟩ :=
        h.step_cases front rest
      rcases hcases with hnone | ⟨next, hnext, hend⟩
        | ⟨p, p', after, rfl, hwritten, hp, hp', rfl, rfl⟩
      · have hnone' := hagree.next.symm.trans hnone
        obtain ⟨gap, found, after, rfl, -, hstart⟩ :=
          h.ready.blocked_of_next_none hstep hnone
        rw [analyzeFrom, analyzeFrom, hstep, hstep']
        simp only [hnone, hnone', ← hagree.start, hstart, unscannableAt_append]
        exact .inr ⟨_, _, _, _, rfl, rfl⟩
      · have hnext' := hagree.next.symm.trans hnext
        have hend' := hagree.builtin.symm.trans hend
        rw [analyzeFrom, analyzeFrom, hstep, hstep']
        simp only [hnext, hnext', hend, hend', if_true]
        exact .inl ⟨⟨[], rfl⟩, [], rfl⟩
      · rw [← hwritten] at hstep'
        rw [analyzeFrom_piece hp.not_finished hstep]
        have hrest := analyzeFrom_piece hp'.not_finished hstep' bound
        rw [hwritten] at hrest
        rw [hrest]
        have hlater := ih (front ++ p.written) after (by
          have := hp.size_pos
          rw [Text.size_append] at hbound
          omega)
        rw [List.append_assoc] at hlater
        rcases hlater with ⟨⟨tokens, hok⟩, tokens', hok'⟩
          | ⟨offset, line, column, found, herror, herror'⟩
        · rw [hok, hok']
          exact .inl ⟨⟨_, rfl⟩, _, rfl⟩
        · rw [herror, herror']
          exact .inr ⟨_, _, _, _, rfl, rfl⟩

end Twins

-- ============================================================== rule files

/-- The dictionaries of a rule file and of the file in another order are
twins, whatever layout they keep. -/
theorem twins_of_perm {lines lines' : List Text} (hperm : lines.Perm lines')
    (h : ofRules lines = .ok d) (h' : ofRules lines' = .ok d')
    (hfree : d.expressions.LeftRecursionFree) (r : Retention) :
    (d.withRetention r).Twins (d'.withRetention r) := by
  have hreordered := reordered_of_perm hperm h h'
  obtain ⟨hbuilt, hlinked, -⟩ := ofRules_spelled Primitive.Aligned h
  obtain ⟨hbuilt', hlinked', -⟩ := ofRules_spelled Primitive.Aligned h'
  exact {
    ready := (hbuilt.withRetention r).ready hlinked hfree
    sound' := (hbuilt'.withRetention r).sound CharClass.scan_aligned
    linked' := hlinked'
    retention := rfl
    sizes := hreordered.size_eq
    covers := hreordered.covers
    covers' := hreordered.symm.covers }

/-- The order of the lines of a rule file makes no difference to whether
it is accepted, nor, where it has no left recursion, to any scan but for
the keys of longest matches that are not alone. -/
theorem ofRules_perm {lines lines' : List Text} (hperm : lines.Perm lines') :
    ((∃ d, ofRules lines = .ok d) ↔ ∃ d, ofRules lines' = .ok d)
      ∧ ∀ d d', ofRules lines = .ok d → ofRules lines' = .ok d' →
        d.expressions.LeftRecursionFree → ∀ r text,
        (((∃ tokens, (d.withRetention r).analyze text = .ok tokens)
            ∧ ∃ tokens, (d'.withRetention r).analyze text = .ok tokens)
          ∨ ∃ offset line column found,
              (d.withRetention r).analyze text
                  = .error (.unscannable offset line column found)
                ∧ (d'.withRetention r).analyze text
                  = .error (.unscannable offset line column found))
        ∧ List.Forall₂ (fun a a' => ∃ step step', a = .ok step ∧ a' = .ok step'
              ∧ Agree (d.withRetention r) (d'.withRetention r) text step step')
            ((d.withRetention r).scanAll text 0)
            ((d'.withRetention r).scanAll text 0)
        -- the steps are those that the analyses take
        ∧ (d.withRetention r).analyze text
            = collect text ((d.withRetention r).scanAll text 0)
        ∧ (d'.withRetention r).analyze text
            = collect text ((d'.withRetention r).scanAll text 0) := by
  constructor
  · rw [ofRules_succeeds_iff, ofRules_succeeds_iff]
    exact ⟨fun h => h.perm hperm, fun h => h.perm hperm.symm⟩
  · intro d d' h h' hfree r text
    have htwins := twins_of_perm hperm h h' hfree r
    refine ⟨?_, ?_, analyze_eq_collect _ text, analyze_eq_collect _ text⟩
    · exact htwins.analyzeFrom_agree [] text (Nat.le_refl _)
    · exact htwins.scanFrom_agree [] text (Nat.le_refl _)

/-- A keyword, and words that it could be as well. -/
def keywordLines : List Text :=
  ["KW -> \"if\"".toList, "!Word -> Part Part*".toList, [],
    "Part -> letter | \"_\"".toList]

/-- The dictionary of these lines, the keyword first. -/
def keywordFirst : Dictionary := (empty.importLines keywordLines).1.link.1

/-- The dictionary with the keyword last. -/
def keywordLast : Dictionary :=
  (empty.importLines keywordLines.reverse).1.link.1

private theorem keywordFirst_leftRecursionFree :
    keywordFirst.expressions.LeftRecursionFree := by
  have hexpressions : keywordFirst.expressions.expressions = #[
      ⟨"KW", .literal ['i', 'f']⟩,
      ⟨"Word", .sequence [⟨.reference "Part" (some (.expression 2)), false⟩,
        ⟨.reference "Part" (some (.expression 2)), true⟩]⟩,
      ⟨"Part", .alternation [.reference "letter"
        (some (.primitive CharClass.letter.scan)),
        .literal ['_']]⟩] := by
    cbv
  apply ExpressionSet.leftRecursionFree_of_rank (2 - ·)
  intro caller callee hcalls
  obtain ⟨e, he, href⟩ := hcalls
  unfold ExpressionSet.get? at he
  rw [hexpressions] at he
  have hcaller : caller < 3 := (Array.getElem?_eq_some_iff.1 he).1
  have hcases : caller = 0 ∨ caller = 1 ∨ caller = 2 := by omega
  rcases hcases with rfl | rfl | rfl
  · obtain rfl := Option.some.inj he
    simp at href
  · obtain rfl := Option.some.inj he
    simp at href
    omega
  · obtain rfl := Option.some.inj he
    simp at href

/-- A tie at the first step, which the token registered first wins, and
a step that is none. -/
theorem ofRules_perm_keywords :
    keywordLines.Perm keywordLines.reverse
      ∧ ofRules keywordLines = .ok keywordFirst
      ∧ ofRules keywordLines.reverse = .ok keywordLast
      ∧ keywordFirst.expressions.LeftRecursionFree
      ∧ (keywordFirst.scanAll "if x_".toList 0).map
          (·.toOption.map (·.token.key))
        = [some "KW", some "Word", some "finished"]
      ∧ (keywordLast.scanAll "if x_".toList 0).map
          (·.toOption.map (·.token.key))
        = [some "Word", some "Word", some "finished"]
      ∧ List.Forall₂ (fun a a' => ∃ step step', a = .ok step ∧ a' = .ok step'
            ∧ Agree (keywordFirst.withRetention {})
                (keywordLast.withRetention {}) "if x_".toList step step')
          ((keywordFirst.withRetention {}).scanAll "if x_".toList 0)
          ((keywordLast.withRetention {}).scanAll "if x_".toList 0) := by
  have hperm : keywordLines.Perm keywordLines.reverse :=
    (List.reverse_perm _).symm
  have hfirst : ofRules keywordLines = .ok keywordFirst := by cbv
  have hlast : ofRules keywordLines.reverse = .ok keywordLast := by cbv
  refine ⟨hperm, hfirst, hlast, keywordFirst_leftRecursionFree, by cbv, by
    cbv, ?_⟩
  exact ((ofRules_perm hperm).2 _ _ hfirst hlast keywordFirst_leftRecursionFree
    {} _).2.1

end Munch.Dictionary
