/-
The layout settings decide what is reported, and nothing else.

An analysis that keeps all layout takes a text apart completely: into
registered tokens and units of layout, one step for each
(`Sound.exists_parts`). Under other settings an analysis takes the same
steps (`scanNext_reported`), but none of its own for a unit that is not
kept: a step from before the unit is a step from behind it
(`scanNext_unreported`). So the two runs can be carried along side by
side, by induction on the steps of the one that keeps everything, and
what the other answers is what that one answers, filtered
(`Ready.analyzeFrom_withRetention`).

The main result is `analyze_retention`.
-/
import Munch.Proofs.Scan.Safety

namespace Munch

-- ================================================================ reporting

/-- All layout is reported. -/
def Retention.everything : Retention := ⟨true, true, true⟩

/-- Whether a token is reported: any but layout that is not kept. -/
def Retention.reports (r : Retention) (t : Token) : Bool :=
  t.builtin?.all r.keeps

/-- The tokens of a sequence that are not layout. -/
def TokenSequence.withoutLayout (tokens : TokenSequence) : TokenSequence :=
  tokens.filter fun s => !(s.token.builtin?.any Builtin.isLayout)

/-- The tokens of a sequence that are reported. -/
def TokenSequence.reported (r : Retention) (tokens : TokenSequence) :
    TokenSequence :=
  tokens.filter fun s => r.reports s.token

/-- A token that is kept is reported. -/
private theorem TokenSequence.reported_cons_of_pos {r : Retention}
    {s : ScannedToken} {tokens : TokenSequence} (h : r.reports s.token = true) :
    TokenSequence.reported r (s :: tokens) = s :: tokens.reported r :=
  List.filter_cons_of_pos h

/-- A token that is not kept is left out. -/
private theorem TokenSequence.reported_cons_of_neg {r : Retention}
    {s : ScannedToken} {tokens : TokenSequence}
    (h : r.reports s.token = false) :
    TokenSequence.reported r (s :: tokens) = tokens.reported r :=
  List.filter_cons_of_neg (Bool.eq_false_iff.1 h)

/-- Only layout is left out for the settings, so without any layout they
make no difference. -/
theorem TokenSequence.withoutLayout_reported (r : Retention)
    (tokens : TokenSequence) :
    (tokens.reported r).withoutLayout
      = tokens.filter fun s => s.token.builtin?.isNone := by
  unfold withoutLayout reported
  rw [List.filter_filter]
  apply List.filter_congr
  intro s _
  unfold Retention.reports
  cases s.token.builtin? with
  | none => rfl
  | some b => cases b <;> cases r <;> simp [Retention.keeps, Builtin.isLayout]

/-- Where all layout is kept, none is skipped. -/
private theorem gap_everything {gap rest : Text}
    (h : Gap .everything gap rest) : gap = [] := by
  cases h with
  | nil => rfl
  | unit first unkept _ => cases first <;> cases unkept

namespace Dictionary

variable {d : Dictionary} {text rest after : Text} {p : Piece}

/-- A text taken apart into registered tokens and units of layout. -/
structure Parts (d : Dictionary) (text : Text) (pieces : List Piece) :
    Prop where
  whole : text = written pieces
  /-- Nothing lies between the parts. -/
  seamless : ∀ p ∈ pieces, p.gap = []
  /-- A built-in is a unit of layout. -/
  layout : ∀ before p after, pieces = before ++ p :: after → ∀ b,
    p.token.builtin? = some b →
    p.token = b.token ∧ LayoutUnit b p.matched (written after)
  /-- Anything else is a registered token. -/
  registered : ∀ p ∈ pieces, p.token.builtin? = none →
    p.token ∈ d.tokens ∧ Bare p.matched
  /-- Each is what a scan from there finds, under all settings that report
  it. -/
  scanned : ∀ before p after, pieces = before ++ p :: after →
    ∀ r : Retention, r.reports p.token = true →
      (d.withRetention r).scanNext text (written before).size
        = .ok (p.step (written before).size)

-- ================================================================= one step

/-- Where no layout stands, the settings make no difference to a scan. -/
theorem scanNext_bare (hlinked : d.state = .linked) (r r' : Retention)
    (front : Text) (h : Bare rest) :
    (d.withRetention r).scanNext (front ++ rest) front.size
      = (d.withRetention r').scanNext (front ++ rest) front.size := by
  have hr := scanNext_append (d := d.withRetention r) hlinked front rest
  have hr' := scanNext_append (d := d.withRetention r') hlinked front rest
  rw [skipLayout_bare h] at hr hr'
  exact hr.trans hr'.symm

/-- A unit of layout that is kept is found where it begins. -/
theorem scanNext_kept (hlinked : d.state = .linked) (front : Text) {b : Builtin}
    {u : Text} (hunit : LayoutUnit b u rest)
    (hkept : d.retention.keeps b = true) :
    d.scanNext (front ++ (u ++ rest)) front.size
      = .ok (Piece.step ⟨[], u, b.token⟩ front.size) := by
  rw [scanNext_append hlinked, skipLayout_unit hunit, if_pos hkept]
  rfl

/-- A unit of layout that is not kept makes no difference to a scan. -/
theorem scanNext_unkept (hlinked : d.state = .linked) (front : Text)
    {b : Builtin} {u : Text} (hunit : LayoutUnit b u rest)
    (hunkept : d.retention.keeps b = false) :
    d.scanNext (front ++ (u ++ rest)) front.size
      = d.scanNext (front ++ (u ++ rest)) (Text.size (front ++ u)) := by
  have hbehind := scanNext_append hlinked (front ++ u) rest
  rw [List.append_assoc] at hbehind
  rw [hbehind, scanNext_append hlinked, skipLayout_unit hunit, hunkept,
    Text.size_append]
  rfl

section Everything

variable (hlinked : d.state = .linked) (r : Retention) (front : Text)

include hlinked

/-- A part that is reported is found under the settings, too. -/
theorem scanNext_reported (hp : p.Found (d.withRetention .everything) after)
    (h : (d.withRetention .everything).scanNext (front ++ (p.written ++ after))
      front.size = .ok (p.step front.size))
    (hreported : r.reports p.token = true) :
    (d.withRetention r).scanNext (front ++ (p.written ++ after)) front.size
      = .ok (p.step front.size) := by
  obtain ⟨gap, matched, token⟩ := p
  obtain rfl : gap = [] := gap_everything hp.gap
  cases hb : token.builtin? with
  | some b =>
      obtain ⟨rfl, hunit, -⟩ := hp.layout b hb
      have hkept : r.keeps b = true := by
        unfold Retention.reports at hreported
        rwa [hb] at hreported
      exact scanNext_kept (d := d.withRetention r) hlinked front hunit hkept
  | none =>
      have hbare : Bare (matched ++ after) := by
        intro c hc
        apply (hp.registered hb).2 c
        obtain ⟨c', rest, rfl⟩ := List.exists_cons_of_ne_nil hp.filled
        exact hc
      exact (scanNext_bare hlinked r .everything front hbare).trans h

/-- A part that is not reported is passed over. -/
theorem scanNext_unreported (hp : p.Found (d.withRetention .everything) after)
    (hunreported : r.reports p.token = false) :
    (d.withRetention r).scanNext (front ++ (p.written ++ after)) front.size
      = (d.withRetention r).scanNext (front ++ (p.written ++ after))
          (Text.size (front ++ p.written)) := by
  obtain ⟨gap, matched, token⟩ := p
  obtain rfl : gap = [] := gap_everything hp.gap
  unfold Retention.reports at hunreported
  cases hb : token.builtin? with
  | some b =>
      obtain ⟨rfl, hunit, -⟩ := hp.layout b hb
      rw [hb] at hunreported
      exact scanNext_unkept (d := d.withRetention r) hlinked front hunit
        hunreported
  | none =>
      rw [hb] at hunreported
      cases hunreported

end Everything

/-- Where the scan that keeps everything is at the end of the text, or
finds nothing, the settings make no difference. -/
theorem scanNext_last (hlinked : d.state = .linked) (r : Retention)
    {front : Text} {step : Step}
    (h : (d.withRetention .everything).scanNext (front ++ rest) front.size
      = .ok step) (hlast : Gap .everything rest [] ∨ step.next = none) :
    (d.withRetention r).scanNext (front ++ rest) front.size = .ok step := by
  have hbare : Bare rest := by
    rcases layout_cases rest with hbare | ⟨b, u, after, rfl, hunit⟩
    · exact hbare
    · rcases hlast with hgap | hnone
      · have hnil : u ++ after = [] := gap_everything hgap
        exact absurd (List.append_eq_nil_iff.1 hnil).1 hunit.ne_nil
      · have hkept : Retention.everything.keeps b = true := by
          cases hunit <;> rfl
        rw [scanNext_kept (d := d.withRetention .everything) hlinked front hunit
          hkept] at h
        obtain rfl := Except.ok.inj h
        cases hnone
  exact (scanNext_bare hlinked r .everything front hbare).trans h

-- =============================================================== all steps

/-- What an analysis comes to depends on its first step only. -/
private theorem analyzeFrom_congr {start start' : Nat}
    (h : d.scanNext text start = d.scanNext text start') (bound : Nat) :
    d.analyzeFrom text bound start = d.analyzeFrom text bound start' := by
  cases bound with
  | zero => rfl
  | succ bound => rw [analyzeFrom, analyzeFrom, h]

/-- An analysis ends at the end of the text, or where nothing is found. -/
theorem analyzeFrom_last {start : Nat} {step : Step}
    (h : d.scanNext text start = .ok step)
    (hlast : step.token = Builtin.finished.token ∨ step.next = none)
    (bound : Nat) :
    d.analyzeFrom text (bound + 1) start
      = if step.next = none then .error (unscannableAt text step.start)
        else .ok [] := by
  rw [analyzeFrom, h]
  cases hnext : step.next with
  | none => simp only [hnext, if_true]
  | some next =>
      have hend : step.token = Builtin.finished.token := by
        apply hlast.resolve_right
        rw [hnext]
        exact Option.some_ne_none next
      simp only [hnext, hend, Builtin.builtin?_token, if_true]
      rfl

/-- An analysis answers what the one that keeps everything answers, but
for the layout that is not kept. -/
theorem Ready.analyzeFrom_withRetention
    (hd : (d.withRetention .everything).Ready) (r : Retention)
    {bound bound' : Nat} (front rest : Text) (hbound : rest.size + 2 ≤ bound)
    (hbound' : rest.size + 2 ≤ bound') :
    (d.withRetention r).analyzeFrom (front ++ rest) bound front.size
      = ((d.withRetention .everything).analyzeFrom (front ++ rest) bound'
        front.size).map
          (TokenSequence.reported r) := by
  -- the one that keeps everything takes all the steps
  induction bound' generalizing bound front rest with
  | zero => omega
  | succ bound' ih =>
      have hlinked : d.state = .linked := hd.linked
      obtain ⟨step, hstep⟩ := hd.scanNext_returns front rest
      rcases hd.sound.scanNext_cases hstep with ⟨p, after, rfl, hp, rfl⟩ | hlast
      · have hpos := hp.size_pos
        rw [Text.size_append] at hbound hbound'
        rw [analyzeFrom_piece hp.not_finished hstep]
        by_cases hreported : r.reports p.token = true
        · obtain ⟨bound, rfl⟩ : ∃ n, bound = n + 1 := ⟨bound - 1, by omega⟩
          have hsame := scanNext_reported hlinked r front hp hstep hreported
          have hrest :=
            @ih bound (front ++ p.written) after (by omega) (by omega)
          rw [List.append_assoc] at hrest
          rw [analyzeFrom_piece hp.not_finished hsame, hrest]
          cases (d.withRetention .everything).analyzeFrom
            (front ++ (p.written ++ after)) bound'
            (Text.size (front ++ p.written)) with
          | error e => rfl
          | ok tokens =>
              exact congrArg Except.ok (TokenSequence.reported_cons_of_pos
                hreported).symm
        · have hunreported := Bool.eq_false_iff.2 hreported
          have hsame := scanNext_unreported hlinked r front hp hunreported
          have hrest :=
            @ih bound (front ++ p.written) after (by omega) (by omega)
          rw [List.append_assoc] at hrest
          rw [analyzeFrom_congr hsame, hrest]
          cases (d.withRetention .everything).analyzeFrom
            (front ++ (p.written ++ after)) bound'
            (Text.size (front ++ p.written)) with
          | error e => rfl
          | ok tokens =>
              exact congrArg Except.ok (TokenSequence.reported_cons_of_neg
                hunreported).symm
      · obtain ⟨bound, rfl⟩ : ∃ n, bound = n + 1 := ⟨bound - 1, by omega⟩
        have hsame := scanNext_last hlinked r hstep (hlast.imp_left And.left)
        have hends := hlast.imp_left And.right
        rw [analyzeFrom_last hsame hends, analyzeFrom_last hstep hends]
        split <;> rfl

/-- An analysis that keeps everything takes the text apart. -/
theorem Sound.exists_parts (hd : d.Sound Primitive.Aligned)
    (hlinked : d.state = .linked) {tokens : TokenSequence}
    (h : (d.withRetention .everything).analyze text = .ok tokens) :
    ∃ pieces, d.Parts text pieces ∧ tokens = pieces.map Piece.scanned := by
  have heverything : (d.withRetention .everything).Sound Primitive.Aligned :=
    ⟨hd.codes, hd.matchers, hd.expressions⟩
  have hrun : (d.withRetention .everything).analyzeFrom ([] ++ text)
    (text.size + 2)
      (Text.size []) = .ok tokens := h
  obtain ⟨pieces, tail, rfl, rfl, htail, hpieces⟩ :=
    heverything.analyzeFrom_pieces hrun
  obtain rfl : tail = [] := gap_everything htail
  simp only [List.append_nil, List.nil_append] at hpieces ⊢
  refine ⟨pieces, ⟨rfl, ?_, ?_, ?_, ?_⟩, rfl⟩
  · intro p hp
    obtain ⟨before, after, hsplit⟩ := List.append_of_mem hp
    exact gap_everything (hpieces before p after hsplit).1.gap
  · intro before p after hsplit b hb
    obtain ⟨htoken, hunit, -⟩ := (hpieces before p after hsplit).1.layout b hb
    exact ⟨htoken, hunit⟩
  · intro p hp hnone
    obtain ⟨before, after, hsplit⟩ := List.append_of_mem hp
    exact (hpieces before p after hsplit).1.registered hnone
  · intro before p after hsplit r hreported
    obtain ⟨hfound, hscanned⟩ := hpieces before p after hsplit
    rw [hsplit, written_append, written_cons] at hscanned ⊢
    exact scanNext_reported hlinked r _ hfound hscanned hreported

/-- All analyses of a text fail alike, or they answer the same parts of it
but for the layout that is not kept. -/
theorem Ready.analyze_cases (hd : d.Ready) (text : Text) :
    (∃ pieces, d.Parts text pieces ∧ ∀ r : Retention,
      (d.withRetention r).analyze text
        = .ok (TokenSequence.reported r (pieces.map Piece.scanned)))
      ∨ ∃ offset line column found, ∀ r : Retention,
        (d.withRetention r).analyze text
          = .error (.unscannable offset line column found) := by
  have heverything : (d.withRetention .everything).Ready :=
    ⟨⟨hd.sound.codes, hd.sound.matchers, hd.sound.expressions⟩, hd.linked,
      hd.resolved,
      hd.matchers, hd.free⟩
  have hall : ∀ r : Retention, (d.withRetention r).analyze text
      = ((d.withRetention .everything).analyze text).map
        (TokenSequence.reported r) :=
    fun r => heverything.analyzeFrom_withRetention r [] text (Nat.le_refl _)
      (Nat.le_refl _)
  cases hanalysis : (d.withRetention .everything).analyze text with
  | ok tokens =>
      obtain ⟨pieces, hpieces, rfl⟩ := hd.sound.exists_parts hd.linked hanalysis
      refine .inl ⟨pieces, hpieces, fun r => ?_⟩
      rw [hall, hanalysis]
      rfl
  | error e =>
      have hplace : ∃ offset line column found,
          e = .unscannable offset line column found := by
        obtain ⟨front, gap, found, after, -, -, -, he⟩ :=
          (heverything.analyzeFrom_eq_error_iff [] text (Nat.le_refl _)).1
            hanalysis
        exact ⟨_, _, _, _, he⟩
      obtain ⟨offset, line, column, found, rfl⟩ := hplace
      refine .inr ⟨offset, line, column, found, fun r => ?_⟩
      rw [hall, hanalysis]
      rfl

/-- With a linked dictionary without left recursion, whose primitives
answer boundaries with boundaries, the layout settings decide which
layout an analysis reports, and nothing else. -/
theorem analyze_retention (hd : d.Built Primitive.Aligned)
    (hlinked : d.state = .linked) (hfree : d.expressions.LeftRecursionFree)
    (r r' : Retention) (text : Text) :
    ((∃ tokens, (d.withRetention r).analyze text = .ok tokens)
        ↔ ∃ tokens, (d.withRetention r').analyze text = .ok tokens)
      ∧ (∀ tokens tokens', (d.withRetention r).analyze text = .ok tokens →
          (d.withRetention r').analyze text = .ok tokens' →
          tokens.withoutLayout = tokens'.withoutLayout)
      ∧ (∀ e, (d.withRetention r).analyze text = .error e →
          (d.withRetention r').analyze text = .error e
            ∧ ∃ offset line column found,
              e = .unscannable offset line column found)
      ∧ ∀ tokens, (d.withRetention r).analyze text = .ok tokens →
          ∃ pieces, d.Parts text pieces
            ∧ tokens = TokenSequence.reported r (pieces.map Piece.scanned) := by
  rcases (hd.ready hlinked hfree).analyze_cases text
    with ⟨pieces, hpieces, hall⟩ | ⟨offset, line, column, found, hall⟩
  · rw [hall r, hall r']
    refine ⟨iff_of_true ⟨_, rfl⟩ ⟨_, rfl⟩, ?_, ?_, ?_⟩
    · intro tokens tokens' h h'
      obtain rfl := Except.ok.inj h
      obtain rfl := Except.ok.inj h'
      rw [TokenSequence.withoutLayout_reported,
        TokenSequence.withoutLayout_reported]
    · intro e h
      cases h
    · intro tokens h
      obtain rfl := Except.ok.inj h
      exact ⟨pieces, hpieces, rfl⟩
  · rw [hall r, hall r']
    refine ⟨Iff.rfl, ?_, ?_, ?_⟩
    · intro tokens tokens' h
      cases h
    · intro e h
      obtain rfl := Except.error.inj h
      exact ⟨rfl, _, _, _, _, rfl⟩
    · intro tokens h
      cases h

/-- Two settings that have no layout in common, and a text with layout of
all kinds. -/
theorem analyze_retention_hyphenated :
    hyphenated.Built Primitive.Aligned ∧ hyphenated.state = .linked
      ∧ hyphenated.expressions.LeftRecursionFree
      ∧ ∃ tokens tokens',
        (hyphenated.withRetention { tabs := true, newlines := true }).analyze
            "é-b\r\n\t1 ".toList = .ok tokens
          ∧ (hyphenated.withRetention { whitespace := true }).analyze
            "é-b\r\n\t1 ".toList = .ok tokens'
          ∧ tokens.map (·.token.key) = ["Name", "newline", "tab", "Figure"]
          ∧ tokens'.map (·.token.key) = ["Name", "Figure", "whitespace"]
          ∧ tokens.withoutLayout = tokens'.withoutLayout
          ∧ ∃ pieces, hyphenated.Parts "é-b\r\n\t1 ".toList pieces
            ∧ tokens = TokenSequence.reported { tabs := true, newlines := true }
                (pieces.map Piece.scanned) := by
  have hlinked : hyphenated.state = .linked := by cbv
  obtain ⟨-, hsame, -, hparts⟩ := analyze_retention hyphenated_built hlinked
    hyphenated_leftRecursionFree { tabs := true, newlines := true }
    { whitespace := true } "é-b\r\n\t1 ".toList
  have hkeys :
    ((hyphenated.withRetention { tabs := true, newlines := true }).analyze
        "é-b\r\n\t1 ".toList).toOption.map (·.map (·.token.key))
          = some ["Name", "newline", "tab", "Figure"]
      ∧ ((hyphenated.withRetention { whitespace := true }).analyze
        "é-b\r\n\t1 ".toList).toOption.map (·.map (·.token.key))
          = some ["Name", "Figure", "whitespace"] := by
    cbv
  refine ⟨hyphenated_built, hlinked, hyphenated_leftRecursionFree, ?_⟩
  cases htokens :
      (hyphenated.withRetention { tabs := true, newlines := true }).analyze
        "é-b\r\n\t1 ".toList with
  | error e =>
      rw [htokens] at hkeys
      cases hkeys.1
  | ok tokens =>
      cases htokens' : (hyphenated.withRetention { whitespace := true }).analyze
          "é-b\r\n\t1 ".toList with
      | error e =>
          rw [htokens'] at hkeys
          cases hkeys.2
      | ok tokens' =>
          rw [htokens, htokens'] at hkeys
          exact ⟨tokens, tokens', rfl, rfl, Option.some.inj hkeys.1,
            Option.some.inj hkeys.2,
            hsame tokens tokens' htokens htokens', hparts tokens htokens⟩

end Dictionary

end Munch
