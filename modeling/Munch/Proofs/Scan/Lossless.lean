/-
An analysis loses nothing.

If a text can be analysed, it falls apart into pieces and a tail
(`Dictionary.Divides`): one piece for each token, in order, and nothing
besides but layout that is not kept. Each token is the one that a scan
reports at its place, and it stores the text of its piece if it stores
any.

The run over the text is `analyzeFrom_pieces`, by induction on its
bound; a step of it is one of the steps in `Sound.scanNext_cases`. That
no kept layout gets lost between tokens follows afterwards: where a unit
of it begins, the scan cannot have found anything else
(`Piece.Found.lead`).

The main result is `analyze_lossless`.
-/
import Munch.Proofs.Scan.Step
import Munch.Scan.Sequence

namespace Munch

namespace Piece

/-- The token of a piece, with the matched text if it keeps that. -/
def scanned (p : Piece) : ScannedToken :=
  ⟨p.token, if p.token.keepText then some p.matched else none⟩

end Piece

/-- The text of pieces one after another. -/
def written (pieces : List Piece) : Text := pieces.flatMap Piece.written

@[simp] theorem written_nil : written [] = [] := rfl

@[simp] theorem written_cons (p : Piece) (pieces : List Piece) :
    written (p :: pieces) = p.written ++ written pieces := rfl

/-- Pieces are written one after another. -/
@[simp] theorem written_append (before after : List Piece) :
    written (before ++ after) = written before ++ written after :=
  List.flatMap_append

/-- A text falls apart into pieces and a tail. Where a piece begins is
the size of those before it. -/
structure Dictionary.Divides (d : Dictionary) (text : Text)
    (pieces : List Piece) (tail : Text) : Prop where
  /-- Nothing is lost, doubled or moved. -/
  whole : text = written pieces ++ tail
  /-- What is not a token is layout that is not kept, and what is a token
  is either a registered one or a unit of layout that is kept. -/
  found : ∀ before p after, pieces = before ++ p :: after →
    p.Found d (written after ++ tail)
  tail : Gap d.retention tail []
  /-- A scan from the end of the last token reports the next one. -/
  scanned : ∀ before p after, pieces = before ++ p :: after →
    d.scanNext text (written before).size = .ok (p.step (written before).size)
  /-- What a token matched lies between the offsets reported. -/
  spans : ∀ before p after, pieces = before ++ p :: after →
    text.slice? ((written before).size + p.gap.size)
      ((written before).size + p.gap.size + p.matched.size) = some p.matched
  /-- A unit of layout that is kept, met behind the end of a token and
  perhaps layout that is not, is the next token. -/
  kept : ∀ before later gap b u rest, pieces = before ++ later →
    text = written before ++ (gap ++ (u ++ rest)) →
    Gap d.retention gap (u ++ rest) → LayoutUnit b u rest →
    d.retention.keeps b = true →
    ∃ after, later = ⟨gap, u, b.token⟩ :: after

-- ============================================================ one piece

namespace Piece

variable {d : Dictionary} {p : Piece} {front rest : Text}

/-- A piece is as long as its gap and its match together. -/
@[simp] theorem size_written (p : Piece) :
    p.written.size = p.gap.size + p.matched.size :=
  Text.size_append ..

/-- What a piece matches lies behind its gap. -/
theorem slice?_matched (p : Piece) (front rest : Text) :
    Text.slice? (front ++ (p.written ++ rest)) (front.size + p.gap.size)
      (front.size + p.gap.size + p.matched.size) = some p.matched := by
  refine Text.slice?_eq_some_iff.2
    ⟨front ++ p.gap, rest, ?_, Text.size_append .., rfl⟩
  simp only [written, List.append_assoc]

/-- The step that takes a piece stores what the piece matches, if
anything. -/
theorem scanned_step (p : Piece) (front rest : Text) :
    (p.step front.size).scanned (front ++ (p.written ++ rest))
      (front.size + p.gap.size + p.matched.size) = .ok p.scanned := by
  unfold Step.scanned scanned
  simp only [step, slice?_matched]
  split
  · rfl
  · rfl

/-- No piece is the end of the text. -/
theorem Found.not_finished (h : p.Found d rest) :
    p.token.builtin? ≠ some .finished := by
  intro hb
  obtain ⟨-, hunit, -⟩ := h.layout _ hb
  cases hunit

/-- Skipping layout leads to what a piece matches: a unit of layout that
is kept, or no layout at all. -/
theorem Found.lead (h : p.Found d rest) :
    (∃ b, p.token = b.token ∧ skipLayout d.retention 0 (p.written ++ rest)
        = .unit b p.gap.size (p.gap.size + p.matched.size))
      ∨ ∃ position bare, skipLayout d.retention 0 (p.written ++ rest)
          = .text position bare := by
  rw [written, List.append_assoc]
  cases hb : p.token.builtin? with
  | some b =>
      obtain ⟨htoken, hunit, hkept⟩ := h.layout b hb
      refine .inl ⟨b, htoken, skipLayout_eq_unit_iff.2 ?_⟩
      exact ⟨p.gap, p.matched, rest, rfl, h.gap, hunit, hkept,
        (Nat.zero_add _).symm, rfl⟩
  | none =>
      obtain ⟨-, hbare⟩ := h.registered hb
      refine .inr ⟨_, _, skipLayout_eq_text_iff.2 ⟨p.gap, rfl, h.gap, ?_, rfl⟩⟩
      obtain ⟨c, matched, hmatched⟩ := List.exists_cons_of_ne_nil h.filled
      rw [hmatched] at hbare ⊢
      exact hbare

end Piece

-- ============================================================== the run

namespace Dictionary

variable {d : Dictionary} {text : Text}

/-- A run over the rest of a text divides it. -/
theorem Sound.analyzeFrom_pieces (hd : d.Sound Primitive.Aligned) {bound : Nat}
    {front rest : Text} {tokens : TokenSequence}
    (h : d.analyzeFrom (front ++ rest) bound front.size = .ok tokens) :
    ∃ pieces tail, rest = written pieces ++ tail
      ∧ tokens = pieces.map Piece.scanned
      ∧ Gap d.retention tail []
      ∧ ∀ before p after, pieces = before ++ p :: after →
          p.Found d (written after ++ tail)
            ∧ d.scanNext (front ++ rest) (front ++ written before).size
                = .ok (p.step (front ++ written before).size) := by
  induction bound generalizing front rest tokens with
  | zero => cases h
  | succ bound ih =>
      unfold analyzeFrom at h
      split at h
      · cases h
      rename_i step hscan
      split at h
      · cases h
      rename_i next hnext
      rcases hd.scanNext_cases hscan with ⟨p, after, rfl, hp, rfl⟩
        | ⟨hgap, hfinished⟩ | hnone
      · obtain rfl := Option.some.inj hnext
        have hmore : (p.step front.size).token.builtin? ≠ some .finished :=
          hp.not_finished
        rw [if_neg hmore, p.scanned_step front after] at h
        simp only at h
        split at h
        · cases h
        rename_i others hothers
        obtain rfl := Except.ok.inj h
        -- the rest of the run begins where the piece ends
        have hsize : front.size + p.gap.size + p.matched.size
            = (front ++ p.written).size := by
          rw [Text.size_append, p.size_written, Nat.add_assoc]
        rw [← List.append_assoc, hsize] at hothers
        obtain ⟨pieces, tail, rfl, rfl, htail, hpieces⟩ := ih hothers
        refine ⟨p :: pieces, tail, by simp, rfl, htail,
          fun before q later hsplit => ?_⟩
        cases before with
        | nil =>
            obtain ⟨rfl, rfl⟩ := List.cons.inj hsplit
            rw [written_nil, List.append_nil]
            exact ⟨hp, hscan⟩
        | cons q' before =>
            obtain ⟨rfl, hlater⟩ := List.cons.inj hsplit
            have hq := hpieces before q later hlater
            rw [List.append_assoc, List.append_assoc] at hq
            exact hq
      · rw [hfinished, Builtin.builtin?_token, if_pos rfl] at h
        obtain rfl := Except.ok.inj h
        refine ⟨[], rest, rfl, rfl, hgap, fun before p after hsplit => ?_⟩
        cases before <;> cases hsplit
      · rw [hnone] at hnext
        cases hnext

/-- Where a unit of layout that is kept begins, the next piece is that
unit. -/
theorem next_of_kept {pieces : List Piece} {tail gap u rest : Text}
    {b : Builtin}
    (hfound : ∀ p after, pieces = p :: after →
      p.Found d (written after ++ tail)) (htail : Gap d.retention tail [])
    (htext : written pieces ++ tail = gap ++ (u ++ rest))
    (hgap : Gap d.retention gap (u ++ rest)) (hunit : LayoutUnit b u rest)
    (hkept : d.retention.keeps b = true) :
    ∃ after, pieces = ⟨gap, u, b.token⟩ :: after := by
  have hlead : skipLayout d.retention 0 (written pieces ++ tail)
      = .unit b gap.size (gap.size + u.size) :=
    skipLayout_eq_unit_iff.2
      ⟨gap, u, rest, htext, hgap, hunit, hkept, (Nat.zero_add _).symm, rfl⟩
  cases pieces with
  | nil =>
      have hend : skipLayout d.retention 0 tail = .text (0 + tail.size) [] :=
        skipLayout_eq_text_iff.2 ⟨tail, (List.append_nil tail).symm, htail,
          (fun c hc => by cases hc), rfl⟩
      rw [written_nil, List.nil_append, hend] at hlead
      cases hlead
  | cons p after =>
      rw [written_cons, List.append_assoc] at hlead htext
      rcases (hfound p after rfl).lead with ⟨b', htoken, hunit'⟩
        | ⟨position, bare, hbare⟩
      · rw [hunit'] at hlead
        obtain ⟨rfl, hgapSize, hsize⟩ := Lead.unit.inj hlead
        rw [Piece.written, List.append_assoc] at htext
        obtain ⟨hgapText, htext⟩ := Text.append_inj_of_size htext hgapSize
        obtain ⟨hmatched, -⟩ := Text.append_inj_of_size htext (by omega)
        exact ⟨after, by rw [← htoken, ← hgapText, ← hmatched]⟩
      · rw [hbare] at hlead
        cases hlead

/-- A text that can be analysed falls apart into pieces, one for each
token, and layout that is not kept. -/
theorem analyze_lossless (hd : d.Built Primitive.Aligned)
    {tokens : TokenSequence} (h : d.analyze text = .ok tokens) :
    ∃ pieces tail, d.Divides text pieces tail
      ∧ tokens = pieces.map Piece.scanned := by
  have hsound := hd.sound CharClass.scan_aligned
  have hrun : d.analyzeFrom ([] ++ text) (text.size + 2) (Text.size [])
      = .ok tokens := h
  obtain ⟨pieces, tail, rfl, rfl, htail, hpieces⟩ :=
    hsound.analyzeFrom_pieces hrun
  refine ⟨pieces, tail, ⟨rfl, ?_, htail, ?_, ?_, ?_⟩, rfl⟩
  · exact fun before p after hsplit => (hpieces before p after hsplit).1
  · exact fun before p after hsplit => (hpieces before p after hsplit).2
  · rintro before p after rfl
    have := p.slice?_matched (written before) (written after ++ tail)
    simpa using this
  · rintro before later gap b u rest rfl htext hgap hunit hkept
    rw [written_append, List.append_assoc] at htext
    refine next_of_kept (fun p after hlater => ?_) htail
      (List.append_cancel_left htext) hgap hunit hkept
    exact (hpieces before p after (by rw [hlater])).1

/-- A dictionary for words of one accented letter over and over, which
keep their text. It reports line ends. -/
def accentedWords : Dictionary :=
  (empty.withRetention { newlines := true }).push
    ⟨"word", .rule ['"', 'é', '"', '*'], true⟩ (.expression 0)
    (some ⟨"word", .sequence [⟨.literal ['é'], true⟩]⟩)

/-- The same with figures. -/
def accented : Dictionary :=
  (accentedWords.push ⟨"figure", .primitive CharClass.digit.scan, false⟩
    (.primitive CharClass.digit.scan) none).link.1

private theorem accentedWords_built (P : Primitive → Prop) :
    accentedWords.Built P := by
  have hcompile : (empty.withRetention { newlines := true }).compile "word"
      (.rule ['"', 'é', '"', '*'])
      = .ok (.expression 0,
        some ⟨"word", .sequence [⟨.literal ['é'], true⟩]⟩) := by
    have hkey : ExpressionSet.empty.indices.contains "word" = false :=
      Std.HashMap.contains_empty
    rw [compile, show (empty.withRetention _).expressions = .empty from rfl,
      ExpressionSet.compile, hkey]
    rfl
  rw [accentedWords, ← register_of_compile Std.HashMap.contains_empty
    (by decide)
    (by decide) hcompile]
  exact .register (.withRetention .empty _) _ fun _ h => nomatch h

/-- The dictionary is built from rules and, for digits, a primitive. -/
theorem accented_built_of {P : Primitive → Prop}
    (hdigit : P CharClass.digit.scan) : accented.Built P := by
  have hkey : accentedWords.indices.contains "figure" = false := by
    simp [accentedWords, push, empty, withRetention]
  rw [accented, ← register_of_compile hkey (by decide) (by decide) rfl]
  refine .link (.register (accentedWords_built P) _ fun scan hscan => ?_)
  obtain rfl := TokenBody.primitive.inj hscan
  exact hdigit

/-- The dictionary is built with primitives that answer boundaries with
boundaries. -/
private theorem accented_built : accented.Built Primitive.Aligned :=
  accented_built_of CharClass.digit.scan_aligned

/-- Two words, a figure, a line end of two characters, and layout that is
skipped on either side. -/
theorem analyze_lossless_accented :
    accented.Built Primitive.Aligned
      ∧ ∃ tokens, accented.analyze ['é', 'é', '1', '\r', '\n', '\t', 'é', ' ']
          = .ok tokens
      ∧ tokens.map (·.token.key) = ["word", "figure", "newline", "word"]
      ∧ ∃ pieces tail,
          accented.Divides ['é', 'é', '1', '\r', '\n', '\t', 'é', ' ']
            pieces tail
          ∧ tokens = pieces.map Piece.scanned := by
  refine ⟨accented_built, _, rfl, rfl, ?_⟩
  exact analyze_lossless accented_built rfl

end Dictionary

end Munch
