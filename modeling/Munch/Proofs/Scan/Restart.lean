/-
A scan can be restarted at any of its steps.

What stands in front of a place has no part in what is found there: a
step from the place is the step from the beginning of the text behind
it, all offsets larger (`scanNext_shift`). For layout this is so since
it is skipped unit by unit, for tokens since matching sees no more than
its window, and of answers that are all larger by one number the same is
the longest (`longest_shift`).

So is the analysis from the place that of the text behind it
(`Ready.analyzeFrom_restart`), by induction on its steps, each of which
leads to a place to restart from. And where a run over a text has come
to a place, the analysis of the text is what was found before the place,
and the analysis from there on (`Ready.exists_progress`).

The main result is `analyze_restart`.
-/
import Munch.Proofs.Expr.Window
import Munch.Proofs.Scan.Retention

namespace Munch

-- ================================================================ one step

/-- The same step, the offsets larger by a number. -/
def Step.shift (n : Nat) (step : Step) : Step :=
  ⟨n + step.start, step.next.map (n + ·), step.token⟩

/-- The same place or unit, the offsets larger by a number. -/
def Lead.shift (n : Nat) : Lead → Lead
  | .unit b start stop => .unit b (n + start) (n + stop)
  | .text position rest => .text (n + position) rest

/-- Layout is skipped alike, wherever it begins. -/
theorem skipLayout_shift (r : Retention) (n position : Nat) (t : Text) :
    skipLayout r (n + position) t = (skipLayout r position t).shift n := by
  obtain ⟨gap, rest, rfl, hgap, hafter⟩ := exists_gap r t
  rw [skipLayout_gap hgap, skipLayout_gap hgap, Nat.add_assoc]
  rcases hafter with hbare | ⟨b, u, rest, rfl, hunit, hkept⟩
  · rw [skipLayout_bare hbare, skipLayout_bare hbare]
    rfl
  · rw [skipLayout_unit hunit, skipLayout_unit hunit, if_pos hkept,
      if_pos hkept, Nat.add_assoc]
    rfl

/-- Of answers that are all larger by a number, the same is the
longest. -/
theorem longest_shift {answer answer' : Token → Answer} {n : Nat}
    {ts : List Token} (h : ∀ t ∈ ts, answer' t = (answer t).shift n)
    (reach : Nat) (best : Option (Nat × Token)) :
    longest answer' (n + reach) (best.map (Prod.map (n + ·) id)) ts
      = (longest answer reach best ts).map
        (Option.map (Prod.map (n + ·) id)) := by
  induction ts generalizing reach best with
  | nil => rfl
  | cons t ts ih =>
      obtain ⟨ht, hts⟩ := List.forall_mem_cons.1 h
      unfold longest
      rw [ht]
      cases answer t with
      | error e => rfl
      | ok found =>
          cases found with
          | none => exact ih hts reach best
          | some stop =>
              simp only [Answer.shift_ok, Option.map_some,
                Nat.add_lt_add_iff_left]
              by_cases hlonger : reach < stop
              · rw [if_pos hlonger, if_pos hlonger]
                exact ih hts stop (some (stop, t))
              · rw [if_neg hlonger, if_neg hlonger]
                exact ih hts reach best

namespace Dictionary

variable {d : Dictionary} {front rest text : Text}

/-- A token that is answered is answered alike where the text stands
behind another. -/
theorem Sound.capture_shift (hd : d.Sound Primitive.Windowed) {t : Token}
    (ht : t ∈ d.tokens) {position : Nat} {answer : Option Nat}
    (h : t.capture d.expressions rest position = .ok answer) (front : Text) :
    t.capture d.expressions (front ++ rest) (front.size + position)
      = .ok (answer.map (front.size + ·)) := by
  have hsize : Text.size (front ++ rest) = front.size + rest.size :=
    Text.size_append ..
  unfold Token.capture Token.captureWithin at h ⊢
  rw [hsize]
  cases hm : t.matcher with
  | expression index =>
      rw [hm] at h
      have hwindow := capture_window hd.expressions front rest [] h
      rw [List.append_nil] at hwindow
      exact hwindow
  | primitive scan =>
      rw [hm] at h
      have hwindow := hd.matchers t ht scan hm front rest [] position
      rw [List.append_nil, Except.ok.inj h] at hwindow
      exact congrArg Except.ok hwindow
  | none =>
      rw [hm] at h
      cases h
      rfl

/-- Where all tokens are answered, the same one is found if the text
stands behind another. -/
theorem Sound.scanToken_shift (hd : d.Sound Primitive.Windowed) {position : Nat}
    (hanswers : ∀ t ∈ d.tokens, ∃ a,
      t.capture d.expressions rest position = .ok a) (front : Text) :
    d.scanToken (front ++ rest) (front.size + position)
      = (d.scanToken rest position).map (Step.shift front.size) := by
  have hshift : ∀ t ∈ d.tokens.toList,
      t.capture d.expressions (front ++ rest) (front.size + position)
        = Answer.shift front.size (t.capture d.expressions rest position) := by
    intro t ht
    have ht := Array.mem_toList_iff.1 ht
    obtain ⟨answer, hanswer⟩ := hanswers t ht
    rw [hanswer, hd.capture_shift ht hanswer]
    rfl
  have hlongest := longest_shift hshift position none
  unfold Token.capture at hlongest
  unfold scanToken scanTokenWithin
  simp only
  rw [Option.map_none] at hlongest
  rw [hlongest]
  cases longest (fun t => t.captureWithin d.expressions
      (d.expressions.budget rest) rest position) position none
    d.tokens.toList with
  | error e => rfl
  | ok found =>
      cases found with
      | none => rfl
      | some winner => rfl

/-- A step is the same if the text stands behind another. -/
theorem Ready.scanNext_shift (hd : d.Ready) (hw : d.Sound Primitive.Windowed)
    (front rest : Text) :
    d.scanNext (front ++ rest) front.size
      = (d.scanNext rest 0).map (Step.shift front.size) := by
  have hrest := scanNext_append hd.linked [] rest
  have hlead := skipLayout_shift d.retention front.size 0 rest
  rw [Nat.add_zero] at hlead
  rw [List.nil_append, Text.size_nil] at hrest
  rw [scanNext_append hd.linked, hrest, hlead]
  cases hskip : skipLayout d.retention 0 rest with
  | unit b start stop => rfl
  | text position after =>
      obtain ⟨gap, rfl, -, -, rfl⟩ := skipLayout_eq_text_iff.1 hskip
      cases after with
      | nil => rfl
      | cons c after =>
          refine hw.scanToken_shift (fun t ht => hd.capture_returns ht ?_) front
          rw [Nat.zero_add]
          exact Text.isBoundary_iff.2 ⟨gap, c :: after, rfl, rfl⟩

-- =============================================================== all steps

/-- From the beginning of a text, steps lead to a place, and these are the
tokens that an analysis collects on the way. -/
inductive Scans (d : Dictionary) (text : Text) : Nat → TokenSequence → Prop
  | start : Scans d text 0 []
  | token {start next : Nat} {before : TokenSequence} {step : Step}
      {s : ScannedToken} (earlier : Scans d text start before)
      (scanned : d.scanNext text start = .ok step)
      (leads : step.next = some next)
      (goes : step.token.builtin? ≠ some .finished)
      (stored : step.scanned text next = .ok s) :
      Scans d text next (before ++ [s])
  /-- At the end of the text, nothing is collected. -/
  | finished {start next : Nat} {before : TokenSequence} {step : Step}
      (earlier : Scans d text start before)
      (scanned : d.scanNext text start = .ok step)
      (leads : step.next = some next)
      (ends : step.token.builtin? = some .finished) :
      Scans d text next before

/-- An analysis from a place in a text, and that of the text from there:
they find the same tokens, or fail at the same character. -/
def Restarted (n : Nat) (whole part : Except Error TokenSequence) : Prop :=
  (∃ tokens, part = .ok tokens ∧ whole = .ok tokens)
    ∨ ∃ offset line column line' column' found,
        part = .error (.unscannable offset line column found)
          ∧ whole = .error (.unscannable (n + offset) line' column' found)

/-- One more token in front makes no difference, if both go on from where
it ends. -/
theorem Restarted.cons {n m : Nat}
    {whole part later : Except Error TokenSequence}
    (hwhole : Restarted (n + m) whole later) (hpart : Restarted m part later)
    (s : ScannedToken) :
    Restarted n (whole.map (s :: ·)) (part.map (s :: ·)) := by
  rcases hwhole with ⟨tokens, hlater, rfl⟩
    | ⟨offset, line, column, line', column', found, hlater, rfl⟩
  · rcases hpart with ⟨tokens', hlater', rfl⟩ | ⟨_, _, _, _, _, _, hlater', -⟩
    · rw [hlater] at hlater'
      obtain rfl := Except.ok.inj hlater'
      exact .inl ⟨s :: tokens, rfl, rfl⟩
    · rw [hlater] at hlater'
      cases hlater'
  · rcases hpart with ⟨tokens', hlater', rfl⟩
      | ⟨_, _, _, line'', column'', _, hlater', rfl⟩
    · rw [hlater] at hlater'
      cases hlater'
    · rw [hlater] at hlater'
      cases hlater'
      refine .inr ⟨m + offset, line'', column'', line', column', found, rfl, ?_⟩
      rw [← Nat.add_assoc]
      rfl

/-- Behind a step that takes a piece, an analysis goes on. -/
theorem analyzeFrom_piece_map {front after : Text} {p : Piece}
    (hgoes : p.token.builtin? ≠ some .finished)
    (h : d.scanNext (front ++ (p.written ++ after)) front.size
      = .ok (p.step front.size)) (bound : Nat) :
    d.analyzeFrom (front ++ (p.written ++ after)) (bound + 1) front.size
      = (d.analyzeFrom ((front ++ p.written) ++ after) bound
        (front ++ p.written).size).map
          (p.scanned :: ·) := by
  rw [analyzeFrom_piece hgoes h, List.append_assoc]
  cases d.analyzeFrom (front ++ (p.written ++ after)) bound
    (front ++ p.written).size with
  | error e => rfl
  | ok tokens => rfl

namespace Ready

variable (hd : d.Ready)

include hd

/-- An analysis from a place finds what that of the text from there
finds. -/
theorem analyzeFrom_restart (hw : d.Sound Primitive.Windowed)
    {bound bound' : Nat} (front rest : Text) (hbound : rest.size + 2 ≤ bound)
    (hbound' : rest.size + 2 ≤ bound') :
    Restarted front.size (d.analyzeFrom (front ++ rest) bound front.size)
      (d.analyzeFrom rest bound' 0) := by
  -- on the text that is left, since both analyses go on behind a piece of it
  induction hsize : rest.size using Nat.strongRecOn generalizing front rest
    bound bound' with
  | ind size ih =>
  obtain ⟨bound, rfl⟩ : ∃ b, bound = b + 1 := ⟨bound - 1, by omega⟩
  obtain ⟨bound', rfl⟩ : ∃ b, bound' = b + 1 := ⟨bound' - 1, by omega⟩
  obtain ⟨step, hstep⟩ := hd.scanNext_returns [] rest
  have hshift : d.scanNext (front ++ rest) front.size
      = .ok (step.shift front.size) := by
    rw [hd.scanNext_shift hw]
    exact congrArg (Except.map (Step.shift front.size)) hstep
  rcases hd.sound.scanNext_cases hstep with ⟨p, after, rfl, hp, rfl⟩ | hlast
  · have hpos := hp.size_pos
    rw [Text.size_append] at hbound hbound' hsize
    have hrest : after.size + 2 ≤ bound := by omega
    have hrest' : after.size + 2 ≤ bound' := by omega
    have hwhole := ih after.size (by omega) (front ++ p.written) after hrest
      (Nat.le_refl _) rfl
    have hpart :=
      ih after.size (by omega) p.written after hrest' (Nat.le_refl _) rfl
    have hstep' : (p.step (Text.size [])).shift front.size
        = p.step front.size := by
      unfold Step.shift Piece.step
      simp only [Text.size_nil, Nat.zero_add, Option.map_some, Nat.add_assoc]
    rw [hstep'] at hshift
    have hfirst : d.analyzeFrom (p.written ++ after) (bound' + 1) 0
        = (d.analyzeFrom (p.written ++ after) bound' p.written.size).map
          (p.scanned :: ·) :=
      analyzeFrom_piece_map hp.not_finished hstep bound'
    rw [analyzeFrom_piece_map hp.not_finished hshift, hfirst]
    rw [Text.size_append] at hwhole ⊢
    exact hwhole.cons hpart p.scanned
  · have hlast' := hlast.imp And.right (congrArg (Option.map (front.size + ·)))
    have hwhole := analyzeFrom_last hshift hlast' bound
    have hpart : d.analyzeFrom rest (bound' + 1) 0 = _ :=
      analyzeFrom_last hstep (hlast.imp_left And.right) bound'
    rw [hwhole, hpart]
    cases hnext : step.next with
    | some next =>
        rw [Step.shift, hnext]
        exact .inl ⟨[], rfl, rfl⟩
    | none =>
        obtain ⟨gap, found, after, rfl, -, hstart⟩ :=
          hd.blocked_of_next_none hstep hnext
        have hstart' : (step.shift front.size).start = (front ++ gap).size := by
          rw [Text.size_append]
          exact congrArg (front.size + ·) hstart
        have hnext' : (step.shift front.size).next = none :=
          congrArg (Option.map _) hnext
        rw [if_pos hnext', if_pos rfl, hstart, hstart', unscannableAt_append,
          unscannableAt_append,
          blockedError, blockedError, Text.size_append front, List.nil_append]
        exact .inr ⟨gap.size, _, _, _, _, found, rfl, rfl⟩

end Ready

/-- Where a run has come to a place, the analysis of the text is what was
collected on the way, and the analysis from there on. -/
theorem Sound.exists_progress (hd : d.Sound Primitive.Aligned) {start : Nat}
    (h : Relation.ReflTransGen (d.Moves text) 0 start) :
    ∃ front rest before bound, text = front ++ rest ∧ start = front.size
      ∧ d.Scans text start before ∧ rest.size + 2 ≤ bound
      ∧ d.analyze text = (d.analyzeFrom text bound start).map
        (before ++ ·) := by
  induction h with
  | refl =>
      refine ⟨[], text, [], text.size + 2, rfl, rfl, .start, Nat.le_refl _, ?_⟩
      unfold analyze
      cases d.analyzeFrom text (text.size + 2) 0 <;> rfl
  | tail _ hmoves ih =>
      obtain ⟨front, rest, before, bound, rfl, rfl, hscans, hbound, hanalyze⟩ :=
        ih
      obtain ⟨step, hstep, hnext, hgoes⟩ := hmoves
      rcases hd.scanNext_cases hstep
        with ⟨p, after, rfl, hp, rfl⟩ | ⟨-, hend⟩ | hnone
      · have hpos := hp.size_pos
        rw [Text.size_append] at hbound
        obtain ⟨bound, rfl⟩ : ∃ b, bound = b + 1 := ⟨bound - 1, by omega⟩
        have hnext' := p.step_next front
        rw [hnext] at hnext'
        obtain rfl := Option.some.inj hnext'
        have hstored := p.scanned_step front after
        rw [Nat.add_assoc, ← p.size_written, ← Text.size_append] at hstored
        refine ⟨front ++ p.written, after, before ++ [p.scanned], bound,
          (List.append_assoc ..).symm, rfl,
            .token hscans hstep hnext hgoes hstored, by omega, ?_⟩
        rw [hanalyze, analyzeFrom_piece_map hp.not_finished hstep,
          List.append_assoc]
        cases d.analyzeFrom (front ++ (p.written ++ after)) bound
          (front ++ p.written).size with
        | error e => rfl
        | ok tokens =>
            show Except.ok (before ++ p.scanned :: tokens)
              = .ok (before ++ [p.scanned] ++ tokens)
            rw [List.append_assoc, List.singleton_append]
      · rw [hend, Builtin.builtin?_token] at hgoes
        exact absurd rfl hgoes
      · rw [hnone] at hnext
        cases hnext

/-- Behind layout that is not kept and goes on to the end of the text, a
scan is at the end. -/
theorem scanNext_finished (hlinked : d.state = .linked) (front : Text)
    (hgap : Gap d.retention rest []) :
    d.scanNext (front ++ rest) front.size
      = .ok ⟨(front ++ rest).size, some (front ++ rest).size,
        Builtin.finished.token⟩ := by
  have hskip : skipLayout d.retention front.size rest
      = .text (front.size + rest.size) [] :=
    skipLayout_eq_text_iff.2 ⟨rest, (List.append_nil rest).symm, hgap,
      nofun, rfl⟩
  rw [scanNext_append hlinked, hskip, Text.size_append]

/-- The empty text has no tokens. -/
private theorem analyze_nil (hlinked : d.state = .linked) :
    d.analyze [] = .ok [] := by
  have hstep : d.scanNext [] 0 = .ok ⟨0, some 0, Builtin.finished.token⟩ :=
    scanNext_finished hlinked [] .nil
  exact analyzeFrom_last hstep (.inl rfl) 1

/-- A scan of a linked dictionary without left recursion, the only
primitives of which are character classes, can be restarted from every
boundary; and an analysis behind any step of its run. -/
theorem analyze_restart (hd : d.Built Primitive.IsClass)
    (hlinked : d.state = .linked) (hfree : d.expressions.LeftRecursionFree)
    (text : Text) :
    (∀ p rest, text.after? p = some rest →
        ∃ step, d.scanNext rest 0 = .ok step
          ∧ d.scanNext text p = .ok (step.shift p))
      ∧ ∀ start step p, Relation.ReflTransGen (d.Moves text) 0 start →
        d.scanNext text start = .ok step → step.next = some p →
        ∃ before rest, d.Scans text p before ∧ text.after? p = some rest
          ∧ ((∃ after, d.analyze rest = .ok after
                ∧ d.analyze text = .ok (before ++ after))
            ∨ ∃ offset line column line' column' found,
              d.analyze rest = .error (.unscannable offset line column found)
                ∧ d.analyze text
                  = .error
                    (.unscannable (p + offset) line' column' found)) := by
  have hready :=
    (hd.mono fun _ => Primitive.IsClass.aligned).ready hlinked hfree
  have hwindowed :=
    (hd.mono fun _ => Primitive.IsClass.windowed).sound CharClass.scan_windowed
  constructor
  · intro p rest hafter
    obtain ⟨front, rfl, rfl⟩ := Text.after?_eq_some_iff.1 hafter
    obtain ⟨step, hstep⟩ := hready.scanNext_returns [] rest
    refine ⟨step, hstep, ?_⟩
    rw [hready.scanNext_shift hwindowed]
    exact congrArg (Except.map (Step.shift front.size)) hstep
  · intro start step p hreach hstep hnext
    by_cases hend : step.token.builtin? = some .finished
    · -- nothing is left, and nothing is found there
      obtain ⟨front, rest, before, bound, rfl, rfl, hscans, hbound, hanalyze⟩ :=
        hready.sound.exists_progress hreach
      have hgap : Gap d.retention rest [] := by
        rcases hready.sound.scanNext_cases hstep
          with ⟨p, after, -, hp, rfl⟩ | ⟨hgap, -⟩ | hnone
        · exact absurd hend hp.not_finished
        · exact hgap
        · rw [hnone] at hnext
          cases hnext
      have hlast := scanNext_finished hlinked front hgap
      rw [hstep] at hlast
      obtain rfl := Except.ok.inj hlast
      obtain rfl := Option.some.inj hnext
      have hafter := Text.after?_append (front ++ rest) []
      rw [List.append_nil] at hafter
      obtain ⟨bound, rfl⟩ : ∃ b, bound = b + 1 := ⟨bound - 1, by omega⟩
      refine ⟨before, [], .finished hscans hstep rfl hend, hafter,
        .inl ⟨[], ?_, ?_⟩⟩
      · exact analyze_nil hlinked
      · rw [hanalyze, analyzeFrom_last hstep (.inl rfl)]
        rfl
    · have hmoves : d.Moves text start p := ⟨step, hstep, hnext, hend⟩
      obtain ⟨front, rest, before, bound, rfl, rfl, hscans, hbound, hanalyze⟩ :=
        hready.sound.exists_progress (hreach.tail hmoves)
      refine ⟨before, rest, hscans, Text.after?_append front rest, ?_⟩
      rw [hanalyze]
      rcases hready.analyzeFrom_restart hwindowed front rest hbound
        (Nat.le_refl _)
        with ⟨after, hpart, hwhole⟩ | ⟨offset, line, column, line', column',
          found, hpart, hwhole⟩
      · rw [hwhole]
        exact .inl ⟨after, hpart, rfl⟩
      · rw [hwhole]
        exact .inr ⟨offset, line, column, line', column', found, hpart, rfl⟩

private theorem accented_leftRecursionFree :
    accented.expressions.LeftRecursionFree := by
  apply ExpressionSet.leftRecursionFree_of_rank id
  intro caller callee hcalls
  obtain ⟨e, he, href⟩ := hcalls
  have hcaller : caller < 1 := (Array.getElem?_eq_some_iff.1 he).1
  obtain rfl : caller = 0 := by omega
  have hword : accented.expressions.get? 0
      = some ⟨"word", .sequence [⟨.literal ['é'], true⟩]⟩ := rfl
  rw [hword] at he
  obtain rfl := Option.some.inj he
  simp at href

/-- Behind a word and a figure, a line end and a word are found, as in the
text from there. -/
theorem analyze_restart_accented :
    accented.Built Primitive.IsClass ∧ accented.state = .linked
      ∧ accented.expressions.LeftRecursionFree
      ∧ Relation.ReflTransGen (accented.Moves "é1\n é".toList) 0 2
      ∧ ∃ step, accented.scanNext "é1\n é".toList 2 = .ok step
        ∧ step.next = some 3
        ∧ ∃ before after, accented.Scans "é1\n é".toList 3 before
          ∧ accented.analyze "\n é".toList = .ok after
          ∧ accented.analyze "é1\n é".toList = .ok (before ++ after)
          ∧ before.map (fun s => (s.token.key, s.text))
            = [("word", some "é".toList), ("figure", none)]
          ∧ after.map (fun s => (s.token.key, s.text))
            = [("newline", none), ("word", some "é".toList)] := by
  have hbuilt : accented.Built Primitive.IsClass :=
    accented_built_of ⟨.digit, rfl⟩
  have hreach : Relation.ReflTransGen (accented.Moves "é1\n é".toList) 0 2 :=
    .single ⟨_, rfl, rfl, by decide⟩
  have hpart : (accented.analyze "\n é".toList).toOption.map (·.map fun s =>
    (s.token.key, s.text))
      = some [("newline", none), ("word", some "é".toList)] := rfl
  have hwhole : (accented.analyze "é1\n é".toList).toOption.map
        (·.map fun s => (s.token.key, s.text))
      = some [("word", some "é".toList), ("figure", none), ("newline", none),
          ("word", some "é".toList)] := rfl
  obtain ⟨-, hrestart⟩ :=
    analyze_restart hbuilt rfl accented_leftRecursionFree "é1\n é".toList
  obtain ⟨before, rest, hscans, hafter, hsame⟩ := hrestart 2 _ 3 hreach rfl rfl
  obtain rfl : "\n é".toList = rest := Option.some.inj hafter
  refine ⟨hbuilt, rfl, accented_leftRecursionFree, hreach, _, rfl, rfl, ?_⟩
  rcases hsame with ⟨after, hok, hok'⟩ | ⟨_, _, _, _, _, _, herror, -⟩
  · rw [hok] at hpart
    rw [hok'] at hwhole
    have hkeys : after.map (fun s => (s.token.key, s.text))
        = [("newline", none), ("word", some "é".toList)] :=
          Option.some.inj hpart
    have hall := List.map_append.symm.trans (Option.some.inj hwhole)
    rw [hkeys] at hall
    exact ⟨before, after, hscans, hok, hok',
      List.append_cancel_right hall, hkeys⟩
  · rw [herror] at hpart
    cases hpart

end Dictionary

end Munch
