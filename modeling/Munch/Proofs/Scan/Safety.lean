/-
What can go wrong in scanning with a linked dictionary, and nothing else
can.

A step fails only where it is to begin inside a character
(`Ready.scanNext_eq_error_iff`). An analysis takes steps one after
another, from the beginning of the text (`Dictionary.Moves`), and fails
only at a place that such a run reaches and where no token goes on
(`Dictionary.Blocked`); then it says where that is and what it found
there.

A step of the run moves on by at least a byte, from one character
boundary to another, so the bound that an analysis sets to itself is
never used up. One such step either leads to the next place, is at the
end, or is blocked, and these exclude each other; the induction over the
bound (`Ready.analyzeFrom_eq_error_iff`) only has to tell them apart.

The main result is `scan_safe`.
-/
import Mathlib.Algebra.Module.Submodule.Lattice
import Munch.Proofs.Scan.Lossless
import Munch.Proofs.Scan.Selection
import Munch.Proofs.Text.Positions

namespace Munch

namespace Piece

variable {d : Dictionary} {p : Piece}

/-- A step that takes a piece leads behind it. -/
theorem step_next (p : Piece) (front : Text) :
    (p.step front.size).next = some (Text.size (front ++ p.written)) := by
  rw [Text.size_append, p.size_written, ← Nat.add_assoc]
  rfl

/-- A piece that is found takes some of the text. -/
theorem Found.size_pos {rest : Text} (h : p.Found d rest) :
    0 < p.written.size := by
  have hmatched : p.matched.size ≠ 0 :=
    fun hzero => h.filled (Text.size_eq_zero_iff.1 hzero)
  rw [p.size_written]
  omega

end Piece

namespace Dictionary

variable {d : Dictionary} {text : Text}

-- ================================================================== places

/-- A step of a run over a text: it leads on, and not because the text is
at its end. -/
def Moves (d : Dictionary) (text : Text) (start next : Nat) : Prop :=
  ∃ step, d.scanNext text start = .ok step ∧ step.next = some next
    ∧ step.token.builtin? ≠ some .finished

/-- Behind `front`, and behind a gap of layout that is not kept, stands a
character that is not layout, from which no token goes on. -/
structure Blocked (d : Dictionary) (front gap : Text) (found : Char)
    (after : Text) :
    Prop where
  skipped : Gap d.retention gap (found :: after)
  visible : isBlank found = false
  unmatched : ∀ t ∈ d.tokens, ∀ stop,
    t.Captures d.expressions (front ++ (gap ++ found :: after))
      (front ++ gap).size (some stop) → stop ≤ (front ++ gap).size

/-- The failure of an analysis that is blocked. -/
def blockedError (front gap : Text) (found : Char) : Error :=
  .unscannable (front ++ gap).size ((front ++ gap).count '\n' + 1)
    (((front ++ gap).reverse.takeWhile (· ≠ '\n')).length + 1) found

/-- The failure behind a gap names its place and the character there. -/
theorem unscannableAt_append (front gap after : Text) (found : Char) :
    unscannableAt (front ++ (gap ++ found :: after)) (front ++ gap).size
      = blockedError front gap found := by
  unfold unscannableAt
  rw [← List.append_assoc, Position.ofOffset?_append, Text.after?_append,
    Position.after_eq]
  rfl

/-- Behind a gap there is a boundary. -/
theorem isBoundary_gap (front gap rest : Text) :
    Text.isBoundary (front ++ (gap ++ rest)) (front ++ gap).size = true :=
  Text.isBoundary_iff.2 ⟨front ++ gap, rest, (List.append_assoc ..).symm, rfl⟩

-- =============================================================== one step

namespace Ready

variable (hd : d.Ready)

include hd

/-- A step fails exactly where it begins inside a character. -/
theorem scanNext_eq_error_iff {start : Nat} {e : Error} :
    d.scanNext text start = .error e
      ↔ e = .notCharBoundary start ∧ start < text.size
        ∧ text.isBoundary start = false := by
  by_cases hpast : text.size ≤ start
  · -- the end of the text stands for all offsets past it
    have hend : d.scanNext text start = d.scanNext (text ++ []) text.size := by
      unfold scanNext scanNextWithin
      rw [List.append_nil, Nat.min_eq_right hpast, Nat.min_self]
      by_cases hlinked : d.state = .linked
      · simp [hlinked, Text.after?_eq_some_iff.2 ⟨text,
          (List.append_nil text).symm, rfl⟩]
      · exact absurd hd.linked hlinked
    obtain ⟨step, hstep⟩ := hd.scanNext_returns text []
    rw [hend, hstep]
    simp only [reduceCtorEq, false_iff, not_and]
    intro _ hlt
    omega
  · have hlt : start < text.size := Nat.not_le.1 hpast
    cases hboundary : text.isBoundary start with
    | true =>
        obtain ⟨front, rest, rfl, rfl⟩ := Text.isBoundary_iff.1 hboundary
        obtain ⟨step, hstep⟩ := hd.scanNext_returns front rest
        simp [hstep]
    | false =>
        have hnone : text.after? start = none := by
          unfold Text.isBoundary at hboundary
          simpa using hboundary
        have hfails : d.scanNext text start
            = .error (.notCharBoundary start) := by
          unfold scanNext scanNextWithin
          rw [if_pos hd.linked, Nat.min_eq_left (Nat.le_of_lt hlt), hnone]
        rw [hfails]
        simp only [Except.error.injEq, hlt, and_true]
        exact eq_comm

/-- A scan that is blocked finds nothing. -/
theorem scanNext_blocked {front gap after : Text} {found : Char}
    (h : d.Blocked front gap found after) :
    d.scanNext (front ++ (gap ++ found :: after)) front.size
      = .ok ⟨(front ++ gap).size, none, Builtin.reserved.token⟩ := by
  rw [scanNext_gap hd.linked h.skipped h.visible]
  rcases scanToken_cases fun t ht =>
      hd.capture_returns ht (isBoundary_gap front gap (found :: after))
    with ⟨hnone, -⟩ | ⟨stop, t, -, hlt, hlongest⟩
  · exact hnone
  · have := h.unmatched t hlongest.registered stop hlongest.reaches
    omega

/-- A scan that finds nothing is blocked. -/
theorem blocked_of_next_none {front rest : Text} {step : Step}
    (h : d.scanNext (front ++ rest) front.size = .ok step)
    (hnext : step.next = none) :
    ∃ gap found after, rest = gap ++ found :: after
      ∧ d.Blocked front gap found after
      ∧ step.start = (front ++ gap).size := by
  rw [scanNext_append hd.linked] at h
  split at h
  · obtain rfl := Except.ok.inj h
    cases hnext
  · obtain rfl := Except.ok.inj h
    cases hnext
  · rename_i position found after hlead
    obtain ⟨gap, rfl, hgap, hbare, rfl⟩ := skipLayout_eq_text_iff.1 hlead
    rw [← Text.size_append] at h
    rcases scanToken_cases fun t ht =>
        hd.capture_returns ht (isBoundary_gap front gap (found :: after))
      with ⟨hnone, hshort⟩ | ⟨stop, t, hsome, -⟩
    · rw [hnone] at h
      obtain rfl := Except.ok.inj h
      exact ⟨gap, found, after, rfl, ⟨hgap, hbare found rfl, hshort⟩, rfl⟩
    · rw [hsome] at h
      obtain rfl := Except.ok.inj h
      cases hnext

end Ready

-- =============================================================== all steps

/-- A run from a place reaches one where it is blocked, with this
failure. -/
def Stops (d : Dictionary) (text : Text) (start : Nat) (e : Error) : Prop :=
  ∃ front gap found after, text = front ++ (gap ++ found :: after)
    ∧ Relation.ReflTransGen (d.Moves text) start front.size
    ∧ d.Blocked front gap found after ∧ e = blockedError front gap found

/-- Behind a step that takes a piece, an analysis goes on. -/
theorem analyzeFrom_piece {front after : Text} {p : Piece}
    (hgoes : p.token.builtin? ≠ some .finished)
    (h : d.scanNext (front ++ (p.written ++ after)) front.size
      = .ok (p.step front.size)) (bound : Nat) :
    d.analyzeFrom (front ++ (p.written ++ after)) (bound + 1) front.size
      = match d.analyzeFrom (front ++ (p.written ++ after)) bound
          (front ++ p.written).size with
        | .error e => .error e
        | .ok rest => .ok (p.scanned :: rest) := by
  have hmore : (p.step front.size).token.builtin? ≠ some .finished := hgoes
  have hscanned := p.scanned_step front after
  rw [Nat.add_assoc, ← p.size_written, ← Text.size_append] at hscanned
  rw [analyzeFrom, h]
  simp only [p.step_next]
  rewrite [if_neg hmore, hscanned]
  rfl

namespace Ready

variable (hd : d.Ready)

include hd

/-- A run stops at its beginning, where it finds nothing, or behind its
first step. -/
theorem stops_cases {start : Nat} {e : Error} (h : d.Stops text start e) :
    (∃ position, d.scanNext text start = .ok ⟨position, none,
      Builtin.reserved.token⟩
        ∧ e = unscannableAt text position)
      ∨ ∃ next, d.Moves text start next ∧ d.Stops text next e := by
  obtain ⟨front, gap, found, after, rfl, hreach, hblocked, rfl⟩ := h
  rcases hreach.cases_head with rfl | ⟨next, hfirst, hlater⟩
  · exact .inl ⟨_, hd.scanNext_blocked hblocked, (unscannableAt_append ..).symm⟩
  · exact .inr ⟨next, hfirst, front, gap, found, after, rfl, hlater,
      hblocked, rfl⟩

/-- A run that goes on stops where the rest of it does. -/
theorem stops_iff_of_moves {start next : Nat} {e : Error}
    (h : d.Moves text start next) :
    d.Stops text start e ↔ d.Stops text next e := by
  constructor
  · intro hstops
    obtain ⟨step, hstep, hnext, -⟩ := h
    rcases hd.stops_cases hstops
      with ⟨position, hnone, -⟩ | ⟨next', ⟨step', hstep', hnext', -⟩, hlater⟩
    · rw [hnone] at hstep
      obtain rfl := Except.ok.inj hstep
      cases hnext
    · rw [hstep'] at hstep
      obtain rfl := Except.ok.inj hstep
      rw [hnext'] at hnext
      obtain rfl := Option.some.inj hnext
      exact hlater
  · rintro ⟨front, gap, found, after, htext, hreach, hblocked, he⟩
    exact ⟨front, gap, found, after, htext, .head h hreach, hblocked, he⟩

/-- At the end of the text a run does not stop. -/
theorem not_stops_of_finished {start : Nat} {step : Step} {e : Error}
    (h : d.scanNext text start = .ok step)
    (hend : step.token = Builtin.finished.token) : ¬ d.Stops text start e := by
  intro hstops
  rcases hd.stops_cases hstops
    with ⟨position, hnone, -⟩ | ⟨next, ⟨step', hstep', -, hgoes⟩, -⟩
  · rw [hnone] at h
    obtain rfl := Except.ok.inj h
    have hbuiltin := congrArg Token.builtin? hend
    simp at hbuiltin
  · rw [hstep'] at h
    obtain rfl := Except.ok.inj h
    rw [hend, Builtin.builtin?_token] at hgoes
    exact hgoes rfl

/-- Where a step finds nothing, a run stops with just that failure. -/
theorem stops_iff_of_next_none {front rest : Text} {step : Step} {e : Error}
    (h : d.scanNext (front ++ rest) front.size = .ok step)
    (hnext : step.next = none) :
    d.Stops (front ++ rest) front.size e
      ↔ unscannableAt (front ++ rest) step.start = e := by
  constructor
  · intro hstops
    rcases hd.stops_cases hstops
      with ⟨position, hnone, rfl⟩ | ⟨next, ⟨step', hstep', hnext', -⟩, -⟩
    · rw [hnone] at h
      obtain rfl := Except.ok.inj h
      rfl
    · rw [hstep'] at h
      obtain rfl := Except.ok.inj h
      rw [hnext'] at hnext
      cases hnext
  · rintro rfl
    obtain ⟨gap, found, after, rfl, hblocked, hstart⟩ :=
      hd.blocked_of_next_none h hnext
    refine ⟨front, gap, found, after, rfl, .refl, hblocked, ?_⟩
    rw [hstart, unscannableAt_append]

/-- An analysis that goes on from a boundary fails exactly where its run
stops. -/
theorem analyzeFrom_eq_error_iff {bound : Nat} (front rest : Text) {e : Error}
    (hbound : rest.size + 2 ≤ bound) :
    d.analyzeFrom (front ++ rest) bound front.size = .error e
      ↔ d.Stops (front ++ rest) front.size e := by
  induction bound generalizing front rest with
  | zero => omega
  | succ bound ih =>
      obtain ⟨step, hstep⟩ := hd.scanNext_returns front rest
      cases hnext : step.next with
      | none =>
          rw [analyzeFrom, hstep]
          simp only [hnext, Except.error.injEq]
          exact (hd.stops_iff_of_next_none hstep hnext).symm
      | some next =>
          rcases hd.sound.scanNext_cases hstep
            with ⟨p, after, rfl, hp, rfl⟩ | ⟨-, hend⟩ | hnone
          · -- the step takes a piece, and the run goes on behind it
            have hpos := hp.size_pos
            have hmoves : d.Moves (front ++ (p.written ++ after)) front.size
                (Text.size (front ++ p.written)) :=
              ⟨_, hstep, p.step_next front, hp.not_finished⟩
            have hrest := ih (front ++ p.written) after (by
              rw [Text.size_append] at hbound
              omega)
            rw [List.append_assoc] at hrest
            rw [analyzeFrom_piece hp.not_finished hstep,
              hd.stops_iff_of_moves hmoves, ← hrest]
            cases d.analyzeFrom (front ++ (p.written ++ after)) bound
              (Text.size (front ++ p.written)) with
            | error e' => rfl
            | ok tokens => simp
          · have hbuiltin : step.token.builtin? = some .finished := by
              rw [hend, Builtin.builtin?_token]
            rw [analyzeFrom, hstep]
            simp only [hnext, hbuiltin, if_true, reduceCtorEq, false_iff]
            exact hd.not_stops_of_finished hstep hend
          · rw [hnone] at hnext
            cases hnext

end Ready

-- ==================================================================== safety

/-- With a linked dictionary without left recursion, whose primitives
answer boundaries with boundaries, a step fails only where it begins
inside a character, and an analysis only where its run is blocked. -/
theorem scan_safe (hd : d.Built Primitive.Aligned) (hlinked : d.state = .linked)
    (hfree : d.expressions.LeftRecursionFree) (text : Text) :
    (∀ start e, d.scanNext text start = .error e
        ↔ e = .notCharBoundary start ∧ start < text.size
          ∧ text.isBoundary start = false)
      ∧ ∀ e, d.analyze text = .error e
        ↔ ∃ front gap found after, text = front ++ (gap ++ found :: after)
          ∧ Relation.ReflTransGen (d.Moves text) 0 front.size
          ∧ d.Blocked front gap found after
          ∧ e = .unscannable (front ++ gap).size ((front ++ gap).count '\n' + 1)
              (((front ++ gap).reverse.takeWhile (· ≠ '\n')).length + 1)
              found := by
  have hready := hd.ready hlinked hfree
  constructor
  · exact fun start e => hready.scanNext_eq_error_iff
  · intro e
    exact hready.analyzeFrom_eq_error_iff [] text (Nat.le_refl (text.size + 2))

/-- Figures, and names of letters with names behind hyphens: a rule for a
name that comes back to itself, though not before a letter. -/
def hyphenated : Dictionary :=
  ((empty.register ⟨"Figure", .primitive CharClass.digit.scan,
    false⟩).1.importLines
    ["Name -> letter Tail*".toList, "Tail -> \"-\" Name".toList]).1.link.1

/-- The dictionary is built from rules. -/
theorem hyphenated_built : hyphenated.Built Primitive.Aligned := by
  refine .link (.importLines (.register .empty _ fun scan hscan => ?_) _)
  obtain rfl := TokenBody.primitive.inj hscan
  exact CharClass.digit.scan_aligned

/-- A name begins with a letter, and a tail with a dash. -/
theorem hyphenated_leftRecursionFree :
    hyphenated.expressions.LeftRecursionFree := by
  have hexpressions : hyphenated.expressions.expressions = #[
      ⟨"Name", .sequence
        [⟨.reference "letter" (some (.primitive CharClass.letter.scan)), false⟩,
        ⟨.reference "Tail" (some (.expression 1)), true⟩]⟩,
      ⟨"Tail", .sequence [⟨.literal ['-'], false⟩,
        ⟨.reference "Name" (some (.expression 0)), false⟩]⟩] := by
    cbv
  apply ExpressionSet.leftRecursionFree_of_rank (2 - ·)
  intro caller callee hcalls
  obtain ⟨e, he, href⟩ := hcalls
  unfold ExpressionSet.get? at he
  rw [hexpressions] at he
  have hcaller : caller < 2 := (Array.getElem?_eq_some_iff.1 he).1
  have hcases : caller = 0 ∨ caller = 1 := by omega
  rcases hcases with rfl | rfl
  · obtain rfl := Option.some.inj he
    simp at href
    rw [← href.2]
    decide
  · obtain rfl := Option.some.inj he
    simp at href

/-- A step from inside a character, and an analysis that comes to a sign
no rule has, behind a name, a line end, layout and a figure. -/
theorem scan_safe_hyphenated :
    hyphenated.Built Primitive.Aligned ∧ hyphenated.state = .linked
      ∧ hyphenated.expressions.LeftRecursionFree
      ∧ hyphenated.scanNext "é-b\n 1\t?".toList 1 = .error (.notCharBoundary 1)
      ∧ hyphenated.analyze "é-b\n 1\t?".toList = .error (.unscannable 8 2 4 '?')
      ∧ ∃ front gap found after,
        "é-b\n 1\t?".toList = front ++ (gap ++ found :: after)
        ∧ Relation.ReflTransGen (hyphenated.Moves "é-b\n 1\t?".toList)
            0 front.size
        ∧ hyphenated.Blocked front gap found after
        ∧ Error.unscannable 8 2 4 '?' = .unscannable (front ++ gap).size
            ((front ++ gap).count '\n' + 1)
            (((front ++ gap).reverse.takeWhile (· ≠ '\n')).length + 1)
            found := by
  have hlinked : hyphenated.state = .linked := by cbv
  have hfails : hyphenated.analyze "é-b\n 1\t?".toList
      = .error (.unscannable 8 2 4 '?') := by
    cbv
  obtain ⟨hsteps, hanalysis⟩ := scan_safe hyphenated_built hlinked
    hyphenated_leftRecursionFree "é-b\n 1\t?".toList
  refine ⟨hyphenated_built, hlinked, hyphenated_leftRecursionFree, ?_,
    hfails, ?_⟩
  · exact (hsteps 1 _).2 ⟨rfl, by decide, by decide⟩
  · exact (hanalysis _).1 hfails

end Dictionary

end Munch
