/-
Which token a scan reports.

A scan goes through the layout that is not kept, up to one place
(`Retention.SkipsTo`). What it reports there is told without the scan: a
unit of layout that is kept, whatever tokens there are; the end of the
text; or else the winner among the tokens that match from there, the one
that was registered first of those that end furthest (`Winner`). No
token is reported only if none ends behind the place. There is one
winner at most, so that is also the converse: the token that wins is the
token that is reported.

Nothing is asked of the matching functions that callers supply but that
matching with them comes to an end. However long it takes, it does so
under some bound on the depth of calls, and the scan is told by what
some bound gives (`Reports`, `Token.Captures`); no fixed bound is large
enough for all of them. A larger bound makes no difference, and under a
smaller one the scan is `endless`
(`Coherent.scanNextWithin_returns_or_endless`).

The main result is `scanNext_longest`.
-/
import Munch.Proofs.Scan.RuleOrder

namespace Munch

-- ============================================================= the place

/-- The layout that is not kept, from an offset on, ends at this place,
and the text goes on from there with `rest`. The end of the text stands
for all offsets past it. -/
structure Retention.SkipsTo (r : Retention) (text : Text) (start stop : Nat)
    (rest : Text) : Prop where
  skipped : ∃ gap, text.after? (min start text.size) = some (gap ++ rest)
    ∧ Gap r gap rest ∧ stop = min start text.size + gap.size
  /-- No layout follows, or a unit that is kept. -/
  ends : Bare rest ∨ ∃ b u after, rest = u ++ after ∧ LayoutUnit b u after
    ∧ r.keeps b = true

namespace Retention

variable {r : Retention} {text rest : Text} {start stop : Nat}

/-- From every boundary, there is such a place. -/
theorem exists_skipsTo (r : Retention)
    (h : text.isBoundary (min start text.size) = true) :
    ∃ stop rest, r.SkipsTo text start stop rest := by
  obtain ⟨tail, htail⟩ := Option.isSome_iff_exists.1 h
  obtain ⟨gap, rest, rfl, hgap, hafter⟩ := exists_gap r tail
  exact ⟨_, rest, ⟨gap, htail, hgap, rfl⟩, hafter⟩

/-- What is behind the place is all that is left of the text. -/
theorem SkipsTo.size (h : r.SkipsTo text start stop rest) :
    stop + rest.size = text.size := by
  obtain ⟨gap, hafter, -, rfl⟩ := h.skipped
  obtain ⟨front, rfl, hfront⟩ := Text.after?_eq_some_iff.1 hafter
  rw [Text.size_append, Text.size_append] at *
  omega

/-- At the place there is a unit of layout that is kept, or the end of the
text, or text without layout. -/
theorem SkipsTo.cases (h : r.SkipsTo text start stop rest) :
    (∃ b u after, rest = u ++ after ∧ LayoutUnit b u after
        ∧ r.keeps b = true)
      ∨ stop = text.size ∨ (Bare rest ∧ stop ≠ text.size) := by
  rcases h.ends with hbare | hkept
  · by_cases hend : stop = text.size
    · exact .inr (.inl hend)
    · exact .inr (.inr ⟨hbare, hend⟩)
  · exact .inl hkept

end Retention

namespace Dictionary

variable {d : Dictionary} {text rest : Text} {start stop : Nat}

/-- Inside a character, no linked dictionary scans. -/
theorem scanNextWithin_notCharBoundary (bound : Nat)
    (hlinked : d.state = .linked)
    (h : text.isBoundary (min start text.size) = false) :
    d.scanNextWithin bound text start = .error (.notCharBoundary start) := by
  have hnone : text.after? (min start text.size) = none := by
    unfold Text.isBoundary at h
    simpa using h
  unfold scanNextWithin
  rw [if_pos hlinked, hnone]

/-- What a linked dictionary reports began at a boundary. -/
theorem Reports.isBoundary {step : Step} (h : d.Reports text start step)
    (hlinked : d.state = .linked) :
    text.isBoundary (min start text.size) = true := by
  by_contra hinside
  obtain ⟨bound, hbound⟩ := h
  rw [scanNextWithin_notCharBoundary bound hlinked
    (Bool.eq_false_iff.2 hinside)] at hbound
  cases hbound

/-- A linked dictionary scans from the place behind the layout. -/
theorem scanNextWithin_skipsTo (bound : Nat) (hlinked : d.state = .linked)
    (h : d.retention.SkipsTo text start stop rest) :
    d.scanNextWithin bound text start
      = match skipLayout d.retention stop rest with
        | .unit b start stop => .ok ⟨start, some stop, b.token⟩
        | .text position [] =>
            .ok ⟨position, some position, Builtin.finished.token⟩
        | .text position (_ :: _) =>
            d.scanTokenWithin bound text position := by
  obtain ⟨gap, hafter, hgap, rfl⟩ := h.skipped
  refine (scanNextWithin_after bound hlinked hafter).trans ?_
  generalize hskip : skipLayout d.retention _ _ = skipped
  rw [skipLayout_gap hgap] at hskip
  subst hskip
  rfl

/-- Where a unit of layout that is kept stands at the place, it is
reported, and no token is tried. -/
theorem scanNextWithin_kept (bound : Nat) (hlinked : d.state = .linked)
    (h : d.retention.SkipsTo text start stop rest) {b : Builtin}
    {u after : Text} (hrest : rest = u ++ after)
    (hunit : LayoutUnit b u after) (hkept : d.retention.keeps b = true) :
    d.scanNextWithin bound text start
      = .ok ⟨stop, some (stop + u.size), b.token⟩ := by
  rw [scanNextWithin_skipsTo bound hlinked h, hrest, skipLayout_unit hunit,
    if_pos hkept]

/-- At the end of the text, that is reported. -/
theorem scanNextWithin_finished (bound : Nat) (hlinked : d.state = .linked)
    (h : d.retention.SkipsTo text start stop rest)
    (hend : stop = text.size) :
    d.scanNextWithin bound text start
      = .ok ⟨stop, some stop, Builtin.finished.token⟩ := by
  have hsize := h.size
  obtain rfl : rest = [] := Text.size_eq_zero_iff.1 (by omega)
  rw [scanNextWithin_skipsTo bound hlinked h]
  rfl

/-- Elsewhere, all tokens are tried. -/
theorem scanNextWithin_bare (bound : Nat) (hlinked : d.state = .linked)
    (h : d.retention.SkipsTo text start stop rest) (hbare : Bare rest)
    (hinside : stop ≠ text.size) :
    d.scanNextWithin bound text start = d.scanTokenWithin bound text stop := by
  rw [scanNextWithin_skipsTo bound hlinked h, skipLayout_bare hbare]
  cases rest with
  | nil => exact absurd h.size hinside
  | cons c rest => rfl

-- ============================================================ the bounds

/-- In a linked dictionary, a token fails to be answered only as the bound
is used up. -/
theorem Coherent.captureWithin_eq_error (hd : d.Coherent)
    (hlinked : d.state = .linked) {t : Token} (ht : t ∈ d.tokens)
    {bound : Nat} {e : Error}
    (h : t.captureWithin d.expressions bound text start = .error e) :
    e = .endless := by
  unfold Token.captureWithin Matcher.captureWithin at h
  split at h
  · rename_i index hm
    obtain ⟨ex, hex, -⟩ := hd.matchers t ht index hm
    exact captureWithin_endless (hd.resolved hlinked) text _ _ index start e
      (ExpressionSet.lt_size_of_get? hex) h
  · cases h
  · cases h

/-- From a boundary, a linked dictionary takes a step under each bound, or
uses the bound up. -/
theorem Coherent.scanNextWithin_returns_or_endless (hd : d.Coherent)
    (hlinked : d.state = .linked)
    (hstart : text.isBoundary (min start text.size) = true) (bound : Nat) :
    d.scanNextWithin bound text start = .error .endless
      ∨ ∃ step, d.scanNextWithin bound text start = .ok step := by
  obtain ⟨rest, hrest⟩ := Option.isSome_iff_exists.1 hstart
  rw [scanNextWithin_after bound hlinked hrest]
  split
  · exact .inr ⟨_, rfl⟩
  · exact .inr ⟨_, rfl⟩
  · rename_i position c after hskip
    cases hscan : d.scanTokenWithin bound text position with
    | ok step => exact .inr ⟨step, rfl⟩
    | error e =>
        obtain ⟨t, ht, he⟩ := exists_of_scanTokenWithin_error hscan
        obtain rfl := hd.captureWithin_eq_error hlinked ht he
        exact .inl rfl

-- ========================================================= the selection

/-- Where every token comes to an answer, the scan comes to one step, and
the token that it reports is the winner, if some token ends behind the
place. -/
theorem reports_iff_winner {position : Nat}
    (hscan : ∀ bound, d.scanNextWithin bound text start
      = d.scanTokenWithin bound text position)
    (hanswers : ∀ t ∈ d.tokens,
      ∃ answer, t.Captures d.expressions text position answer) :
    (∃! step, d.Reports text start step)
      ∧ (∀ stop t, d.Reports text start ⟨position, some stop, t⟩
        ↔ position < stop ∧ d.Winner text position stop t)
      ∧ (d.Reports text start ⟨position, none, Builtin.reserved.token⟩
        ↔ ∀ t ∈ d.tokens, ∀ stop,
            t.Captures d.expressions text position (some stop) →
            stop ≤ position) := by
  obtain ⟨bound, step, hstep⟩ := exists_scanTokenWithin_iff.2 hanswers
  have hreports : d.Reports text start step :=
    ⟨bound, (hscan bound).trans hstep⟩
  refine ⟨⟨step, hreports, fun step' h => h.unique hreports⟩, ?_⟩
  rcases scanTokenWithin_of_ok hstep
    with ⟨rfl, hshort⟩ | ⟨stop, t, rfl, hlt, hwins⟩
  · refine ⟨fun stop t => iff_of_false (fun h => ?_) ?_,
      iff_of_true hreports hshort⟩
    · cases h.unique hreports
    · intro ⟨hlt, hwins⟩
      have hle := hshort t hwins.longest.registered stop hwins.longest.reaches
      omega
  · refine ⟨fun stop' t' => ⟨fun h => ?_, fun h => ?_⟩,
      iff_of_false (fun h => ?_) fun hshort => ?_⟩
    · cases h.unique hreports
      exact ⟨hlt, hwins⟩
    · obtain ⟨rfl, rfl⟩ := hwins.unique h.2
      exact hreports
    · cases h.unique hreports
    · have hle := hshort t hwins.longest.registered stop hwins.longest.reaches
      omega

/-- From a boundary, a linked dictionary reports the unit of layout that
is kept, or the end of the text, or, matching coming to an end, the token
registered first of those that end furthest; and the sentinel exactly
where no token ends behind the place. -/
theorem scanNext_longest (hd : d.Built fun _ => True)
    (hlinked : d.state = .linked)
    (hstart : text.isBoundary (min start text.size) = true) :
    (∀ bound, d.scanNextWithin bound text start = .error .endless
        ∨ ∃ step, d.scanNextWithin bound text start = .ok step)
      ∧ (∃ q rest, d.retention.SkipsTo text start q rest)
      ∧ ∀ q rest, d.retention.SkipsTo text start q rest →
        -- a unit that is kept, whatever the tokens are
        (∀ b u after, rest = u ++ after → LayoutUnit b u after →
          d.retention.keeps b = true → ∀ tokens expressions bound,
            ({ d with tokens, expressions } : Dictionary).scanNextWithin
                bound text start
              = .ok ⟨q, some (q + u.size), b.token⟩)
        ∧ (q = text.size → ∀ bound, d.scanNextWithin bound text start
            = .ok ⟨q, some q, Builtin.finished.token⟩)
        -- neither of them
        ∧ ((¬ ∃ b u after, rest = u ++ after ∧ LayoutUnit b u after
              ∧ d.retention.keeps b = true) → q ≠ text.size →
          (∀ t ∈ d.tokens, ∃ a, t.Captures d.expressions text q a) →
          (∃! step, d.Reports text start step)
            ∧ (∀ stop t, d.Reports text start ⟨q, some stop, t⟩
              ↔ q < stop ∧ d.Winner text q stop t)
            ∧ (d.Reports text start ⟨q, none, Builtin.reserved.token⟩
              ↔ ∀ t ∈ d.tokens, ∀ stop,
                  t.Captures d.expressions text q (some stop) →
                  stop ≤ q)) := by
  refine ⟨hd.coherent.scanNextWithin_returns_or_endless hlinked hstart,
    d.retention.exists_skipsTo hstart, fun q rest h => ⟨?_, ?_, ?_⟩⟩
  · intro b u after hrest hunit hkept tokens expressions bound
    exact scanNextWithin_kept (d := { d with tokens, expressions }) bound
      hlinked h hrest hunit hkept
  · exact fun hend bound => scanNextWithin_finished bound hlinked h hend
  · intro hunkept hinside hanswers
    have hbare : Bare rest := h.ends.resolve_right hunkept
    exact reports_iff_winner
      (fun bound => scanNextWithin_bare bound hlinked h hbare hinside) hanswers

/-- A matching function that leaves its range: whatever the text, it goes
on by one up to the hundredth offset. -/
def climb : Primitive := fun _ start _ =>
  if start < 100 then some (start + 1) else none

/-- A token that goes on by one, and one that repeats it. -/
def climbing : Dictionary :=
  ((empty.register { key := "P", body := .primitive climb }).1.register
    { key := "A", body := .rule "P*".toList }).1.link.1

/-- Behind a space, the repetition goes on far past the end of the text,
and wins. -/
theorem scanNext_longest_climbing :
    climbing.Built (fun _ => True) ∧ climbing.state = .linked
      ∧ Text.isBoundary " x".toList (min 0 (Text.size " x".toList)) = true
      ∧ climbing.retention.SkipsTo " x".toList 0 1 "x".toList
      ∧ (∀ t ∈ climbing.tokens,
          ∃ a, t.Captures climbing.expressions " x".toList 1 a)
      ∧ ∃ t, climbing.Reports " x".toList 0 ⟨1, some 100, t⟩ ∧ t.key = "A"
          ∧ climbing.Winner " x".toList 1 100 t := by
  have hbuilt : climbing.Built fun _ => True :=
    .link (.register (.register .empty _ fun _ _ => trivial) _
      fun _ _ => trivial)
  have hlinked : climbing.state = .linked := by cbv
  have hstart : Text.isBoundary " x".toList
      (min 0 (Text.size " x".toList)) = true := by
    decide
  have hretention : climbing.retention = {} := by
    cbv
  have hplace : climbing.retention.SkipsTo " x".toList 0 1 "x".toList := by
    refine ⟨⟨" ".toList, by decide, ?_, by decide⟩, .inl fun c hc => ?_⟩
    · rw [hretention]
      exact .unit (.other (by decide) (by decide)) rfl .nil
    · cases hc
      decide
  have hscan : climbing.scanNextWithin 110 " x".toList 0
      = .ok ⟨1, some 100, ⟨"A", 1, .expression 0, false⟩⟩ := by
    cbv
  have hbare : ¬ ∃ b u after, "x".toList = u ++ after ∧ LayoutUnit b u after
      ∧ climbing.retention.keeps b = true := by
    intro hunit
    obtain ⟨b, -, -, -, -, hkept⟩ := hunit
    rw [hretention] at hkept
    cases b <;> cases hkept
  have hplaced : climbing.scanTokenWithin 110 " x".toList 1
      = .ok ⟨1, some 100, ⟨"A", 1, .expression 0, false⟩⟩ := by
    cbv
  have hanswers : ∀ t ∈ climbing.tokens,
      ∃ a, t.Captures climbing.expressions " x".toList 1 a := by
    intro t ht
    obtain ⟨a, ha⟩ := scanTokenWithin_answered hplaced t ht
    exact ⟨a, 110, ha⟩
  obtain ⟨-, -, hselects⟩ := scanNext_longest hbuilt hlinked hstart
  obtain ⟨-, -, hwinner⟩ := hselects 1 _ hplace
  obtain ⟨-, hwins, -⟩ := hwinner hbare (by decide) hanswers
  have hreports : climbing.Reports " x".toList 0
      ⟨1, some 100, ⟨"A", 1, .expression 0, false⟩⟩ :=
    ⟨110, hscan⟩
  exact ⟨hbuilt, hlinked, hstart, hplace, hanswers, _, hreports, rfl,
    ((hwins _ _).1 hreports).2⟩

end Dictionary

end Munch
