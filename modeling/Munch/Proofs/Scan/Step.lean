/-
What one step of a scan can be.

A registered token that is found ends behind its start, within the text
and on a character boundary, provided the matching functions at hand
answer so (`Sound.capture_aligned`, through the semantics of trees). It
is the token of its list that ends furthest (`longest_cases`).
`scanNext_cases` lists the steps that a scan can take from a boundary: a
unit of layout that is kept, the end of the text, a registered token, or
nothing.
-/
import Munch.Proofs.Dictionary.Built
import Munch.Proofs.Expr.Range
import Munch.Proofs.Scan.Layout
import Munch.Scan.Step

namespace Munch

variable {d : Dictionary} {text : Text}

-- ============================================================ candidates

section Longest

variable {answer : Token → Answer} {reach stop : Nat} {t : Token}
  {ts : List Token}

/-- None of the tokens ends behind an offset. -/
def NoneBehind (answer : Token → Answer) (ts : List Token) (reach : Nat) :
    Prop :=
  ∀ t ∈ ts, ∀ stop, answer t = .ok (some stop) → stop ≤ reach

/-- A token that does not match changes nothing. -/
private theorem NoneBehind.cons_none (h : NoneBehind answer ts reach)
    (ht : answer t = .ok none) : NoneBehind answer (t :: ts) reach := by
  refine List.forall_mem_cons.2 ⟨fun stop hstop => ?_, h⟩
  rw [ht] at hstop
  cases hstop

/-- Nor does one that does not end behind the offset. -/
private theorem NoneBehind.cons_some (h : NoneBehind answer ts reach)
    (ht : answer t = .ok (some stop)) (hle : stop ≤ reach) :
    NoneBehind answer (t :: ts) reach := by
  refine List.forall_mem_cons.2 ⟨fun stop' hstop' => ?_, h⟩
  rw [ht] at hstop'
  obtain rfl := Option.some.inj (Except.ok.inj hstop')
  exact hle

/-- No token in the list ends behind the reach, and what there was before
is found, or a token is found that does. None ends behind that one, and
those before it in the list end before it. -/
theorem longest_first {best found : Option (Nat × Token)}
    (h : longest answer reach best ts = .ok found) :
    (found = best ∧ NoneBehind answer ts reach)
      ∨ ∃ stop t before after, found = some (stop, t)
        ∧ ts = before ++ t :: after
          ∧ answer t = .ok (some stop) ∧ reach < stop
            ∧ NoneBehind answer ts stop
          ∧ ∀ t' ∈ before, ∀ stop', answer t' = .ok (some stop') →
            stop' < stop := by
  induction ts generalizing reach best with
  | nil =>
      exact .inl ⟨(Except.ok.inj h).symm, fun t ht =>
        absurd ht List.not_mem_nil⟩
  | cons t rest ih =>
      unfold longest at h
      split at h
      · cases h
      · rename_i ha
        rcases ih h with ⟨hfound, hshort⟩
          | ⟨stop, t', before, after, hfound, hsplit, ha', hlt, hmax, hbefore⟩
        · exact .inl ⟨hfound, hshort.cons_none ha⟩
        · refine .inr ⟨stop, t', t :: before, after, hfound, by
            rw [hsplit]; rfl, ha', hlt,
            hmax.cons_none ha, List.forall_mem_cons.2 ⟨fun stop' hstop' => ?_,
              hbefore⟩⟩
          rw [ha] at hstop'
          cases hstop'
      · rename_i stop ha
        by_cases hlonger : reach < stop
        · -- the token is the one to beat
          rw [if_pos hlonger] at h
          rcases ih h with ⟨hfound, hshort⟩
            | ⟨stop', t', before, after, hfound, hsplit, ha', hlt, hmax,
              hbefore⟩
          · exact .inr ⟨stop, t, [], rest, hfound, rfl, ha, hlonger,
              hshort.cons_some ha (Nat.le_refl stop),
                fun t' ht' => absurd ht' List.not_mem_nil⟩
          · refine .inr ⟨stop', t', t :: before, after, hfound, by
              rw [hsplit]; rfl, ha',
              Nat.lt_trans hlonger hlt, hmax.cons_some ha (Nat.le_of_lt hlt),
              List.forall_mem_cons.2 ⟨fun other hother => ?_, hbefore⟩⟩
            rw [ha] at hother
            obtain rfl := Option.some.inj (Except.ok.inj hother)
            exact hlt
        · rw [if_neg hlonger] at h
          have hle : stop ≤ reach := Nat.not_lt.1 hlonger
          rcases ih h with ⟨hfound, hshort⟩
            | ⟨stop', t', before, after, hfound, hsplit, ha', hlt, hmax,
              hbefore⟩
          · exact .inl ⟨hfound, hshort.cons_some ha hle⟩
          · have hlate : stop < stop' := Nat.lt_of_le_of_lt hle hlt
            refine .inr ⟨stop', t', t :: before, after, hfound, by
              rw [hsplit]; rfl, ha', hlt,
              hmax.cons_some ha (Nat.le_of_lt hlate),
              List.forall_mem_cons.2 ⟨fun other hother => ?_, hbefore⟩⟩
            rw [ha] at hother
            obtain rfl := Option.some.inj (Except.ok.inj hother)
            exact hlate

/-- The token that is found is one of the list, and none ends behind it. -/
theorem longest_cases {best found : Option (Nat × Token)}
    (h : longest answer reach best ts = .ok found) :
    (found = best ∧ NoneBehind answer ts reach)
      ∨ ∃ stop t, found = some (stop, t) ∧ t ∈ ts ∧ answer t = .ok (some stop)
          ∧ reach < stop ∧ NoneBehind answer ts stop := by
  rcases longest_first h
    with hnone | ⟨stop, t, before, after, hfound, hsplit, ha, hlt, hmax, -⟩
  · exact .inl hnone
  · have ht : t ∈ ts := by
      rw [hsplit]
      exact List.mem_append_cons_self
    exact .inr ⟨stop, t, hfound, ht, ha, hlt, hmax⟩

/-- Tokens can be compared only if they are all answered. -/
theorem longest_answered {best found : Option (Nat × Token)}
    (h : longest answer reach best ts = .ok found) :
    ∀ t ∈ ts, ∃ a, answer t = .ok a := by
  induction ts generalizing reach best with
  | nil => exact fun t ht => absurd ht List.not_mem_nil
  | cons t rest ih =>
      unfold longest at h
      split at h
      · cases h
      · rename_i ha
        exact List.forall_mem_cons.2 ⟨⟨_, ha⟩, ih h⟩
      · rename_i stop ha
        by_cases hlonger : reach < stop
        · rw [if_pos hlonger] at h
          exact List.forall_mem_cons.2 ⟨⟨_, ha⟩, ih h⟩
        · rw [if_neg hlonger] at h
          exact List.forall_mem_cons.2 ⟨⟨_, ha⟩, ih h⟩

/-- A comparison fails only as one of the tokens does. -/
theorem exists_of_longest_error {best : Option (Nat × Token)} {e : Error}
    (h : longest answer reach best ts = .error e) :
    ∃ t ∈ ts, answer t = .error e := by
  induction ts generalizing reach best with
  | nil => cases h
  | cons t rest ih =>
      have hlater : (∃ t' ∈ rest, answer t' = .error e) →
          ∃ t' ∈ t :: rest, answer t' = .error e :=
        fun ⟨t', ht', he⟩ => ⟨t', List.mem_cons_of_mem t ht', he⟩
      unfold longest at h
      split at h
      · rename_i e' ha
        obtain rfl := Except.error.inj h
        exact ⟨t, List.mem_cons_self, ha⟩
      · exact hlater (ih h)
      · split at h
        · exact hlater (ih h)
        · exact hlater (ih h)

/-- Tokens that are all answered can be compared. -/
theorem longest_returns (reach : Nat) (best : Option (Nat × Token))
    (h : ∀ t ∈ ts, ∃ a, answer t = .ok a) :
    ∃ found, longest answer reach best ts = .ok found := by
  induction ts generalizing reach best with
  | nil => exact ⟨best, rfl⟩
  | cons t rest ih =>
      obtain ⟨⟨a, ha⟩, hrest⟩ := List.forall_mem_cons.1 h
      unfold longest
      rw [ha]
      cases a with
      | none => exact ih _ _ hrest
      | some stop =>
          by_cases hlonger : reach < stop
          · simp only [if_pos hlonger]
            exact ih _ _ hrest
          · simp only [if_neg hlonger]
            exact ih _ _ hrest

end Longest

namespace Dictionary

/-- A token that starts at a boundary ends at one, in the text. -/
theorem Sound.capture_aligned (hd : d.Sound Primitive.Aligned) {t : Token}
    (ht : t ∈ d.tokens) {start stop : Nat}
    (hstart : text.isBoundary start = true)
    (h : t.capture d.expressions text start = .ok (some stop)) :
    start ≤ stop ∧ stop ≤ text.size ∧ text.isBoundary stop = true := by
  have hle := Text.le_size_of_isBoundary hstart
  have hsize := Text.isBoundary_size text
  unfold Token.capture Token.captureWithin Matcher.captureWithin at h
  split at h
  · rename_i index hindex
    unfold ExpressionSet.captureBounded at h
    rw [Nat.min_self] at h
    obtain ⟨e, he, hderives⟩ := captureWithin_sound _ _ _ _ _ _ _ h
    exact hderives.isBoundary hd.expressions
      (hd.expressions e (ExpressionSet.mem_of_get? he)) hsize hle hstart
  · rename_i scan hscan
    exact hd.matchers t ht scan hscan text start text.size stop hstart hsize hle
      (Except.ok.inj h)
  · cases Except.ok.inj h

end Dictionary

-- ================================================================ pieces

/-- A part of a text as a scan takes it: the layout it skips, what it
matches, and the token it finds. -/
structure Piece where
  gap : Text
  matched : Text
  token : Token

namespace Piece

/-- The text of a piece. -/
def written (p : Piece) : Text := p.gap ++ p.matched

/-- The step that takes a piece from an offset. -/
def step (p : Piece) (start : Nat) : Step :=
  ⟨start + p.gap.size, some (start + p.gap.size + p.matched.size), p.token⟩

/-- What a piece is in a text that goes on with `rest`. It matches
something, and skips just the layout before that which is not kept. A
built-in token stands for one unit of layout that is kept; any other is
registered and begins with no layout. -/
structure Found (d : Dictionary) (p : Piece) (rest : Text) : Prop where
  gap : Gap d.retention p.gap (p.matched ++ rest)
  filled : p.matched ≠ []
  layout : ∀ b, p.token.builtin? = some b →
    p.token = b.token ∧ LayoutUnit b p.matched rest ∧ d.retention.keeps b = true
  registered : p.token.builtin? = none → p.token ∈ d.tokens ∧ Bare p.matched

end Piece

namespace Dictionary

/-- No registered token is a built-in. -/
theorem Sound.builtin?_eq_none {P : Primitive → Prop} (hd : d.Sound P)
    {t : Token} (ht : t ∈ d.tokens) : t.builtin? = none :=
  if_neg (Int.not_lt.2 (hd.codes t ht))

/-- A registered token that is found at a boundary is some of the text
behind it. -/
theorem Sound.scanToken_some (hd : d.Sound Primitive.Aligned)
    {front rest : Text} {step : Step} {stop : Nat}
    (h : d.scanToken (front ++ rest) front.size = .ok step)
    (hstop : step.next = some stop) :
    ∃ matched after, rest = matched ++ after ∧ matched ≠ []
      ∧ step.token ∈ d.tokens
      ∧ step = ⟨front.size, some (front.size + matched.size), step.token⟩ := by
  unfold scanToken scanTokenWithin at h
  simp only at h
  split at h
  · cases h
  · obtain rfl := Except.ok.inj h
    cases hstop
  · rename_i stop' t hlongest
    obtain rfl := Except.ok.inj h
    obtain rfl := Option.some.inj hstop
    rcases longest_cases hlongest
      with ⟨hnone, -⟩ | ⟨_, _, hfound, hmem, hanswer, hreach, -⟩
    · cases hnone
    obtain ⟨rfl, rfl⟩ := Prod.mk.inj (Option.some.inj hfound)
    have ht := Array.mem_toList_iff.1 hmem
    have hfront : Text.isBoundary (front ++ rest) front.size = true :=
      Text.isBoundary_iff.2 ⟨front, rest, rfl, rfl⟩
    obtain ⟨-, -, hboundary⟩ := hd.capture_aligned ht hfront hanswer
    obtain ⟨part, hpart⟩ :=
      Text.exists_slice? hfront hboundary (Nat.le_of_lt hreach)
    obtain ⟨front', after, htext, hsize, hpartSize⟩ :=
      Text.slice?_eq_some_iff.1 hpart
    rw [List.append_assoc] at htext
    obtain ⟨rfl, rfl⟩ := Text.append_inj_of_size htext hsize.symm
    refine ⟨part, after, rfl, fun hnil => ?_, ht, ?_⟩
    · rw [hnil, Text.size_nil] at hpartSize
      omega
    · rw [hpartSize]

/-- A step from a boundary takes a piece, is at the end of the text
behind layout that is not kept, or finds nothing. -/
theorem Sound.scanNext_cases (hd : d.Sound Primitive.Aligned)
    {front rest : Text} {step : Step}
    (h : d.scanNext (front ++ rest) front.size = .ok step) :
    (∃ (p : Piece) (after : Text), rest = p.written ++ after ∧ p.Found d after
        ∧ step = p.step front.size)
      ∨ (Gap d.retention rest [] ∧ step.token = Builtin.finished.token)
      ∨ step.next = none := by
  unfold scanNext scanNextWithin at h
  split at h
  case isFalse => cases h
  rw [Nat.min_eq_left (by rw [Text.size_append]; omega), Text.after?_append]
    at h
  simp only at h
  split at h
  · rename_i b start stop hlead
    obtain ⟨gap, u, after, rfl, hgap, hunit, hkept, rfl, rfl⟩ :=
      skipLayout_eq_unit_iff.1 hlead
    obtain rfl := Except.ok.inj h
    refine .inl ⟨⟨gap, u, b.token⟩, after, (List.append_assoc ..).symm, ?_, rfl⟩
    refine ⟨hgap, hunit.ne_nil, fun b' hb' => ?_, fun hnone => ?_⟩
    · rw [Builtin.builtin?_token] at hb'
      obtain rfl := Option.some.inj hb'
      exact ⟨rfl, hunit, hkept⟩
    · rw [Builtin.builtin?_token] at hnone
      cases hnone
  · rename_i position hlead
    obtain ⟨gap, rfl, hgap, -, rfl⟩ := skipLayout_eq_text_iff.1 hlead
    obtain rfl := Except.ok.inj h
    rw [List.append_nil]
    exact .inr (.inl ⟨hgap, rfl⟩)
  · rename_i position c after hlead
    obtain ⟨gap, rfl, hgap, hbare, rfl⟩ := skipLayout_eq_text_iff.1 hlead
    cases hnext : step.next with
    | none => exact .inr (.inr rfl)
    | some stop =>
        rw [← List.append_assoc, ← Text.size_append] at h
        obtain ⟨matched, rest, hrest, hne, ht, hstep⟩ :=
          hd.scanToken_some h hnext
        rw [hrest] at hgap hbare ⊢
        refine .inl ⟨⟨gap, matched, step.token⟩, rest,
          (List.append_assoc ..).symm, ?_, ?_⟩
        · refine ⟨hgap, hne, fun b hb => ?_, fun _ =>
            ⟨ht, fun c hc => hbare c ?_⟩⟩
          · rw [hd.builtin?_eq_none ht] at hb
            cases hb
          · rw [List.head?_append, Option.mem_def.1 hc]
            rfl
        · rw [hstep, Text.size_append]
          rfl

end Dictionary

end Munch
