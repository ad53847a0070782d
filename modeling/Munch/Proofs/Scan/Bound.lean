/-
What matching a token and scanning come to.

Both take a bound on the depth of calls, and the primitives that callers
supply may make a match as long as they like, so no bound is enough for
all dictionaries. But a larger bound gives the answers that a smaller
one gives (`Token.captureWithin_deepen`, `scanNextWithin_deepen`).
What a token comes to is what some bound gives (`Token.Captures`), and so
is the step that a scan comes to (`Dictionary.Reports`). There is one at
most, whatever the bounds (`Token.Captures.unique`, `Reports.unique`).

A scan tries one token after another under one bound. Where each of them
comes to an answer, the largest of their bounds does for all
(`exists_bound`).
-/
import Munch.Proofs.Expr.Deepening
import Munch.Proofs.Scan.Step

namespace Munch

-- ================================================================ tokens

section Tokens

variable {s : ExpressionSet} {text : Text} {start bound bound' : Nat}
  {t : Token} {ts : List Token} {answer answer' : Option Nat}

/-- An answer of a matcher is its answer under every larger bound. -/
theorem Matcher.captureWithin_deepen {m : Matcher} {stop : Nat}
    (hle : bound ≤ bound')
    (h : m.captureWithin s bound text start stop = .ok answer) :
    m.captureWithin s bound' text start stop = .ok answer := by
  cases m with
  | expression index =>
      exact Munch.captureWithin_deepen s text _ hle index start answer h
  | primitive scan => exact h
  | none => exact h

/-- An answer of a token is its answer under every larger bound. -/
theorem Token.captureWithin_deepen (hle : bound ≤ bound')
    (h : t.captureWithin s bound text start = .ok answer) :
    t.captureWithin s bound' text start = .ok answer :=
  Matcher.captureWithin_deepen hle h

/-- What a token that starts at an offset comes to: some bound on the
depth of calls gives this answer. -/
def Token.Captures (t : Token) (s : ExpressionSet) (text : Text)
    (start : Nat) (answer : Option Nat) : Prop :=
  ∃ bound, t.captureWithin s bound text start = .ok answer

/-- A token comes to one answer at most. -/
theorem Token.Captures.unique (h : t.Captures s text start answer)
    (h' : t.Captures s text start answer') : answer = answer' := by
  obtain ⟨bound, hbound⟩ := h
  obtain ⟨bound', hbound'⟩ := h'
  have hmax := t.captureWithin_deepen (Nat.le_max_left bound bound') hbound
  have hmax' := t.captureWithin_deepen (Nat.le_max_right bound bound') hbound'
  exact Except.ok.inj (hmax.symm.trans hmax')

/-- Where a bound answers a token, that is what the token comes to. -/
theorem Token.captures_iff
    (h : ∃ a, t.captureWithin s bound text start = .ok a) :
    t.Captures s text start answer
      ↔ t.captureWithin s bound text start = .ok answer := by
  obtain ⟨a, ha⟩ := h
  refine ⟨fun hcaptures => ?_, fun hanswer => ⟨bound, hanswer⟩⟩
  rw [hcaptures.unique ⟨bound, ha⟩]
  exact ha

/-- Where a bound answers all tokens, and none ends behind an offset, none
comes to an end behind it. -/
theorem NoneBehind.captures {reach : Nat}
    (hanswers : ∀ t ∈ ts, ∃ a, t.captureWithin s bound text start = .ok a)
    (h : NoneBehind (fun t => t.captureWithin s bound text start) ts reach) :
    ∀ t ∈ ts, ∀ stop, t.Captures s text start (some stop) → stop ≤ reach :=
  fun t ht stop hstop =>
    h t ht stop ((Token.captures_iff (hanswers t ht)).1 hstop)

/-- Tokens that all come to an answer do so under one bound. -/
theorem exists_bound (h : ∀ t ∈ ts, ∃ a, t.Captures s text start a) :
    ∃ bound, ∀ t ∈ ts, ∃ a, t.captureWithin s bound text start = .ok a := by
  induction ts with
  | nil => exact ⟨0, fun t ht => absurd ht List.not_mem_nil⟩
  | cons t rest ih =>
      obtain ⟨⟨a, bound, ha⟩, hrest⟩ := List.forall_mem_cons.1 h
      obtain ⟨bound', hbound'⟩ := ih hrest
      refine ⟨max bound bound',
        List.forall_mem_cons.2 ⟨⟨a, ?_⟩, fun t' ht' => ?_⟩⟩
      · exact t.captureWithin_deepen (Nat.le_max_left ..) ha
      · obtain ⟨a', ha'⟩ := hbound' t' ht'
        exact ⟨a', t'.captureWithin_deepen (Nat.le_max_right ..) ha'⟩

/-- Tokens that are all answered as they were are compared as they
were. -/
theorem longest_deepen {answers answers' : Token → Answer}
    (h : ∀ t a, answers t = .ok a → answers' t = .ok a)
    {reach : Nat} {best found : Option (Nat × Token)}
    (hfound : longest answers reach best ts = .ok found) :
    longest answers' reach best ts = .ok found := by
  induction ts generalizing reach best with
  | nil => exact hfound
  | cons t rest ih =>
      unfold longest at hfound ⊢
      cases ha : answers t with
      | error e =>
          rw [ha] at hfound
          cases hfound
      | ok a =>
          rw [ha] at hfound
          rw [h t a ha]
          cases a with
          | none => exact ih hfound
          | some stop =>
              by_cases hlonger : reach < stop
              · simp only [if_pos hlonger] at hfound ⊢
                exact ih hfound
              · simp only [if_neg hlonger] at hfound ⊢
                exact ih hfound

end Tokens

-- ================================================================= steps

namespace Dictionary

variable {d : Dictionary} {text : Text} {start bound bound' : Nat}
  {step step' : Step}

/-- What a scan from an offset comes to: some bound on the depth of calls
gives this step. -/
def Reports (d : Dictionary) (text : Text) (start : Nat) (step : Step) : Prop :=
  ∃ bound, d.scanNextWithin bound text start = .ok step

/-- A scan at a place without layout fails only as a token does. -/
theorem exists_of_scanTokenWithin_error {e : Error}
    (h : d.scanTokenWithin bound text start = .error e) :
    ∃ t ∈ d.tokens, t.captureWithin d.expressions bound text start
      = .error e := by
  unfold scanTokenWithin at h
  simp only at h
  split at h
  · rename_i e' hlongest
    obtain rfl := Except.error.inj h
    obtain ⟨t, ht, he⟩ := exists_of_longest_error hlongest
    exact ⟨t, Array.mem_toList_iff.1 ht, he⟩
  · cases h
  · cases h

/-- A step at a place without layout is the step under every larger
bound. -/
theorem scanTokenWithin_deepen (hle : bound ≤ bound')
    (h : d.scanTokenWithin bound text start = .ok step) :
    d.scanTokenWithin bound' text start = .ok step := by
  unfold scanTokenWithin at h ⊢
  simp only at h ⊢
  cases hfound : longest
      (fun t => t.captureWithin d.expressions bound text start) start none
      d.tokens.toList with
  | error e =>
      rw [hfound] at h
      cases h
  | ok found =>
      rw [hfound] at h
      rw [longest_deepen (fun t a => t.captureWithin_deepen hle) hfound]
      exact h

/-- A step is the step under every larger bound. -/
theorem scanNextWithin_deepen (hle : bound ≤ bound')
    (h : d.scanNextWithin bound text start = .ok step) :
    d.scanNextWithin bound' text start = .ok step := by
  unfold scanNextWithin at h ⊢
  split at h
  case isFalse => cases h
  case isTrue hlinked =>
    rw [if_pos hlinked]
    split at h
    · cases h
    · split at h
      · exact h
      · exact h
      · exact scanTokenWithin_deepen hle h

/-- A scan comes to one step at most. -/
theorem Reports.unique (h : d.Reports text start step)
    (h' : d.Reports text start step') : step = step' := by
  obtain ⟨bound, hbound⟩ := h
  obtain ⟨bound', hbound'⟩ := h'
  have hmax := scanNextWithin_deepen (Nat.le_max_left bound bound') hbound
  have hmax' := scanNextWithin_deepen (Nat.le_max_right bound bound') hbound'
  exact Except.ok.inj (hmax.symm.trans hmax')

end Dictionary

end Munch
