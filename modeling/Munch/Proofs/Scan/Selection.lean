/-
One step of a scan that cannot go wrong.

A dictionary is `Ready` if it is linked, has no left recursion, and has
primitives that answer boundaries with boundaries. Then every token is
answered at every character boundary (`Ready.capture_returns`), so the
tokens can be compared there: if some token ends behind the place, the
scan finds one that ends furthest (`Longest`, `scanToken_cases`), and of
several the one registered first (`Winner`, `scanTokenWithin_winner`).
Steps from a boundary always succeed (`Ready.scanNext_returns`).
-/
import Munch.Proofs.Dictionary.Registry
import Munch.Proofs.Expr.Guarded
import Munch.Proofs.Scan.Bound

namespace Munch

/-- In a linked set without left recursion and with primitives that stay
in range, a token is answered at every place of a text. -/
theorem Token.capture_returns_of_inRange {s : ExpressionSet} {t : Token}
    (hs : s.Resolved) (hprims : s.Primitives Primitive.InRange)
    (hfree : s.LeftRecursionFree)
    (hmatcher : ∀ index, t.matcher = .expression index → index < s.size)
    {text : Text} {start : Nat} (hstart : start ≤ text.size) :
    ∃ answer, t.capture s text start = .ok answer := by
  unfold Token.capture Token.captureWithin
  cases hm : t.matcher with
  | expression index =>
      apply Munch.capture_returns_of_inRange hs hprims hfree (hmatcher index hm)
      rw [Nat.min_self]
      exact hstart
  | primitive scan => exact ⟨_, rfl⟩
  | none => exact ⟨_, rfl⟩

namespace Dictionary

-- =========================================================== being ready

/-- A dictionary that can scan: linked, without left recursion, and with
primitives that answer boundaries with boundaries. -/
structure Ready (d : Dictionary) : Prop where
  sound : d.Sound Primitive.Aligned
  linked : d.state = .linked
  resolved : d.expressions.Resolved
  /-- The expressions of tokens exist. -/
  matchers : ∀ t ∈ d.tokens, ∀ index, t.matcher = .expression index →
    index < d.expressions.size
  free : d.expressions.LeftRecursionFree

variable {d : Dictionary} {text : Text}

/-- A linked dictionary without left recursion can scan, if its primitives
answer boundaries with boundaries. -/
theorem Built.ready (hd : d.Built Primitive.Aligned)
    (hlinked : d.state = .linked) (hfree : d.expressions.LeftRecursionFree) :
    d.Ready where
  sound := hd.sound CharClass.scan_aligned
  linked := hlinked
  resolved := hd.coherent.resolved hlinked
  matchers t ht index hm := by
    obtain ⟨e, he, -⟩ := hd.coherent.matchers t ht index hm
    exact ExpressionSet.lt_size_of_get? he
  free := hfree

/-- A linked dictionary scans behind the layout at the offset, the end of
the text standing for all offsets past it. -/
theorem scanNextWithin_after {start : Nat} {rest : Text} (bound : Nat)
    (hlinked : d.state = .linked)
    (h : text.after? (min start text.size) = some rest) :
    d.scanNextWithin bound text start
      = match skipLayout d.retention (min start text.size) rest with
        | .unit b start stop => .ok ⟨start, some stop, b.token⟩
        | .text position [] =>
            .ok ⟨position, some position, Builtin.finished.token⟩
        | .text position (_ :: _) =>
            d.scanTokenWithin bound text position := by
  refine (if_pos hlinked).trans ?_
  generalize text.after? (min start text.size) = after at h
  subst h
  rfl

/-- From a boundary, a linked dictionary scans behind the layout there. -/
theorem scanNext_append (hlinked : d.state = .linked) (front rest : Text) :
    d.scanNext (front ++ rest) front.size
      = match skipLayout d.retention front.size rest with
        | .unit b start stop => .ok ⟨start, some stop, b.token⟩
        | .text position [] =>
            .ok ⟨position, some position, Builtin.finished.token⟩
        | .text position (_ :: _) => d.scanToken (front ++ rest) position := by
  have hmin : min front.size (Text.size (front ++ rest)) = front.size := by
    rw [Text.size_append]
    omega
  have hafter := Text.after?_append front rest
  rw [← hmin] at hafter
  unfold scanNext
  rw [scanNextWithin_after _ hlinked hafter, hmin]
  rfl

/-- Behind a gap, the scan is at the first character that is not layout. -/
theorem scanNext_gap (hlinked : d.state = .linked) {front gap after : Text}
    {c : Char} (hgap : Gap d.retention gap (c :: after))
    (hbare : isBlank c = false) :
    d.scanNext (front ++ (gap ++ c :: after)) front.size
      = d.scanToken (front ++ (gap ++ c :: after)) (front ++ gap).size := by
  have hskip : skipLayout d.retention front.size (gap ++ c :: after)
      = .text (front ++ gap).size (c :: after) := by
    refine skipLayout_eq_text_iff.2 ⟨gap, rfl, hgap, fun c' hc' => ?_,
      Text.size_append ..⟩
    obtain rfl := Option.some.inj hc'
    exact hbare
  rw [scanNext_append hlinked, hskip]

/-- A registered token matches from an offset to another, and none matches
further. -/
structure Longest (d : Dictionary) (text : Text) (start stop : Nat)
    (t : Token) : Prop where
  registered : t ∈ d.tokens
  reaches : t.Captures d.expressions text start (some stop)
  furthest : ∀ t' ∈ d.tokens, ∀ stop',
    t'.Captures d.expressions text start (some stop') → stop' ≤ stop

/-- Of the longest matches from an offset, the one by the token that was
registered first. -/
structure Winner (d : Dictionary) (text : Text) (start stop : Nat)
    (t : Token) : Prop where
  longest : d.Longest text start stop t
  first : ∃ index, d.tokens[index]? = some t
    ∧ ∀ (before : Nat) (t' : Token), before < index →
      d.tokens[before]? = some t' → ∀ stop',
        t'.Captures d.expressions text start (some stop') → stop' < stop

/-- Longest matches from one place are equally long. -/
theorem Longest.unique {start stop stop' : Nat} {t t' : Token}
    (h : d.Longest text start stop t) (h' : d.Longest text start stop' t') :
    stop = stop' := by
  have hle := h'.furthest t h.registered stop h.reaches
  have hle' := h.furthest t' h'.registered stop' h'.reaches
  omega

/-- One token wins. -/
theorem Winner.unique {start stop stop' : Nat} {t t' : Token}
    (h : d.Winner text start stop t) (h' : d.Winner text start stop' t') :
    stop = stop' ∧ t = t' := by
  obtain rfl := h.longest.unique h'.longest
  obtain ⟨index, hindex, hfirst⟩ := h.first
  obtain ⟨index', hindex', hfirst'⟩ := h'.first
  -- whichever stands first in the dictionary, the other one would not win
  have hle : index ≤ index' := by
    apply Nat.le_of_not_lt
    intro hlt
    exact Nat.lt_irrefl _ (hfirst index' t' hlt hindex' stop h'.longest.reaches)
  have hle' : index' ≤ index := by
    apply Nat.le_of_not_lt
    intro hlt
    exact Nat.lt_irrefl _ (hfirst' index t hlt hindex stop h.longest.reaches)
  obtain rfl := Nat.le_antisymm hle hle'
  rw [hindex] at hindex'
  exact ⟨rfl, Option.some.inj hindex'⟩

/-- A scan that succeeds has every token answered. -/
theorem scanTokenWithin_answered {bound position : Nat} {step : Step}
    (h : d.scanTokenWithin bound text position = .ok step) :
    ∀ t ∈ d.tokens,
      ∃ a, t.captureWithin d.expressions bound text position = .ok a := by
  unfold scanTokenWithin at h
  simp only at h
  split at h
  · cases h
  · rename_i hlongest
    exact fun t ht => longest_answered hlongest t (Array.mem_toList_iff.2 ht)
  · rename_i hlongest
    exact fun t ht => longest_answered hlongest t (Array.mem_toList_iff.2 ht)

/-- A scan that succeeds finds the winner, if some token ends behind the
place, and nothing otherwise. -/
theorem scanTokenWithin_of_ok {bound position : Nat} {step : Step}
    (h : d.scanTokenWithin bound text position = .ok step) :
    (step = ⟨position, none, Builtin.reserved.token⟩
        ∧ ∀ t ∈ d.tokens, ∀ stop,
            t.Captures d.expressions text position (some stop) →
            stop ≤ position)
      ∨ ∃ stop t, step = ⟨position, some stop, t⟩
          ∧ position < stop ∧ d.Winner text position stop t := by
  have hanswers : ∀ t ∈ d.tokens.toList,
      ∃ a, t.captureWithin d.expressions bound text position = .ok a :=
    fun t ht => scanTokenWithin_answered h t (Array.mem_toList_iff.1 ht)
  unfold scanTokenWithin at h
  simp only at h
  split at h
  · cases h
  · rename_i hlongest
    obtain rfl := Except.ok.inj h
    rcases longest_first hlongest with ⟨-, hshort⟩ | ⟨_, _, _, _, hfound, -⟩
    · exact .inl ⟨rfl, fun t ht =>
        hshort.captures hanswers t (Array.mem_toList_iff.2 ht)⟩
    · cases hfound
  · rename_i stop t hlongest
    obtain rfl := Except.ok.inj h
    rcases longest_first hlongest with ⟨hnone, -⟩
      | ⟨_, _, before, after, hfound, hsplit, ha, hlt, hmax, hfirst⟩
    · cases hnone
    obtain ⟨rfl, rfl⟩ := Prod.mk.inj (Option.some.inj hfound)
    have hget : ∀ index : Nat,
        d.tokens[index]? = (before ++ t :: after)[index]? := by
      intro index
      rw [← hsplit, Array.getElem?_toList]
    have ht : d.tokens[before.length]? = some t := by
      rw [hget]
      simp
    refine .inr ⟨stop, t, rfl, hlt,
      ⟨Array.mem_of_getElem? ht, ⟨bound, ha⟩, fun t' ht' => ?_⟩,
      before.length, ht, fun index t' hindex ht' stop' hstop' => ?_⟩
    · exact hmax.captures hanswers t' (Array.mem_toList_iff.2 ht')
    · have hanswer :=
        hanswers t' (Array.mem_toList_iff.2 (Array.mem_of_getElem? ht'))
      rw [hget, List.getElem?_append_left hindex] at ht'
      exact hfirst t' (List.mem_of_getElem? ht') stop'
        ((Token.captures_iff hanswer).1 hstop')

/-- Where a bound answers all tokens, the scan finds the winner, if some
token ends behind the place. -/
theorem scanTokenWithin_winner {bound position : Nat}
    (hanswers : ∀ t ∈ d.tokens,
      ∃ a, t.captureWithin d.expressions bound text position = .ok a) :
    (d.scanTokenWithin bound text position
          = .ok ⟨position, none, Builtin.reserved.token⟩
        ∧ ∀ t ∈ d.tokens, ∀ stop,
            t.Captures d.expressions text position (some stop) →
            stop ≤ position)
      ∨ ∃ stop t,
          d.scanTokenWithin bound text position = .ok ⟨position, some stop, t⟩
          ∧ position < stop ∧ d.Winner text position stop t := by
  obtain ⟨found, hfound⟩ := longest_returns position none
    fun t ht => hanswers t (Array.mem_toList_iff.1 ht)
  have hstep : ∃ step, d.scanTokenWithin bound text position = .ok step := by
    unfold scanTokenWithin
    simp only [hfound]
    cases found <;> exact ⟨_, rfl⟩
  obtain ⟨step, hstep⟩ := hstep
  rcases scanTokenWithin_of_ok hstep with ⟨rfl, hshort⟩ | ⟨stop, t, rfl, hwins⟩
  · exact .inl ⟨hstep, hshort⟩
  · exact .inr ⟨stop, t, hstep, hwins⟩

/-- Where all tokens are answered, the scan finds a token if some token
ends behind the place, and it finds one that ends furthest. -/
theorem scanToken_cases {position : Nat}
    (hanswers : ∀ t ∈ d.tokens,
      ∃ a, t.capture d.expressions text position = .ok a) :
    (d.scanToken text position = .ok ⟨position, none, Builtin.reserved.token⟩
        ∧ ∀ t ∈ d.tokens, ∀ stop,
            t.Captures d.expressions text position (some stop) →
            stop ≤ position)
      ∨ ∃ stop t, d.scanToken text position = .ok ⟨position, some stop, t⟩
          ∧ position < stop ∧ d.Longest text position stop t := by
  rcases scanTokenWithin_winner hanswers
    with hnone | ⟨stop, t, hstep, hlt, hwins⟩
  · exact .inl hnone
  · exact .inr ⟨stop, t, hstep, hlt, hwins.longest⟩

/-- Where a bound answers all tokens at every boundary, a step from a
boundary succeeds under that bound. -/
theorem scanNextWithin_returns {bound start : Nat} (hlinked : d.state = .linked)
    (hstart : text.isBoundary (min start text.size) = true)
    (hanswers : ∀ position, text.isBoundary position = true →
      ∀ t ∈ d.tokens,
        ∃ a, t.captureWithin d.expressions bound text position = .ok a) :
    ∃ step, d.scanNextWithin bound text start = .ok step := by
  obtain ⟨rest, hrest⟩ := Option.isSome_iff_exists.1 hstart
  rw [scanNextWithin_after bound hlinked hrest]
  split
  · exact ⟨_, rfl⟩
  · exact ⟨_, rfl⟩
  · rename_i position c after hlead
    obtain ⟨gap, rfl, -, -, rfl⟩ := skipLayout_eq_text_iff.1 hlead
    obtain ⟨front, rfl, hfront⟩ := Text.after?_eq_some_iff.1 hrest
    have hposition : Text.isBoundary (front ++ (gap ++ c :: after))
        (min start (Text.size (front ++ (gap ++ c :: after))) + gap.size)
          = true := by
      rw [← hfront, ← Text.size_append]
      exact Text.isBoundary_iff.2
        ⟨front ++ gap, c :: after, (List.append_assoc ..).symm, rfl⟩
    rcases scanTokenWithin_winner (hanswers _ hposition)
      with ⟨hnone, -⟩ | ⟨stop, t, hsome, -⟩
    · exact ⟨_, hnone⟩
    · exact ⟨_, hsome⟩

/-- A scan at a place comes to a step exactly where all tokens come to
answers. -/
theorem exists_scanTokenWithin_iff {position : Nat} :
    (∃ bound step, d.scanTokenWithin bound text position = .ok step)
      ↔ ∀ t ∈ d.tokens, ∃ a, t.Captures d.expressions text position a := by
  constructor
  · rintro ⟨bound, step, hstep⟩ t ht
    obtain ⟨a, ha⟩ := scanTokenWithin_answered hstep t ht
    exact ⟨a, bound, ha⟩
  · intro hanswers
    obtain ⟨bound, hbound⟩ :=
      exists_bound fun t ht => hanswers t (Array.mem_toList_iff.1 ht)
    rcases scanTokenWithin_winner fun t ht =>
        hbound t (Array.mem_toList_iff.2 ht)
      with ⟨hnone, -⟩ | ⟨stop, t, hsome, -⟩
    · exact ⟨bound, _, hnone⟩
    · exact ⟨bound, _, hsome⟩

namespace Ready

variable (hd : d.Ready)

include hd

/-- Every token is answered at every boundary. -/
theorem capture_returns {t : Token} (ht : t ∈ d.tokens) {start : Nat}
    (hstart : text.isBoundary start = true) :
    ∃ answer, t.capture d.expressions text start = .ok answer := by
  unfold Token.capture Token.captureWithin
  cases hm : t.matcher with
  | expression index =>
      apply Munch.capture_returns hd.resolved hd.sound.expressions hd.free
      · exact hd.matchers t ht index hm
      · rw [Nat.min_self]
        exact Text.isBoundary_size text
      · rw [Nat.min_self]
        exact Text.le_size_of_isBoundary hstart
      · exact hstart
  | primitive scan => exact ⟨_, rfl⟩
  | none => exact ⟨_, rfl⟩

/-- A step from a boundary succeeds. -/
theorem scanNext_returns (front rest : Text) :
    ∃ step, d.scanNext (front ++ rest) front.size = .ok step := by
  have hmin : min front.size (Text.size (front ++ rest)) = front.size := by
    rw [Text.size_append]
    omega
  apply scanNextWithin_returns hd.linked
  · rw [hmin]
    exact Text.isBoundary_iff.2 ⟨front, rest, rfl, rfl⟩
  · exact fun position hposition t ht => hd.capture_returns ht hposition

end Ready

end Dictionary

end Munch
