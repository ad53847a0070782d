/-
The position of an offset told from the text before it: its line is one
more than the line feeds there are, its column one more than the
characters behind the last of them (`Position.after_eq`).

Positions tell offsets apart. Every character leads to a later position,
a line feed by its line and any other by its column (`lt_next`), so the
boundaries of a text and their positions are in the same order
(`ofOffset?_lt`). And the way back is to pass line feeds first and
characters of one line then: what a position marks in this way are the
offsets that have it (`marks_iff`).
-/
import Mathlib.Data.List.Induction
import Munch.Text.Position
import Munch.Proofs.Text.Cuts

namespace Munch.Position

private theorem after_concat (t : Text) (c : Char) :
    after (t ++ [c]) = (after t).next c :=
  List.foldl_append

/-- The position behind a text is told by its newlines and by what follows the
last one. -/
theorem after_eq (t : Text) :
    after t = ⟨t.count '\n' + 1,
      (t.reverse.takeWhile (· ≠ '\n')).length + 1⟩ := by
  induction t using List.reverseRecOn with
  | nil => rfl
  | append_singleton t c ih =>
      rw [after_concat, ih, List.count_append, List.reverse_concat]
      by_cases hc : c = '\n'
      · subst hc
        simp [next]
      · simp [next, hc]

/-- An offset at which a text can be cut is where its first part leads. -/
theorem ofOffset?_append (front rest : Text) :
    ofOffset? (front ++ rest) front.size = some (after front) := by
  have hmin : min front.size (Text.size (front ++ rest)) = front.size := by
    rw [Text.size_append]
    omega
  have hbefore : Text.before? (front ++ rest) front.size = some front :=
    Text.before?_eq_some_iff.2 ⟨⟨rest, rfl⟩, rfl⟩
  unfold ofOffset?
  rw [hmin, hbefore, Option.map_some]

-- =============================================================== order

/-- Positions as they follow in a text: by their lines, and in one line
by their columns. -/
instance : LT Position where
  lt p q := p.line < q.line ∨ p.line = q.line ∧ p.column < q.column

private theorem lt_iff {p q : Position} :
    p < q ↔ p.line < q.line ∨ p.line = q.line ∧ p.column < q.column := Iff.rfl

private theorem lt_irrefl (p : Position) : ¬ p < p := by
  rw [lt_iff]
  omega

private theorem lt_trans {p q r : Position} (hpq : p < q) (hqr : q < r) :
    p < r := by
  rw [lt_iff] at *
  omega

/-- Every character leads to a later position. -/
theorem lt_next (p : Position) (c : Char) : p < p.next c := by
  rw [lt_iff]
  by_cases hc : c = '\n'
  · rw [next, if_pos hc]
    exact .inl (Nat.lt_succ_self _)
  · rw [next, if_neg hc]
    exact .inr ⟨rfl, Nat.lt_succ_self _⟩

/-- More text leads to a later position. -/
private theorem after_lt_after (front : Text) {mid : Text} (h : mid ≠ []) :
    after front < after (front ++ mid) := by
  induction mid using List.reverseRecOn with
  | nil => exact absurd rfl h
  | append_singleton mid c ih =>
      have hlast : after (front ++ mid) < after (front ++ (mid ++ [c])) := by
        rw [← List.append_assoc, after_concat]
        exact lt_next _ c
      by_cases hmid : mid = []
      · subst hmid
        rw [List.append_nil] at hlast
        exact hlast
      · exact lt_trans (ih hmid) hlast

/-- Later boundaries have later positions. -/
theorem ofOffset?_lt {t : Text} {o o' : Nat} (ho : t.isBoundary o = true)
    (ho' : t.isBoundary o' = true) (h : o < o') :
    ∃ p p', ofOffset? t o = some p ∧ ofOffset? t o' = some p' ∧ p < p' := by
  obtain ⟨front, rest, rfl, rfl⟩ := Text.isBoundary_iff.1 ho
  obtain ⟨front', rest', ht, rfl⟩ := Text.isBoundary_iff.1 ho'
  obtain ⟨mid, rfl, rfl⟩ := Text.exists_append_of_size_le ht (Nat.le_of_lt h)
  have hmid : mid ≠ [] := by
    rintro rfl
    rw [List.append_nil] at h
    exact Nat.lt_irrefl _ h
  refine ⟨after front, after (front ++ mid), ofOffset?_append .., ?_,
    after_lt_after front hmid⟩
  rw [← List.append_assoc]
  exact ofOffset?_append ..

/-- Two boundaries of one text do not share a position. -/
theorem eq_of_ofOffset?_eq {t : Text} {o o' : Nat} {p : Position}
    (ho : t.isBoundary o = true) (ho' : t.isBoundary o' = true)
    (h : ofOffset? t o = some p) (h' : ofOffset? t o' = some p) : o = o' := by
  rcases Nat.lt_trichotomy o o' with hlt | heq | hgt
  · obtain ⟨q, q', hq, hq', hlt'⟩ := ofOffset?_lt ho ho' hlt
    obtain rfl := Option.some.inj (h.symm.trans hq)
    obtain rfl := Option.some.inj (h'.symm.trans hq')
    exact absurd hlt' (lt_irrefl p)
  · exact heq
  · obtain ⟨q', q, hq', hq, hlt'⟩ := ofOffset?_lt ho' ho hgt
    obtain rfl := Option.some.inj (h.symm.trans hq)
    obtain rfl := Option.some.inj (h'.symm.trans hq')
    exact absurd hlt' (lt_irrefl p)

-- ========================================================= the way back

/-- The offset that a position marks in a text. From the start it lies
behind as many line feeds as there are lines before that of the position,
right behind the last of them, and then behind as many characters as there
are columns before its own, none of them a line feed. -/
def Marks (t : Text) (p : Position) (o : Nat) : Prop :=
  ∃ passed within rest, t = passed ++ (within ++ rest)
    ∧ (passed = [] ∨ ∃ lines, passed = lines ++ ['\n']) ∧ '\n' ∉ within
    ∧ p.line = passed.count '\n' + 1 ∧ p.column = within.length + 1
    ∧ o = Text.size (passed ++ within)

/-- A text is made of what it ends its lines in, and of the characters
behind them. -/
theorem exists_passed (t : Text) : ∃ passed within : Text, t = passed ++ within
    ∧ (passed = [] ∨ ∃ lines, passed = lines ++ ['\n']) ∧ '\n' ∉ within := by
  induction t using List.reverseRecOn with
  | nil => exact ⟨[], [], rfl, .inl rfl, List.not_mem_nil⟩
  | append_singleton t c ih =>
      by_cases hc : c = '\n'
      · subst hc
        exact ⟨t ++ ['\n'], [], (List.append_nil _).symm, .inr ⟨t, rfl⟩,
          List.not_mem_nil⟩
      · obtain ⟨passed, within, rfl, hpassed, hwithin⟩ := ih
        refine ⟨passed, within ++ [c], List.append_assoc .., hpassed,
          fun hmem => ?_⟩
        rcases List.mem_append.1 hmem with hmem | hmem
        · exact hwithin hmem
        · exact hc (List.mem_singleton.1 hmem).symm

/-- Where passing lines and then characters leads. -/
theorem after_passed {passed within : Text}
    (hpassed : passed = [] ∨ ∃ lines, passed = lines ++ ['\n'])
    (hwithin : '\n' ∉ within) :
    after (passed ++ within) = ⟨passed.count '\n' + 1, within.length + 1⟩ := by
  have hcount : within.count '\n' = 0 := List.count_eq_zero.2 hwithin
  have hline : (within.reverse ++ passed.reverse).takeWhile (· ≠ '\n')
      = within.reverse := by
    have hall : ∀ c ∈ within.reverse, decide (c ≠ '\n') = true := fun c hc => by
      rw [decide_eq_true_eq]
      rintro rfl
      exact hwithin (List.mem_reverse.1 hc)
    rw [List.takeWhile_append_of_pos hall]
    rcases hpassed with rfl | ⟨lines, rfl⟩
    · simp
    · simp
  rw [after_eq, List.count_append, hcount, List.reverse_append, hline,
    List.length_reverse,
    Nat.add_zero]

/-- A position marks the boundaries that have it. -/
theorem marks_iff {t : Text} {p : Position} {o : Nat} :
    Marks t p o ↔ t.isBoundary o = true ∧ ofOffset? t o = some p := by
  constructor
  · rintro ⟨passed, within, rest, rfl, hpassed, hwithin, hline, hcolumn, rfl⟩
    rw [← List.append_assoc, ofOffset?_append, after_passed hpassed hwithin,
      ← hline, ← hcolumn]
    exact ⟨Text.isBoundary_iff.2 ⟨_, _, rfl, rfl⟩, rfl⟩
  · rintro ⟨ho, hp⟩
    obtain ⟨front, rest, rfl, rfl⟩ := Text.isBoundary_iff.1 ho
    obtain ⟨passed, within, rfl, hpassed, hwithin⟩ := exists_passed front
    rw [ofOffset?_append, after_passed hpassed hwithin] at hp
    obtain rfl := Option.some.inj hp
    exact ⟨passed, within, rest, List.append_assoc .., hpassed, hwithin, rfl,
      rfl, rfl⟩

end Munch.Position
