/-
Layout as a language of its own.

A unit of layout is a tab, a line end, or one other white space
character; a carriage return is a line end by itself only where no line
feed follows (`LayoutUnit`). A gap is a run of units that are not kept
(`Gap`). Both are judged with the text that follows, so that no unit can
be cut in two.

Every text is empty, begins with something else than white space, or
begins with exactly one unit (`layout_cases`), and `skipLayout` goes
through exactly the gap at its beginning: to the text behind it
(`skipLayout_eq_text_iff`) or to the first unit that is kept
(`skipLayout_eq_unit_iff`).
-/
import Munch.Scan.Layout

namespace Munch

variable {r : Retention} {b : Builtin} {t u rest : Text} {c : Char}

-- ================================================================ units

/-- One unit of layout, of the given kind, before the given text. -/
inductive LayoutUnit : Builtin → Text → Text → Prop
  | tab {rest : Text} : LayoutUnit .tab ['\t'] rest
  | lineEnd {rest : Text} : LayoutUnit .newline ['\r', '\n'] rest
  | carriageReturn {rest : Text} (alone : rest.head? ≠ some '\n') :
      LayoutUnit .newline ['\r'] rest
  | lineFeed {rest : Text} : LayoutUnit .newline ['\n'] rest
  | other {rest : Text} {c : Char} (white : isBlank c = true)
      (single : c ∉ ['\t', '\r', '\n']) : LayoutUnit .whitespace [c] rest

/-- Units of layout one after another, none of them kept, before the
given text. -/
inductive Gap (r : Retention) : Text → Text → Prop
  | nil {rest : Text} : Gap r [] rest
  | unit {b : Builtin} {u gap rest : Text}
      (first : LayoutUnit b u (gap ++ rest)) (unkept : r.keeps b = false)
      (others : Gap r gap rest) :
      Gap r (u ++ gap) rest

/-- Nothing here is layout: the text is empty or begins with something
else. -/
def Bare (t : Text) : Prop := ∀ c ∈ t.head?, isBlank c = false

/-- A unit of layout has at least one character. -/
theorem LayoutUnit.ne_nil (h : LayoutUnit b u rest) : u ≠ [] := by
  cases h <;> exact List.cons_ne_nil _ _

/-- A text has no layout at its beginning, or one unit of it. -/
theorem layout_cases (t : Text) :
    Bare t ∨ ∃ b u rest, t = u ++ rest ∧ LayoutUnit b u rest := by
  match t with
  | [] => exact .inl fun c hc => by cases hc
  | c :: rest =>
      by_cases hsingle : c ∈ ['\t', '\r', '\n']
      · simp only [List.mem_cons, List.not_mem_nil, or_false] at hsingle
        rcases hsingle with rfl | rfl | rfl
        · exact .inr ⟨_, _, rest, rfl, .tab⟩
        · by_cases hfeed : rest.head? = some '\n'
          · obtain ⟨rest', rfl⟩ := List.head?_eq_some_iff.1 hfeed
            exact .inr ⟨_, _, rest', rfl, .lineEnd⟩
          · exact .inr ⟨_, _, rest, rfl, .carriageReturn hfeed⟩
        · exact .inr ⟨_, _, rest, rfl, .lineFeed⟩
      · by_cases hwhite : isBlank c = true
        · exact .inr ⟨_, _, rest, rfl, .other hwhite hsingle⟩
        · refine .inl fun d hd => ?_
          obtain rfl := Option.some.inj hd
          exact Bool.eq_false_iff.2 hwhite

-- ============================================================= skipping

/-- A character that does not begin the two of a line end is layout, or
not, by itself. -/
theorem skipLayout_cons (h : c = '\r' → rest.head? ≠ some '\n')
    (position : Nat) :
    skipLayout r position (c :: rest) =
      match layoutOf c with
      | none => .text position (c :: rest)
      | some b =>
          if r.keeps b then .unit b position (position + c.utf8Size)
          else skipLayout r (position + c.utf8Size) rest := by
  refine skipLayout.eq_3 r position c rest fun rest' hc hrest => h hc ?_
  rw [hrest]
  rfl

private theorem layoutOf_of_not_mem (h : c ∉ ['\t', '\r', '\n']) :
    layoutOf c = if isBlank c then some .whitespace else none := by
  simp only [List.mem_cons, List.not_mem_nil, or_false, not_or] at h
  obtain ⟨htab, hreturn, hfeed⟩ := h
  rw [layoutOf, if_neg htab, if_neg (by simp [hreturn, hfeed])]

private theorem not_mem_of_not_blank (h : isBlank c = false) :
    c ∉ ['\t', '\r', '\n'] := by
  intro hc
  simp only [List.mem_cons, List.not_mem_nil, or_false] at hc
  rcases hc with rfl | rfl | rfl <;> exact absurd h (by decide)

/-- Nothing is skipped where no layout is. -/
theorem skipLayout_bare (h : Bare t) (position : Nat) :
    skipLayout r position t = .text position t := by
  match t with
  | [] => rfl
  | c :: rest =>
      have hc : isBlank c = false := h c rfl
      have hm := not_mem_of_not_blank hc
      rw [skipLayout_cons (fun hr => absurd (by simp [hr]) hm),
        layoutOf_of_not_mem hm, hc]
      rfl

/-- A unit is reported or skipped, as the settings say. -/
theorem skipLayout_unit (h : LayoutUnit b u rest) (position : Nat) :
    skipLayout r position (u ++ rest)
      = if r.keeps b then .unit b position (position + u.size)
        else skipLayout r (position + u.size) rest := by
  cases h with
  | tab => rfl
  | lineEnd => rfl
  | lineFeed => rfl
  | carriageReturn alone => exact skipLayout_cons (fun _ => alone) position
  | other white single =>
      refine (skipLayout_cons (fun hr => absurd (by simp [hr]) single)
        position).trans ?_
      rw [layoutOf_of_not_mem single, white]
      rfl

/-- A gap is skipped whole. -/
theorem skipLayout_gap {gap : Text} (h : Gap r gap rest) (position : Nat) :
    skipLayout r position (gap ++ rest)
      = skipLayout r (position + gap.size) rest := by
  induction h generalizing position with
  | nil => rfl
  | unit first unkept _ ih =>
      rw [List.append_assoc, skipLayout_unit first, unkept,
        if_neg Bool.false_ne_true,
        ih, Text.size_append, Nat.add_assoc]

/-- Behind the gap at the beginning of a text, no layout follows, or a
unit that is kept. -/
theorem exists_gap (r : Retention) (t : Text) :
    ∃ gap rest, t = gap ++ rest ∧ Gap r gap rest
      ∧ (Bare rest ∨ ∃ b u rest', rest = u ++ rest' ∧ LayoutUnit b u rest'
          ∧ r.keeps b = true) := by
  rcases layout_cases t with hbare | ⟨b, u, rest, ht, hunit⟩
  · exact ⟨[], t, rfl, .nil, .inl hbare⟩
  · by_cases hkept : r.keeps b = true
    · exact ⟨[], t, rfl, .nil, .inr ⟨b, u, rest, ht, hunit, hkept⟩⟩
    · obtain ⟨gap, rest', hrest, hgap, hafter⟩ := exists_gap r rest
      rw [hrest] at ht hunit
      exact ⟨u ++ gap, rest', by rw [ht, List.append_assoc],
        .unit hunit (Bool.eq_false_iff.2 hkept) hgap, hafter⟩
termination_by t.length
decreasing_by
  rw [ht, List.length_append]
  have := List.length_pos_iff.2 hunit.ne_nil
  omega

/-- What is skipped up to text is a gap, with text without layout behind it.
-/
theorem skipLayout_eq_text_iff {position stop : Nat} :
    skipLayout r position t = .text stop rest
      ↔ ∃ gap, t = gap ++ rest ∧ Gap r gap rest ∧ Bare rest
          ∧ stop = position + gap.size := by
  constructor
  · intro h
    obtain ⟨gap, rest', rfl, hgap, hafter⟩ := exists_gap r t
    rw [skipLayout_gap hgap] at h
    rcases hafter with hbare | ⟨b, u, rest'', rfl, hunit, hkept⟩
    · rw [skipLayout_bare hbare] at h
      obtain ⟨rfl, rfl⟩ := Lead.text.inj h
      exact ⟨gap, rfl, hgap, hbare, rfl⟩
    · rw [skipLayout_unit hunit, if_pos hkept] at h
      cases h
  · rintro ⟨gap, rfl, hgap, hbare, rfl⟩
    rw [skipLayout_gap hgap, skipLayout_bare hbare]

/-- What is skipped up to a unit is a gap, with a unit that is kept behind it.
-/
theorem skipLayout_eq_unit_iff {position start stop : Nat} :
    skipLayout r position t = .unit b start stop
      ↔ ∃ gap u rest, t = gap ++ (u ++ rest) ∧ Gap r gap (u ++ rest)
          ∧ LayoutUnit b u rest ∧ r.keeps b = true
          ∧ start = position + gap.size ∧ stop = start + u.size := by
  constructor
  · intro h
    obtain ⟨gap, rest', rfl, hgap, hafter⟩ := exists_gap r t
    rw [skipLayout_gap hgap] at h
    rcases hafter with hbare | ⟨b, u, rest'', rfl, hunit, hkept⟩
    · rw [skipLayout_bare hbare] at h
      cases h
    · rw [skipLayout_unit hunit, if_pos hkept] at h
      obtain ⟨rfl, rfl, rfl⟩ := Lead.unit.inj h
      exact ⟨gap, u, rest'', rfl, hgap, hunit, hkept, rfl, rfl⟩
  · rintro ⟨gap, u, rest, rfl, hgap, hunit, hkept, rfl, rfl⟩
    rw [skipLayout_gap hgap, skipLayout_unit hunit, if_pos hkept]

end Munch
