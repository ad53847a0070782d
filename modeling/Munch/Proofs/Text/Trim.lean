/-
Taking white space off the ends of a text. What holds of a text with one
more blank character at either end exactly if it holds of the text
itself holds of the trimmed text exactly if it holds of the text
(`trim_iff`). So a fact about trimming only ever needs its two steps.

Where offsets count, the white space itself does, too: a text is what
was taken off its front, the trimmed text, and what was taken off its end
(`trim_split`).
-/
import Mathlib.Data.List.TakeWhile
import Munch.Text.Basic

namespace Munch.Text

variable {P : Text → Prop}

private theorem dropWhile_blank_iff
    (step : ∀ c t, isBlank c = true → (P (c :: t) ↔ P t)) (t : Text) :
    P (t.dropWhile isBlank) ↔ P t := by
  induction t with
  | nil => rfl
  | cons c t ih =>
      by_cases hc : isBlank c = true
      · rw [List.dropWhile_cons_of_pos hc, ih, step c t hc]
      · rw [List.dropWhile_cons_of_neg hc]

/-- White space at the ends of a text makes no difference where no
single blank character there does. -/
theorem trim_iff (front : ∀ c t, isBlank c = true → (P (c :: t) ↔ P t))
    (back : ∀ c t, isBlank c = true → (P (t ++ [c]) ↔ P t)) (t : Text) :
    P t.trim ↔ P t := by
  have hend : ∀ s : Text, P s.trimEnd ↔ P s := by
    intro s
    have h := dropWhile_blank_iff (P := fun r => P r.reverse)
      (fun c r hc => by rw [List.reverse_cons]; exact back c r.reverse hc)
        s.reverse
    rw [List.reverse_reverse] at h
    exact h
  exact (hend t.trimStart).trans (dropWhile_blank_iff front t)

/-- Trimming adds nothing. -/
theorem length_trim_le (t : Text) : t.trim.length ≤ t.length := by
  have h := (List.dropWhile_sublist isBlank (l := t)).length_le
  have h' :=
    (List.dropWhile_sublist isBlank (l := t.trimStart.reverse)).length_le
  unfold trim trimEnd
  rw [List.length_reverse]
  rw [List.length_reverse] at h'
  exact Nat.le_trans h' h

-- ================================================ what was taken off

/-- White space and nothing else. -/
def Blank (t : Text) : Prop := ∀ c ∈ t, isBlank c = true

instance (t : Text) : Decidable (Blank t) :=
  decidable_of_iff (t.all isBlank = true) List.all_eq_true

/-- The empty text is blank. -/
theorem Blank.nil : Blank [] := fun _ hc => absurd hc List.not_mem_nil

/-- Blank texts are blank together. -/
theorem Blank.append {s t : Text} (hs : Blank s) (ht : Blank t) :
    Blank (s ++ t) :=
  List.forall_mem_append.2 ⟨hs, ht⟩

/-- What is taken off at the end is white space. -/
private theorem trimEnd_split (t : Text) :
    ∃ trail, t = t.trimEnd ++ trail ∧ Blank trail := by
  refine ⟨(t.reverse.takeWhile isBlank).reverse, ?_, fun c hc => ?_⟩
  · unfold trimEnd
    rw [← List.reverse_append, List.takeWhile_append_dropWhile,
      List.reverse_reverse]
  · exact List.all_eq_true.1 List.all_takeWhile c (List.mem_reverse.1 hc)

/-- A text is its trimmed form with white space around it; the indent is
the size of the white space before. -/
theorem trim_split (t : Text) : ∃ lead trail, t = lead ++ (t.trim ++ trail)
    ∧ Blank lead ∧ Blank trail ∧ lead.size = t.indent := by
  obtain ⟨trail, htrail, hblank⟩ := trimEnd_split t.trimStart
  refine ⟨t.takeWhile isBlank, trail, ?_, ?_, hblank, rfl⟩
  · show t = _ ++ (t.trimStart.trimEnd ++ trail)
    rw [← htrail]
    exact List.takeWhile_append_dropWhile.symm
  · exact List.all_eq_true.1 List.all_takeWhile

/-- Nothing is left of blank texts only. -/
theorem trim_eq_nil_iff {t : Text} : t.trim = [] ↔ Blank t := by
  constructor
  · intro h
    obtain ⟨lead, trail, ht, hlead, htrail, -⟩ := trim_split t
    rw [h, List.nil_append] at ht
    rw [ht]
    exact hlead.append htrail
  · intro h
    have hstart : t.trimStart = [] := List.dropWhile_eq_nil_iff.2 h
    unfold trim
    rw [hstart]
    rfl

/-- What trimming leaves has something in it if the text has. -/
theorem not_blank_trim {t : Text} (h : t.trim ≠ []) : ¬ Blank t.trim := by
  intro hblank
  obtain ⟨lead, trail, ht, hlead, htrail, -⟩ := trim_split t
  refine h (trim_eq_nil_iff.2 ?_)
  rw [ht]
  exact hlead.append (hblank.append htrail)

/-- A blank text is indent from end to end. -/
theorem indent_of_blank {t : Text} (h : Blank t) : t.indent = t.size := by
  unfold indent
  rw [List.takeWhile_eq_self_iff.2 h]

/-- The size of the white space in front is what the text is shorter by
without it. -/
theorem size_trimStart (t : Text) : t.indent + t.trimStart.size = t.size := by
  show size (t.takeWhile isBlank) + size (t.dropWhile isBlank) = t.size
  rw [← size_append, List.takeWhile_append_dropWhile]

-- ========================================================= what is left

/-- No white space at either end. -/
structure Trimmed (t : Text) : Prop where
  front : ∀ c ∈ t.head?, isBlank c = false
  back : ∀ c ∈ t.getLast?, isBlank c = false

/-- White space in front is taken off. -/
theorem trimStart_append {s : Text} (hs : Blank s) (t : Text) :
    (s ++ t).trimStart = t.trimStart :=
  List.dropWhile_append_of_pos hs

/-- A text that does not begin with white space begins as it is. -/
theorem trimStart_eq_self {t : Text} (h : ∀ c ∈ t.head?, isBlank c = false) :
    t.trimStart = t := by
  cases t with
  | nil => rfl
  | cons c t => exact List.dropWhile_cons_of_neg (by simp [h c rfl])

/-- Trimmed, a text does not begin with white space. -/
private theorem head?_trimStart (t : Text) :
    ∀ c ∈ t.trimStart.head?, isBlank c = false := by
  unfold trimStart
  induction t with
  | nil => exact fun c hc => absurd hc (Option.not_mem_none c)
  | cons c t ih =>
      by_cases hc : isBlank c = true
      · rw [List.dropWhile_cons_of_pos hc]
        exact ih
      · rw [List.dropWhile_cons_of_neg hc]
        intro d hd
        obtain rfl := Option.some.inj hd
        exact Bool.eq_false_iff.2 hc

/-- White space at the end is taken off. -/
private theorem trimEnd_append {s : Text} (hs : Blank s) (t : Text) :
    (t ++ s).trimEnd = t.trimEnd := by
  unfold trimEnd
  rw [List.reverse_append, List.dropWhile_append_of_pos fun c hc =>
    hs c (List.mem_reverse.1 hc)]

/-- A text that does not end with white space ends as it is. -/
private theorem trimEnd_eq_self {t : Text}
    (h : ∀ c ∈ t.getLast?, isBlank c = false) : t.trimEnd = t := by
  rw [← List.head?_reverse] at h
  unfold trimEnd
  rw [show t.reverse.dropWhile isBlank = t.reverse from trimStart_eq_self h,
    List.reverse_reverse]

/-- White space around a trimmed text is what trimming takes off. -/
theorem trim_append {lead t trail : Text} (hlead : Blank lead) (ht : Trimmed t)
    (htrail : Blank trail) : (lead ++ (t ++ trail)).trim = t := by
  cases t with
  | nil => exact trim_eq_nil_iff.2 (hlead.append htrail)
  | cons c t =>
      have hfront : ∀ d ∈ (c :: t ++ trail).head?, isBlank d = false := ht.front
      unfold trim
      rw [trimStart_append hlead, trimStart_eq_self hfront,
        trimEnd_append htrail,
        trimEnd_eq_self ht.back]

/-- What is left of a text is trimmed. -/
theorem trimmed_trim (t : Text) : Trimmed t.trim where
  front c hc := by
    obtain ⟨trail, htrail, -⟩ := trimEnd_split t.trimStart
    obtain ⟨rest, hrest⟩ := List.head?_eq_some_iff.1 hc
    apply head?_trimStart t c
    rw [htrail, show t.trimStart.trimEnd = c :: rest from hrest]
    rfl
  back c hc := by
    apply head?_trimStart t.trimStart.reverse c
    rw [← List.getLast?_reverse]
    exact hc

/-- Only the first and the last character of a text make it a trimmed
one. -/
theorem trimmed_append {s t : Text} (hs : s ≠ []) (ht : t ≠ [])
    (front : ∀ c ∈ s.head?, isBlank c = false)
    (back : ∀ c ∈ t.getLast?, isBlank c = false) :
    Trimmed (s ++ t) where
  front := by
    obtain ⟨c, s, rfl⟩ := List.exists_cons_of_ne_nil hs
    exact front
  back := by
    rw [List.getLast?_append, List.getLast?_eq_some_getLast ht]
    rw [List.getLast?_eq_some_getLast ht] at back
    exact back

/-- What is left of a text is a part of it. -/
theorem trim_infix (t : Text) : t.trim <:+: t := by
  obtain ⟨lead, trail, ht, -⟩ := trim_split t
  exact ⟨lead, trail, by rw [List.append_assoc, ← ht]⟩

end Munch.Text
