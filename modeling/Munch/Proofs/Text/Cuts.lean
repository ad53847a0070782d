/-
Cutting a text. `after?`, `before?` and `slice?` each answer only at
character boundaries; here they are characterised by the parts that the
text falls into, so that no later proof opens their recursion:

- a boundary is the size of an initial part (`isBoundary_iff`);
- a slice is a middle part, its offsets the sizes of what comes before
  it and of both together (`slice?_eq_some_iff`).
-/
import Munch.Text.Basic

namespace Munch.Text

-- ========================================================== boundaries

/-- A boundary is the size of an initial part. -/
theorem isBoundary_iff {t : Text} {n : Nat} :
    t.isBoundary n = true ↔ ∃ front rest, t = front ++ rest
      ∧ size front = n := by
  unfold isBoundary
  rw [Option.isSome_iff_exists]
  constructor
  · rintro ⟨rest, h⟩
    obtain ⟨front, ht, hn⟩ := after?_eq_some_iff.1 h
    exact ⟨front, rest, ht, hn⟩
  · rintro ⟨front, rest, ht, hn⟩
    exact ⟨rest, after?_eq_some_iff.2 ⟨front, ht, hn⟩⟩

/-- A text is cut behind any of its initial parts. -/
theorem after?_append (front rest : Text) :
    after? (front ++ rest) front.size = some rest :=
  after?_eq_some_iff.2 ⟨front, rfl, rfl⟩

/-- Cutting twice is cutting once. -/
theorem after?_after? {t rest : Text} {m : Nat} (h : after? t m = some rest)
    (n : Nat) : after? t (m + n) = after? rest n := by
  obtain ⟨front, rfl, rfl⟩ := after?_eq_some_iff.1 h
  apply Option.ext
  intro last
  rw [after?_eq_some_iff, after?_eq_some_iff]
  constructor
  · rintro ⟨front', ht, hn⟩
    rcases List.append_eq_append_iff.1 ht with ⟨mid, rfl, rfl⟩ | ⟨mid, rfl, rfl⟩
    · rw [size_append] at hn
      exact ⟨mid, rfl, by omega⟩
    · have hmid : mid = [] :=
        size_eq_zero_iff.1 (by rw [size_append] at hn; omega)
      subst hmid
      rw [List.append_nil] at hn
      exact ⟨[], rfl, by rw [size_nil]; omega⟩
  · rintro ⟨mid, rfl, rfl⟩
    exact ⟨front ++ mid, (List.append_assoc ..).symm, size_append ..⟩

/-- A text begins on a boundary. -/
theorem isBoundary_zero (t : Text) : t.isBoundary 0 = true :=
  isBoundary_iff.2 ⟨[], t, rfl, rfl⟩

/-- A text ends on a boundary. -/
theorem isBoundary_size (t : Text) : t.isBoundary t.size = true :=
  isBoundary_iff.2 ⟨t, [], (List.append_nil t).symm, rfl⟩

/-- No boundary is past the end. -/
theorem le_size_of_isBoundary {t : Text} {n : Nat}
    (h : t.isBoundary n = true) : n ≤ t.size := by
  obtain ⟨front, rest, rfl, rfl⟩ := isBoundary_iff.1 h
  rw [size_append]
  omega

/-- A character that is added adds its size. -/
theorem size_concat (t : Text) (c : Char) :
    (t ++ [c]).size = t.size + c.utf8Size := by
  rw [size_append, size_cons, size_nil, Nat.add_zero]

/-- A text has no more characters than bytes. -/
theorem length_le_size (t : Text) : t.length ≤ t.size := by
  induction t with
  | nil => exact Nat.le_refl 0
  | cons c t ih =>
      have hpos := c.utf8Size_pos
      rw [List.length_cons, size_cons]
      omega

/-- A text falls apart at one place only for each size of the first
part. -/
theorem append_inj_of_size {s t s' t' : Text} (h : s ++ t = s' ++ t')
    (hsize : s.size = s'.size) : s = s' ∧ t = t' := by
  have hrest := after?_append s t
  rw [h, hsize, after?_append] at hrest
  obtain rfl := Option.some.inj hrest
  exact ⟨List.append_cancel_right h, rfl⟩

/-- Of two first parts of a text, the shorter begins the longer. -/
theorem exists_append_of_size_le {s t s' t' : Text} (h : s ++ t = s' ++ t')
    (hle : s.size ≤ s'.size) : ∃ mid, s' = s ++ mid ∧ t = mid ++ t' := by
  rcases List.append_eq_append_iff.1 h with ⟨mid, hs', ht⟩ | ⟨mid, rfl, rfl⟩
  · exact ⟨mid, hs', ht⟩
  · rw [size_append] at hle
    obtain rfl : mid = [] := size_eq_zero_iff.1 (by omega)
    exact ⟨[], (List.append_nil _).symm.trans (List.append_nil _).symm, rfl⟩

-- ============================================================== slices

/-- A slice is the part of a text between two boundaries. -/
theorem slice?_eq_some_iff {t part : Text} {start stop : Nat} :
    t.slice? start stop = some part ↔
      ∃ front rest, t = front ++ part ++ rest ∧ front.size = start
        ∧ start + part.size = stop := by
  unfold slice?
  constructor
  · intro h
    split at h
    case isFalse => cases h
    case isTrue hle =>
      obtain ⟨tail, htail, hpart⟩ := Option.bind_eq_some_iff.1 h
      obtain ⟨front, rfl, hfront⟩ := after?_eq_some_iff.1 htail
      obtain ⟨⟨rest, rfl⟩, hsize⟩ := before?_eq_some_iff.1 hpart
      exact ⟨front, rest, (List.append_assoc ..).symm, hfront, by omega⟩
  · rintro ⟨front, rest, rfl, rfl, rfl⟩
    rw [if_pos (Nat.le_add_right ..), List.append_assoc, after?_append,
      Option.bind_some, before?_eq_some_iff]
    exact ⟨⟨rest, rfl⟩, by omega⟩

/-- What lies between two boundaries in order is a slice. -/
theorem exists_slice? {t : Text} {start stop : Nat}
    (hstart : t.isBoundary start = true) (hstop : t.isBoundary stop = true)
    (hle : start ≤ stop) : ∃ part, t.slice? start stop = some part := by
  obtain ⟨tail, htail⟩ := Option.isSome_iff_exists.1 hstart
  obtain ⟨rest, hrest⟩ := Option.isSome_iff_exists.1 hstop
  rw [show stop = start + (stop - start) by omega, after?_after? htail,
    after?_eq_some_iff] at hrest
  obtain ⟨part, rfl, hsize⟩ := hrest
  obtain ⟨front, rfl, hfront⟩ := after?_eq_some_iff.1 htail
  exact ⟨part, slice?_eq_some_iff.2
    ⟨front, rest, (List.append_assoc ..).symm, hfront, by omega⟩⟩

/-- What is cut out of a part of a text is cut out of the text. -/
theorem slice?_window (front mid back : Text) (start : Nat) {stop : Nat}
    (hstop : stop ≤ mid.size) :
    slice? (front ++ (mid ++ back)) (front.size + start) (front.size + stop)
      = slice? mid start stop := by
  apply Option.ext
  intro part
  rw [slice?_eq_some_iff, slice?_eq_some_iff]
  constructor
  · rintro ⟨before, after, htext, hbefore, hpart⟩
    rw [List.append_assoc] at htext
    obtain ⟨skipped, rfl, hrest⟩ := exists_append_of_size_le htext (by omega)
    rw [size_append] at hbefore
    rw [← List.append_assoc] at hrest
    obtain ⟨left, rfl, -⟩ := exists_append_of_size_le hrest.symm (by
      rw [size_append]
      omega)
    exact ⟨skipped, left, rfl, by omega, by omega⟩
  · rintro ⟨before, after, rfl, rfl, rfl⟩
    refine ⟨front ++ before, after ++ back, ?_, size_append ..,
      Nat.add_assoc ..⟩
    simp only [List.append_assoc]

end Munch.Text
