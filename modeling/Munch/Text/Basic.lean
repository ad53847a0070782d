/-
Texts and offsets into them.

A text is a list of characters; an offset counts bytes of its UTF-8
form. Not every offset is a place where a text can be cut: `after?` and
`before?` answer only at character boundaries, and `after?_eq_some_iff`
says that these are exactly the sizes of the text's initial parts.
`slice?` is both cuts together.

White space comes off the ends of a text with `trim`, and a text falls
into lines with `lines`.
-/
import Munch.Text.Blank

namespace Munch

/-- A text: its characters, first to last. -/
abbrev Text := List Char

namespace Text

-- ================================================ sizes and boundaries

/-- The length of a text in bytes of UTF-8. -/
def size : Text → Nat
  | [] => 0
  | c :: t => c.utf8Size + size t

/-- What follows an offset, if it lies on a character boundary. -/
def after? : Text → Nat → Option Text
  | t, 0 => some t
  | [], _ + 1 => none
  | c :: t, n + 1 =>
      if c.utf8Size ≤ n + 1 then after? t (n + 1 - c.utf8Size) else none

/-- What precedes an offset, if it lies on a character boundary. -/
def before? : Text → Nat → Option Text
  | _, 0 => some []
  | [], _ + 1 => none
  | c :: t, n + 1 =>
      if c.utf8Size ≤ n + 1 then
        (before? t (n + 1 - c.utf8Size)).map (c :: ·)
      else none

/-- Whether a text can be cut at an offset. -/
def isBoundary (t : Text) (offset : Nat) : Bool := (t.after? offset).isSome

/-- What lies between two offsets, if both are boundaries, in order. -/
def slice? (t : Text) (start stop : Nat) : Option Text :=
  if start ≤ stop then
    (t.after? start).bind fun rest => before? rest (stop - start)
  else none

@[simp] theorem size_nil : size [] = 0 := rfl

@[simp] theorem size_cons (c : Char) (t : Text) :
    size (c :: t) = c.utf8Size + size t := rfl

/-- Sizes add up. -/
@[simp] theorem size_append (s t : Text) :
    size (s ++ t) = size s + size t := by
  induction s with
  | nil => simp
  | cons c s ih => simp [ih, Nat.add_assoc]

/-- Only the empty text has no size. -/
theorem size_eq_zero_iff {t : Text} : size t = 0 ↔ t = [] := by
  cases t with
  | nil => simp
  | cons c t =>
    have := c.utf8Size_pos
    simp
    omega

/-- The boundaries of a text are the sizes of its initial parts. -/
theorem after?_eq_some_iff {t rest : Text} {n : Nat} :
    after? t n = some rest ↔ ∃ front, t = front ++ rest ∧ size front = n := by
  induction t generalizing n with
  | nil =>
    cases n with
    | zero =>
      simp only [after?, Option.some.injEq, size_eq_zero_iff]
      exact ⟨fun h => ⟨[], by simp [h], rfl⟩,
        fun ⟨front, h, e⟩ => by simpa [e] using h⟩
    | succ n =>
      simp only [after?, reduceCtorEq, false_iff, not_exists, not_and]
      intro front h
      simp [(List.append_eq_nil_iff.1 h.symm).1]
  | cons c t ih =>
    have pos := c.utf8Size_pos
    cases n with
    | zero =>
      simp only [after?, Option.some.injEq, size_eq_zero_iff]
      exact ⟨fun h => ⟨[], by simp [h], rfl⟩,
        fun ⟨front, h, e⟩ => by simpa [e] using h⟩
    | succ n =>
      simp only [after?]
      split
      · rw [ih]
        constructor
        · rintro ⟨front, rfl, h⟩
          exact ⟨c :: front, rfl, by simp [h]; omega⟩
        · rintro ⟨front, h, e⟩
          cases front with
          | nil => simp at e
          | cons d front =>
            obtain ⟨rfl, rfl⟩ := List.cons.inj h
            exact ⟨front, rfl, by simp at e; omega⟩
      · simp only [reduceCtorEq, false_iff, not_exists, not_and]
        intro front h e
        cases front with
        | nil => simp at e
        | cons d front =>
          obtain ⟨rfl, rfl⟩ := List.cons.inj h
          simp at e
          omega

/-- What stands before an offset is the initial part of that size. -/
theorem before?_eq_some_iff {t front : Text} {n : Nat} :
    before? t n = some front ↔ (∃ rest, t = front ++ rest)
      ∧ size front = n := by
  induction t generalizing n front with
  | nil =>
    cases n with
    | zero =>
      simp only [before?, Option.some.injEq]
      constructor
      · rintro rfl
        exact ⟨⟨[], rfl⟩, rfl⟩
      · rintro ⟨-, e⟩
        exact (size_eq_zero_iff.1 e).symm
    | succ n =>
      simp only [before?, reduceCtorEq, false_iff, not_and]
      rintro ⟨rest, h⟩
      simp [(List.append_eq_nil_iff.1 h.symm).1]
  | cons c t ih =>
    have pos := c.utf8Size_pos
    cases n with
    | zero =>
      simp only [before?, Option.some.injEq]
      constructor
      · rintro rfl
        exact ⟨⟨c :: t, rfl⟩, rfl⟩
      · rintro ⟨-, e⟩
        exact (size_eq_zero_iff.1 e).symm
    | succ n =>
      simp only [before?]
      split
      · rw [Option.map_eq_some_iff]
        constructor
        · rintro ⟨front, h, rfl⟩
          obtain ⟨⟨rest, rfl⟩, e⟩ := ih.1 h
          exact ⟨⟨rest, rfl⟩, by simp [e]; omega⟩
        · rintro ⟨⟨rest, h⟩, e⟩
          cases front with
          | nil => simp at e
          | cons d front =>
            obtain ⟨rfl, rfl⟩ := List.cons.inj h
            exact ⟨front, ih.2 ⟨⟨rest, rfl⟩, by simp at e; omega⟩, rfl⟩
      · simp only [reduceCtorEq, false_iff, not_and]
        rintro ⟨rest, h⟩ e
        cases front with
        | nil => simp at e
        | cons d front =>
          obtain ⟨rfl, rfl⟩ := List.cons.inj h
          simp at e
          omega

-- ================================================== white space, lines

/-- The text from its first character that is not white space. -/
def trimStart (t : Text) : Text := t.dropWhile isBlank

/-- The text up to its last character that is not white space. -/
def trimEnd (t : Text) : Text := (t.reverse.dropWhile isBlank).reverse

/-- The text without the white space at its ends. -/
def trim (t : Text) : Text := trimEnd (trimStart t)

/-- How many bytes of white space a text starts with. -/
def indent (t : Text) : Nat := size (t.takeWhile isBlank)

/-- The lines of a text. A line ends at a line feed, which may have a
carriage return before it, or at the end of the text; neither is part of
the line, and no line follows the last line end. -/
def lines : Text → List Text
  | [] => []
  | '\n' :: t => [] :: lines t
  | '\r' :: '\n' :: t => [] :: lines t
  | c :: t =>
      match lines t with
      | [] => [[c]]
      | line :: rest => (c :: line) :: rest

end Text

end Munch
