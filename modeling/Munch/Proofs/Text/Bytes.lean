/-
Texts as bytes of UTF-8, and why comparing bytes compares characters.

The encoding of a character is never the beginning of another's
(`utf8EncodeChar_append_inj`), so a text whose bytes begin another's
begins it (`bytes_prefix_iff`). And the first byte of a character is
never a later byte of one, so bytes that begin with a whole character can
only stand at a character boundary (`isBoundary_of_head`). Together: a
nonempty text stands at an offset byte by byte exactly if the other text
can be cut there and goes on with it (`standsAt_iff`).
-/
import Munch.Proofs.Text.Cuts

namespace Munch.Text

/-- The UTF-8 form of a text. -/
def bytes (t : Text) : List UInt8 := t.flatMap String.utf8EncodeChar

/-- The bytes of a text from an offset on begin with those of another. -/
def StandsAt (w t : Text) (start : Nat) : Prop :=
  (t.bytes.drop start).take w.size = w.bytes

-- ======================================================= sizes in bytes

@[simp] theorem bytes_nil : bytes [] = [] := rfl

@[simp] theorem bytes_cons (c : Char) (t : Text) :
    bytes (c :: t) = String.utf8EncodeChar c ++ bytes t := rfl

/-- The bytes of a text are those of its parts. -/
theorem bytes_append (s t : Text) : bytes (s ++ t) = bytes s ++ bytes t := by
  unfold bytes
  rw [List.flatMap_append]

/-- The size of a text is the number of its bytes. -/
theorem length_bytes (t : Text) : (bytes t).length = t.size := by
  induction t with
  | nil => rfl
  | cons c t ih => rw [bytes_cons, List.length_append, ih,
      String.length_utf8EncodeChar, size_cons]

-- ================================================ bytes and characters

/-- The bytes of a character tell it from every other, whatever comes
behind them. -/
theorem utf8EncodeChar_append_inj {c d : Char} {x y : List UInt8}
    (h : String.utf8EncodeChar c ++ x = String.utf8EncodeChar d ++ y) :
    c = d ∧ x = y := by
  have decoded : ∀ (e : Char) (z : List UInt8),
      (String.utf8EncodeChar e ++ z).toByteArray.utf8DecodeChar? 0
        = some e := by
    intro e z
    rw [List.toByteArray_append]
    exact ByteArray.utf8DecodeChar?_utf8EncodeChar_append
  have hcd : c = d := by
    have hc := decoded c x
    rw [h, decoded d y] at hc
    exact (Option.some.inj hc).symm
  subst hcd
  exact ⟨rfl, List.append_cancel_left h⟩

/-- A text begins with another if its bytes do. -/
theorem bytes_prefix_iff {w t : Text} : bytes w <+: bytes t ↔ w <+: t := by
  constructor
  · intro h
    induction w generalizing t with
    | nil => exact List.nil_prefix
    | cons c w ih =>
        obtain ⟨z, hz⟩ := h
        cases t with
        | nil =>
            rw [bytes_cons, bytes_nil, List.append_assoc] at hz
            exact absurd (List.append_eq_nil_iff.1 hz).1
              String.utf8EncodeChar_ne_nil
        | cons d t =>
            rw [bytes_cons, bytes_cons, List.append_assoc] at hz
            obtain ⟨rfl, hrest⟩ := utf8EncodeChar_append_inj hz
            exact (List.prefix_cons_inj c).2 (ih ⟨z, hrest⟩)
  · rintro ⟨z, rfl⟩
    exact ⟨bytes z, (bytes_append w z).symm⟩

/-- Bytes that begin with a whole character stand at a boundary: no
later byte of a character can be a first one. -/
theorem isBoundary_of_head {t : Text} {n : Nat} {c : Char} {x : List UInt8}
    (h : t.bytes.drop n = String.utf8EncodeChar c ++ x) :
    t.isBoundary n = true := by
  induction t generalizing n with
  | nil =>
      rw [bytes_nil, List.drop_nil] at h
      exact absurd (List.append_eq_nil_iff.1 h.symm).1
        String.utf8EncodeChar_ne_nil
  | cons d t ih =>
      by_cases hn : n = 0
      · subst hn
        exact isBoundary_zero _
      · by_cases hd : n < d.utf8Size
        · -- inside `d`, where the byte found continues a character
          exfalso
          have hlt : n < (String.utf8EncodeChar d).length := by
            rw [String.length_utf8EncodeChar]
            exact hd
          have hpos : 0 < (String.utf8EncodeChar c).length := by
            rw [String.length_utf8EncodeChar]
            exact c.utf8Size_pos
          have hbyte : (String.utf8EncodeChar d)[n]
              = (String.utf8EncodeChar c)[0] := by
            have h0 := congrArg (·[0]?) h
            simp only [bytes_cons, List.getElem?_drop, Nat.add_zero] at h0
            rw [List.getElem?_append_left hlt, List.getElem?_append_left hpos,
              List.getElem?_eq_getElem hlt, List.getElem?_eq_getElem hpos] at h0
            exact Option.some.inj h0
          have hfirst :=
            UInt8.isUTF8FirstByte_getElem_zero_utf8EncodeChar (c := c)
          rw [← hbyte, UInt8.isUTF8FirstByte_getElem_utf8EncodeChar] at hfirst
          exact hn hfirst
        · have hle : (String.utf8EncodeChar d).length ≤ n := by
            rw [String.length_utf8EncodeChar]
            omega
          rw [bytes_cons, List.drop_append, List.drop_of_length_le hle,
            List.nil_append, String.length_utf8EncodeChar] at h
          obtain ⟨front, rest, rfl, hfront⟩ := isBoundary_iff.1 (ih h)
          refine isBoundary_iff.2 ⟨d :: front, rest, rfl, ?_⟩
          rw [size_cons, hfront]
          omega

/-- A nonempty text stands at an offset byte by byte exactly where the
other text can be cut and goes on with it. -/
theorem standsAt_iff {w t : Text} {start : Nat} (hw : w ≠ []) :
    w.StandsAt t start ↔ ∃ rest, t.after? start = some (w ++ rest) := by
  unfold StandsAt
  rw [← length_bytes w]
  constructor
  · intro h
    have hprefix : bytes w <+: t.bytes.drop start := by
      rw [← h]
      exact List.take_prefix _ _
    obtain ⟨c, w, rfl⟩ := List.exists_cons_of_ne_nil hw
    obtain ⟨z, hz⟩ := hprefix
    rw [bytes_cons, List.append_assoc] at hz
    obtain ⟨tail, htail⟩ :=
      Option.isSome_iff_exists.1 (isBoundary_of_head hz.symm)
    obtain ⟨front, rfl, rfl⟩ := after?_eq_some_iff.1 htail
    rw [bytes_append, ← length_bytes front, List.drop_left] at hz
    obtain ⟨rest, rfl⟩ : c :: w <+: tail :=
      bytes_prefix_iff.1 ⟨z, by rw [bytes_cons, List.append_assoc]; exact hz⟩
    exact ⟨rest, htail⟩
  · rintro ⟨rest, h⟩
    obtain ⟨front, rfl, rfl⟩ := after?_eq_some_iff.1 h
    rw [bytes_append, ← length_bytes front, List.drop_left, bytes_append,
      List.take_left]

/-- A text stands at an offset if its bytes begin there. -/
private theorem standsAt_iff_begins {w t : Text} {start : Nat} :
    w.StandsAt t start ↔ bytes w <+: t.bytes.drop start := by
  rw [List.prefix_iff_eq_take, length_bytes]
  exact eq_comm

/-- A text stands where its first part does and its second behind it. -/
theorem standsAt_append {v w t : Text} {start : Nat} :
    (v ++ w).StandsAt t start ↔ v.StandsAt t start
      ∧ w.StandsAt t (start + v.size) := by
  simp only [standsAt_iff_begins, bytes_append]
  rw [← List.drop_drop, ← length_bytes v]
  constructor
  · rintro ⟨z, hz⟩
    rw [← hz, List.append_assoc, List.drop_left]
    exact ⟨List.prefix_append _ _, List.prefix_append _ _⟩
  · rintro ⟨⟨y, hy⟩, z, hz⟩
    rw [← hy, List.drop_left] at hz
    exact ⟨z, by rw [← hy, ← hz, List.append_assoc]⟩

end Munch.Text
