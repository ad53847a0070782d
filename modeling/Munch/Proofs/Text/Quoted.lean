/-
What stands between quotes can be read back.

A character is written as it is, as a letter behind a backslash, or by
its number in braces (`escape_cases`). What comes first tells which of the
three, a letter tells its character, and a brace ends a number, so one
written character tells the character and where it ends
(`escape_append_inj`). Hence a quoted text tells the text (`quoted_inj`).
And it is a single line (`newline_not_mem_quoted`).
-/
import Mathlib.Data.Nat.Digits.Defs
import Munch.Text.Quoted

namespace Munch.Text

-- ============================================================= numbers

private theorem digitChar_inj :
    ∀ m < 16, ∀ n < 16, m.digitChar = n.digitChar → m = n := by
  decide

/-- Two numbers with the same digits are the same: the last digits tell
the remainders, and those before them the quotients. -/
theorem toDigits_inj {m n : Nat} (h : Nat.toDigits 16 m = Nat.toDigits 16 n) :
    m = n := by
  induction m using Nat.strongRecOn generalizing n with
  | ind m ih =>
      rw [Nat.toDigits_eq_if (n := m) (by decide),
        Nat.toDigits_eq_if (n := n) (by decide)] at h
      by_cases hm : m < 16
      · by_cases hn : n < 16
        · rw [if_pos hm, if_pos hn] at h
          exact digitChar_inj m hm n hn (List.singleton_inj.1 h)
        · rw [if_pos hm, if_neg hn] at h
          have hlength := congrArg List.length h
          have hpos := Nat.length_toDigits_pos (b := 16) (n := n / 16)
          simp only [List.length_append, List.length_singleton] at hlength
          omega
      · by_cases hn : n < 16
        · rw [if_neg hm, if_pos hn] at h
          have hlength := congrArg List.length h
          have hpos := Nat.length_toDigits_pos (b := 16) (n := m / 16)
          simp only [List.length_append, List.length_singleton] at hlength
          omega
        · rw [if_neg hm, if_neg hn] at h
          obtain ⟨hfront, hlast⟩ := List.append_inj' h rfl
          have hquotient : m / 16 = n / 16 := ih (m / 16) (by omega) hfront
          have hremainder : m % 16 = n % 16 :=
            digitChar_inj _ (by omega) _ (by omega) (List.singleton_inj.1 hlast)
          omega

/-- The digits of a number are digits. -/
private theorem mem_toDigits {n : Nat} {c : Char} (h : c ∈ Nat.toDigits 16 n) :
    ∃ d < 16, c = Nat.digitChar d := by
  induction n using Nat.strongRecOn with
  | ind n ih =>
      rw [Nat.toDigits_eq_if (by decide)] at h
      by_cases hn : n < 16
      · rw [if_pos hn] at h
        exact ⟨n, hn, List.mem_singleton.1 h⟩
      · rw [if_neg hn] at h
        rcases List.mem_append.1 h with hfront | hlast
        · exact ih (n / 16) (by omega) hfront
        · exact ⟨n % 16, by omega, List.mem_singleton.1 hlast⟩

private theorem not_mem_toDigits {c : Char} (h : ∀ d < 16, c ≠ Nat.digitChar d)
    (n : Nat) : c ∉ Nat.toDigits 16 n := by
  intro hmem
  obtain ⟨d, hd, hc⟩ := mem_toDigits hmem
  exact h d hd hc

-- ======================================================= up to a character

/-- A text falls apart at one place only where a character stands for the
first time; it may stand behind it, too. -/
theorem append_cons_inj {s s' t t' : Text} {c : Char} (hs : c ∉ s)
    (hs' : c ∉ s') (h : s ++ c :: t = s' ++ c :: t') : s = s' ∧ t = t' := by
  induction s generalizing s' with
  | nil =>
      cases s' with
      | nil => exact ⟨rfl, (List.cons.inj h).2⟩
      | cons d s' =>
          exact absurd (List.mem_cons.2 (.inl (List.cons.inj h).1)) hs'
  | cons d s ih =>
      cases s' with
      | nil => exact absurd (List.mem_cons.2 (.inl (List.cons.inj h).1.symm)) hs
      | cons d' s' =>
          obtain ⟨rfl, hrest⟩ := List.cons.inj h
          obtain ⟨rfl, ht⟩ := ih (fun hc => hs (List.mem_cons_of_mem d hc))
            (fun hc => hs' (List.mem_cons_of_mem d hc)) hrest
          exact ⟨rfl, ht⟩

-- ========================================================== one character

/-- The characters that are written by a letter, and the letters. -/
def letters : List (Char × Char) :=
  [('"', '"'), ('\\', '\\'), ('\x00', '0'), ('\t', 't'), ('\n', 'n'),
    ('\r', 'r')]

/-- Each letter tells its character, and none is that of numbers. -/
theorem letters_inj : ∀ p ∈ letters, ∀ q ∈ letters, p.2 = q.2 → p.1 = q.1 := by
  decide

private theorem letters_ne : ∀ p ∈ letters, p.2 ≠ 'u' ∧ p.2 ≠ '\n' := by decide

/-- How a character is written: as it is, by a letter or by its number. -/
theorem escape_cases (c : Char) :
    (c ≠ '\\' ∧ c ≠ '\n' ∧ escape '"' c = [c])
      ∨ (∃ letter, (c, letter) ∈ letters ∧ escape '"' c = ['\\', letter])
      ∨ escape '"' c = '\\' :: 'u' :: '{'
        :: (Nat.toDigits 16 c.toNat ++ ['}']) := by
  unfold escape
  split
  · rename_i hc
    refine .inr (.inl ⟨c, ?_, rfl⟩)
    rcases hc with rfl | rfl
    · decide
    · decide
  rename_i hc
  split
  · rename_i h0
    exact .inr (.inl ⟨'0', h0 ▸ by decide, rfl⟩)
  split
  · rename_i ht
    exact .inr (.inl ⟨'t', ht ▸ by decide, rfl⟩)
  split
  · rename_i hn
    exact .inr (.inl ⟨'n', hn ▸ by decide, rfl⟩)
  rename_i hn
  split
  · rename_i hr
    exact .inr (.inl ⟨'r', hr ▸ by decide, rfl⟩)
  split
  · exact .inr (.inr rfl)
  · exact .inl ⟨fun h => hc (.inr h), hn, rfl⟩

/-- A character is written as something. -/
private theorem escape_ne_nil (c : Char) : escape '"' c ≠ [] := by
  rcases escape_cases c with ⟨-, -, h⟩ | ⟨letter, -, h⟩ | h
  · simp [h]
  · simp [h]
  · simp [h]

/-- A written character tells the character and where it ends. -/
theorem escape_append_inj {c c' : Char} {s s' : Text}
    (h : escape '"' c ++ s = escape '"' c' ++ s') : c = c' ∧ s = s' := by
  rcases escape_cases c with ⟨hc, -, he⟩ | ⟨letter, hletter, he⟩ | he
  · rcases escape_cases c' with ⟨-, -, he'⟩ | ⟨letter', -, he'⟩ | he'
    · rw [he, he'] at h
      exact List.cons.inj h
    · rw [he, he'] at h
      exact absurd (List.cons.inj h).1 hc
    · rw [he, he'] at h
      exact absurd (List.cons.inj h).1 hc
  · rcases escape_cases c' with ⟨hc', -, he'⟩ | ⟨letter', hletter', he'⟩ | he'
    · rw [he, he'] at h
      exact absurd (List.cons.inj h).1.symm hc'
    · rw [he, he'] at h
      obtain ⟨hl, hs⟩ := List.cons.inj (List.cons.inj h).2
      exact ⟨letters_inj _ hletter _ hletter' hl, hs⟩
    · rw [he, he'] at h
      exact absurd (List.cons.inj (List.cons.inj h).2).1
        (letters_ne _ hletter).1
  · rcases escape_cases c' with ⟨hc', -, he'⟩ | ⟨letter', hletter', he'⟩ | he'
    · rw [he, he'] at h
      exact absurd (List.cons.inj h).1.symm hc'
    · rw [he, he'] at h
      exact absurd (List.cons.inj (List.cons.inj h).2).1.symm
        (letters_ne _ hletter').1
    · have hnumber : Nat.toDigits 16 c.toNat ++ '}' :: s
          = Nat.toDigits 16 c'.toNat ++ '}' :: s' := by
        rw [he, he'] at h
        simpa using h
      have hbrace : ∀ n, '}' ∉ Nat.toDigits 16 n := not_mem_toDigits (by decide)
      obtain ⟨hdigits, hs⟩ :=
        append_cons_inj (hbrace c.toNat) (hbrace c'.toNat) hnumber
      exact ⟨Char.toNat_inj.1 (toDigits_inj hdigits), hs⟩

/-- What is written has no newline in it. -/
private theorem newline_not_mem_escape (c : Char) : '\n' ∉ escape '"' c := by
  rcases escape_cases c with ⟨-, hc, h⟩ | ⟨letter, hletter, h⟩ | h
  · rw [h, List.mem_singleton]
    exact Ne.symm hc
  · have hn := (letters_ne _ hletter).2
    simp [h, Ne.symm hn]
  · have hn : '\n' ∉ Nat.toDigits 16 c.toNat :=
      not_mem_toDigits (by decide) c.toNat
    simp [h, hn]

-- ================================================================ texts

/-- A text can be read back from how it is written. -/
private theorem escaped_inj {t t' : Text}
    (h : t.flatMap (escape '"') = t'.flatMap (escape '"')) : t = t' := by
  induction t generalizing t' with
  | nil =>
      cases t' with
      | nil => rfl
      | cons c t' =>
          exact absurd (List.append_eq_nil_iff.1 h.symm).1 (escape_ne_nil c)
  | cons c t ih =>
      cases t' with
      | nil => exact absurd (List.append_eq_nil_iff.1 h).1 (escape_ne_nil c)
      | cons c' t' =>
          rw [List.flatMap_cons, List.flatMap_cons] at h
          obtain ⟨rfl, hrest⟩ := escape_append_inj h
          rw [ih hrest]

/-- A quoted text tells the text. -/
theorem quoted_inj {t t' : Text} (h : t.quoted '"' = t'.quoted '"') : t = t' :=
  escaped_inj (List.append_cancel_right (List.cons.inj h).2)

/-- A quoted text is a single line. -/
theorem newline_not_mem_quoted (t : Text) : '\n' ∉ t.quoted '"' := by
  have hescaped : '\n' ∉ t.flatMap (escape '"') := by
    intro h
    obtain ⟨c, -, hc⟩ := List.mem_flatMap.1 h
    exact newline_not_mem_escape c hc
  simp [quoted, hescaped]

end Munch.Text
