/-
What each pass of the reader does, one step at a time.

The first pass takes a rule apart at the bars its walk meets outside
groups and literals: what it has cut, joined again, is the rule, and no
piece has such a bar (`cut_sound`); and it goes through any stretch
without one (`cut_append`).

The second pass does one of four things with a character. At the top it
acts on it (`step_origin`); at the end of a top-level literal or group
it adds an item (`step_quote`, `step_close`); anywhere else it keeps the
character (`step_holds`). `finish_eq_ok_iff` says when its last state is
one that a tree can be made of.
-/
import Munch.Proofs.Rule.Walk

namespace Munch.Rule

variable {owner : Owner} {inner : Nat → Text → Parsed Node} {offset i : Nat}

/-- The top is where a text begins. -/
theorem Place.isTop_iff {p : Place} : p.IsTop ↔ p = .origin := by
  cases p
  simp [Place.IsTop, Place.origin]

/-- What is asked at the top is asked where a text begins. -/
theorem Place.isTop_and_iff {p : Place} {P : Prop} :
    p.IsTop ∧ P ↔ p = .origin ∧ P :=
  and_congr_left' Place.isTop_iff

-- ============================================================= the cuts

/-- The text that a piece and the later ones were cut from. -/
def joined (piece : Text) : List (Nat × Text) → Text
  | [] => piece
  | (_, next) :: later => piece ++ '|' :: joined next later

private theorem joined_cons (c : Char) (piece : Text)
    (later : List (Nat × Text)) :
    joined (c :: piece) later = c :: joined piece later := by
  cases later <;> rfl

/-- The pieces of a text make up the text, and none of them has a bar or
an unmatched parenthesis of its own. -/
theorem cut_sound {p : Place} {t piece : Text} {later : List (Nat × Text)}
    (h : cut offset p i t = .ok (piece, later)) :
    t = joined piece later ∧ Visits (Quiet 0) p piece
      ∧ ∀ q ∈ later, Visits (Quiet 0) .origin q.2 := by
  induction t generalizing p i piece later with
  | nil =>
      obtain ⟨rfl, rfl⟩ := Prod.mk.inj (Except.ok.inj h)
      exact ⟨rfl, trivial, fun q hq => by cases hq⟩
  | cons c t ih =>
      unfold cut at h
      split at h
      · cases h
      rename_i hclose
      split at h
      · cases h
      rename_i piece' later' hrest
      obtain ⟨ht, hpiece, hlater⟩ := ih hrest
      rw [Place.isTop_and_iff] at hclose
      split at h
      · rename_i hbar
        obtain ⟨rfl, rfl⟩ := Place.isTop_and_iff.1 hbar
        obtain ⟨rfl, rfl⟩ := Prod.mk.inj (Except.ok.inj h)
        refine ⟨by rw [ht]; rfl, trivial, fun q hq => ?_⟩
        rcases List.mem_cons.1 hq with rfl | hq
        · exact hpiece
        · exact hlater q hq
      · rename_i hbar
        rw [Place.isTop_and_iff] at hbar
        obtain ⟨rfl, rfl⟩ := Prod.mk.inj (Except.ok.inj h)
        refine ⟨by rw [ht, joined_cons], ⟨?_, hpiece⟩, hlater⟩
        exact ⟨⟨Nat.zero_le _, hclose⟩, hbar⟩

/-- The first pass goes through whatever has neither a bar nor an
unmatched parenthesis of its own. -/
theorem cut_append {p : Place} {s t piece : Text} {later : List (Nat × Text)}
    (hs : Visits (Quiet 0) p s)
    (ht : cut offset (p.after s) (i + s.size) t = .ok (piece, later)) :
    cut offset p i (s ++ t) = .ok (s ++ piece, later) := by
  induction s generalizing p i with
  | nil => exact ht
  | cons c s ih =>
      obtain ⟨⟨⟨-, hclose⟩, hbar⟩, hs⟩ := hs
      rw [Place.after_cons, Text.size_cons, ← Nat.add_assoc] at ht
      rw [List.cons_append, cut, if_neg (fun h =>
        hclose (Place.isTop_and_iff.1 h)),
        ih hs ht]
      exact if_neg fun h => hbar (Place.isTop_and_iff.1 h)

/-- At a bar a new piece begins. -/
theorem cut_bar {t piece : Text} {later : List (Nat × Text)}
    (ht : cut offset .origin (i + 1) t = .ok (piece, later)) :
    cut offset .origin i ('|' :: t) = .ok ([], (i + 1, piece) :: later) := by
  have hnext : Place.next .origin '|' = .origin := rfl
  have hsize : ('|').utf8Size = 1 := rfl
  rw [cut, if_neg (by simp), hnext, hsize, ht]
  exact if_pos ⟨⟨rfl, rfl⟩, rfl⟩

-- ========================================================= second pass

namespace Pass

variable {p q : Pass} {c : Char}

/-- The reader only keeps the character: it stands neither at the top
nor at the end of a top-level literal or group. -/
def Holds (p : Place) (c : Char) : Prop :=
  p ≠ .origin ∧ ¬ (p = ⟨.outside, 1⟩ ∧ c = ')') ∧ ¬ (p = ⟨.inside, 0⟩ ∧ c = '"')

/-- A character in a literal that does not end it is held. -/
theorem holds_of_covered {d : Nat} (p : Place) (c : Char) (h : Covered d p c) :
    Holds p c := by
  obtain ⟨hquote, -, hend⟩ := h
  refine ⟨fun hp => hquote ?_, fun hp => hquote ?_, fun hp => hend ⟨?_, hp.2⟩⟩
  · rw [hp]
    rfl
  · rw [hp.1]
  · rw [hp.1]

/-- A character in a group that does not end it is held. -/
theorem holds_of_stays (p : Place) (c : Char) (h : Stays 1 p c) :
    Holds p c := by
  obtain ⟨hdepth, hclose⟩ := h
  refine ⟨fun hp => ?_, hclose, fun hp => ?_⟩
  · rw [hp] at hdepth
    exact absurd hdepth (by decide)
  · rw [hp.1] at hdepth
    exact absurd hdepth (by decide)

/-- At the top, a step reads the character itself. -/
theorem step_origin (h : p.place = .origin) :
    p.step owner inner offset i c = p.stepTop owner offset i c := by
  unfold step
  rw [h]
  rfl

/-- A quote in a literal that began at the top ends it. -/
theorem step_quote (h : p.place = ⟨.inside, 0⟩) :
    p.step owner inner offset i '"'
      = .ok (p.push (.literal p.held.reverse)) := by
  unfold step
  rw [h]
  rfl

/-- A parenthesis ends the group that began at the top. -/
theorem step_close (h : p.place = ⟨.outside, 1⟩) :
    p.step owner inner offset i ')' = p.closeGroup inner offset i := by
  unfold step
  rw [h]
  rfl

/-- Anywhere else, a step keeps the character. -/
theorem step_holds (h : Holds p.place c) :
    p.step owner inner offset i c = .ok (p.hold c) := by
  obtain ⟨hplace, hgroup, hliteral⟩ := h
  unfold step
  split
  · rename_i hquote hdepth
    exact absurd (Place.isTop_iff.1 ⟨hquote, hdepth⟩) hplace
  · rename_i hquote hdepth
    refine if_neg fun hc => hgroup ⟨?_, hc⟩
    rw [← hquote, ← hdepth]
  · rename_i hquote hdepth
    refine if_neg fun hc => hliteral ⟨?_, hc⟩
    rw [← hquote, ← hdepth]
  · rfl

-- ======================================================= words and ends

/-- Without a word, there is none to end. -/
theorem endWord_of_nil (h : p.word = []) : p.endWord owner = p :=
  if_pos h

/-- A word that ends is a reference. -/
theorem endWord_of_ne_nil (h : p.word ≠ []) :
    p.endWord owner
      = { p.push (owner.reference p.word.reverse) with word := [] } :=
  if_neg h

/-- Behind a word's end there is no word. -/
@[simp] theorem endWord_word (owner : Owner) (p : Pass) :
    (p.endWord owner).word = [] := by
  by_cases h : p.word = []
  · rw [endWord_of_nil h, h]
  · rw [endWord_of_ne_nil h]

/-- The characters that do not end a word are those of words. -/
theorem endsWord_iff {c : Char} (hc : c ≠ '|') :
    endsWord c = false ↔ IsWordChar c := by
  simp [endsWord, IsWordChar, hc, and_assoc]

/-- What a character at the top can do: go on with a word, or end it and
then do nothing more, mark the last item, or open a literal or group. -/
theorem stepTop_cases (hbar : c ≠ '|')
    (h : p.stepTop owner offset i c = .ok q) :
    (IsWordChar c ∧ q = { p with word := c :: p.word })
      ∨ (isBlank c = true ∧ q = p.endWord owner)
      ∨ (c = '*' ∧ ∃ last before, (p.endWord owner).elements = last :: before
          ∧ q = { p.endWord owner with
                  elements := { last with starred := true } :: before })
      ∨ ((c = '"' ∨ c = '(') ∧ q = (p.endWord owner).openAt (i + 1)) := by
  unfold stepTop at h
  split at h
  · rename_i hend
    simp only at h
    split at h
    · rename_i hstar
      unfold star at h
      split at h
      · cases h
      · rename_i last before hlast
        exact .inr (.inr (.inl ⟨hstar, last, before, hlast,
          (Except.ok.inj h).symm⟩))
    · split at h
      · cases h
      · split at h
        · rename_i hopen
          exact .inr (.inr (.inr ⟨hopen, (Except.ok.inj h).symm⟩))
        · rename_i hstar hclose hopen
          have hblank : isBlank c = true := by
            rw [not_or] at hopen
            simpa [endsWord, hstar, hclose, hopen] using hend
          exact .inr (.inl ⟨hblank, (Except.ok.inj h).symm⟩)
  · rename_i hend
    rw [Bool.not_eq_true, endsWord_iff hbar] at hend
    exact .inl ⟨hend, (Except.ok.inj h).symm⟩

/-- A tree is made of the elements read, if there are any, and only
outside all literals and groups. -/
theorem finish_eq_ok_iff {size : Nat} {node : Node} :
    p.finish owner offset size = .ok node ↔ p.place = .origin
      ∧ (p.endWord owner).elements.reverse ≠ []
      ∧ node = sequenced (p.endWord owner).elements.reverse := by
  rw [← Place.isTop_iff, Place.IsTop, finish]
  by_cases hquote : p.place.quote = .outside
  · by_cases hdepth : p.place.depth = 0
    · rw [if_neg (fun h => h hquote), if_neg (fun h => h hdepth)]
      generalize (p.endWord owner).elements.reverse = elements
      have hplace : p.place.quote = .outside ∧ p.place.depth = 0 :=
        ⟨hquote, hdepth⟩
      match elements with
      | [] => simp
      | [⟨_, false⟩] => simp [hplace, sequenced, eq_comm]
      | [⟨_, true⟩] => simp [hplace, sequenced, eq_comm]
      | _ :: _ :: _ => simp [hplace, sequenced, eq_comm]
    · rw [if_neg (fun h => h hquote), if_pos hdepth]
      simp [hdepth]
  · rw [if_pos hquote]
    simp [hquote]

end Pass

end Munch.Rule
