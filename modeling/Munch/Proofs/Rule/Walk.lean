/-
Walks over a rule, and what they meet.

Both passes of the reader follow the places of a rule and act only on
some characters at some of them. So what they need to know of a text is
which characters it has where. `Visits` says that of a walk from any
place, and `Loops` that the walk also leads back to where it began.

The main results follow the grammar. The body of a literal never leaves
the literal (`Body.loops`); the items of an alternative have neither a
bar nor a closing parenthesis at the depth they begin at
(`Items.loops`); a rule has no closing parenthesis there, and returns to
it (`Alternatives.loops`). Hence a rule whose walk meets no bar outside
its groups has one alternative (`Alternatives.single`).
-/
import Munch.Proofs.Rule.Grammar

namespace Munch.Rule

-- =========================================================== places met

/-- A fact about each character of a text and the place it stands at,
where the text begins at a given place. -/
def Visits (ok : Place → Char → Prop) : Place → Text → Prop
  | _, [] => True
  | p, c :: t => ok p c ∧ Visits ok (p.next c) t

/-- A walk that also ends where it began. -/
def Loops (ok : Place → Char → Prop) (p : Place) (t : Text) : Prop :=
  Visits ok p t ∧ p.after t = p

section Walks

variable {ok ok' : Place → Char → Prop} {p : Place} {s t : Text}

/-- A walk goes on from the place behind the first part. -/
theorem Place.after_append (p : Place) (s t : Text) :
    p.after (s ++ t) = (p.after s).after t :=
  List.foldl_append ..

/-- A walk goes on from the place behind the first character. -/
theorem Place.after_cons (p : Place) (c : Char) (t : Text) :
    p.after (c :: t) = (p.next c).after t := rfl

/-- What holds all along a text holds along both its parts. -/
theorem visits_append :
    Visits ok p (s ++ t) ↔ Visits ok p s ∧ Visits ok (p.after s) t := by
  induction s generalizing p with
  | nil => simp [Visits, Place.after]
  | cons c s ih =>
      rw [List.cons_append, Visits, Visits, ih, and_assoc, Place.after_cons]

/-- What is visited is each character, at the place that the text before
it leads to. -/
theorem visits_iff :
    Visits ok p t ↔ ∀ front c rest, t = front ++ c :: rest →
      ok (p.after front) c := by
  induction t generalizing p with
  | nil => exact ⟨fun _ front c rest h => by simp at h, fun _ => trivial⟩
  | cons d t ih =>
      constructor
      · rintro ⟨hd, ht⟩ front c rest h
        cases front with
        | nil =>
            cases h
            exact hd
        | cons e front =>
            obtain ⟨rfl, rfl⟩ := List.cons.inj h
            exact ih.1 ht front c rest rfl
      · intro h
        exact ⟨h [] d t rfl, ih.2 fun front c rest ht =>
          h (d :: front) c rest (by rw [ht]; rfl)⟩

/-- What holds along a walk may be weakened. -/
theorem Visits.mono (h : ∀ p c, ok p c → ok' p c) (ht : Visits ok p t) :
    Visits ok' p t := by
  induction t generalizing p with
  | nil => trivial
  | cons c t ih => exact ⟨h p c ht.1, ih ht.2⟩

private theorem loops_nil : Loops ok p [] := ⟨trivial, rfl⟩

/-- Loops at one place may follow each other. -/
private theorem Loops.append (hs : Loops ok p s) (ht : Loops ok p t) :
    Loops ok p (s ++ t) := by
  refine ⟨visits_append.2 ⟨hs.1, ?_⟩, ?_⟩
  · rw [hs.2]
    exact ht.1
  · rw [Place.after_append, hs.2, ht.2]

/-- What holds along a loop may be weakened. -/
theorem Loops.mono (h : ∀ p c, ok p c → ok' p c) (ht : Loops ok p t) :
    Loops ok' p t :=
  ⟨ht.1.mono h, ht.2⟩

/-- Into a place, around, and back out. -/
theorem Loops.around {q : Place} {first last : Char} (hfirst : ok p first)
    (hin : p.next first = q) (ht : Loops ok q t) (hlast : ok q last)
    (hout : q.next last = p) : Loops ok p (first :: (t ++ [last])) := by
  refine ⟨⟨hfirst, ?_⟩, ?_⟩
  · rw [hin, visits_append, ht.2]
    exact ⟨ht.1, hlast, trivial⟩
  · rw [Place.after_cons, Place.after_append, hin, ht.2]
    exact hout

/-- Characters that each stay where they are. -/
theorem loops_of_forall (h : ∀ c ∈ t, ok p c ∧ p.next c = p) :
    Loops ok p t := by
  induction t with
  | nil => exact loops_nil
  | cons c t ih =>
      have hc := h c List.mem_cons_self
      have ht := ih fun d hd => h d (List.mem_cons_of_mem c hd)
      refine ⟨⟨hc.1, ?_⟩, ?_⟩
      · rw [hc.2]
        exact ht.1
      · rw [Place.after_cons, hc.2, ht.2]

end Walks

-- ================================================= what a rule may meet

/-- In a literal that opened at depth `d`, not at its end. -/
def Covered (d : Nat) (p : Place) (c : Char) : Prop :=
  p.quote ≠ .outside ∧ p.depth = d ∧ ¬ (p.quote = .inside ∧ c = '"')

/-- Not the end of a group whose contents are at depth `d`. -/
def Stays (d : Nat) (p : Place) (c : Char) : Prop :=
  d ≤ p.depth ∧ ¬ (p = ⟨.outside, d⟩ ∧ c = ')')

/-- Neither such an end nor a bar between alternatives at depth `d`. -/
def Quiet (d : Nat) (p : Place) (c : Char) : Prop :=
  Stays d p c ∧ ¬ (p = ⟨.outside, d⟩ ∧ c = '|')

/-- A character in a literal ends no group and parts no alternatives. -/
private theorem Covered.quiet {d : Nat} (p : Place) (c : Char)
    (h : Covered d p c) : Quiet d p c := by
  obtain ⟨hquote, hdepth, -⟩ := h
  have hp : p ≠ ⟨.outside, d⟩ := fun hp => hquote (congrArg Place.quote hp)
  exact ⟨⟨Nat.le_of_eq hdepth.symm, fun h => hp h.1⟩, fun h => hp h.1⟩

/-- A character in a group neither ends the group around that nor parts
alternatives there. -/
theorem Stays.quiet_of_succ {d : Nat} (p : Place) (c : Char)
    (h : Stays (d + 1) p c) : Quiet d p c := by
  have hdepth : d + 1 ≤ p.depth := h.1
  have hp : p ≠ ⟨.outside, d⟩ := by
    intro hp
    rw [hp] at hdepth
    exact absurd hdepth (by simp)
  exact ⟨⟨by omega, fun h => hp h.1⟩, fun h => hp h.1⟩

/-- A character in a literal leaves the depth as it is. -/
theorem Covered.depth_next {d : Nat} {p : Place} {c : Char}
    (h : Covered d p c) : (p.next c).depth = d := by
  obtain ⟨hquote, hdepth, -⟩ := h
  simp [Place.next, hquote, hdepth]

/-- A character that stays at a depth leads to no lower one. -/
theorem Stays.depth_next {d : Nat} {p : Place} {c : Char} (h : Stays d p c) :
    d ≤ (p.next c).depth := by
  obtain ⟨hdepth, hclose⟩ := h
  simp only [Place.next]
  split
  · rename_i hquote
    split
    · exact Nat.le_succ_of_le hdepth
    · split
      · rename_i hc
        have : p.depth ≠ d := fun hd => hclose ⟨by rw [← hquote, ← hd], hc⟩
        omega
      · exact hdepth
  · exact hdepth

/-- Outside literals, what neither opens nor closes anything leaves the
place as it is. -/
theorem next_outside {d : Nat} {c : Char} (hc : c ∉ ['"', '(', ')']) :
    Place.next ⟨.outside, d⟩ c = ⟨.outside, d⟩ := by
  simp only [List.mem_cons, List.not_mem_nil, or_false, not_or] at hc
  obtain ⟨hquote, hopen, hclose⟩ := hc
  simp [Place.next, Quote.next, hquote, hopen, hclose]

/-- A text without quotes, parentheses and bars leads nowhere else. -/
private theorem loops_outside {d : Nat} {t : Text}
    (h : ∀ c ∈ t, c ∉ ['"', '(', ')', '|']) :
    Loops (Quiet d) ⟨.outside, d⟩ t := by
  apply loops_of_forall
  intro c hc
  have := h c hc
  simp only [List.mem_cons, List.not_mem_nil, or_false, not_or] at this
  obtain ⟨hquote, hopen, hclose, hbar⟩ := this
  refine ⟨⟨⟨Nat.le_refl d, fun h => hclose h.2⟩, fun h => hbar h.2⟩,
    next_outside ?_⟩
  simp [hquote, hopen, hclose]

-- ========================================================== the grammar

/-- The body of a literal leads back into the literal. -/
theorem Body.loops {body : Text} (h : Body body) (d : Nat) :
    Loops (Covered d) ⟨.inside, d⟩ body := by
  induction h with
  | nil => exact loops_nil
  | plain before quote backslash ih =>
      refine ih.append (loops_of_forall fun c hc => ?_)
      obtain rfl := List.mem_singleton.1 hc
      simp [Covered, Place.next, Quote.next, quote, backslash]
  | escape before short ih =>
      refine ih.append ⟨⟨?_, ?_, trivial⟩, ?_⟩
      · simp [Covered]
      · simp [Covered, Place.next, Quote.next]
      · simp [Place.after, Place.next, Quote.next, short]
  | @unicode body covered before four ih =>
      apply ih.append
      match covered, four with
      | [a, b, c, e], rfl =>
        constructor
        · simp [Visits, Covered, Place.next, Quote.next]
        · simp [Place.after, Place.next, Quote.next]

/-- No character of a word is a quote, a parenthesis or a bar. -/
theorem IsWordChar.not_mem {c : Char} (h : IsWordChar c) :
    c ∉ ['"', '(', ')', '|'] :=
  fun hc => h.2 (List.mem_cons_of_mem _ hc)

/-- White space is no quote, parenthesis or bar. -/
theorem not_mem_of_blank {c : Char} (h : isBlank c = true) :
    c ∉ ['"', '(', ')', '|'] := by
  intro hc
  simp only [List.mem_cons, List.not_mem_nil, or_false] at hc
  rcases hc with rfl | rfl | rfl | rfl <;> exact absurd h (by decide)

mutual

/-- Items lead back to where they begin. They do not end the group around
them, nor part alternatives there. -/
theorem Items.loops {owner : Owner} {t : Text} {elements : List Element}
    (d : Nat) : Items owner t elements → Loops (Quiet d) ⟨.outside, d⟩ t
  | .nil => loops_nil
  | .blank before white =>
      (before.loops d).append
        (loops_outside fun _ hc =>
          List.mem_singleton.1 hc ▸ not_mem_of_blank white)
  | .star before =>
      (before.loops d).append
        (loops_outside fun _ hc => List.mem_singleton.1 hc ▸ by decide)
  | .word before _ chars _ =>
      (before.loops d).append (loops_outside fun c hc => (chars c hc).not_mem)
  | .literal before inside =>
      (before.loops d).append
        (.around (q := ⟨.inside, d⟩) (by simp [Quiet, Stays]) rfl
          ((inside.loops d).mono Covered.quiet) (by simp [Quiet, Stays]) rfl)
  | .group before inside =>
      (before.loops d).append
        (.around (q := ⟨.outside, d + 1⟩) (by simp [Quiet, Stays]) rfl
          ((inside.loops (d + 1)).mono Stays.quiet_of_succ)
          (by simp [Quiet, Stays]) rfl)

/-- Alternatives lead back to where they begin, and do not end the group
around them. -/
theorem Alternatives.loops {owner : Owner} {t : Text} {choices : List Node}
    (d : Nat) : Alternatives owner t choices → Loops (Stays d) ⟨.outside, d⟩ t
  | .last items _ => (items.loops d).mono fun _ _ h => h.1
  | .more items _ others => by
      refine ((items.loops d).mono fun _ _ h => h.1).append ⟨⟨?_, ?_⟩, ?_⟩
      · simp [Stays]
      · exact (others.loops d).1
      · exact (others.loops d).2

end

/-- At the top, items lead back to the top. -/
theorem Items.loops_origin {owner : Owner} {t : Text} {elements : List Element}
    (h : Items owner t elements) : Loops (Quiet 0) .origin t :=
  h.loops 0

/-- A rule without bars outside its groups and literals has one
alternative. -/
theorem Alternatives.single {owner : Owner} {t : Text} {choices : List Node}
    (h : Alternatives owner t choices) (ht : Visits (Quiet 0) .origin t) :
    ∃ elements, Items owner t elements ∧ elements ≠ []
      ∧ choices = [sequenced elements] := by
  cases h with
  | last items filled => exact ⟨_, items, filled, rfl⟩
  | more items filled others =>
      have hbar := (visits_append.1 ht).2
      rw [items.loops_origin.2] at hbar
      exact absurd ⟨rfl, rfl⟩ hbar.1.2

end Munch.Rule
