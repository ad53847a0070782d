/-
Where in a rule the second pass stands, and what it has noted there.

The pass keeps the offset behind the character that opened the literal or
group it is in, and the characters of it so far. `Tracks` ties both to
the text that was read: the character stands outside all literals and
groups, its offset is the one that was noted, and what stands behind it is
what was kept. Between items the word being read is the end of that text,
and if there are no items yet, nothing but white space comes before it.

A step preserves this (`Tracks.step`), so a whole run does
(`Tracks.run`). Hence a run that fails does so at some character, in a
state that tracks what comes before (`Tracks.run_fails`).
-/
import Munch.Proofs.Rule.Steps
import Munch.Proofs.Text.Cuts

namespace Munch.Rule

variable {owner : Owner} {inner : Nat → Text → Parsed Node} {offset : Nat}

-- ======================================================== inside an item

/-- What stands in a literal before its end leaves the place in it. -/
theorem Covered.quote_next {d : Nat} {p : Place} {c : Char}
    (h : Covered d p c) : (p.next c).quote ≠ .outside := by
  obtain ⟨hquote, -, hend⟩ := h
  show p.quote.next c ≠ .outside
  cases hq : p.quote with
  | outside => exact absurd hq hquote
  | inside =>
      have hc : c ≠ '"' := fun hc => hend ⟨hq, hc⟩
      rw [Quote.next, if_neg hc]
      by_cases hslash : c = '\\'
      · rw [if_pos hslash]
        exact Quote.noConfusion
      · rw [if_neg hslash]
        exact Quote.noConfusion
  | escape =>
      by_cases hu : c = 'u'
      · rw [Quote.next, if_pos hu]
        exact Quote.noConfusion
      · rw [Quote.next, if_neg hu]
        exact Quote.noConfusion
  | unicode left => cases left <;> exact Quote.noConfusion

private theorem visits_concat {ok : Place → Char → Prop} {p : Place} {t : Text}
    {c : Char} (ht : Visits ok p t) (hc : ok (p.after t) c) :
    Visits ok p (t ++ [c]) :=
  visits_append.2 ⟨ht, hc, trivial⟩

private theorem Place.after_concat (p : Place) (t : Text) (c : Char) :
    p.after (t ++ [c]) = (p.after t).next c :=
  List.foldl_append

-- ========================================================= the invariant

/-- What the second pass has read, and where in it the item begins that
it is reading. -/
inductive Tracks (read : Text) (p : Pass) : Prop
  | between {t : Text} (place : p.place = .origin)
      (walk : Place.origin.after read = .origin)
      (shape : read = t ++ p.word.reverse) (bare : p.elements = [] → t.Blank)
  | literal {t : Text} (top : Place.origin.after t = .origin)
      (shape : read = t ++ '"' :: p.held.reverse)
      (opened : p.opened = t.size + 1) (word : p.word = [])
      (quote : p.place.quote ≠ .outside) (level : p.place.depth = 0)
      (place : p.place = Place.after ⟨.inside, 0⟩ p.held.reverse)
      (contents : Visits (Covered 0) ⟨.inside, 0⟩ p.held.reverse)
  | group {t : Text} (top : Place.origin.after t = .origin)
      (shape : read = t ++ '(' :: p.held.reverse)
      (opened : p.opened = t.size + 1) (word : p.word = [])
      (deep : 1 ≤ p.place.depth)
      (place : p.place = Place.after ⟨.outside, 1⟩ p.held.reverse)
      (contents : Visits (Stays 1) ⟨.outside, 1⟩ p.held.reverse)

namespace Pass

variable {p q : Pass} {c : Char}

/-- The elements are none after the end of a word only if there was no
word. -/
theorem endWord_elements_eq_nil_iff :
    (p.endWord owner).elements = [] ↔ p.word = [] ∧ p.elements = [] := by
  by_cases hword : p.word = []
  · rw [endWord_of_nil hword]
    simp [hword]
  · rw [endWord_of_ne_nil hword]
    simp [hword, push]

/-- The end of a group that is read adds one item. -/
private theorem closeGroup_eq_ok {i : Nat}
    (h : p.closeGroup inner offset i = .ok q) : ∃ node, q = p.push node := by
  unfold closeGroup at h
  simp only at h
  split at h
  · cases h
  · split at h
    · cases h
    · exact ⟨_, (Except.ok.inj h).symm⟩

private theorem hold_held_reverse :
    (p.hold c).held.reverse = p.held.reverse ++ [c] :=
  List.reverse_cons

end Pass

section Steps

variable {read t : Text} {p q : Pass} {c : Char} {f : SpannedFault}

/-- A pass starts with nothing read. -/
theorem tracks_start : Tracks [] .start :=
  .between rfl rfl rfl fun _ => .nil

/-- The place of the pass is the one that the text leads to. -/
theorem Tracks.place_eq (hp : Tracks read p) :
    p.place = Place.origin.after read := by
  cases hp with
  | between place walk => rw [place, walk]
  | literal top shape _ _ _ _ place =>
      rw [shape, Place.after_append, top, Place.after_cons]
      exact place
  | group top shape _ _ _ place =>
      rw [shape, Place.after_append, top, Place.after_cons]
      exact place

/-- A state at the top where no word is being read. -/
theorem tracks_top (place : p.place = .origin)
    (walk : Place.origin.after read = .origin) (word : p.word = [])
    (bare : p.elements = [] → read.Blank) : Tracks read p := by
  refine .between place walk ?_ bare
  rw [word, List.reverse_nil, List.append_nil]

/-- A character at the top. -/
theorem tracks_stepTop (place : p.place = .origin)
    (walk : Place.origin.after read = .origin)
    (shape : read = t ++ p.word.reverse) (bare : p.elements = [] → t.Blank)
    (hbar : c ≠ '|') (h : p.stepTop owner offset read.size c = .ok q) :
    Tracks (read ++ [c]) { q with place := p.place.next c } := by
  have hnext : Place.origin.after (read ++ [c]) = Place.origin.next c := by
    rw [Place.after_concat, walk]
  rw [place]
  rcases Pass.stepTop_cases hbar h with ⟨hc, rfl⟩ | ⟨hc, rfl⟩
    | ⟨rfl, last, before, hlast, rfl⟩ | ⟨hc, rfl⟩
  · have hstay : Place.origin.next c = .origin :=
      next_outside fun hm => hc.not_mem (List.mem_append_left ['|'] hm)
    refine .between hstay (hnext.trans hstay) ?_ bare
    rw [shape, List.append_assoc, List.reverse_cons]
  · have hstay : Place.origin.next c = .origin :=
      next_outside fun hm => not_mem_of_blank hc (List.mem_append_left ['|'] hm)
    refine tracks_top hstay (hnext.trans hstay) (Pass.endWord_word owner p)
      fun hnone => ?_
    obtain ⟨hword, helements⟩ := Pass.endWord_elements_eq_nil_iff.1 hnone
    rw [shape, hword, List.reverse_nil, List.append_nil]
    refine (bare helements).append fun d hd => ?_
    rw [List.mem_singleton.1 hd]
    exact hc
  · exact tracks_top rfl hnext (Pass.endWord_word owner p) fun hnone =>
      nomatch hnone
  · rcases hc with rfl | rfl
    · exact .literal walk rfl rfl (Pass.endWord_word owner p) Quote.noConfusion
        rfl rfl trivial
    · exact .group walk rfl rfl (Pass.endWord_word owner p) (Nat.le_refl 1)
        rfl trivial

/-- A character in a top-level literal. -/
theorem tracks_stepLiteral (walk : p.place = Place.origin.after read)
    (top : Place.origin.after t = .origin)
    (shape : read = t ++ '"' :: p.held.reverse) (opened : p.opened = t.size + 1)
    (word : p.word = []) (quote : p.place.quote ≠ .outside)
    (level : p.place.depth = 0)
    (place : p.place = Place.after ⟨.inside, 0⟩ p.held.reverse)
    (contents : Visits (Covered 0) ⟨.inside, 0⟩ p.held.reverse)
    (h : p.step owner inner offset read.size c = .ok q) :
    Tracks (read ++ [c]) { q with place := p.place.next c } := by
  by_cases hend : p.place.quote = .inside ∧ c = '"'
  · obtain ⟨hquote, rfl⟩ := hend
    have hinside : p.place = ⟨.inside, 0⟩ := by rw [← hquote, ← level]
    rw [Pass.step_quote hinside] at h
    obtain rfl := Except.ok.inj h
    have hnext : p.place.next '"' = .origin := by rw [hinside]; rfl
    refine tracks_top hnext ?_ word fun hnone => nomatch hnone
    rw [Place.after_concat, ← walk, hnext]
  · have hcovered : Covered 0 p.place c := ⟨quote, level, hend⟩
    rw [Pass.step_holds (Pass.holds_of_covered _ _ hcovered)] at h
    obtain rfl := Except.ok.inj h
    refine .literal top ?_ opened word hcovered.quote_next
      hcovered.depth_next ?_ ?_
    · show read ++ [c] = t ++ '"' :: (p.hold c).held.reverse
      rw [shape, List.append_assoc, Pass.hold_held_reverse]
      rfl
    · show p.place.next c = Place.after ⟨.inside, 0⟩ (p.hold c).held.reverse
      rw [Pass.hold_held_reverse, Place.after_concat, ← place]
    · show Visits (Covered 0) ⟨.inside, 0⟩ (p.hold c).held.reverse
      rw [Pass.hold_held_reverse]
      exact visits_concat contents (place ▸ hcovered)

/-- A character in a top-level group. -/
theorem tracks_stepGroup (walk : p.place = Place.origin.after read)
    (top : Place.origin.after t = .origin)
    (shape : read = t ++ '(' :: p.held.reverse) (opened : p.opened = t.size + 1)
    (word : p.word = []) (deep : 1 ≤ p.place.depth)
    (place : p.place = Place.after ⟨.outside, 1⟩ p.held.reverse)
    (contents : Visits (Stays 1) ⟨.outside, 1⟩ p.held.reverse)
    (h : p.step owner inner offset read.size c = .ok q) :
    Tracks (read ++ [c]) { q with place := p.place.next c } := by
  by_cases hend : p.place = ⟨.outside, 1⟩ ∧ c = ')'
  · obtain ⟨houtside, rfl⟩ := hend
    rw [Pass.step_close houtside] at h
    obtain ⟨node, rfl⟩ := Pass.closeGroup_eq_ok h
    have hnext : p.place.next ')' = .origin := by rw [houtside]; rfl
    refine tracks_top hnext ?_ word fun hnone => nomatch hnone
    rw [Place.after_concat, ← walk, hnext]
  · have hstays : Stays 1 p.place c := ⟨deep, hend⟩
    rw [Pass.step_holds (Pass.holds_of_stays _ _ hstays)] at h
    obtain rfl := Except.ok.inj h
    refine .group top ?_ opened word hstays.depth_next ?_ ?_
    · show read ++ [c] = t ++ '(' :: (p.hold c).held.reverse
      rw [shape, List.append_assoc, Pass.hold_held_reverse]
      rfl
    · show p.place.next c = Place.after ⟨.outside, 1⟩ (p.hold c).held.reverse
      rw [Pass.hold_held_reverse, Place.after_concat, ← place]
    · show Visits (Stays 1) ⟨.outside, 1⟩ (p.hold c).held.reverse
      rw [Pass.hold_held_reverse]
      exact visits_concat contents (place ▸ hstays)

/-- What a step preserves. -/
theorem Tracks.step (hp : Tracks read p) (hc : Quiet 0 p.place c)
    (h : p.step owner inner offset read.size c = .ok q) :
    Tracks (read ++ [c]) { q with place := p.place.next c } := by
  have walk := hp.place_eq
  cases hp with
  | between place reach shape bare =>
      rw [Pass.step_origin place] at h
      exact tracks_stepTop place reach shape bare (fun hbar =>
        hc.2 ⟨place, hbar⟩) h
  | literal top shape opened word quote level place contents =>
      exact tracks_stepLiteral walk top shape opened word quote level place
        contents h
  | group top shape opened word deep place contents =>
      exact tracks_stepGroup walk top shape opened word deep place contents h

/-- What a whole run preserves. -/
theorem Tracks.run (hp : Tracks read p) (ht : Visits (Quiet 0) p.place t)
    (h : Pass.run owner inner offset read.size p t = .ok q) :
    Tracks (read ++ t) q := by
  induction t generalizing p read with
  | nil =>
      obtain rfl := Except.ok.inj h
      rw [List.append_nil]
      exact hp
  | cons c t ih =>
      unfold Pass.run at h
      split at h
      · cases h
      · rename_i next hnext
        rw [← Text.size_concat] at h
        rw [show read ++ c :: t = (read ++ [c]) ++ t from List.append_cons ..]
        exact ih (hp.step ht.1 hnext) ht.2 h

/-- A run that fails does so at a character, in a state that tracks what
comes before it. -/
theorem Tracks.run_fails (hp : Tracks read p) (ht : Visits (Quiet 0) p.place t)
    (h : Pass.run owner inner offset read.size p t = .error f) :
    ∃ front c rest next, t = front ++ c :: rest ∧ Tracks (read ++ front) next
      ∧ Quiet 0 next.place c
      ∧ next.step owner inner offset (read ++ front).size c = .error f := by
  induction t generalizing p read with
  | nil => cases h
  | cons c t ih =>
      unfold Pass.run at h
      split at h
      · rename_i fault hfault
        obtain rfl := Except.error.inj h
        refine ⟨[], c, t, p, rfl, ?_, ht.1, ?_⟩
        · rw [List.append_nil]
          exact hp
        · rw [List.append_nil]
          exact hfault
      · rename_i next hnext
        rw [← Text.size_concat] at h
        obtain ⟨front, d, rest, q, rfl, hq, hquiet, hfails⟩ :=
          ih (hp.step ht.1 hnext) ht.2 h
        have happend : read ++ c :: front = (read ++ [c]) ++ front :=
          List.append_cons ..
        exact ⟨c :: front, d, rest, q, rfl, happend ▸ hq, hquiet,
          happend ▸ hfails⟩

end Steps

end Munch.Rule
