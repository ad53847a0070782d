/-
What each pass of the reader complains about, and where.

The first pass fails at the first closing parenthesis that closes
nothing (`cut_fails`). What it cuts, it cuts at bars outside literals and
groups, and knows where the pieces begin (`cut_places`).

The second pass has a complaint of its own or passes on that of a group:
`ItemsFault` has one constructor for each, with the parts of the text
that it is about, and `items_fails` says that there are no others. A
piece is refused if it is empty or if it cannot be read
(`alternatives_fails`).
-/
import Munch.Proofs.Rule.Tracks

namespace Munch.Rule

variable {owner : Owner} {inner : Nat → Text → Parsed Node} {offset i : Nat}
  {f : SpannedFault}

-- ========================================================== the first pass

/-- The first pass fails at the first parenthesis that closes nothing. -/
theorem cut_fails {p : Place} {t : Text} (h : cut offset p i t = .error f) :
    ∃ front rest, t = front ++ ')' :: rest ∧ p.after front = .origin
      ∧ Visits (Stays 0) p front
      ∧ f = faultAt .unbalancedGroup offset (i + front.size)
        (i + front.size + 1) := by
  induction t generalizing p i with
  | nil => cases h
  | cons c t ih =>
      unfold cut at h
      split at h
      · rename_i hclose
        obtain ⟨rfl, rfl⟩ := Place.isTop_and_iff.1 hclose
        exact ⟨[], t, rfl, rfl, trivial, (Except.error.inj h).symm⟩
      rename_i hclose
      rw [Place.isTop_and_iff] at hclose
      split at h
      · rename_i fault hfault
        obtain rfl := Except.error.inj h
        obtain ⟨front, rest, rfl, hafter, hvisits, rfl⟩ := ih hfault
        refine ⟨c :: front, rest, rfl, hafter,
          ⟨⟨Nat.zero_le _, hclose⟩, hvisits⟩, ?_⟩
        rw [Text.size_cons, Nat.add_assoc]
      · split at h <;> cases h

/-- The first piece of a text ends with the text or at a bar. Every later
one begins behind a bar, at the offset that comes with it, and ends with
the text or at the next bar. -/
theorem cut_places {p : Place} {t first : Text} {later : List (Nat × Text)}
    (h : cut offset p i t = .ok (first, later)) :
    (∃ behind, t = first ++ behind
      ∧ (later = [] ∧ behind = []
        ∨ later ≠ [] ∧ (∃ v, behind = '|' :: v) ∧ p.after first = .origin))
    ∧ ∀ q ∈ later, ∃ front behind, t = front ++ '|' :: (q.2 ++ behind)
      ∧ p.after front = .origin ∧ q.1 = i + front.size + 1
      ∧ (behind = [] ∨ (∃ v, behind = '|' :: v)
        ∧ Place.origin.after q.2 = .origin) := by
  induction t generalizing p i first later with
  | nil =>
      obtain ⟨rfl, rfl⟩ := Prod.mk.inj (Except.ok.inj h)
      exact ⟨⟨[], rfl, .inl ⟨rfl, rfl⟩⟩, fun q hq => absurd hq List.not_mem_nil⟩
  | cons c t ih =>
      unfold cut at h
      split at h
      · cases h
      split at h
      · cases h
      rename_i piece pieces hrest
      obtain ⟨⟨behind, ht, hends⟩, hpieces⟩ := ih hrest
      split at h
      · -- a bar: the piece behind it is a later one
        rename_i hbar
        obtain ⟨rfl, rfl⟩ := Place.isTop_and_iff.1 hbar
        obtain ⟨rfl, rfl⟩ := Prod.mk.inj (Except.ok.inj h)
        refine ⟨⟨'|' :: t, rfl, .inr ⟨List.cons_ne_nil _ _, ⟨t, rfl⟩, rfl⟩⟩, ?_⟩
        refine List.forall_mem_cons.2 ⟨?_, fun q hq => ?_⟩
        · refine ⟨[], behind, by rw [ht]; rfl, rfl, rfl, ?_⟩
          rcases hends with ⟨-, hnil⟩ | ⟨-, hbehind, hafter⟩
          · exact .inl hnil
          · exact .inr ⟨hbehind, hafter⟩
        · obtain ⟨front, behind, rfl, hafter, hstart, hends⟩ := hpieces q hq
          refine ⟨'|' :: front, behind, rfl, hafter, ?_, hends⟩
          rw [hstart, Text.size_cons, ← Nat.add_assoc i]
      · obtain ⟨rfl, rfl⟩ := Prod.mk.inj (Except.ok.inj h)
        refine ⟨⟨behind, by rw [ht]; rfl, hends⟩, fun q hq => ?_⟩
        obtain ⟨front, behind, rfl, hafter, hstart, hends⟩ := hpieces q hq
        refine ⟨c :: front, behind, rfl, hafter, ?_, hends⟩
        rw [hstart, Text.size_cons, ← Nat.add_assoc i]

/-- A piece of a text that has more than one, between the ends of the
text and its bars outside literals and groups. -/
structure Piece (t front piece behind : Text) : Prop where
  shape : t = front ++ (piece ++ behind)
  begins : front = [] ∨ ∃ u, front = u ++ ['|'] ∧ Place.origin.after u = .origin
  ends : behind = [] ∨ (∃ v, behind = '|' :: v)
    ∧ Place.origin.after piece = .origin
  divided : front ≠ [] ∨ behind ≠ []
  quiet : Visits (Quiet 0) .origin piece

/-- Beside a piece there is at least a bar. -/
theorem Piece.length_lt {t front piece behind : Text}
    (h : Piece t front piece behind) : piece.length < t.length := by
  rw [h.shape, List.length_append, List.length_append]
  rcases h.divided with hne | hne
  · have hpos := List.length_pos_iff.2 hne
    omega
  · have hpos := List.length_pos_iff.2 hne
    omega

/-- What the first pass cuts are pieces, each at its offset. -/
theorem cut_pieces {t first : Text} {later : List (Nat × Text)}
    (h : cut offset .origin 0 t = .ok (first, later)) (hlater : later ≠ []) :
    ∀ q ∈ (0, first) :: later, ∃ front behind,
      Piece t front q.2 behind ∧ q.1 = front.size := by
  obtain ⟨-, hquiet, hquiets⟩ := cut_sound h
  obtain ⟨⟨behind, ht, hends⟩, hpieces⟩ := cut_places h
  refine List.forall_mem_cons.2 ⟨?_, fun q hq => ?_⟩
  · rcases hends with ⟨hnil, -⟩ | ⟨-, ⟨v, rfl⟩, hafter⟩
    · exact absurd hnil hlater
    · exact ⟨[], '|' :: v, ⟨ht, .inl rfl, .inr ⟨⟨v, rfl⟩, hafter⟩,
        .inr (List.cons_ne_nil _ _),
        hquiet⟩, rfl⟩
  · obtain ⟨front, behind, ht, hafter, hstart, hends⟩ := hpieces q hq
    refine ⟨front ++ ['|'], behind,
      ⟨?_, .inr ⟨front, rfl, hafter⟩, hends, .inl (by simp),
      hquiets q hq⟩, ?_⟩
    · rw [ht, List.append_assoc]
      rfl
    · rw [hstart, Text.size_append, Nat.zero_add]
      rfl

/-- Where the pieces of a text cannot all be read, one of them is empty
or cannot be. -/
theorem alternatives_fails {pieces : List (Nat × Text)}
    (h : alternatives inner offset pieces = .error f) :
    ∃ q ∈ pieces,
      (q.2.trim = [] ∧ f = faultAt .emptyRule offset (q.1 + q.2.indent)
        (q.1 + q.2.indent))
        ∨ (q.2.trim ≠ [] ∧ inner (offset + (q.1 + q.2.indent)) q.2.trim
          = .error f) := by
  induction pieces with
  | nil => cases h
  | cons q pieces ih =>
      simp only [alternatives] at h
      split at h
      · rename_i hnil
        exact ⟨q, List.mem_cons_self, .inl ⟨hnil, (Except.error.inj h).symm⟩⟩
      rename_i hne
      split at h
      · rename_i fault hfault
        obtain rfl := Except.error.inj h
        exact ⟨q, List.mem_cons_self, .inr ⟨hne, hfault⟩⟩
      split at h
      · rename_i fault hfault
        obtain rfl := Except.error.inj h
        obtain ⟨r, hr, hfails⟩ := ih hfault
        exact ⟨r, List.mem_cons_of_mem q hr, hfails⟩
      · cases h

-- ========================================================= the second pass

/-- Why the items of a text cannot be read. -/
inductive ItemsFault (inner : Nat → Text → Parsed Node) (offset : Nat)
    (t : Text) : SpannedFault → Prop
  /-- A star before any item. -/
  | danglingStar {lead rest : Text} (shape : t = lead ++ '*' :: rest)
      (blank : lead.Blank) :
      ItemsFault inner offset t
        (faultAt .danglingStar offset lead.size (lead.size + 1))
  | emptyGroup {front gap rest : Text}
      (shape : t = front ++ '(' :: (gap ++ ')' :: rest))
      (top : Place.origin.after front = .origin) (blank : gap.Blank) :
      ItemsFault inner offset t
        (faultAt .emptyRule offset front.size (front.size + gap.size + 2))
  /-- What stands in a group cannot be read. -/
  | insideGroup {front contents rest : Text} {f : SpannedFault}
      (shape : t = front ++ '(' :: (contents ++ ')' :: rest))
      (top : Place.origin.after front = .origin)
      (balanced : Loops (Stays 1) ⟨.outside, 1⟩ contents)
      (solid : contents.trim ≠ [])
      (fails : inner (offset + (front.size + 1) + contents.indent) contents.trim
        = .error f) :
      ItemsFault inner offset t f
  | openLiteral {front contents : Text} (shape : t = front ++ '"' :: contents)
      (top : Place.origin.after front = .origin)
      (unended : Visits (Covered 0) ⟨.inside, 0⟩ contents) :
      ItemsFault inner offset t
        (faultAt .unterminatedLiteral offset front.size t.size)
  /-- A group that does not end, and ends the text in a literal. -/
  | openLiteralInGroup {front contents : Text}
      (shape : t = front ++ '(' :: contents)
      (top : Place.origin.after front = .origin)
      (unended : Visits (Stays 1) ⟨.outside, 1⟩ contents)
      (quote : (Place.after ⟨.outside, 1⟩ contents).quote ≠ .outside) :
      ItemsFault inner offset t
        (faultAt .unterminatedLiteral offset front.size t.size)
  | openGroup {front contents : Text} (shape : t = front ++ '(' :: contents)
      (top : Place.origin.after front = .origin)
      (unended : Visits (Stays 1) ⟨.outside, 1⟩ contents)
      (quote : (Place.after ⟨.outside, 1⟩ contents).quote = .outside) :
      ItemsFault inner offset t
        (faultAt .unbalancedGroup offset front.size t.size)
  | nothing (blank : t.Blank) :
      ItemsFault inner offset t (faultAt .emptyRule offset 0 t.size)

namespace Pass

variable {p : Pass} {c : Char}

/-- At the top, only a star without an item or a parenthesis that closes
nothing is refused. -/
theorem stepTop_fails (h : p.stepTop owner offset i c = .error f) :
    (c = '*' ∧ p.word = [] ∧ p.elements = []
      ∧ f = faultAt .danglingStar offset i (i + 1))
      ∨ c = ')' := by
  unfold stepTop at h
  split at h
  · simp only at h
    split at h
    · rename_i hstar
      unfold star at h
      split at h
      · rename_i hnone
        obtain ⟨hword, helements⟩ := endWord_elements_eq_nil_iff.1 hnone
        exact .inl ⟨hstar, hword, helements, (Except.error.inj h).symm⟩
      · cases h
    · split at h
      · rename_i hclose
        exact .inr hclose
      · split at h <;> cases h
  · cases h

/-- The end of a group fails if the group is blank, or as its contents do. -/
private theorem closeGroup_fails (h : p.closeGroup inner offset i = .error f) :
    (Text.Blank p.held.reverse ∧ f
      = faultAt .emptyRule offset (p.opened - 1) (i + 1))
      ∨ (Text.trim p.held.reverse ≠ []
        ∧ inner (offset + p.opened + Text.indent p.held.reverse)
          (Text.trim p.held.reverse)
          = .error f) := by
  unfold closeGroup at h
  simp only at h
  split at h
  · rename_i hnil
    exact .inl ⟨Text.trim_eq_nil_iff.1 hnil, (Except.error.inj h).symm⟩
  · rename_i hne
    split at h
    · rename_i fault hfault
      obtain rfl := Except.error.inj h
      exact .inr ⟨hne, hfault⟩
    · cases h

/-- At the end, the pass complains of what is still open, or that there
was nothing. -/
theorem finish_fails {size : Nat} (h : p.finish owner offset size = .error f) :
    (p.place.quote ≠ .outside ∧ f
      = faultAt .unterminatedLiteral offset (p.opened - 1) size)
      ∨ (p.place.quote = .outside ∧ p.place.depth ≠ 0
        ∧ f = faultAt .unbalancedGroup offset (p.opened - 1) size)
      ∨ (p.place = .origin ∧ p.word = [] ∧ p.elements = []
        ∧ f = faultAt .emptyRule offset 0 size) := by
  unfold finish at h
  split at h
  · rename_i hquote
    exact .inl ⟨hquote, (Except.error.inj h).symm⟩
  rename_i hquote
  rw [ne_eq, Decidable.not_not] at hquote
  split at h
  · rename_i hdepth
    exact .inr (.inl ⟨hquote, hdepth, (Except.error.inj h).symm⟩)
  rename_i hdepth
  rw [ne_eq, Decidable.not_not] at hdepth
  split at h
  · rename_i hnone
    obtain ⟨hword, helements⟩ :=
      endWord_elements_eq_nil_iff.1 (List.reverse_eq_nil_iff.1 hnone)
    exact .inr (.inr ⟨Place.isTop_iff.1 ⟨hquote, hdepth⟩, hword, helements,
      (Except.error.inj h).symm⟩)
  · cases h
  · cases h

end Pass

section Items

variable {read : Text} {p : Pass} {c : Char}

/-- A step that fails has a reason to. -/
theorem Tracks.step_fails (hp : Tracks read p) (hc : Quiet 0 p.place c)
    (h : p.step owner inner offset read.size c = .error f) (rest : Text) :
    ItemsFault inner offset (read ++ c :: rest) f := by
  cases hp with
  | between place walk shape bare =>
      rw [Pass.step_origin place] at h
      rcases Pass.stepTop_fails h with ⟨rfl, hword, helements, rfl⟩ | rfl
      · rw [hword, List.reverse_nil, List.append_nil] at shape
        exact .danglingStar rfl (shape ▸ bare helements)
      · exact absurd ⟨place, rfl⟩ hc.1.2
  | literal top shape opened word quote level place contents =>
      by_cases hend : p.place.quote = .inside ∧ c = '"'
      · obtain ⟨hquote, rfl⟩ := hend
        rw [Pass.step_quote (by rw [← hquote, ← level])] at h
        cases h
      · rw [Pass.step_holds (Pass.holds_of_covered _ _ ⟨quote, level, hend⟩)]
          at h
        cases h
  | @group t top shape opened word deep place contents =>
      by_cases hend : p.place = ⟨.outside, 1⟩ ∧ c = ')'
      · obtain ⟨houtside, rfl⟩ := hend
        have hshape : read ++ ')' :: rest
            = t ++ '(' :: (p.held.reverse ++ ')' :: rest) := by
          rw [shape, List.append_assoc]
          rfl
        rw [Pass.step_close houtside] at h
        rcases Pass.closeGroup_fails h with ⟨hblank, rfl⟩ | ⟨hsolid, hfails⟩
        · have hsize : read.size + 1 = t.size + Text.size p.held.reverse
              + 2 := by
            rw [shape, Text.size_append, Text.size_cons,
              show ('(').utf8Size = 1 from rfl]
            omega
          rw [opened, Nat.add_sub_cancel, hsize]
          exact .emptyGroup hshape top hblank
        · rw [opened] at hfails
          exact .insideGroup hshape top ⟨contents,
            place.symm.trans houtside⟩ hsolid hfails
      · rw [Pass.step_holds (Pass.holds_of_stays _ _ ⟨deep, hend⟩)] at h
        cases h

/-- An end that is refused is with a reason. -/
theorem Tracks.finish_fails (hp : Tracks read p)
    (h : p.finish owner offset read.size = .error f) :
    ItemsFault inner offset read f := by
  rcases Pass.finish_fails h with ⟨hquote, rfl⟩ | ⟨hquote, hdepth, rfl⟩
    | ⟨hplace, hword, helements, rfl⟩
  · cases hp with
    | between place => exact absurd (congrArg Place.quote place) hquote
    | literal top shape opened word quote level place contents =>
        rw [opened, Nat.add_sub_cancel]
        exact .openLiteral shape top contents
    | group top shape opened word deep place contents =>
        rw [opened, Nat.add_sub_cancel]
        exact .openLiteralInGroup shape top contents (place ▸ hquote)
  · cases hp with
    | between place => exact absurd (congrArg Place.depth place) hdepth
    | literal top shape opened word quote => exact absurd hquote quote
    | group top shape opened word deep place contents =>
        rw [opened, Nat.add_sub_cancel]
        exact .openGroup shape top contents (place ▸ hquote)
  · cases hp with
    | between place walk shape bare =>
        rw [hword, List.reverse_nil, List.append_nil] at shape
        exact .nothing (shape ▸ bare helements)
    | literal top shape opened word quote =>
        exact absurd (congrArg Place.quote hplace) quote
    | group top shape opened word deep =>
        rw [hplace] at deep
        exact absurd deep (by decide)

end Items

/-- Items that cannot be read cannot for one of these reasons. -/
theorem items_fails {t : Text} (ht : Visits (Quiet 0) .origin t)
    (h : items owner inner offset t = .error f) :
    ItemsFault inner offset t f := by
  unfold items at h
  split at h
  · rename_i fault hfault
    obtain rfl := Except.error.inj h
    obtain ⟨front, c, rest, p, rfl, hp, hc, hfails⟩ :=
      tracks_start.run_fails ht hfault
    exact hp.step_fails hc hfails rest
  · rename_i p hrun
    exact (tracks_start.run ht hrun).finish_fails h

end Munch.Rule
