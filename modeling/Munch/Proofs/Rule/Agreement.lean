/-
Both passes, at every level of a rule, see the same literals and groups.

The reader cuts a rule into pieces, goes into its groups, takes off the
white space, and each time begins again as if nothing stood before
(`Nested`, made of the `Calls` of each level; that there are no others is
`parseAt_eq_readWith`). It still sees what it would see from the start of
the rule, for one reason: a part closes no group that it does not open, so
a walk over it by itself is the walk over it where it stands, but for the
groups around it (`after_deeper`). This and the frame of the part are the
invariant of the way down (`Within`). A piece has it, the contents of a
group have it, and what is left without white space has it, too
(`Within.piece`, `Within.group`, `within_trim`).

Where the passes are in a text is told by themselves: the first one goes
on from a place (`GoesOn`), the second one has one in its state. A
parenthesis that closes nothing is met by the first pass over the whole
rule, or never (`exists_cut_iff`). The main result is `passes_agree`.
-/
import Munch.Proofs.Rule.Completeness
import Munch.Proofs.Rule.Faults

namespace Munch.Rule

variable {owner : Owner} {inner inner' : Nat → Text → Parsed Node}
  {offset : Nat}

-- ========================================================= the way down

/-- Reads a text, with its parts read by `inner`. -/
def readWith (owner : Owner) (inner : Nat → Text → Parsed Node) (offset : Nat)
    (rule : Text) : Parsed Node :=
  match cut offset .origin 0 rule with
  | .error fault => .error fault
  | .ok (_, []) => items owner inner offset rule
  | .ok (piece, later) =>
      match alternatives inner offset ((0, piece) :: later) with
      | .error fault => .error fault
      | .ok nodes => .ok (.alternation nodes)

/-- The parts that are read on the way through a text, with the offsets at
which they begin: its pieces, if there is a bar, and otherwise the contents
of a group, once the second pass has come to its end. What stands in the
groups before it has been read by `inner`. -/
inductive Calls (owner : Owner) (inner : Nat → Text → Parsed Node)
    (offset : Nat) (t : Text) : Nat → Text → Prop
  | piece {first : Text} {later : List (Nat × Text)} {q : Nat × Text}
      (cuts : cut offset .origin 0 t = .ok (first, later)) (many : later ≠ [])
      (mem : q ∈ (0, first) :: later) (solid : q.2.trim ≠ []) :
      Calls owner inner offset t (offset + (q.1 + q.2.indent)) q.2.trim
  | group {first front rest : Text} {p : Pass}
      (cuts : cut offset .origin 0 t = .ok (first, []))
      (shape : t = front ++ ')' :: rest)
      (reads : Pass.run owner inner offset 0 .start front = .ok p)
      (closes : p.place = ⟨.outside, 1⟩)
      (solid : Text.trim p.held.reverse ≠ []) :
      Calls owner inner offset t
        (offset + p.opened + Text.indent p.held.reverse)
        (Text.trim p.held.reverse)

/-- The parts that are read on the way through a rule, the rule itself and
the parts of its parts included, whatever the parts before them have been
read as. -/
inductive Nested (owner : Owner) (rule : Text) : Nat → Text → Prop
  | whole : Nested owner rule 0 rule
  | part {inner : Nat → Text → Parsed Node} {offset start : Nat} {t s : Text}
      (outer : Nested owner rule offset t)
      (call : Calls owner inner offset t start s) :
      Nested owner rule start s

section Adequate

variable {t front rest : Text} {p : Pass} {c : Char}

/-- Alternatives depend only on what is read for the pieces that are not
blank. -/
private theorem alternatives_congr {pieces : List (Nat × Text)}
    (h : ∀ q ∈ pieces, q.2.trim ≠ [] →
      inner (offset + (q.1 + q.2.indent)) q.2.trim
        = inner' (offset + (q.1 + q.2.indent)) q.2.trim) :
    alternatives inner offset pieces = alternatives inner' offset pieces := by
  induction pieces with
  | nil => rfl
  | cons q pieces ih =>
      obtain ⟨hq, hpieces⟩ := List.forall_mem_cons.1 h
      simp only [alternatives, ih hpieces]
      by_cases hnil : q.2.trim = []
      · rw [if_pos hnil, if_pos hnil]
      · rw [if_neg hnil, if_neg hnil, hq hnil]

/-- A step asks for a part only at the end of a group. -/
theorem Pass.step_congr {i : Nat}
    (h : p.place = ⟨.outside, 1⟩ → c = ')' → Text.trim p.held.reverse ≠ [] →
      inner (offset + p.opened + Text.indent p.held.reverse)
        (Text.trim p.held.reverse)
        = inner' (offset + p.opened + Text.indent p.held.reverse)
          (Text.trim p.held.reverse)) :
    p.step owner inner offset i c = p.step owner inner' offset i c := by
  by_cases hend : p.place = ⟨.outside, 1⟩ ∧ c = ')'
  · obtain ⟨hplace, rfl⟩ := hend
    rw [step_close hplace, step_close hplace]
    unfold closeGroup
    simp only
    by_cases hnil : Text.trim p.held.reverse = []
    · rw [if_pos hnil, if_pos hnil]
    · rw [if_neg hnil, if_neg hnil, h hplace rfl hnil]
  · unfold step
    split
    · rfl
    · rename_i hquote hdepth
      have hc : c ≠ ')' := fun hc => hend ⟨by rw [← hquote, ← hdepth], hc⟩
      rw [if_neg hc, if_neg hc]
    · rfl
    · rfl

/-- A pass depends only on what is read for the groups on its way. -/
private theorem Pass.run_congr {first : Text}
    (cuts : cut offset .origin 0 t = .ok (first, []))
    (h : ∀ o s, Calls owner inner offset t o s → inner o s = inner' o s)
    (shape : t = front ++ rest)
    (hrun : run owner inner offset 0 .start front = .ok p) :
    run owner inner offset front.size p rest
      = run owner inner' offset front.size p rest := by
  induction rest generalizing front p with
  | nil => rfl
  | cons c rest ih =>
      have hstep : p.step owner inner offset front.size c
          = p.step owner inner' offset front.size c := by
        refine step_congr fun hplace hc hsolid => ?_
        subst hc
        exact h _ _ (.group cuts shape hrun hplace hsolid)
      rw [run, run, ← hstep]
      cases hnext : p.step owner inner offset front.size c with
      | error f => rfl
      | ok q =>
          have hrun' : run owner inner offset 0 .start (front ++ [c])
              = .ok { q with place := p.place.next c } := by
            rw [run_append hrun, Nat.zero_add, run_cons hnext]
            rfl
          have hrest := ih (shape.trans (List.append_cons ..)) hrun'
          rw [Text.size_concat] at hrest
          exact hrest

/-- What is read from a text depends on its parts only. -/
theorem readWith_congr
    (h : ∀ o s, Calls owner inner offset t o s → inner o s = inner' o s) :
    readWith owner inner offset t = readWith owner inner' offset t := by
  unfold readWith
  split
  · rfl
  · rename_i first hcut
    have hrun : Pass.run owner inner offset 0 .start t
        = Pass.run owner inner' offset 0 .start t :=
      Pass.run_congr hcut h (List.nil_append t).symm
        (rfl : Pass.run owner inner offset 0 .start [] = .ok .start)
    unfold items
    rw [hrun]
  · rename_i first later hlater hcut
    have halternatives : alternatives inner offset ((0, first) :: later)
        = alternatives inner' offset ((0, first) :: later) :=
      alternatives_congr fun q hq hsolid => h _ _ (.piece hcut hlater hq hsolid)
    rw [halternatives]

/-- The reader makes no calls but these: where it is answered as it would
answer itself, the result is its own. -/
theorem parseAt_eq_readWith {bound : Nat}
    (h : ∀ o s, Calls owner (parseAt owner bound) offset t o s →
      parseAt owner bound o s = inner o s) :
    parseAt owner (bound + 1) offset t = readWith owner inner offset t :=
  readWith_congr h

end Adequate

-- =========================================================== first pass

/-- Behind this part of a text the first pass is at a place: the walk leads
there, and what the pass makes of any rest is what it makes of it from
there. -/
structure GoesOn (offset : Nat) (front : Text) (p : Place) : Prop where
  walk : Place.origin.after front = p
  cuts : ∃ glue, ∀ rest,
    cut offset .origin 0 (front ++ rest)
      = (cut offset p front.size rest).map glue

section FirstPass

variable {p : Place} {i : Nat} {t front rest : Text} {c : Char}

/-- What the first pass makes of a character in front of pieces. -/
def glued (p : Place) (i : Nat) (c : Char) (found : Text × List (Nat × Text)) :
    Text × List (Nat × Text) :=
  if p.IsTop ∧ c = '|' then ([], (i + 1, found.1) :: found.2)
    else (c :: found.1, found.2)

/-- A character that closes nothing is glued to what is cut behind it. -/
private theorem cut_cons (hclose : ¬ (p = .origin ∧ c = ')')) :
    cut offset p i (c :: t) = (cut offset (p.next c) (i + c.utf8Size) t).map
      (glued p i c) := by
  rw [cut, if_neg fun h => hclose (Place.isTop_and_iff.1 h)]
  cases cut offset (p.next c) (i + c.utf8Size) t with
  | error f => rfl
  | ok found =>
      unfold glued
      by_cases hbar : p.IsTop ∧ c = '|'
      · simp only [if_pos hbar, Except.map]
      · simp only [if_neg hbar, Except.map]

/-- Behind a part that closes only what it opened, the first pass goes on from
the place reached, and its pieces are glued to that part. -/
private theorem cut_goes_on (offset : Nat) (h : Visits (Stays 0) p front) :
    ∃ glue, ∀ rest,
      cut offset p i (front ++ rest)
        = (cut offset (p.after front) (i + front.size) rest).map glue := by
  induction front generalizing p i with
  | nil =>
      refine ⟨id, fun rest => ?_⟩
      show cut offset p i rest = (cut offset p i rest).map id
      cases cut offset p i rest <;> rfl
  | cons c front ih =>
      obtain ⟨⟨-, hclose⟩, hfront⟩ := h
      obtain ⟨glue, hglue⟩ := ih (i := i + c.utf8Size) hfront
      refine ⟨fun found => glued p i c (glue found), fun rest => ?_⟩
      rw [List.cons_append, cut_cons hclose, hglue rest, Place.after_cons,
        Text.size_cons,
        Nat.add_assoc]
      cases cut offset ((p.next c).after front) _ rest <;> rfl

/-- The first pass goes on from the place that the text leads to, if the
text closes nothing that it does not open. -/
theorem goesOn_of_visits (offset : Nat) (h : Visits (Stays 0) .origin front) :
    GoesOn offset front (Place.origin.after front) := by
  obtain ⟨glue, hglue⟩ := cut_goes_on offset (i := 0) h
  refine ⟨rfl, glue, fun rest => ?_⟩
  rw [hglue rest, Nat.zero_add]

/-- A text closes nothing that it does not open if no parenthesis in it
stands at the top. -/
theorem visits_stays_iff :
    Visits (Stays 0) .origin t ↔ ∀ front rest,
      t = front ++ ')' :: rest → ¬ Top front := by
  rw [visits_iff]
  constructor
  · intro h front rest ht htop
    exact (h front ')' rest ht).2 ⟨htop, rfl⟩
  · rintro h front c rest ht
    refine ⟨Nat.zero_le _, ?_⟩
    rintro ⟨htop, rfl⟩
    exact h front rest ht htop

/-- A text that can be cut closes only what it opened. -/
private theorem visits_of_cut {found : Text × List (Nat × Text)}
    (h : cut offset p i t = .ok found) : Visits (Stays 0) p t := by
  induction t generalizing p i found with
  | nil => trivial
  | cons c t ih =>
      by_cases hclose : p = .origin ∧ c = ')'
      · rw [cut, if_pos (Place.isTop_and_iff.2 hclose)] at h
        cases h
      · rw [cut_cons hclose] at h
        cases hrest : cut offset (p.next c) (i + c.utf8Size) t with
        | error f =>
            rw [hrest] at h
            cases h
        | ok found' => exact ⟨⟨Nat.zero_le _, hclose⟩, ih hrest⟩

/-- The first pass gets through such a text, and through no other. -/
theorem exists_cut_iff :
    (∃ found, cut offset .origin 0 t = .ok found)
      ↔ Visits (Stays 0) .origin t := by
  constructor
  · rintro ⟨found, hcut⟩
    exact visits_of_cut hcut
  · intro h
    obtain ⟨-, glue, hglue⟩ := goesOn_of_visits offset h
    have hcut := hglue []
    rw [List.append_nil] at hcut
    exact ⟨_, hcut⟩

end FirstPass

-- ============================================================ deeper in

section Deeper

variable {p : Place} {t front rest : Text}

/-- The second pass is at the place that the text leads to. -/
theorem Pass.run_place {i : Nat} {q r : Pass}
    (h : run owner inner offset i q t = .ok r) : r.place = q.place.after t := by
  induction t generalizing i q with
  | nil =>
      obtain rfl := Except.ok.inj h
      rfl
  | cons c t ih =>
      unfold run at h
      split at h
      · cases h
      · exact ih h

end Deeper

-- ========================================================= the invariant

/-- A part of a rule at an offset, in its frame, that closes no group but
its own. -/
def Within (rule : Text) (offset : Nat) (part : Text) : Prop :=
  ∃ before behind, rule = before ++ (part ++ behind) ∧ before.size = offset
    ∧ Frame before part behind ∧ Visits (Stays 0) .origin part

section Invariant

variable {rule t front branch rest contents : Text} {start : Nat} {s : Text}

/-- The rule is a part of itself. -/
private theorem within_whole (h : Visits (Stays 0) .origin rule) :
    Within rule 0 rule :=
  ⟨[], [], (List.append_nil rule).symm, rfl, Frame.whole rule, h⟩

/-- A part in a frame, less the white space at its ends. -/
theorem within_trim {before behind : Text}
    (hrule : rule = before ++ (t ++ behind)) (hsize : before.size = offset)
    (hframe : Frame before t behind) (hvisits : Visits (Stays 0) .origin t) :
    Within rule (offset + t.indent) t.trim := by
  obtain ⟨before', behind', hwhole, hindent, hframe'⟩ := hframe.trim hvisits
  exact ⟨before', behind', hrule.trans hwhole.symm, by
    rw [hindent, hsize], hframe',
    visits_trim hvisits⟩

/-- A piece of a part is a part, in the place where it stands. -/
theorem Within.piece (h : Within rule offset t)
    (hp : Piece t front branch rest) :
    Within rule (offset + (front.size + branch.indent)) branch.trim := by
  obtain ⟨before, behind, hrule, hsize, hframe, -⟩ := h
  rw [← Nat.add_assoc]
  refine within_trim ?_ ?_ (hframe.piece hp) (hp.quiet.mono fun _ _ h => h.1)
  · rw [hrule, hp.shape]
    simp only [List.append_assoc]
  · rw [Text.size_append, hsize]

/-- The contents of a group are a part, in the place where they stand. -/
theorem Within.group (h : Within rule offset t)
    (shape : t = front ++ '(' :: (contents ++ ')' :: rest)) (top : Top front)
    (balanced : Loops (Stays 1) ⟨.outside, 1⟩ contents) :
    Within rule (offset + (front.size + 1) + contents.indent)
      contents.trim := by
  obtain ⟨before, behind, hrule, hsize, hframe, -⟩ := h
  have hinside : Frame (before ++ (front ++ ['('])) contents
      (')' :: rest ++ behind) :=
    hframe.group top balanced
  refine within_trim ?_ ?_ hinside balanced.lower.1
  · rw [hrule, shape]
    simp
  · rw [Text.size_append, Text.size_append, hsize]
    rfl

/-- What a call comes to is further in, in a frame of its own. -/
theorem Within.call (h : Within rule offset t)
    (hcall : Calls owner inner offset t start s) : Within rule start s := by
  cases hcall with
  | piece cuts many mem solid =>
      obtain ⟨front, rest, hpiece, hstart⟩ := cut_pieces cuts many _ mem
      rw [hstart]
      exact h.piece hpiece
  | @group first front rest p cuts shape reads closes solid =>
      obtain ⟨ht, hquiet, -⟩ := cut_sound cuts
      have hfront : Visits (Quiet 0) .origin front := by
        rw [show first = front ++ ')' :: rest from ht.symm.trans shape]
          at hquiet
        exact (visits_append.1 hquiet).1
      have htracks : Tracks front p := tracks_start.run hfront reads
      cases htracks with
      | between place =>
          rw [closes] at place
          cases place
      | literal _ _ _ _ quote =>
          exact absurd (congrArg Place.quote closes) quote
      | @group lead top hread opened word deep place balanced =>
          have hshape : t = lead ++ '(' :: (p.held.reverse ++ ')' :: rest) := by
            rw [shape, hread, List.append_assoc]
            rfl
          rw [opened]
          exact h.group hshape top ⟨balanced, place.symm.trans closes⟩

/-- So is everything that is read on the way through a rule. -/
theorem Nested.within (hrule : Visits (Stays 0) .origin rule)
    (h : Nested owner rule start s) : Within rule start s := by
  induction h with
  | whole => exact within_whole hrule
  | part _ call ih => exact ih.call call

end Invariant

-- ============================================================ in step

/-- The passes over a part of a rule, beside the first pass over the whole
rule. The part stands in `d` groups. -/
structure InStep (owner : Owner) (before part behind : Text) (d : Nat) :
    Prop where
  /-- Where the part begins, the pass over the rule is in these groups and
  outside literals. -/
  enclosed : GoesOn 0 before ⟨.outside, d⟩
  /-- The first pass over the part gets through it. -/
  cuts : ∃ found, cut before.size .origin 0 part = .ok found
  /-- Everywhere in the part, both passes over it are where the pass over
  the rule is, less the groups around. -/
  places : ∀ front rest, part = front ++ rest → ∃ p : Place,
    GoesOn before.size front p ∧ GoesOn 0 (before ++ front) ⟨p.quote,
      p.depth + d⟩
      ∧ ∀ inner q, Pass.run owner inner before.size 0 .start front = .ok q →
        q.place = p
  /-- The second pass does not come to a parenthesis that closes
  nothing. -/
  matched : ∀ front rest inner q, part = front ++ ')' :: rest →
    Pass.run owner inner before.size 0 .start front = .ok q → ¬ q.place.IsTop
  /-- A piece of the part ends outside literals and its groups, unless it
  is the last one in the rule, outside all groups. -/
  pieces : ∀ first later, cut before.size .origin 0 part = .ok (first, later) →
    ∀ q ∈ (0, first) :: later, ∃ u v, part = u ++ (q.2 ++ v) ∧ q.1 = u.size
      ∧ (Top q.2 ∨ d = 0 ∧ Text.Blank (v ++ behind))

section Steps

variable {before part behind rule : Text}

/-- Outside literals there is a number of groups that one is in. -/
theorem Outside.exists_depth (h : Outside before) :
    ∃ d, Place.origin.after before = ⟨.outside, d⟩ := by
  refine ⟨(Place.origin.after before).depth, Place.eq_outside_iff.2 ⟨?_, rfl⟩⟩
  rw [quote_after]
  exact h

/-- The pieces of a text that is a single one, or of one that has more. -/
theorem cut_splits {t first : Text} {later : List (Nat × Text)}
    (h : cut offset .origin 0 t = .ok (first, later)) :
    ∀ q ∈ (0, first) :: later, ∃ u v, t = u ++ (q.2 ++ v) ∧ q.1 = u.size
      ∧ Top u ∧ (v = [] ∨ Top q.2) := by
  by_cases hlater : later = []
  · subst hlater
    obtain ⟨ht, -, -⟩ := cut_sound h
    refine List.forall_mem_singleton.2 ⟨[], [], ?_, rfl, top_nil, .inl rfl⟩
    rw [List.append_nil]
    exact ht
  · intro q hq
    obtain ⟨u, v, hpiece, hstart⟩ := cut_pieces h hlater q hq
    exact ⟨u, v, hpiece.shape, hstart, hpiece.top_front,
      hpiece.ends.imp_right And.right⟩

/-- In a frame, both passes over a part keep in step with the first pass over
the whole. -/
private theorem Frame.inStep (owner : Owner) (hframe : Frame before part behind)
    (hpart : Visits (Stays 0) .origin part)
    (hrule : Visits (Stays 0) .origin (before ++ (part ++ behind))) :
    ∃ d, InStep owner before part behind d := by
  obtain ⟨d, hd⟩ := hframe.outside.exists_depth
  have hbefore : Visits (Stays 0) .origin before := (visits_append.1 hrule).1
  refine ⟨d, ?_, exists_cut_iff.2 hpart, fun front rest ht => ?_,
    fun front rest inner q ht hrun => ?_, fun first later hcut q hq => ?_⟩
  · rw [← hd]
    exact goesOn_of_visits 0 hbefore
  · subst ht
    have hfront : Visits (Stays 0) .origin front := (visits_append.1 hpart).1
    have hdeep : Place.origin.after (before ++ front)
        = ⟨(Place.origin.after front).quote,
          (Place.origin.after front).depth + d⟩ := by
      rw [Place.after_append, hd, ← after_deeper hfront d, Place.origin,
        Nat.zero_add]
    refine ⟨Place.origin.after front, goesOn_of_visits before.size hfront, ?_,
      fun inner q hrun => Pass.run_place hrun⟩
    rw [← hdeep]
    rw [List.append_assoc, ← List.append_assoc before] at hrule
    exact goesOn_of_visits 0 (visits_append.1 hrule).1
  · rw [Place.isTop_iff, Pass.run_place hrun]
    exact visits_stays_iff.1 hpart front rest ht
  · obtain ⟨u, v, ht, hstart, hu, hends⟩ := cut_splits hcut q hq
    refine ⟨u, v, ht, hstart, ?_⟩
    rcases hends with rfl | htop
    · rcases hframe.precedes with ⟨htop, hblank⟩ | ⟨htop, -⟩
      · refine .inr ⟨?_, hblank⟩
        rw [htop] at hd
        exact (congrArg Place.depth hd).symm
      · -- the part ends at the top, and its last piece where it does
        refine .inl ?_
        rw [ht, List.append_nil, Top, Place.after_append, hu] at htop
        exact htop
    · exact .inl htop

end Steps

-- ======================================================= the whole rule

/-- A parenthesis that closes nothing is complained of, the first one, and
nothing else is. -/
theorem parse_unopened (owner : Owner) {rule : Text}
    (h : rule.size < 4294967296) (hrule : ¬ Visits (Stays 0) .origin rule) :
    ∃ front rest, rule = front ++ ')' :: rest ∧ Top front
      ∧ (∀ front' rest', rule = front' ++ ')' :: rest' → Top front' →
        front.size ≤ front'.size)
      ∧ parse owner rule
        = .error ⟨.unbalancedGroup, ⟨front.size, front.size + 1⟩⟩ := by
  cases hcut : cut 0 .origin 0 rule with
  | ok found => exact absurd (visits_of_cut hcut) hrule
  | error f =>
      obtain ⟨front, rest, rfl, htop, hfront, rfl⟩ := cut_fails hcut
      refine ⟨front, rest, rfl, htop, fun front' rest' heq htop' => ?_, ?_⟩
      · rcases List.append_eq_append_iff.1 heq
          with ⟨mid, rfl, -⟩ | ⟨mid, rfl, hmid⟩
        · rw [Text.size_append]
          exact Nat.le_add_right _ _
        · cases mid with
          | nil => exact Nat.le_of_eq (by rw [List.append_nil])
          | cons c mid =>
              -- it would stand before the first one
              obtain ⟨rfl, -⟩ := List.cons.inj hmid
              exact absurd htop' (visits_stays_iff.1 hfront front' mid rfl)
      · have hsize : (front ++ ')' :: rest).size
            = front.size + (1 + Text.size rest) :=
          Text.size_append ..
        have hlength : (front ++ ')' :: rest).length
            = (front.length + rest.length) + 1 := by
          rw [List.length_append, List.length_cons, Nat.add_assoc]
        unfold parse
        rw [hlength, parseAt, hcut]
        show Except.error (faultAt _ 0 (0 + front.size) (0 + front.size + 1))
          = _
        rw [faultAt, Nat.zero_add, Nat.zero_add, Nat.zero_add,
          between_of_lt (by omega) (by omega)]

/-- If there is a parenthesis that closes nothing, the reader complains of
the first one, whatever else is wrong with the rule. Otherwise both passes
over everything that is read on the way through the rule keep in step with
the first pass over the whole of it. Nothing else is read on the way: the
reader's result depends on the parts that it calls for, and on no other
answer. -/
theorem passes_agree (owner : Owner) {rule : Text}
    (h : rule.size < 4294967296) :
    ((∃ front rest, rule = front ++ ')' :: rest ∧ Top front) →
        ∃ front rest, rule = front ++ ')' :: rest ∧ Top front
          ∧ (∀ front' rest', rule = front' ++ ')' :: rest' → Top front' →
              front.size ≤ front'.size)
          ∧ parse owner rule
            = .error ⟨.unbalancedGroup, ⟨front.size, front.size + 1⟩⟩)
      ∧ ((∀ front rest, rule = front ++ ')' :: rest → ¬ Top front) →
        ∀ offset part, Nested owner rule offset part → ∃ before behind d,
          rule = before ++ (part ++ behind) ∧ before.size = offset
            ∧ InStep owner before part behind d)
      ∧ ∀ bound offset part inner,
        (∀ start s, Calls owner (parseAt owner bound) offset part start s →
          parseAt owner bound start s = inner start s) →
        parseAt owner (bound + 1) offset part
          = readWith owner inner offset part := by
  refine ⟨?_, ?_, fun bound offset part inner => parseAt_eq_readWith⟩
  · rintro ⟨front, rest, hrule, htop⟩
    exact parse_unopened owner h fun hvisits =>
      visits_stays_iff.1 hvisits front rest hrule htop
  · intro hmatched offset part hpart
    have hvisits := visits_stays_iff.2 hmatched
    obtain ⟨before, behind, rfl, hsize, hframe, hbalanced⟩ :=
      hpart.within hvisits
    obtain ⟨d, hstep⟩ := hframe.inStep owner hbalanced hvisits
    exact ⟨before, behind, d, rfl, hsize, hstep⟩

/-- An alternative in a group, down to which the reader comes by way of a
piece, the group in it, and a piece of that. -/
theorem nested_ideographic (owner : Owner) :
    Nested owner "a | ( b |\u3000c ) d".toList 12 ['c'] := by
  have hpiece : Calls owner (parseAt owner 0) 0 "a | ( b |\u3000c ) d".toList 4
      "( b |\u3000c ) d".toList :=
    .piece (q := (3, " ( b |\u3000c ) d".toList)) rfl (List.cons_ne_nil _ _)
      (List.mem_cons_of_mem _ List.mem_cons_self) (by decide)
  have hrun : Pass.run owner (parseAt owner 0) 4 0 .start "( b |\u3000c ".toList
      = .ok ⟨⟨.outside, 1⟩, [], [], 1, " b |\u3000c ".toList.reverse⟩ := rfl
  have hgroup : Calls owner (parseAt owner 0) 4 "( b |\u3000c ) d".toList 6
      "b |\u3000c".toList :=
    .group rfl rfl hrun rfl (by decide)
  have hbranch : Calls owner (parseAt owner 0) 6 "b |\u3000c".toList 12 ['c'] :=
    .piece (q := (3, "\u3000c".toList)) rfl (List.cons_ne_nil _ _)
      (List.mem_cons_of_mem _ List.mem_cons_self) (by decide)
  exact .part (.part (.part .whole hpiece) hgroup) hbranch

/-- A parenthesis that closes nothing, with a star before it that marks
nothing and a literal behind it that does not end. -/
theorem passes_agree_nested :
    let owner : Owner := ⟨"Self", 0⟩
    (∃ front rest : Text, "*) ) \"".toList = front ++ ')' :: rest ∧ Top front
        ∧ parse owner "*) ) \"".toList
          = .error ⟨.unbalancedGroup, ⟨front.size, front.size + 1⟩⟩)
      ∧ ∃ (before behind : Text) (d : Nat),
        "a | ( b |\u3000c ) d".toList = before ++ (['c'] ++ behind)
          ∧ before.size = 12 ∧ InStep owner before ['c'] behind d := by
  intro owner
  have hunopened : Text.size "*) ) \"".toList < 4294967296 := by decide
  have hbalanced : Text.size "a | ( b |\u3000c ) d".toList < 4294967296 := by
    decide
  have hcut : cut 0 .origin 0 "a | ( b |\u3000c ) d".toList
      = .ok ("a ".toList, [(3, " ( b |\u3000c ) d".toList)]) := rfl
  obtain ⟨front, rest, hrule, htop, -, hparse⟩ :=
    (passes_agree owner hunopened).1 ⟨['*'], " ) \"".toList, rfl, rfl⟩
  exact ⟨⟨front, rest, hrule, htop, hparse⟩, (passes_agree owner hbalanced).2.1
    (visits_stays_iff.1 (visits_of_cut hcut)) 12 ['c']
      (nested_ideographic owner)⟩

end Munch.Rule
