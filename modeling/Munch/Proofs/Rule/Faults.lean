/-
What the faults of a rule are about.

A fault has a span, and the part of the rule that the span covers says
what is wrong. `Blames` has the ways in which it can, in terms of the
whole rule, however deep the part lies in it: a star with nothing before
it, a group, an alternative or a rule with nothing in it, a closing
parenthesis that closes nothing, and a group or a literal that does not
end.

A pass finds its fault in the text at hand. The frame of that text makes
it one of the whole rule (`blamed_of`): for the items of a text this is
`items_blamed`, for its pieces `alternatives_blamed`, and for all the
reader does `parseAt_blamed`, by induction on the bound. The main result is
`parse_faults`.
-/
import Munch.Proofs.Rule.ByOffset
import Munch.Proofs.Rule.Frame

namespace Munch.Rule

/-- What is wrong with a rule that is made of these three parts, where a
fault is about the part in the middle. -/
inductive Blames : RuleFault → Text → Text → Text → Prop
  /-- A star outside literals, with only white space between it and the
  mark or the start that it follows. -/
  | danglingStar {front back : Text} {m : Option Char} (outside : Outside front)
      (follows : Follows front m) : Blames .danglingStar front ['*'] back
  /-- A group of white space, outside literals. -/
  | emptyGroup {front gap back : Text} (outside : Outside front)
      (blank : gap.Blank) :
      Blames .emptyRule front ('(' :: (gap ++ [')'])) back
  /-- A rule of white space. -/
  | emptyRule {rule : Text} (blank : rule.Blank) : Blames .emptyRule [] rule []
  /-- An alternative of white space. At one of its sides is a bar. -/
  | emptyAlternative {front back : Text} {m n : Option Char}
      (follows : Follows front m) (precedes : Precedes front back n)
      (bar : m = some '|' ∨ n = some '|') :
      Blames .emptyRule front [] back
  /-- A closing parenthesis, where all groups before it have been closed,
  and by the parentheses that are there. -/
  | unopened {front back : Text} (top : Top front)
      (balanced : Visits (Stays 0) .origin front) :
      Blames .unbalancedGroup front [')'] back
  /-- A group that nothing closes up to the end of the rule, where all
  literals end. -/
  | unclosed {front contents back : Text} (top : Top front)
      (unended : Visits (Stays 1) ⟨.outside, 1⟩ (contents ++ back))
      (outside : Outside (front ++ '(' :: (contents ++ back)))
      (blank : back.Blank) :
      Blames .unbalancedGroup front ('(' :: contents) back
  /-- A literal that does not end before the rule does. -/
  | openLiteral {front contents back : Text} (top : Top front)
      (unended : Visits (Covered 0) ⟨.inside, 0⟩ (contents ++ back))
      (blank : back.Blank) :
      Blames .unterminatedLiteral front ('"' :: contents) back
  /-- A group that nothing closes up to the end of the rule, which is in
  a literal of it. -/
  | openLiteralInGroup {front contents back : Text} (top : Top front)
      (unended : Visits (Stays 1) ⟨.outside, 1⟩ (contents ++ back))
      (inside : ¬ Outside (front ++ '(' :: (contents ++ back)))
      (blank : back.Blank) :
      Blames .unterminatedLiteral front ('(' :: contents) back

/-- A fault that is about a part of the rule. -/
def Blamed (f : SpannedFault) (rule : Text) : Prop :=
  ∃ front part back, rule = front ++ (part ++ back)
    ∧ f.span = .between front.size (front ++ part).size
      ∧ Blames f.fault front part back

section Frames

variable {before t behind front part back : Text} {fault : RuleFault}
  {start stop : Nat}

/-- A fault of a part of the rule is one of the rule. -/
theorem blamed_of (shape : t = front ++ (part ++ back))
    (hstart : start = front.size) (hstop : stop = (front ++ part).size)
    (h : Blames fault (before ++ front) part (back ++ behind)) :
    Blamed (faultAt fault before.size start stop)
      (before ++ (t ++ behind)) := by
  refine ⟨before ++ front, part, back ++ behind, ?_, ?_, h⟩
  · rw [shape]
    simp only [List.append_assoc]
  · show Span.between (before.size + start) (before.size + stop) = _
    rw [hstart, hstop, List.append_assoc, Text.size_append before,
      Text.size_append before]

/-- Where something is still open at the end of a part, the part is at
the top and the rule ends with it. -/
theorem Frame.open_end (h : Frame before t behind) (hopen : ¬ Top t) :
    Top before ∧ behind.Blank := by
  rcases h.precedes with hend | ⟨htop, -⟩
  · exact hend
  · exact absurd htop hopen

/-- A literal that does not end in a part. -/
theorem Frame.openLiteral (h : Frame before (front ++ '"' :: part) behind)
    (top : Top front)
    (unended : Visits (Covered 0) ⟨.inside, 0⟩ part) :
    Blames .unterminatedLiteral (before ++ front) ('"' :: part) behind := by
  have hopen : ¬ Top (front ++ '"' :: part) := by
    intro htop
    rw [Top, Place.after_append, top, Place.after_cons] at htop
    exact (unended.covered_after Quote.noConfusion rfl).1
      (congrArg Place.quote htop)
  obtain ⟨hbefore, hblank⟩ := h.open_end hopen
  exact .openLiteral (hbefore.append top)
    (unended.covered_blank Quote.noConfusion rfl hblank) hblank

/-- A group that does not end in a part. -/
theorem Frame.openGroup (h : Frame before (front ++ '(' :: part) behind)
    (top : Top front)
    (unended : Visits (Stays 1) ⟨.outside, 1⟩ part) :
    ((Place.after ⟨.outside, 1⟩ part).quote = .outside →
        Blames .unbalancedGroup (before ++ front) ('(' :: part) behind)
      ∧ ((Place.after ⟨.outside, 1⟩ part).quote ≠ .outside →
        Blames .unterminatedLiteral (before ++ front) ('(' :: part)
          behind) := by
  have hopen : ¬ Top (front ++ '(' :: part) := by
    intro htop
    rw [Top, Place.after_append, top, Place.after_cons] at htop
    have hdepth := unended.le_depth_after (Nat.le_refl 1)
    rw [show Place.after ⟨.outside, 1⟩ part = .origin from htop] at hdepth
    exact absurd hdepth (by decide)
  obtain ⟨hbefore, hblank⟩ := h.open_end hopen
  have hfront : Top (before ++ front) := hbefore.append top
  have hunended := unended.stays_blank (Nat.le_refl 1) hblank
  -- only the contents of the group can leave a literal open
  have houtside : Outside (before ++ front ++ '(' :: (part ++ behind))
      ↔ (Place.after ⟨.outside, 1⟩ part).quote = .outside := by
    rw [outside_append_iff hfront.outside, quote_after]
    show Outside (['('] ++ (part ++ behind)) ↔ _
    rw [outside_append_iff (outside_singleton (by decide)),
      outside_append_blank hblank]
    exact Iff.rfl
  constructor
  · intro hquote
    exact .unclosed hfront hunended (houtside.2 hquote) hblank
  · intro hquote
    exact .openLiteralInGroup hfront hunended (fun h =>
      hquote (houtside.1 h)) hblank

end Frames

-- ============================================================ the passes

/-- Every fault that is found in a part no longer than the bound is one
of the rule. -/
def InnerBlames (inner : Nat → Text → Parsed Node) (bound : Nat) : Prop :=
  ∀ before t behind f, Frame before t behind → ¬ t.Blank → t.length ≤ bound →
    inner before.size t = .error f → Blamed f (before ++ (t ++ behind))

section Passes

variable {owner : Owner} {inner : Nat → Text → Parsed Node} {bound : Nat}
  {before t behind : Text} {f : SpannedFault}

/-- So is one found in a part less the white space around it. -/
theorem InnerBlames.trim (hinner : InnerBlames inner bound)
    (h : Frame before t behind) (balanced : Visits (Stays 0) .origin t)
    (ht : t.length ≤ bound) (hne : t.trim ≠ [])
    (hf : inner (before.size + t.indent) t.trim = .error f) :
    Blamed f (before ++ (t ++ behind)) := by
  obtain ⟨before', behind', hwhole, hsize, hframe⟩ := h.trim balanced
  rw [← hsize] at hf
  rw [← hwhole]
  exact hinner before' t.trim behind' f hframe (Text.not_blank_trim hne)
    (Nat.le_trans (Text.length_trim_le t) ht) hf

/-- A fault found in the items of a text. -/
theorem items_blamed (hinner : InnerBlames inner bound)
    (h : Frame before t behind) (solid : ¬ t.Blank ∨ before = [] ∧ behind = [])
    (ht : t.length ≤ bound + 1) (hf : ItemsFault inner before.size t f) :
    Blamed f (before ++ (t ++ behind)) := by
  cases hf with
  | @danglingStar lead rest shape blank =>
      obtain ⟨m, hm⟩ := h.follows
      have hfollows := hm.append_blank blank
      exact blamed_of shape rfl (Text.size_concat lead '*').symm
        (.danglingStar hfollows.outside hfollows)
  | @emptyGroup front gap rest shape top blank =>
      have hshape : t = front ++ ('(' :: (gap ++ [')']) ++ rest) := by
        rw [shape]
        simp
      refine blamed_of hshape rfl ?_
        (.emptyGroup (h.outside.append (Top.outside top)) blank)
      simp only [Text.size_append, Text.size_cons, Text.size_nil]
      show _ = front.size + (1 + (gap.size + 1))
      omega
  | @insideGroup front contents rest _ shape top balanced solid fails =>
      have hsize : before.size + (front.size + 1)
          = (before ++ (front ++ ['('])).size := by
        rw [Text.size_append, Text.size_append]
        rfl
      have hlength : contents.length ≤ bound := by
        rw [shape] at ht
        simp only [List.length_append, List.length_cons] at ht
        omega
      have hwhole : before ++ (t ++ behind)
          = before ++ (front ++ ['('])
            ++ (contents ++ (')' :: rest ++ behind)) := by
        rw [shape]
        simp
      rw [hsize] at fails
      rw [hwhole]
      exact hinner.trim (h.group top balanced) balanced.lower.1 hlength
        solid fails
  | @openLiteral front contents shape top unended =>
      have hshape : t = front ++ ('"' :: contents ++ []) := by
        rw [shape, List.append_nil]
      rw [shape] at h
      exact blamed_of hshape rfl (by rw [shape]) (h.openLiteral top unended)
  | @openLiteralInGroup front contents shape top unended quote =>
      have hshape : t = front ++ ('(' :: contents ++ []) := by
        rw [shape, List.append_nil]
      rw [shape] at h
      exact blamed_of hshape rfl (by rw [shape])
        ((h.openGroup top unended).2 quote)
  | @openGroup front contents shape top unended quote =>
      have hshape : t = front ++ ('(' :: contents ++ []) := by
        rw [shape, List.append_nil]
      rw [shape] at h
      exact blamed_of hshape rfl (by rw [shape])
        ((h.openGroup top unended).1 quote)
  | nothing blank =>
      rcases solid with hsolid | ⟨rfl, rfl⟩
      · exact absurd blank hsolid
      · have hshape : t = [] ++ (t ++ []) := (List.append_nil t).symm
        exact blamed_of hshape rfl rfl (.emptyRule blank)

/-- A fault found in the alternatives of a text. -/
theorem alternatives_blamed (hinner : InnerBlames inner bound)
    (h : Frame before t behind) (ht : t.length ≤ bound + 1) {first : Text}
    {later : List (Nat × Text)}
    (hcut : cut before.size .origin 0 t = .ok (first, later))
    (hlater : later ≠ [])
    (hf : alternatives inner before.size ((0, first) :: later) = .error f) :
    Blamed f (before ++ (t ++ behind)) := by
  obtain ⟨⟨start, branch⟩, hmem, hfault⟩ := alternatives_fails hf
  obtain ⟨front, rest, hpiece, hstart⟩ := cut_pieces hcut hlater _ hmem
  simp only at hpiece hstart hfault
  subst hstart
  rcases hfault with ⟨hnil, rfl⟩ | ⟨hne, hfails⟩
  · -- an alternative of white space, blamed where it ends
    have hblank := Text.trim_eq_nil_iff.1 hnil
    have hshape : t = (front ++ branch) ++ ([] ++ rest) := by
      rw [hpiece.shape, List.append_assoc]
      rfl
    have hstart : front.size + branch.indent = (front ++ branch).size := by
      rw [Text.indent_of_blank hblank, Text.size_append]
    obtain ⟨m, hm, hbefore⟩ := h.piece_follows hpiece
    have hfollows := hm.append_blank hblank
    have hpart : ∃ n, Precedes (before ++ front ++ branch) (rest ++ behind) n
        ∧ (rest ≠ [] → n = some '|') := by
      rcases h.piece_precedes hpiece
        with ⟨-, rfl, hbehind⟩ | ⟨-, c, hc, hbehind⟩
      · exact ⟨none, .stop hbehind, fun hne => absurd rfl hne⟩
      · exact ⟨some c, hc, fun hne => congrArg some (hbehind hne)⟩
    obtain ⟨n, hprecedes, hbehind⟩ := hpart
    rw [List.append_assoc] at hfollows hprecedes
    refine blamed_of hshape hstart (hstart.trans ?_)
      (.emptyAlternative hfollows hprecedes
        (hpiece.divided.imp hbefore hbehind))
    rw [List.append_nil]
  · have hwhole : before ++ (t ++ behind) = before ++ front
        ++ (branch ++ (rest ++ behind)) := by
      rw [hpiece.shape]
      simp
    have hlength := hpiece.length_lt
    rw [hwhole]
    refine hinner.trim (h.piece hpiece) (hpiece.quiet.mono fun _ _ h => h.1)
      (by omega) hne ?_
    rw [Text.size_append, Nat.add_assoc]
    exact hfails

/-- Every fault of the reader is about a part of the rule. -/
theorem parseAt_blamed (h : Frame before t behind)
    (solid : ¬ t.Blank ∨ before = [] ∧ behind = []) (ht : t.length ≤ bound)
    (hf : parseAt owner bound before.size t = .error f) :
    Blamed f (before ++ (t ++ behind)) := by
  induction bound generalizing before t behind f with
  | zero =>
      obtain rfl := List.length_eq_zero_iff.1 (Nat.le_zero.1 ht)
      rcases solid with hsolid | ⟨rfl, rfl⟩
      · exact absurd Text.Blank.nil hsolid
      · obtain rfl := Except.error.inj hf
        exact ⟨[], [], [], rfl, rfl, .emptyRule .nil⟩
  | succ bound ih =>
      have hinner : InnerBlames (parseAt owner bound) bound :=
        fun _ _ _ _ hframe hsolid hlength hfails =>
          ih hframe (.inl hsolid) hlength hfails
      unfold parseAt at hf
      split at hf
      · -- the first pass found a parenthesis that closes nothing
        rename_i fault hcut
        obtain rfl := Except.error.inj hf
        obtain ⟨front, rest, rfl, htop, hbalanced, rfl⟩ := cut_fails hcut
        rcases h.balanced with hclosed | ⟨rfl, rfl⟩
        · -- not in a part that was cut out: the pass before would have met it
          have hstays := (visits_append.1 hclosed).2.1
          exact absurd ⟨htop, rfl⟩ hstays.2
        · have hshape : front ++ ')' :: rest = front ++ ([')'] ++ rest) := rfl
          refine blamed_of hshape (Nat.zero_add _) ?_ (.unopened htop hbalanced)
          rw [Nat.zero_add, Text.size_concat]
          rfl
      · rename_i first hcut
        obtain ⟨rfl, hquiet, -⟩ := cut_sound hcut
        exact items_blamed hinner h solid ht (items_fails hquiet hf)
      · rename_i first later hlater hcut
        split at hf
        · rename_i fault hfault
          obtain rfl := Except.error.inj hf
          exact alternatives_blamed hinner h ht hcut hlater hfault
        · cases hf

end Passes

-- ======================================================= the whole rule

/-- Offsets that 32 bits hold are told as they are. -/
theorem between_of_lt {start stop : Nat} (hstart : start < 4294967296)
    (hstop : stop < 4294967296) : Span.between start stop = ⟨start, stop⟩ := by
  rw [Span.between, Nat.min_eq_left, Nat.min_eq_left]
  · exact Nat.le_of_lt_succ hstop
  · exact Nat.le_of_lt_succ hstart

/-- A rule that 32-bit offsets can tell is read without a failure on the
way. If it is faulty, the span of the fault lies in the rule, between
boundaries, and what it covers is to blame. -/
theorem parse_faults (owner : Owner) {rule : Text}
    (h : rule.size < 4294967296) :
    (ByOffset.parse owner rule).run = some (parse owner rule)
      ∧ ∀ f, parse owner rule = .error f →
        f.span.start ≤ f.span.stop ∧ f.span.stop ≤ rule.size
          ∧ rule.isBoundary f.span.start = true
          ∧ rule.isBoundary f.span.stop = true
          ∧ ∃ front part back, rule = front ++ (part ++ back)
            ∧ f.span = ⟨front.size, (front ++ part).size⟩
            ∧ Blames f.fault front part back := by
  refine ⟨ByOffset.parse_eq h, fun f hf => ?_⟩
  have hblamed : Blamed f ([] ++ (rule ++ [])) :=
    parseAt_blamed (Frame.whole rule) (.inr ⟨rfl, rfl⟩) (Nat.le_refl _) hf
  rw [List.append_nil, List.nil_append] at hblamed
  obtain ⟨front, part, back, hrule, hspan, hblames⟩ := hblamed
  have hsize : rule.size = (front ++ part).size + back.size := by
    rw [hrule, ← List.append_assoc, Text.size_append (front ++ part)]
  have hpart : (front ++ part).size = front.size + part.size :=
    Text.size_append ..
  rw [between_of_lt (by omega) (by omega)] at hspan
  rw [hspan]
  refine ⟨?_, ?_, ?_, ?_, front, part, back, hrule, rfl, hblames⟩
  · show front.size ≤ (front ++ part).size
    omega
  · show (front ++ part).size ≤ rule.size
    omega
  · exact Text.isBoundary_iff.2 ⟨front, part ++ back, hrule, rfl⟩
  · exact Text.isBoundary_iff.2 ⟨front ++ part, back, by
      rw [hrule, List.append_assoc], rfl⟩

/-- A star in a group, behind a bar and an ideographic space. -/
theorem parse_faults_nested :
    let owner : Owner := ⟨"Self", 0⟩
    let rule : Text := "a | ( b |\u3000*c ) d".toList
    let fault : SpannedFault := ⟨.danglingStar, ⟨12, 13⟩⟩
    rule.size < 4294967296 ∧ parse owner rule = .error fault
      ∧ (ByOffset.parse owner rule).run = some (parse owner rule)
      ∧ fault.span.of? rule = some ['*']
      ∧ ∃ front part back, rule = front ++ (part ++ back)
        ∧ fault.span = ⟨front.size, (front ++ part).size⟩
        ∧ Blames .danglingStar front part back := by
  intro owner rule fault
  have hsize : rule.size < 4294967296 := by decide
  have hfault : parse owner rule = .error fault := rfl
  obtain ⟨hchecked, hfaults⟩ := parse_faults owner hsize
  obtain ⟨-, -, -, -, hblamed⟩ := hfaults fault hfault
  exact ⟨hsize, hfault, hchecked, rfl, hblamed⟩

end Munch.Rule
