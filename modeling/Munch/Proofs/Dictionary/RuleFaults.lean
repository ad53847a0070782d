/-
What becomes of a rule file: a dictionary, or which error.

The lines are taken in order, and whether one is refused depends on it
and on the lines before it (`Refused`). The first that is refused is why
no dictionary comes of the file. Only if none is (`Passes`) are the
references looked at, line by line and left to right, and then it is the
first whose key nobody knows (`Offends`).

An import ends at a line that is refused (`importFrom_of_refused`), and
gets past all lines before it, by induction on them, with their
definitions registered (`importFrom_of_passes`). The link behind it meets
the references in the order of the lines (`Spelled.occurrences`). The
main result is `ofRules_outcome`.
-/
import Mathlib.Data.List.Induction
import Munch.Proofs.Dictionary.RuleFile
import Munch.Proofs.Expr.LinkOrder

namespace Munch

-- ============================================================= definitions

/-- The references of a definition, left to right; none, if its rule
cannot be read. -/
def RuleLine.occurrences (l : RuleLine) : List Occurrence :=
  match Rule.parse ⟨l.key, 0⟩ l.rule with
  | .error _ => []
  | .ok root => root.words.map fun key => ⟨l.key, key⟩

/-- A key that no further definition may have. -/
def Taken (ls : List RuleLine) (key : String) : Prop :=
  (∃ l ∈ ls, l.key = key) ∨ ∃ b, Builtin.key b = key

/-- A line behind other lines is refused for this reason, the first one
there is: it is not a key and a rule, its key is taken, every code is, or
its rule cannot be read. -/
inductive Refused (before : List Text) (line : Text) : Error → Prop
  | malformed {fault : LineFault}
      (unread : RuleLine.parse line = .error fault) :
      Refused before line (.malformedLine (before.length + 1) line fault)
  | taken {l : RuleLine} (read : RuleLine.parse line = .ok (some l))
      (taken : Taken (ruleLines before) l.key) :
      Refused before line (.duplicateKey l.key)
  | full {l : RuleLine} (read : RuleLine.parse line = .ok (some l))
      (free : ¬ Taken (ruleLines before) l.key)
      (full : Error.largestCode < (ruleLines before).length) :
      Refused before line .tooManyTokens
  | rule {l : RuleLine} {fault : SpannedFault}
      (read : RuleLine.parse line = .ok (some l))
      (free : ¬ Taken (ruleLines before) l.key)
      (room : (ruleLines before).length ≤ Error.largestCode)
      (unread : Rule.parse ⟨l.key, (ruleLines before).length⟩ l.rule
        = .error fault) :
      Refused before line (.rule l.key fault)

/-- No line is refused. -/
def Passes (lines : List Text) : Prop :=
  ∀ before line after, lines = before ++ line :: after → ∀ e,
    ¬ Refused before line e

/-- A reference is refused among these definitions for this reason: its
key is a built-in's that is no character class, or nobody's. -/
inductive Offends (ls : List RuleLine) (r : Occurrence) : Error → Prop
  | noMatcher {b : Builtin} (unknown : ¬ Known ls r.key)
      (builtin : b.key = r.key) :
      Offends ls r (.noMatcher r.owner r.key)
  | unresolved (unknown : ¬ Known ls r.key)
      (nobody : ∀ b, Builtin.key b ≠ r.key) :
      Offends ls r (.unresolvedReference r.owner r.key)

/-- No dictionary comes of a rule file, for this reason. -/
inductive Fails (lines : List Text) : Error → Prop
  /-- A line is refused, and none before it. -/
  | line {before : List Text} {line : Text} {after : List Text} {e : Error}
      (split : lines = before ++ line :: after) (earlier : Passes before)
      (refused : Refused before line e) : Fails lines e
  /-- No line is refused, but a reference, and none before it. -/
  | reference {before : List Occurrence} {r : Occurrence}
      {after : List Occurrence} {e : Error} (passes : Passes lines)
      (split : (ruleLines lines).flatMap RuleLine.occurrences
        = before ++ r :: after)
      (earlier : ∀ r' ∈ before, Known (ruleLines lines) r'.key)
      (offends : Offends (ruleLines lines) r e) : Fails lines e

/-- The references of a definition are those of its tree. -/
theorem RuleLine.Reads.occurrences {l : RuleLine} {tree : Node}
    (h : l.Reads tree) :
    l.occurrences = tree.words.map fun key => ⟨l.key, key⟩ := by
  obtain ⟨root, hroot, rfl⟩ := h.parse ⟨l.key, 0⟩
  unfold RuleLine.occurrences Node.erase
  rw [hroot, Node.words_retarget]

-- ================================================================== the lines

section Lines

variable {before : List Text} {line : Text}

/-- A line without a rule adds none. -/
private theorem ruleLines_concat_none (h : RuleLine.parse line = .ok none) :
    ruleLines (before ++ [line]) = ruleLines before := by
  unfold ruleLines
  rw [List.filterMap_append]
  simp [h, Except.toOption]

/-- A line with a rule adds it at the end. -/
private theorem ruleLines_concat_some {l : RuleLine}
    (h : RuleLine.parse line = .ok (some l)) :
    ruleLines (before ++ [line]) = ruleLines before ++ [l] := by
  unfold ruleLines
  rw [List.filterMap_append]
  simp [h, Except.toOption]

private theorem passes_nil : Passes [] := by
  intro before line after h
  cases before <;> cases h

/-- Lines pass if those before the last one do and the last one is not refused
behind them. -/
private theorem passes_concat :
    Passes (before ++ [line]) ↔ Passes before ∧ ∀ e,
      ¬ Refused before line e := by
  constructor
  · intro h
    refine ⟨fun first l rest hsplit => ?_, h before line [] rfl⟩
    apply h first l (rest ++ [line])
    rw [hsplit, List.append_assoc, List.cons_append]
  · intro h first l rest hsplit
    -- the last line of the longer list, or one of those before
    cases rest using List.reverseRecOn with
    | nil =>
        obtain ⟨rfl, hline⟩ := List.append_inj' hsplit rfl
        obtain rfl := List.singleton_inj.1 hline
        exact h.2
    | append_singleton rest last =>
        rw [← List.cons_append, ← List.append_assoc] at hsplit
        exact h.1 first l rest (List.append_inj' hsplit rfl).1

/-- There is a first line that is refused, or none is. -/
theorem passes_cases (lines : List Text) :
    Passes lines ∨ ∃ before line after e,
      lines = before ++ line :: after ∧ Passes before
        ∧ Refused before line e := by
  induction lines using List.reverseRecOn with
  | nil => exact .inl passes_nil
  | append_singleton lines last ih =>
      rcases ih with hpasses | ⟨before, line, after, e, rfl, hrest⟩
      · by_cases hlast : ∃ e, Refused lines last e
        · obtain ⟨e, he⟩ := hlast
          exact .inr ⟨lines, last, [], e, rfl, hpasses, he⟩
        · exact .inl (passes_concat.2 ⟨hpasses, not_exists.1 hlast⟩)
      · refine .inr ⟨before, line, after ++ [last], e, ?_, hrest⟩
        rw [List.append_assoc, List.cons_append]

end Lines

namespace Dictionary

variable {d : Dictionary} {before lines : List Text} {line : Text} {e : Error}

-- ================================================================= one line

/-- The keys that are taken are those that a dictionary has. -/
private theorem Spelled.taken_iff {ls : List RuleLine} (h : d.Spelled ls)
    {key : String} :
    Taken ls key ↔ d.indices.contains key = true
      ∨ (Builtin.ofKey? key).isSome = true := by
  have hkeys := h.tokenKeys key
  rw [Std.HashMap.contains_eq_isSome_getElem?]
  unfold Taken
  apply or_congr
  · rw [← Option.ne_none_iff_isSome, ne_eq, hkeys]
    simp
  · rw [Option.isSome_iff_exists]
    simp only [Builtin.ofKey?_eq_some_iff]

/-- A line that is refused ends the import, for the reason there is. -/
theorem importFrom_of_refused (hd : d.Spelled (ruleLines before))
    (h : Refused before line e) (count : Nat) (rest : List Text) :
    d.importFrom (before.length + 1) count (line :: rest) = (d, .error e) := by
  cases h with
  | malformed unread => rw [importFrom, unread]
  | taken read taken =>
      refine importFrom_of_error read (register_of_error ?_) _ _ _
      exact if_pos (hd.taken_iff.1 taken)
  | full read free full =>
      refine importFrom_of_error read (register_of_error ?_) _ _ _
      rw [← hd.size] at full
      exact (if_neg (mt hd.taken_iff.2 free)).trans (if_pos full)
  | @rule l fault read free room unread =>
      refine importFrom_of_error read (register_of_error ?_) _ _ _
      rw [← hd.size] at room
      refine ((if_neg (mt hd.taken_iff.2 free)).trans
        (if_neg (Nat.not_lt.2 room))).trans ?_
      have hnew : d.expressions.indices[l.key]? = none :=
        (hd.expressionKeys l.key).2 fun l' hl' hkey =>
          free (.inl ⟨l', hl', hkey⟩)
      show d.compile l.key (.rule l.rule) = _
      rw [compile_rule hnew, hd.expressions, unread]

/-- A definition whose line is not refused is accepted. -/
theorem Spelled.admits_of_not_refused {l : RuleLine}
    (hd : d.Spelled (ruleLines before))
    (read : RuleLine.parse line = .ok (some l))
    (h : ∀ e, ¬ Refused before line e) : ∃ m x, d.Admits l.definition m x := by
  have hfree : ¬ Taken (ruleLines before) l.key :=
    fun htaken => h _ (.taken read htaken)
  have hroom : (ruleLines before).length ≤ Error.largestCode := by
    by_contra hfull
    exact h _ (.full read hfree (Nat.not_le.1 hfull))
  apply hd.admits_iff.2
  refine ⟨fun l' hl' hkey => hfree (.inl ⟨l', hl', hkey⟩), ?_, hroom, ?_⟩
  · cases hbuiltin : Builtin.ofKey? l.key with
    | none => rfl
    | some b =>
        exact absurd (.inr ⟨b, Builtin.ofKey?_eq_some_iff.1 hbuiltin⟩) hfree
  · cases hrule : Rule.parse ⟨l.key, (ruleLines before).length⟩ l.rule with
    | error fault => exact absurd (.rule read hfree hroom hrule) (h _)
    | ok root => exact ⟨_, _, root, hrule, rfl⟩

-- ================================================================ all lines

/-- Behind lines that are not refused, the import goes on with their
definitions registered. -/
theorem importFrom_of_passes (h : Passes before) :
    ∃ last count,
      Registers empty ((ruleLines before).map RuleLine.definition) last
      ∧ ∀ rest, empty.importLines (before ++ rest)
          = last.importFrom (before.length + 1) count rest := by
  induction before using List.reverseRecOn with
  | nil => exact ⟨empty, 0, .nil, fun rest => rfl⟩
  | append_singleton before line ih =>
      obtain ⟨hbefore, hline⟩ := passes_concat.1 h
      obtain ⟨d, count, hd, himport⟩ := ih hbefore
      have hspelled : d.Spelled (ruleLines before) := hd.spelled spelled_empty
      simp only [List.append_assoc, List.singleton_append, himport,
        List.length_append,
        List.length_singleton]
      cases hread : RuleLine.parse line with
      | error fault => exact absurd (.malformed hread) (hline _)
      | ok parsed =>
          cases parsed with
          | none =>
              refine ⟨d, count, ?_, fun rest => ?_⟩
              · rw [ruleLines_concat_none hread]
                exact hd
              · rw [importFrom, hread]
          | some l =>
              obtain ⟨m, x, hadmits⟩ :=
                hspelled.admits_of_not_refused hread hline
              refine ⟨d.push l.definition m x, count + 1, ?_, fun rest => ?_⟩
              · rw [ruleLines_concat_some hread, List.map_append]
                exact hd.append (.cons hadmits.register .nil)
              · exact importFrom_of_ok hread hadmits.register _ _ _

-- =============================================================== references

namespace Spelled

variable {ls : List RuleLine} (h : d.Spelled ls)

include h

/-- A pass meets the references of the definitions in their order. -/
theorem occurrences :
    d.expressions.occurrences = ls.flatMap RuleLine.occurrences := by
  have hmap : d.expressions.expressions.toList.map Expression.occurrences
      = ls.map RuleLine.occurrences := by
    apply List.ext_getElem?
    intro index
    rw [List.getElem?_map, List.getElem?_map, Array.getElem?_toList]
    show (d.expressions.get? index).map _ = _
    cases hl : ls[index]? with
    | none =>
        have hsize := List.getElem?_eq_none_iff.1 hl
        rw [← h.expressions] at hsize
        rw [ExpressionSet.get?_eq_none_iff.2 hsize]
        rfl
    | some l =>
        obtain ⟨root, hroot, hreads⟩ := h.trees index l hl
        rw [hroot, Option.map_some, Option.map_some, hreads.occurrences,
          Node.erase,
          Node.words_retarget]
        rfl
  unfold ExpressionSet.occurrences
  rw [List.flatMap_def, List.flatMap_def, hmap]

/-- A link passes over a reference whose key is known. -/
theorem refusal_eq_none_iff (hd : d.Coherent) {r : Occurrence}
    (hr : ∃ l ∈ ls, l.key = r.owner) :
    refusal d.lookup r = none ↔ Known ls r.key := by
  obtain ⟨l, hl, hkey⟩ := hr
  rw [Munch.refusal_eq_none_iff, ← hkey]
  exact h.resolvable_iff hd hl

/-- A link refuses what offends. -/
theorem refusal_eq_some_iff (hd : d.Coherent) {r : Occurrence}
    (hr : ∃ l ∈ ls, l.key = r.owner) :
    refusal d.lookup r = some e ↔ Offends ls r e := by
  by_cases hknown : Known ls r.key
  · rw [(h.refusal_eq_none_iff hd hr).2 hknown]
    constructor
    · intro hnone
      cases hnone
    · intro hoffends
      cases hoffends with
      | noMatcher unknown _ => exact absurd hknown unknown
      | unresolved unknown _ => exact absurd hknown unknown
  · have howner : r.key ≠ r.owner := by
      intro hown
      rw [hown] at hknown
      exact hknown (.inl hr)
    have hother : d.lookup r.key = .builtin r.key :=
      h.lookup_other fun l hl hkey => hknown (.inl ⟨l, hl, hkey⟩)
    unfold refusal
    rw [if_neg howner, hother]
    cases hlookup : Lookup.builtin r.key with
    | found target =>
        obtain ⟨b, k, hb, hk, -⟩ := Lookup.builtin_eq_found.1 hlookup
        exact absurd (.inr ⟨b, k, hb, hk⟩) hknown
    | notScannable =>
        obtain ⟨b, hb⟩ := Lookup.builtin_eq_notScannable hlookup
        constructor
        · intro he
          obtain rfl := Option.some.inj he
          exact .noMatcher hknown hb
        · intro hoffends
          cases hoffends with
          | noMatcher _ _ => rfl
          | unresolved _ nobody => exact absurd hb (nobody b)
    | missing =>
        have hnobody := Lookup.builtin_eq_missing hlookup
        constructor
        · intro he
          obtain rfl := Option.some.inj he
          exact .unresolved hknown hnobody
        · intro hoffends
          cases hoffends with
          | noMatcher _ builtin => exact absurd builtin (hnobody _)
          | unresolved _ _ => rfl

end Spelled

-- =============================================================== rule files

/-- The references of definitions belong to them. -/
theorem exists_owner {ls : List RuleLine} {r : Occurrence}
    (h : r ∈ ls.flatMap RuleLine.occurrences) : ∃ l ∈ ls, l.key = r.owner := by
  obtain ⟨l, hl, hr⟩ := List.mem_flatMap.1 h
  refine ⟨l, hl, ?_⟩
  unfold RuleLine.occurrences at hr
  split at hr
  · cases hr
  · obtain ⟨key, -, rfl⟩ := List.mem_map.1 hr
    rfl

/-- A file none of whose lines is refused makes a dictionary, unless a
reference in it is refused. Then the first one is why. -/
theorem ofRules_of_passes (h : Passes lines) : ofRules lines = .error e ↔
    ∃ before r after, (ruleLines lines).flatMap RuleLine.occurrences
      = before ++ r :: after
      ∧ (∀ r' ∈ before, Known (ruleLines lines) r'.key)
        ∧ Offends (ruleLines lines) r e := by
  obtain ⟨loose, count, hloose, hall⟩ := importFrom_of_passes h
  have himport : empty.importLines lines = (loose, .ok count) := by
    have hlines := hall []
    rw [List.append_nil] at hlines
    exact hlines
  have hspelled : loose.Spelled (ruleLines lines) :=
    hloose.spelled spelled_empty
  have hcoherent : loose.Coherent :=
    (registers_built (fun _ => True) hloose).coherent
  have hlink : ofRules lines = .error e ↔ loose.link.2 = .error e := by
    rw [ofRules_eq_error_iff]
    simp [himport]
  rw [hlink, link_eq_error_iff, linkPass, ExpressionSet.link_failure_eq,
    hspelled.occurrences,
    List.findSome?_eq_some_iff]
  refine exists_congr fun before => exists_congr fun r =>
      exists_congr fun after =>
    and_congr_right fun hsplit => ?_
  -- the references up to this one belong to the definitions
  have howner : ∀ r' ∈ before ++ r :: after, ∃ l ∈ ruleLines lines,
      l.key = r'.owner := by
    rw [← hsplit]
    exact fun r' hr' => exists_owner hr'
  have hr := howner r (List.mem_append_right before List.mem_cons_self)
  rw [hspelled.refusal_eq_some_iff hcoherent hr, and_comm]
  refine and_congr_left fun _ => forall_congr' fun r' =>
    imp_congr_right fun hr' => ?_
  exact hspelled.refusal_eq_none_iff hcoherent
    (howner r' (List.mem_append_left _ hr'))

/-- A line that is refused, and none before it, is why no dictionary comes
of a file. -/
theorem ofRules_of_refused (h : Passes before) (hline : Refused before line e)
    (after : List Text) : ofRules (before ++ line :: after) = .error e := by
  obtain ⟨d, count, hd, hall⟩ := importFrom_of_passes h
  apply ofRules_eq_error_iff.2
  refine .inl ⟨d, ?_⟩
  rw [hall]
  exact importFrom_of_refused (hd.spelled spelled_empty) hline count after

/-- What becomes of a rule file. -/
theorem ofRules_outcome (lines : List Text) :
    ((∃ d, ofRules lines = .ok d) ↔ Accepted lines)
      ∧ ∀ e, ofRules lines = .error e ↔ Fails lines e := by
  refine ⟨ofRules_succeeds_iff, fun e => ?_⟩
  constructor
  · intro h
    rcases passes_cases lines
      with hpasses | ⟨before, line, after, e', rfl, hbefore, hline⟩
    · obtain ⟨before, r, after, hsplit, hknown, hr⟩ :=
        (ofRules_of_passes hpasses).1 h
      exact .reference hpasses hsplit hknown hr
    · rw [ofRules_of_refused hbefore hline] at h
      obtain rfl := Except.error.inj h
      exact .line rfl hbefore hline
  · intro h
    cases h with
    | line split earlier refused =>
        rw [split]
        exact ofRules_of_refused earlier refused _
    | reference passes split earlier offends =>
        exact (ofRules_of_passes passes).2 ⟨_, _, _, split, earlier, offends⟩

end Dictionary

end Munch
