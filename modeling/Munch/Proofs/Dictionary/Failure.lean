/-
What is left of a registration or an import that fails.

A registration makes several changes, and may fail in several places: its
rule goes into the set of expressions, which has a check of its own,
before its token goes into the list. But behind the first change nothing
fails any more (`register_eq_stepwise`), and so a registration that fails
has left the dictionary as it was (`register_eq_error_iff`).

An import goes on line by line, and a line stops it, is passed over, or
adds its token, whatever came before it and whatever follows
(`importFrom_line`). Everything about imports is shown by induction over
the lines with these cases: an import of two lists is one behind the
other (`importLines_append`), and an import that fails has done what the
lines before say (`importLines_eq_error_iff`).

The main result is `failures_are_clean`.
-/
import Mathlib.Data.List.Induction
import Munch.Proofs.Dictionary.RuleLine
import Munch.Proofs.Dictionary.Runs

namespace Munch

-- ============================================================ vocabulary

/-- An error behind so many more lines. -/
def Error.later (lines : Nat) : Error → Error
  | .malformedLine line text fault => .malformedLine (lines + line) text fault
  | e => e

/-- The answer of an import behind so many lines, which have added so
many tokens. -/
def answerBehind (lines count : Nat) : Except Error Nat → Except Error Nat
  | .error e => .error (e.later lines)
  | .ok n => .ok (count + n)

/-- How many lines hold more than white space. -/
def filled (lines : List Text) : Nat :=
  lines.countP fun line => line.any fun c => !isBlank c

namespace Dictionary

/-- A key that no further token may have. -/
def Occupied (d : Dictionary) (key : String) : Prop :=
  d.indices.contains key = true ∨ (Builtin.ofKey? key).isSome = true

/-- A definition cannot be registered, for this reason. -/
inductive Rejected (d : Dictionary) (t : TokenDef) : Error → Prop
  | taken (occupied : d.Occupied t.key) : Rejected d t (.duplicateKey t.key)
  | full (free : ¬ d.Occupied t.key) (full : Error.largestCode < d.size) :
      Rejected d t .tooManyTokens
  /-- An expression has the key, though no token has it. -/
  | defined {text : Text} (free : ¬ d.Occupied t.key)
      (room : d.size ≤ Error.largestCode) (body : t.body = .rule text)
      (defined : d.expressions.indices.contains t.key = true) :
      Rejected d t (.duplicateKey t.key)
  | unread {text : Text} {fault : SpannedFault} (free : ¬ d.Occupied t.key)
      (room : d.size ≤ Error.largestCode) (body : t.body = .rule text)
      (new : d.expressions.indices.contains t.key = false)
      (unread : Rule.parse ⟨t.key, d.expressions.size⟩ text = .error fault) :
      Rejected d t (.rule t.key fault)

/-- A token with the next code goes into the list. -/
def enter (d : Dictionary) (t : TokenDef) (matcher : Matcher) : Dictionary :=
  { d with
    tokens := d.tokens.push ⟨t.key, d.size, matcher, t.keepText⟩
    indices := d.indices.insert t.key d.size
    state := .building }

/-- A registration as one change after another: first the rule goes into
the set of expressions, then the token into the list. -/
def registerStepwise (d : Dictionary) (t : TokenDef) :
    Dictionary × Except Error Nat :=
  if d.indices.contains t.key ∨ (Builtin.ofKey? t.key).isSome then
    (d, .error (.duplicateKey t.key))
  else if d.size > Error.largestCode then (d, .error .tooManyTokens)
  else
    match t.body with
    | .empty => (d.enter t .none, .ok d.size)
    | .primitive scan => (d.enter t (.primitive scan), .ok d.size)
    | .rule text =>
        match d.expressions.define t.key text with
        | (expressions, .error e) => ({ d with expressions }, .error e)
        | (expressions, .ok index) =>
            ({ d with expressions }.enter t (.expression index), .ok d.size)

/-- An import of lines breaks off at one of them: it cannot be read, or
its token cannot be registered behind those before it. -/
inductive BreaksOff (d : Dictionary) : List Text → Dictionary → Error → Prop
  | line {before after : List Text} {line : Text} {next : Dictionary} {n : Nat}
      {fault : LineFault} (earlier : d.importLines before = (next, .ok n))
      (unread : RuleLine.parse line = .error fault) :
      BreaksOff d (before ++ line :: after) next
        (.malformedLine (before.length + 1) line fault)
  | token {before after : List Text} {line : Text} {next : Dictionary} {n : Nat}
      {l : RuleLine} {e : Error}
      (earlier : d.importLines before = (next, .ok n))
      (read : RuleLine.parse line = .ok (some l))
      (rejected : next.Rejected l.definition e) :
      BreaksOff d (before ++ line :: after) next e

variable {d : Dictionary} {t : TokenDef} {e : Error}

-- ========================================================= registrations

/-- A key that is taken is what is complained of first. -/
private theorem accept_of_occupied (h : d.Occupied t.key) :
    d.accept t = .error (.duplicateKey t.key) := if_pos h

/-- With a key that is free, it is the number of tokens. -/
private theorem accept_of_full (free : ¬ d.Occupied t.key)
    (full : Error.largestCode < d.size) : d.accept t = .error .tooManyTokens :=
  (if_neg free).trans (if_pos full)

/-- With room left as well, it is up to the rule. -/
private theorem accept_of_room (free : ¬ d.Occupied t.key)
    (room : d.size ≤ Error.largestCode) : d.accept t = d.compile t.key t.body :=
  (if_neg free).trans (if_neg (Nat.not_lt.2 room))

/-- A definition that cannot be registered is rejected for one of these
reasons. -/
theorem accept_eq_error_iff : d.accept t = .error e ↔ d.Rejected t e := by
  constructor
  · intro h
    by_cases hkey : d.Occupied t.key
    · rw [accept_of_occupied hkey] at h
      obtain rfl := Except.error.inj h
      exact .taken hkey
    by_cases hfull : Error.largestCode < d.size
    · rw [accept_of_full hkey hfull] at h
      obtain rfl := Except.error.inj h
      exact .full hkey hfull
    have hroom := Nat.not_lt.1 hfull
    rw [accept_of_room hkey hroom] at h
    cases hbody : t.body with
    | empty =>
        rw [hbody] at h
        cases h
    | primitive scan =>
        rw [hbody] at h
        cases h
    | rule text =>
        rw [hbody, compile, ExpressionSet.compile] at h
        cases hdefined : d.expressions.indices.contains t.key with
        | true =>
            rw [hdefined] at h
            obtain rfl := Except.error.inj h
            exact .defined hkey hroom hbody hdefined
        | false =>
            rw [hdefined] at h
            cases hparse : Rule.parse ⟨t.key, d.expressions.size⟩ text with
            | error fault =>
                rw [hparse] at h
                obtain rfl := Except.error.inj h
                exact .unread hkey hroom hbody hdefined hparse
            | ok root =>
                rw [hparse] at h
                cases h
  · intro h
    cases h with
    | taken occupied => exact accept_of_occupied occupied
    | full free full => exact accept_of_full free full
    | defined free room body defined =>
        rw [accept_of_room free room, body, compile, ExpressionSet.compile,
          defined]
        rfl
    | unread free room body new unread =>
        rw [accept_of_room free room, body, compile, ExpressionSet.compile,
          new, unread]
        rfl

/-- A registration that fails leaves the dictionary as it was. -/
theorem register_eq_error_iff {next : Dictionary} :
    d.register t = (next, .error e) ↔ next = d ∧ d.Rejected t e := by
  rw [← accept_eq_error_iff]
  unfold register
  cases d.accept t with
  | error e' => simp [eq_comm]
  | ok compiled => simp

/-- It makes no difference that the changes of a registration are made
one after another, and some before its last check. -/
theorem register_eq_stepwise (d : Dictionary) (t : TokenDef) :
    d.register t = d.registerStepwise t := by
  unfold register registerStepwise
  by_cases hkey : d.Occupied t.key
  · rw [accept_of_occupied hkey]
    exact (if_pos hkey).symm
  by_cases hfull : Error.largestCode < d.size
  · rw [accept_of_full hkey hfull]
    exact ((if_neg hkey).trans (if_pos hfull)).symm
  rw [accept_of_room hkey (Nat.not_lt.1 hfull)]
  refine Eq.trans ?_ ((if_neg hkey).trans (if_neg hfull)).symm
  cases t.body with
  | empty => rfl
  | primitive scan => rfl
  | rule text =>
      simp only [compile, ExpressionSet.define]
      cases d.expressions.compile t.key text with
      | error e => rfl
      | ok made => rfl

/-- No registration complains about a line. -/
theorem Rejected.later (h : d.Rejected t e) (lines : Nat) :
    e.later lines = e := by
  cases h <;> rfl

-- ================================================================= one line

/-- What a line does to an import, wherever it stands: it stops it, is
passed over, or adds its token. -/
theorem importFrom_line (d : Dictionary) (line : Text) :
    (∃ fault, RuleLine.parse line = .error fault ∧ ∀ number count rest,
        d.importFrom number count (line :: rest)
          = (d, .error (.malformedLine number line fault)))
      ∨ (RuleLine.parse line = .ok none ∧ ∀ number count rest,
        d.importFrom number count (line :: rest)
          = d.importFrom (number + 1) count rest)
      ∨ (∃ l e, RuleLine.parse line = .ok (some l) ∧ d.Rejected l.definition e
        ∧ ∀ number count rest, d.importFrom number count (line :: rest)
          = (d, .error e))
      ∨ (∃ l m x, RuleLine.parse line = .ok (some l) ∧ d.Admits l.definition m x
        ∧ ∀ number count rest, d.importFrom number count (line :: rest)
          = (d.push l.definition m x).importFrom (number + 1) (count + 1)
            rest) := by
  cases hline : RuleLine.parse line with
  | error fault =>
      refine .inl ⟨fault, rfl, fun number count rest => ?_⟩
      rw [importFrom, hline]
  | ok parsed =>
      cases parsed with
      | none =>
          refine .inr (.inl ⟨rfl, fun number count rest => ?_⟩)
          rw [importFrom, hline]
      | some l =>
          rcases register_cases d l.definition
            with ⟨e, herror⟩ | ⟨m, x, hadmits, hok⟩
          · exact .inr
              (.inr (.inl ⟨l, e, rfl, (register_eq_error_iff.1 herror).2,
              importFrom_of_error hline herror⟩))
          · exact .inr (.inr (.inr ⟨l, m, x, rfl, hadmits,
              importFrom_of_ok hline hok⟩))

private theorem any_iff_not_blank {line : Text} :
    (line.any fun c => !isBlank c) = true ↔ ¬ Text.Blank line := by
  unfold Text.Blank
  simp

/-- A blank line does not count. -/
private theorem filled_cons_of_blank {line : Text} (h : Text.Blank line)
    (rest : List Text) : filled (line :: rest) = filled rest :=
  List.countP_cons_of_neg (mt any_iff_not_blank.1 (not_not.2 h))

/-- A line that is not blank counts. -/
private theorem filled_cons_of_not_blank {line : Text} (h : ¬ Text.Blank line)
    (rest : List Text) : filled (line :: rest) = filled rest + 1 :=
  List.countP_cons_of_pos (any_iff_not_blank.2 h)

-- ==================================================================== lines

/-- Where an import begins to count makes a difference to its answer
only. -/
theorem importFrom_add (lines : List Text) (before added number count : Nat) :
    d.importFrom (before + number) (added + count) lines
      = ((d.importFrom number count lines).1,
          answerBehind before added (d.importFrom number count lines).2) := by
  induction lines generalizing d number count with
  | nil => rfl
  | cons line rest ih =>
      rcases importFrom_line d line
        with ⟨fault, -, h⟩ | ⟨-, h⟩ | ⟨l, e, -, hrejected, h⟩
        | ⟨l, m, x, -, -, h⟩
      · rw [h, h]
        rfl
      · rw [h, h]
        exact ih (number + 1) count
      · rw [h, h]
        show _ = (d, Except.error (e.later before))
        rw [hrejected.later]
      · rw [h, h]
        exact ih (number + 1) (count + 1)

/-- An import of two parts imports the second with what the first one leaves,
if that does not fail. -/
private theorem importFrom_append (xs ys : List Text) (number count : Nat) :
    d.importFrom number count (xs ++ ys)
      = match d.importFrom number count xs with
        | (next, .error e) => (next, .error e)
        | (next, .ok n) => next.importFrom (number + xs.length) n ys := by
  induction xs generalizing d number count with
  | nil => rfl
  | cons line rest ih =>
      rw [List.cons_append, List.length_cons, Nat.add_comm rest.length,
        ← Nat.add_assoc]
      rcases importFrom_line d line
        with ⟨fault, -, h⟩ | ⟨-, h⟩ | ⟨l, e, -, -, h⟩
        | ⟨l, m, x, -, -, h⟩
      · rw [h, h]
      · rw [h, h]
        exact ih (number + 1) count
      · rw [h, h]
      · rw [h, h]
        exact ih (number + 1) (count + 1)

/-- Two lists are imported as one behind the other, if the first does not
fail. -/
theorem importLines_append (d : Dictionary) (xs ys : List Text) :
    d.importLines (xs ++ ys)
      = match d.importLines xs with
        | (next, .error e) => (next, .error e)
        | (next, .ok n) =>
            ((next.importLines ys).1,
              answerBehind xs.length n (next.importLines ys).2) := by
  unfold importLines
  rw [importFrom_append]
  rcases d.importFrom 1 0 xs with ⟨next, e | n⟩
  · rfl
  · show next.importFrom (1 + xs.length) n ys = _
    rw [Nat.add_comm]
    exact importFrom_add ys xs.length n 1 0

private theorem size_push (d : Dictionary) (t : TokenDef) (m : Matcher)
    (x : Option Expression) : (d.push t m x).size = d.size + 1 :=
  Array.size_push _

/-- An import that succeeds adds a token for every line that is not
blank. -/
theorem importFrom_count {last : Dictionary} {n : Nat} (lines : List Text)
    (number count : Nat) (h : d.importFrom number count lines = (last, .ok n)) :
    n = count + filled lines ∧ last.size = d.size + filled lines := by
  induction lines generalizing d number count with
  | nil =>
      obtain ⟨rfl, hn⟩ := Prod.mk.inj h
      exact ⟨(Except.ok.inj hn).symm, rfl⟩
  | cons line rest ih =>
      rcases importFrom_line d line with ⟨fault, -, hstep⟩ | ⟨hline, hstep⟩
        | ⟨l, e, -, -, hstep⟩ | ⟨l, m, x, hline, -, hstep⟩
      · rw [hstep] at h
        cases (Prod.mk.inj h).2
      · rw [hstep] at h
        rw [filled_cons_of_blank (RuleLine.parse_eq_none_iff.1 hline)]
        exact ih _ _ h
      · rw [hstep] at h
        cases (Prod.mk.inj h).2
      · rw [hstep] at h
        have hfilled : ¬ Text.Blank line := fun hblank => by
          rw [RuleLine.parse_eq_none_iff.2 hblank] at hline
          cases hline
        obtain ⟨rfl, hsize⟩ := ih _ _ h
        rw [filled_cons_of_not_blank hfilled, hsize, size_push, Nat.add_assoc,
          Nat.add_assoc,
          Nat.add_comm 1]
        exact ⟨rfl, rfl⟩

/-- Lines behind the one at which an import breaks off make no difference. -/
private theorem BreaksOff.append {lines : List Text} {next : Dictionary}
    (h : d.BreaksOff lines next e) (more : List Text) :
    d.BreaksOff (lines ++ more) next e := by
  cases h with
  | line earlier unread =>
      rw [List.append_assoc, List.cons_append]
      exact .line earlier unread
  | token earlier read rejected =>
      rw [List.append_assoc, List.cons_append]
      exact .token earlier read rejected

/-- An import that fails has done what the lines before the one it failed
at say. -/
theorem importLines_eq_error_iff {lines : List Text} {next : Dictionary} :
    d.importLines lines = (next, .error e) ↔ d.BreaksOff lines next e := by
  constructor
  · intro h
    induction lines using List.reverseRecOn with
    | nil => cases (Prod.mk.inj h).2
    | append_singleton lines line ih =>
        rw [importLines_append] at h
        rcases hlines : d.importLines lines with ⟨last, e' | n⟩
        · -- it has failed before
          rw [hlines] at h ih
          exact (ih h).append [line]
        · rw [hlines] at h
          obtain ⟨hnext, hanswer⟩ := Prod.mk.inj h
          unfold importLines at hnext hanswer
          rcases importFrom_line last line
            with ⟨fault, hline, hstep⟩ | ⟨-, hstep⟩
            | ⟨l, e', hline, hrejected, hstep⟩ | ⟨l, m, x, -, -, hstep⟩
          · rw [hstep] at hnext hanswer
            obtain rfl : last = next := hnext
            obtain rfl := Except.error.inj hanswer
            exact .line hlines hline
          · rw [hstep] at hanswer
            cases hanswer
          · rw [hstep] at hnext hanswer
            obtain rfl : last = next := hnext
            obtain rfl := Except.error.inj hanswer
            rw [hrejected.later]
            exact .token hlines hline hrejected
          · rw [hstep] at hanswer
            cases hanswer
  · intro h
    cases h with
    | @line before after line next n fault earlier unread =>
        have hline : next.importLines (line :: after)
            = (next, .error (.malformedLine 1 line fault)) := by
          rw [importLines, importFrom, unread]
        rw [importLines_append, earlier]
        simp only [hline]
        rfl
    | @token before after line next n l e earlier read rejected =>
        have hline : next.importLines (line :: after) = (next, .error e) :=
          importFrom_of_error read (register_eq_error_iff.2 ⟨rfl, rejected⟩)
            1 0 after
        rw [importLines_append, earlier]
        simp only [hline]
        rw [answerBehind, rejected.later]

/-- Whatever fails has changed nothing but what went well before it. A
registration that fails leaves the dictionary as it was. An import that
fails leaves it as the lines before the one it failed at make it, and
says which line that is; one that succeeds answers how many lines were
not blank, and has added as many tokens. Two lists of lines are imported
as one behind the other. -/
theorem failures_are_clean (d : Dictionary) :
    (∀ t, d.register t = d.registerStepwise t)
      ∧ (∀ t next e, d.register t = (next, .error e)
        ↔ next = d ∧ d.Rejected t e)
      ∧ (∀ lines next e, d.importLines lines = (next, .error e)
        ↔ d.BreaksOff lines next e)
      ∧ (∀ lines next n, d.importLines lines = (next, .ok n) →
          n = filled lines ∧ next.size = d.size + n)
      ∧ ∀ xs ys, d.importLines (xs ++ ys)
          = match d.importLines xs with
            | (next, .error e) => (next, .error e)
            | (next, .ok n) =>
                ((next.importLines ys).1,
                  answerBehind xs.length n (next.importLines ys).2) := by
  refine ⟨d.register_eq_stepwise, fun t next e => register_eq_error_iff,
    fun lines next e => importLines_eq_error_iff, fun lines next n h => ?_,
      d.importLines_append⟩
  obtain ⟨hn, hsize⟩ := importFrom_count lines 1 0 h
  rw [Nat.zero_add] at hn
  rw [hn]
  exact ⟨rfl, hsize⟩

/-- A rule file with a fault in its third line: the line before is blank,
and counts. -/
def twoWords : List Text :=
      ["A -> \"a\"".toList, "  ".toList, " TWO WORDS -> \"x\"".toList]

/-- An import that breaks off at its third line, behind one token that was
registered, and a registration at a key that is taken. -/
theorem failures_are_clean_twoWords : ∃ next : Dictionary,
    empty.importLines (twoWords.take 2) = (next, .ok 1)
      ∧ next.size = 1
      ∧ empty.importLines twoWords
          = (next,
              .error (.malformedLine 3 " TWO WORDS -> \"x\"".toList
                .multiWordKey))
      ∧ next.register ⟨"A", .empty, false⟩
          = (next, .error (.duplicateKey "A")) := by
  have hread : RuleLine.parse "A -> \"a\"".toList
      = .ok (some ⟨"A", "\"a\"".toList, false⟩) := by
    rfl
  have hblank : RuleLine.parse "  ".toList = .ok none := by rfl
  have hfault : RuleLine.parse " TWO WORDS -> \"x\"".toList
    = .error .multiWordKey := by rfl
  have hadmits : empty.Admits ⟨"A", .rule "\"a\"".toList, false⟩ (.expression 0)
      (some ⟨"A", .literal ['a']⟩) :=
    ⟨by simp [empty], by rfl, by decide, by
      rw [compile_rule (by simp [empty, ExpressionSet.empty])]
      rfl⟩
  obtain ⟨next, hnext⟩ : ∃ next,
      next = empty.push ⟨"A", .rule "\"a\"".toList, false⟩ (.expression 0)
        (some ⟨"A", .literal ['a']⟩) := ⟨_, rfl⟩
  have hfirst : empty.importLines (twoWords.take 2) = (next, .ok 1) := by
    refine (importFrom_of_ok hread hadmits.register 1 0 ["  ".toList]).trans ?_
    rw [importFrom, hblank, ← hnext]
    rfl
  have hknown : next.indices.contains "A" = true := by
    rw [hnext]
    exact Std.HashMap.contains_insert_self
  obtain ⟨-, -, hbreaks, hcount, -⟩ := failures_are_clean empty
  obtain ⟨-, hregister, -⟩ := failures_are_clean next
  exact ⟨next, hfirst, (hcount _ _ _ hfirst).2,
    (hbreaks _ _ _).2 (.line hfirst hfault),
    (hregister _ _ _).2 ⟨rfl, .taken (.inl hknown)⟩⟩

end Dictionary

end Munch
