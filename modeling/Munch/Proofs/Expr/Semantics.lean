/-
What it means for a tree to match, told without the matcher: an ordered
choice semantics as a relation (`Derives`), with one rule for each way a
tree can match and one for each way it can fail.

- a literal compares bytes, and fits before the limit;
- a reference is the root of its expression, or asks its primitive;
- an alternation takes its first child that matches;
- a sequence threads a position through its items (`Threads`);
- a starred item moves along a chain of matches, each to another place,
  as far as the chain goes (`Repeats`): it ends where the item fails, or
  matches without moving.

# The matcher and the relation

The matcher is told by a bound on the depth of its calls, and two facts
tie it to the relation:

- *soundness*, whatever the bound: an answer is derivable
  (`captureNodeWithin_sound`);
- *completeness*: a derivable answer is given under every bound that is
  large enough (`Derives.matchWith`). "Every" and not "some", so
  that the premises of a rule, each with its own bound, can be met
  together under the largest.

That at most one answer is derivable then needs no induction of its own:
two answers would both be given under one bound.
-/
import Munch.Expr.Capture
import Munch.Proofs.Expr.References
import Munch.Proofs.Text.Bytes

namespace Munch

section Relation

variable (s : ExpressionSet) (text : Text) (limit : Nat)

-- ========================================================= the relation

/-- A literal stands at an offset, byte by byte, and ends at the limit or
before it. -/
def LiteralFits (literal : Text) (start : Nat) : Prop :=
  start + literal.size ≤ limit ∧ literal.StandsAt text start

mutual

/-- From an offset, a tree matches up to another one, or fails. -/
inductive Derives : Node → Nat → Option Nat → Prop where
  | literal {w : Text} {start : Nat} :
      LiteralFits text limit w start →
      Derives (.literal w) start (some (start + w.size))
  | noLiteral {w : Text} {start : Nat} :
      ¬ LiteralFits text limit w start → Derives (.literal w) start none
  | expression {key : String} {index start : Nat} {e : Expression}
      {answer : Option Nat} :
      s.get? index = some e → Derives e.root start answer →
      Derives (.reference key (some (.expression index))) start answer
  | primitive {key : String} {scan : Primitive} {start : Nat}
      {answer : Option Nat} :
      scan text start limit = answer →
      Derives (.reference key (some (.primitive scan))) start answer
  | choice {refused later : List Node} {c : Node} {start stop : Nat} :
      (∀ r ∈ refused, Derives r start none) → Derives c start (some stop) →
      Derives (.alternation (refused ++ c :: later)) start (some stop)
  | noChoice {choices : List Node} {start : Nat} :
      (∀ c ∈ choices, Derives c start none) →
      Derives (.alternation choices) start none
  | sequence {elements : List Element} {start stop : Nat} :
      Threads elements start stop →
      Derives (.sequence elements) start (some stop)
  /-- An item without a star fails where the items before it lead. -/
  | noSequence {before after : List Element} {node : Node}
      {start position : Nat} :
      Threads before start position → Derives node position none →
      Derives (.sequence (before ++ ⟨node, false⟩ :: after)) start none

/-- Items lead from an offset to another, one after the other. -/
inductive Threads : List Element → Nat → Nat → Prop where
  | nil {position : Nat} : Threads [] position position
  | once {node : Node} {rest : List Element} {start next stop : Nat} :
      Derives node start (some next) → Threads rest next stop →
      Threads (⟨node, false⟩ :: rest) start stop
  | starred {node : Node} {rest : List Element} {start next stop : Nat} :
      Repeats node start next → Threads rest next stop →
      Threads (⟨node, true⟩ :: rest) start stop

/-- A chain of matches leads from an offset to another, where it ends. -/
inductive Repeats : Node → Nat → Nat → Prop where
  | fails {node : Node} {position : Nat} :
      Derives node position none → Repeats node position position
  | stays {node : Node} {position : Nat} :
      Derives node position (some position) → Repeats node position position
  | moves {node : Node} {start next stop : Nat} :
      Derives node start (some next) → next ≠ start →
      Repeats node next stop → Repeats node start stop

end

end Relation

variable {s : ExpressionSet} {text : Text} {limit : Nat}

-- ============================================================= literals

/-- The matcher compares characters, the relation bytes. -/
theorem literalAt_eq_some {w : Text} {start : Nat}
    (h : LiteralFits text limit w start) :
    literalAt text limit w start = some (start + w.size) := by
  unfold literalAt
  rw [if_pos h.1]
  by_cases hw : w = []
  · subst hw
    rfl
  · obtain ⟨rest, hrest⟩ := (Text.standsAt_iff hw).1 h.2
    rw [if_neg hw, hrest]
    exact if_pos (List.isPrefixOf_iff_prefix.2 (List.prefix_append w rest))

/-- A literal that does not fit is not matched. -/
theorem literalAt_eq_none {w : Text} {start : Nat}
    (h : ¬ LiteralFits text limit w start) :
    literalAt text limit w start = none := by
  unfold literalAt
  by_cases hle : start + w.size ≤ limit
  · have hw : w ≠ [] := by
      intro hw
      subst hw
      exact h ⟨hle, rfl⟩
    rw [if_pos hle, if_neg hw]
    cases hrest : text.after? start with
    | none => rfl
    | some rest =>
        refine if_neg fun hprefix => h ⟨hle, ?_⟩
        obtain ⟨tail, rfl⟩ := List.isPrefixOf_iff_prefix.1 hprefix
        exact (Text.standsAt_iff hw).2 ⟨tail, hrest⟩
  · exact if_neg hle

/-- A literal matches as the relation says. -/
private theorem derives_literalAt (w : Text) (start : Nat) :
    Derives s text limit (.literal w) start (literalAt text limit w start) := by
  by_cases h : LiteralFits text limit w start
  · rw [literalAt_eq_some h]
    exact .literal h
  · rw [literalAt_eq_none h]
    exact .noLiteral h

-- ========================================================= repetitions

section Repetition

variable {attempt : Nat → Answer} {bound position next : Nat}

/-- A repetition ends where an attempt fails. -/
theorem repeatFrom_fails (h : attempt position = .ok none) :
    repeatFrom attempt (bound + 1) position = .ok position := by
  rw [repeatFrom, h]

/-- A repetition ends where an attempt does not move. -/
theorem repeatFrom_stays (h : attempt position = .ok (some position)) :
    repeatFrom attempt (bound + 1) position = .ok position := by
  rw [repeatFrom, h]
  exact if_pos rfl

/-- A repetition goes on where an attempt leads. -/
theorem repeatFrom_moves (h : attempt position = .ok (some next))
    (hne : next ≠ position) :
    repeatFrom attempt (bound + 1) position
      = repeatFrom attempt bound next := by
  rw [repeatFrom, h]
  exact if_neg hne

/-- A repetition fails as an attempt does. -/
theorem repeatFrom_error {e : Error} (h : attempt position = .error e) :
    repeatFrom attempt (bound + 1) position = .error e := by
  rw [repeatFrom, h]

end Repetition

-- ============================================================ soundness

/-- Calls are answered as the relation says. -/
def CallsSound (s : ExpressionSet) (text : Text) (limit : Nat)
    (call : Nat → Nat → Answer) : Prop :=
  ∀ index start answer, call index start = .ok answer →
    ∃ e, s.get? index = some e ∧ Derives s text limit e.root start answer

/-- A repetition of sound attempts is a chain. -/
theorem repeatFrom_sound {attempt : Nat → Answer} {node : Node}
    (hattempt : ∀ position answer, attempt position = .ok answer →
      Derives s text limit node position answer) :
    ∀ (bound start stop : Nat), repeatFrom attempt bound start = .ok stop →
      Repeats s text limit node start stop := by
  intro bound
  induction bound with
  | zero => intro start stop h; cases h
  | succ bound ih =>
      intro start stop h
      cases ha : attempt start with
      | error e => rw [repeatFrom_error ha] at h; cases h
      | ok answer =>
          have hd := hattempt start answer ha
          cases answer with
          | none =>
              rw [repeatFrom_fails ha] at h
              cases h
              exact .fails hd
          | some next =>
              by_cases hne : next = start
              · subst hne
                rw [repeatFrom_stays ha] at h
                cases h
                exact .stays hd
              · rw [repeatFrom_moves ha hne] at h
                exact .moves hd hne (ih next stop h)

section Sound

variable {call : Nat → Nat → Answer} {bound : Nat}

mutual

/-- Where calls are answered soundly, trees are. -/
theorem matchWith_sound (hcall : CallsSound s text limit call) :
    ∀ (node : Node) (start : Nat) (answer : Option Nat),
    node.matchWith call text limit bound start = .ok answer →
    Derives s text limit node start answer
  | .literal w, start, answer, h => by
      rw [Node.matchWith] at h
      cases h
      exact derives_literalAt w start
  | .reference key (some (.expression index)), start, answer, h => by
      rw [Node.matchWith] at h
      obtain ⟨e, he, hd⟩ := hcall index start answer h
      exact .expression he hd
  | .reference key (some (.primitive scan)), start, answer, h => by
      rw [Node.matchWith] at h
      cases h
      exact .primitive rfl
  | .reference key none, start, answer, h => by
      rw [Node.matchWith] at h
      cases h
  | .sequence elements, start, answer, h => by
      rw [Node.matchWith] at h
      cases answer with
      | some stop =>
          exact .sequence (matchElements_sound hcall elements start stop h)
      | none =>
          obtain ⟨before, node, after, position, rfl, hbefore, hnode⟩ :=
            matchElements_sound_none hcall elements start h
          exact .noSequence hbefore hnode
  | .alternation choices, start, answer, h => by
      rw [Node.matchWith] at h
      cases answer with
      | some stop =>
          obtain ⟨refused, c, later, rfl, hrefused, hc⟩ :=
            matchChoices_sound hcall choices start stop h
          exact .choice hrefused hc
      | none => exact .noChoice (matchChoices_sound_none hcall choices start h)

/-- Items that are matched lead on. -/
private theorem matchElements_sound (hcall : CallsSound s text limit call) :
    ∀ (elements : List Element) (start stop : Nat),
    matchElements call text limit bound elements start = .ok (some stop) →
    Threads s text limit elements start stop
  | [], start, stop, h => by
      rw [matchElements] at h
      cases h
      exact .nil
  | ⟨node, true⟩ :: rest, start, stop, h => by
      rw [matchElements] at h
      cases hr : repeatFrom (node.matchWith call text limit bound) bound
        start with
      | error e => rw [hr] at h; cases h
      | ok next =>
          rw [hr] at h
          exact .starred
            (repeatFrom_sound (matchWith_sound hcall node) bound start next hr)
            (matchElements_sound hcall rest next stop h)
  | ⟨node, false⟩ :: rest, start, stop, h => by
      rw [matchElements] at h
      cases hm : node.matchWith call text limit bound start with
      | error e => rw [hm] at h; cases h
      | ok answer =>
          rw [hm] at h
          cases answer with
          | none => cases h
          | some next =>
              exact .once (matchWith_sound hcall node start _ hm)
                (matchElements_sound hcall rest next stop h)

/-- Items fail at one without a star, where those before it lead. -/
private theorem matchElements_sound_none
    (hcall : CallsSound s text limit call) :
    ∀ (elements : List Element) (start : Nat),
    matchElements call text limit bound elements start = .ok none →
    ∃ before node after position, elements = before ++ ⟨node, false⟩ :: after
      ∧ Threads s text limit before start position
      ∧ Derives s text limit node position none
  | [], start, h => by
      rw [matchElements] at h
      cases h
  | ⟨node, true⟩ :: rest, start, h => by
      rw [matchElements] at h
      cases hr : repeatFrom (node.matchWith call text limit bound) bound
        start with
      | error e => rw [hr] at h; cases h
      | ok next =>
          rw [hr] at h
          obtain ⟨before, n, after, position, rfl, hbefore, hn⟩ :=
            matchElements_sound_none hcall rest next h
          exact ⟨⟨node, true⟩ :: before, n, after, position, rfl,
            .starred (repeatFrom_sound (matchWith_sound hcall node) bound start
              next hr)
              hbefore, hn⟩
  | ⟨node, false⟩ :: rest, start, h => by
      rw [matchElements] at h
      cases hm : node.matchWith call text limit bound start with
      | error e => rw [hm] at h; cases h
      | ok answer =>
          have hd := matchWith_sound hcall node start answer hm
          rw [hm] at h
          cases answer with
          | none => exact ⟨[], node, rest, start, rfl, .nil, hd⟩
          | some next =>
              obtain ⟨before, n, after, position, rfl, hbefore, hn⟩ :=
                matchElements_sound_none hcall rest next h
              exact ⟨⟨node, false⟩ :: before, n, after, position, rfl,
                .once hd hbefore, hn⟩

/-- The choice that is taken is the first that matches. -/
private theorem matchChoices_sound (hcall : CallsSound s text limit call) :
    ∀ (choices : List Node) (start stop : Nat),
    matchChoices call text limit bound choices start = .ok (some stop) →
    ∃ refused c later, choices = refused ++ c :: later
      ∧ (∀ r ∈ refused, Derives s text limit r start none)
      ∧ Derives s text limit c start (some stop)
  | [], start, stop, h => by
      rw [matchChoices] at h
      cases h
  | node :: rest, start, stop, h => by
      rw [matchChoices] at h
      cases hm : node.matchWith call text limit bound start with
      | error e => rw [hm] at h; cases h
      | ok answer =>
          have hd := matchWith_sound hcall node start answer hm
          rw [hm] at h
          cases answer with
          | some next =>
              cases h
              exact ⟨[], node, rest, rfl, fun r hr =>
                absurd hr List.not_mem_nil, hd⟩
          | none =>
              obtain ⟨refused, c, later, rfl, hrefused, hc⟩ :=
                matchChoices_sound hcall rest start stop h
              exact ⟨node :: refused, c, later, rfl,
                List.forall_mem_cons.2 ⟨hd, hrefused⟩, hc⟩

/-- Where no choice is taken, each fails. -/
private theorem matchChoices_sound_none (hcall : CallsSound s text limit call) :
    ∀ (choices : List Node) (start : Nat),
    matchChoices call text limit bound choices start = .ok none →
    ∀ c ∈ choices, Derives s text limit c start none
  | [], start, h => fun c hc => absurd hc List.not_mem_nil
  | node :: rest, start, h => by
      rw [matchChoices] at h
      cases hm : node.matchWith call text limit bound start with
      | error e => rw [hm] at h; cases h
      | ok answer =>
          have hd := matchWith_sound hcall node start answer hm
          rw [hm] at h
          cases answer with
          | some next => cases h
          | none =>
              exact List.forall_mem_cons.2
                ⟨hd, matchChoices_sound_none hcall rest start h⟩

end

end Sound

/-- Calls are answered soundly, however deep they may go. -/
theorem captureWithin_sound (s : ExpressionSet) (text : Text)
    (limit bound : Nat) :
    CallsSound s text limit (s.captureWithin text limit bound) := by
  induction bound with
  | zero => intro index start answer h; cases h
  | succ bound ih =>
      intro index start answer h
      unfold ExpressionSet.captureWithin at h
      cases he : s.get? index with
      | none => rw [he] at h; cases h
      | some e =>
          rw [he] at h
          exact ⟨e, rfl, matchWith_sound ih e.root start answer h⟩

/-- Whatever the bound, an answer of the matcher is derivable. -/
theorem captureNodeWithin_sound {bound : Nat} {node : Node} {start stop : Nat}
    {answer : Option Nat}
    (h : s.captureNodeWithin bound node text start stop = .ok answer) :
    Derives s text (min stop text.size) node start answer :=
  matchWith_sound (captureWithin_sound s text _ bound) node start answer h

-- ========================================================= completeness

/-- Finitely many facts, each true from some bound on, are true together
from some bound on. -/
theorem exists_bound_forall_mem {α : Type} {P : Nat → α → Prop} {l : List α}
    (h : ∀ a ∈ l, ∃ least, ∀ bound, least ≤ bound → P bound a) :
    ∃ least, ∀ bound, least ≤ bound → ∀ a ∈ l, P bound a := by
  induction l with
  | nil => exact ⟨0, fun bound _ a ha => absurd ha List.not_mem_nil⟩
  | cons a l ih =>
      obtain ⟨m, hm⟩ := h a List.mem_cons_self
      obtain ⟨n, hn⟩ := ih fun b hb => h b (List.mem_cons_of_mem a hb)
      refine ⟨max m n, fun bound hle => List.forall_mem_cons.2 ⟨?_, ?_⟩⟩
      · exact hm bound (by omega)
      · exact hn bound (by omega)

/-- Choices that fail are passed over. -/
theorem matchChoices_append {call : Nat → Nat → Answer} {bound start : Nat}
    {refused : List Node}
    (h : ∀ r ∈ refused, r.matchWith call text limit bound start = .ok none)
    (later : List Node) :
    matchChoices call text limit bound (refused ++ later) start
      = matchChoices call text limit bound later start := by
  induction refused with
  | nil => rfl
  | cons r refused ih =>
      rw [List.cons_append, matchChoices, h r List.mem_cons_self]
      exact ih fun r' hr' => h r' (List.mem_cons_of_mem r hr')

mutual

/-- A derivable answer is given under every bound that is large enough. -/
theorem Derives.matchWith {node : Node} {start : Nat} {answer : Option Nat} :
    Derives s text limit node start answer →
    ∃ least, ∀ bound, least ≤ bound →
      node.matchWith (s.captureWithin text limit bound) text limit bound start
        = .ok answer
  | .literal h => ⟨0, fun bound _ => by
      rw [Node.matchWith, literalAt_eq_some h]⟩
  | .noLiteral h => ⟨0, fun bound _ => by
      rw [Node.matchWith, literalAt_eq_none h]⟩
  | .expression he hd => by
      obtain ⟨least, hleast⟩ := hd.matchWith
      refine ⟨least + 1, fun bound hle => ?_⟩
      obtain ⟨bound, rfl⟩ : ∃ b, bound = b + 1 := ⟨bound - 1, by omega⟩
      rw [Node.matchWith, ExpressionSet.captureWithin, he]
      exact hleast bound (by omega)
  | .primitive hscan => ⟨0, fun bound _ => by rw [Node.matchWith, hscan]⟩
  | .choice hrefused hc => by
      obtain ⟨m, hm⟩ :=
        exists_bound_forall_mem fun r hr => (hrefused r hr).matchWith
      obtain ⟨n, hn⟩ := hc.matchWith
      refine ⟨max m n, fun bound hle => ?_⟩
      rw [Node.matchWith, matchChoices_append (hm bound (by omega)),
        matchChoices, hn bound (by omega)]
  | .noChoice hchoices => by
      obtain ⟨m, hm⟩ :=
        exists_bound_forall_mem fun c hc => (hchoices c hc).matchWith
      refine ⟨m, fun bound hle => ?_⟩
      have happend := matchChoices_append (hm bound hle) []
      rw [List.append_nil] at happend
      rw [Node.matchWith, happend, matchChoices]
  | .sequence hthreads => by
      obtain ⟨m, hm⟩ := hthreads.matchElements
      refine ⟨m, fun bound hle => ?_⟩
      have happend := hm bound hle []
      rw [List.append_nil] at happend
      rw [Node.matchWith, happend, matchElements]
  | .noSequence hthreads hd => by
      obtain ⟨m, hm⟩ := hthreads.matchElements
      obtain ⟨n, hn⟩ := hd.matchWith
      refine ⟨max m n, fun bound hle => ?_⟩
      rw [Node.matchWith, hm bound (by omega), matchElements,
        hn bound (by omega)]

/-- Items that lead somewhere hand the match over to those behind. -/
private theorem Threads.matchElements {elements : List Element}
    {start stop : Nat} :
    Threads s text limit elements start stop →
    ∃ least, ∀ bound, least ≤ bound → ∀ rest,
      matchElements (s.captureWithin text limit bound) text limit bound
          (elements ++ rest) start
        = matchElements (s.captureWithin text limit bound) text limit bound
            rest stop
  | .nil => ⟨0, fun bound _ rest => rfl⟩
  | .once hd hthreads => by
      obtain ⟨m, hm⟩ := hd.matchWith
      obtain ⟨n, hn⟩ := hthreads.matchElements
      refine ⟨max m n, fun bound hle rest => ?_⟩
      rw [List.cons_append, Munch.matchElements, hm bound (by omega)]
      exact hn bound (by omega) rest
  | .starred hrepeats hthreads => by
      obtain ⟨m, hm⟩ := hrepeats.repeatFrom
      obtain ⟨n, hn⟩ := hthreads.matchElements
      refine ⟨max m n, fun bound hle rest => ?_⟩
      rw [List.cons_append, Munch.matchElements,
        hm bound (by omega) bound (by omega)]
      exact hn bound (by omega) rest

/-- A chain is walked to its end; its length bounds the repetition, what
its links need bounds the calls. -/
private theorem Repeats.repeatFrom {node : Node} {start stop : Nat} :
    Repeats s text limit node start stop →
    ∃ least, ∀ bound, least ≤ bound → ∀ rounds, least ≤ rounds →
      repeatFrom
          (node.matchWith (s.captureWithin text limit bound) text limit bound)
          rounds start
        = .ok stop
  | .fails hd => by
      obtain ⟨m, hm⟩ := hd.matchWith
      refine ⟨m + 1, fun bound hle rounds hrounds => ?_⟩
      obtain ⟨rounds, rfl⟩ : ∃ r, rounds = r + 1 := ⟨rounds - 1, by omega⟩
      exact repeatFrom_fails (hm bound (by omega))
  | .stays hd => by
      obtain ⟨m, hm⟩ := hd.matchWith
      refine ⟨m + 1, fun bound hle rounds hrounds => ?_⟩
      obtain ⟨rounds, rfl⟩ : ∃ r, rounds = r + 1 := ⟨rounds - 1, by omega⟩
      exact repeatFrom_stays (hm bound (by omega))
  | .moves hd hne hrepeats => by
      obtain ⟨m, hm⟩ := hd.matchWith
      obtain ⟨n, hn⟩ := hrepeats.repeatFrom
      refine ⟨max m n + 1, fun bound hle rounds hrounds => ?_⟩
      obtain ⟨rounds, rfl⟩ : ∃ r, rounds = r + 1 := ⟨rounds - 1, by omega⟩
      rw [repeatFrom_moves (hm bound (by omega)) hne]
      exact hn bound (by omega) rounds (by omega)

end

/-- At most one answer is derivable: two would be given under one bound. -/
theorem Derives.unique {node : Node} {start : Nat} {a b : Option Nat}
    (ha : Derives s text limit node start a)
    (hb : Derives s text limit node start b) : a = b := by
  obtain ⟨m, hm⟩ := ha.matchWith
  obtain ⟨n, hn⟩ := hb.matchWith
  have h := hm (max m n) (by omega)
  rw [hn (max m n) (by omega)] at h
  cases h
  rfl

-- ============================================================= failures

/-- Calls to expressions that exist fail only where the bound is used
up. -/
def CallsEndless (s : ExpressionSet) (call : Nat → Nat → Answer) : Prop :=
  ∀ index start e, index < s.size → call index start = .error e → e = .endless

/-- A repetition fails only as the bound is used up, if attempts do. -/
private theorem repeatFrom_endless {attempt : Nat → Answer}
    (hattempt : ∀ position e, attempt position = .error e → e = .endless) :
    ∀ (bound start : Nat) (e : Error),
      repeatFrom attempt bound start = .error e → e = .endless := by
  intro bound
  induction bound with
  | zero =>
      intro start e h
      cases h
      rfl
  | succ bound ih =>
      intro start e h
      cases ha : attempt start with
      | error e' =>
          rw [repeatFrom_error ha] at h
          cases h
          exact hattempt start _ ha
      | ok answer =>
          cases answer with
          | none => rw [repeatFrom_fails ha] at h; cases h
          | some next =>
              by_cases hne : next = start
              · subst hne
                rw [repeatFrom_stays ha] at h
                cases h
              · rw [repeatFrom_moves ha hne] at h
                exact ih next e h

section Endless

variable {call : Nat → Nat → Answer} {bound : Nat}

mutual

/-- A linked tree fails only where the bound is used up. -/
theorem matchWith_endless (hcall : CallsEndless s call) :
    ∀ (node : Node) (start : Nat) (e : Error), node.ResolvedIn s →
    node.matchWith call text limit bound start = .error e → e = .endless
  | .literal w, start, e, hnode, h => by
      rw [Node.matchWith] at h
      cases h
  | .reference key (some (.expression index)), start, e, hnode, h => by
      rw [Node.matchWith] at h
      obtain ⟨t, ht, hexists⟩ := Node.references_reference.1 hnode
      cases ht
      exact hcall index start e hexists h
  | .reference key (some (.primitive scan)), start, e, hnode, h => by
      rw [Node.matchWith] at h
      cases h
  | .reference key none, start, e, hnode, h => by
      obtain ⟨t, ht, -⟩ := Node.references_reference.1 hnode
      cases ht
  | .sequence elements, start, e, hnode, h => by
      rw [Node.matchWith] at h
      exact matchElements_endless hcall elements start e
        (Node.references_sequence.1 hnode) h
  | .alternation choices, start, e, hnode, h => by
      rw [Node.matchWith] at h
      exact matchChoices_endless hcall choices start e
        (Node.references_alternation.1 hnode) h

private theorem matchElements_endless (hcall : CallsEndless s call) :
    ∀ (elements : List Element) (start : Nat) (e : Error),
    (∀ d ∈ elements, d.node.ResolvedIn s) →
    matchElements call text limit bound elements start = .error e → e = .endless
  | [], start, e, hnodes, h => by
      rw [matchElements] at h
      cases h
  | ⟨node, true⟩ :: rest, start, e, hnodes, h => by
      obtain ⟨hnode, hrest⟩ := List.forall_mem_cons.1 hnodes
      rw [matchElements] at h
      cases hr : repeatFrom (node.matchWith call text limit bound) bound
        start with
      | error e' =>
          rw [hr] at h
          cases h
          exact repeatFrom_endless
            (fun p e' => matchWith_endless hcall node p e' hnode) bound
              start _ hr
      | ok next =>
          rw [hr] at h
          exact matchElements_endless hcall rest next e hrest h
  | ⟨node, false⟩ :: rest, start, e, hnodes, h => by
      obtain ⟨hnode, hrest⟩ := List.forall_mem_cons.1 hnodes
      rw [matchElements] at h
      cases hm : node.matchWith call text limit bound start with
      | error e' =>
          rw [hm] at h
          cases h
          exact matchWith_endless hcall node start _ hnode hm
      | ok answer =>
          rw [hm] at h
          cases answer with
          | none => cases h
          | some next => exact matchElements_endless hcall rest next e hrest h

private theorem matchChoices_endless (hcall : CallsEndless s call) :
    ∀ (choices : List Node) (start : Nat) (e : Error),
    (∀ c ∈ choices, c.ResolvedIn s) →
    matchChoices call text limit bound choices start = .error e → e = .endless
  | [], start, e, hnodes, h => by
      rw [matchChoices] at h
      cases h
  | node :: rest, start, e, hnodes, h => by
      obtain ⟨hnode, hrest⟩ := List.forall_mem_cons.1 hnodes
      rw [matchChoices] at h
      cases hm : node.matchWith call text limit bound start with
      | error e' =>
          rw [hm] at h
          cases h
          exact matchWith_endless hcall node start _ hnode hm
      | ok answer =>
          rw [hm] at h
          cases answer with
          | some next => cases h
          | none => exact matchChoices_endless hcall rest start e hrest h

end

end Endless

/-- In a linked set, a call fails only as the bound is used up. -/
theorem captureWithin_endless (hs : s.Resolved) (text : Text)
    (limit bound : Nat) :
    CallsEndless s (s.captureWithin text limit bound) := by
  induction bound with
  | zero =>
      intro index start e hindex h
      cases h
      rfl
  | succ bound ih =>
      intro index start e hindex h
      obtain ⟨ex, hex⟩ := ExpressionSet.exists_get? hindex
      rw [ExpressionSet.captureWithin, hex] at h
      exact matchWith_endless ih ex.root start e
        (hs ex (ExpressionSet.mem_of_get? hex)) h

end Munch
