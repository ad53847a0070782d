/-
Brackets that make no difference.

A tree can be grouped in several ways: a sequence in a sequence, a choice
in a choice, a sequence of one item, a star on a starred group, a literal
cut in two (`Regroups`). Greedy stars are not taken back, so that this
makes no difference is not for nothing. It does make none, not even to
the bound that a match uses up: whatever calls are answered, the two
trees answer alike, errors included (`Regroups.matchWith`), and so do
trees that have them in one place (`Node.Replaces.matchWith`).

Items and alternatives are taken one after another by two operations on
answers, `Answer.andThen` and `Answer.orElse`, and where a list of them
is cut does not matter because the operations are associative. The star
takes another reason: where a repetition has stopped it stops at once
when it is started again (`repeatFrom_settled`), so the outer star of two
goes around once more at the most, which the bound that was enough for
the inner one leaves room for.

The main result is `captureNode_regroup`.
-/
import Munch.Proofs.Expr.Adequacy
import Munch.Proofs.Expr.Equivalence

namespace Munch

-- ============================================================ vocabulary

/-- Two ways to group the same tree. -/
inductive Regroups : Node → Node → Prop
  | sequence (front inner back : List Element) :
      Regroups (.sequence (front ++ ⟨.sequence inner, false⟩ :: back))
        (.sequence (front ++ inner ++ back))
  | choice (front inner back : List Node) :
      Regroups (.alternation (front ++ .alternation inner :: back))
        (.alternation (front ++ inner ++ back))
  | single (node : Node) : Regroups (.sequence [⟨node, false⟩]) node
  | star (node : Node) :
      Regroups (.sequence [⟨.sequence [⟨node, true⟩], true⟩])
        (.sequence [⟨node, true⟩])
  | literal (front back : Text) :
      Regroups (.literal (front ++ back))
        (.sequence [⟨.literal front, false⟩, ⟨.literal back, false⟩])

namespace Answer

/-- What the next item answers, where the one before it ends. -/
def andThen (a : Answer) (next : Nat → Answer) : Answer :=
  match a with
  | .error e => .error e
  | .ok none => .ok none
  | .ok (some position) => next position

/-- What the next alternative answers, if the one before it fails. -/
def orElse (a next : Answer) : Answer :=
  match a with
  | .error e => .error e
  | .ok (some position) => .ok (some position)
  | .ok none => next

variable (a b c : Answer) (f g : Nat → Answer)

/-- What follows may be grouped either way. -/
private theorem andThen_assoc :
    (a.andThen f).andThen g = a.andThen fun position =>
      (f position).andThen g := by
  rcases a with e | _ | position <;> rfl

private theorem andThen_ok :
    (a.andThen fun position => .ok (some position)) = a := by
  rcases a with e | _ | position <;> rfl

/-- So may what comes instead. -/
private theorem orElse_assoc :
    orElse (orElse a b) c = orElse a (orElse b c) := by
  rcases a with e | _ | position <;> rfl

end Answer

section Matching

variable (call : Nat → Nat → Answer) (text : Text) (limit bound : Nat)

/-- Matches one item of a sequence. -/
def Element.matchWith (item : Element) (position : Nat) : Answer :=
  if item.starred then
    (repeatFrom (item.node.matchWith call text limit bound) bound position).map
      some
  else item.node.matchWith call text limit bound position

-- ========================================== items and alternatives in turn

/-- Items match one after the other. -/
private theorem matchElements_cons (item : Element) (rest : List Element)
    (position : Nat) :
    matchElements call text limit bound (item :: rest) position
      = (item.matchWith call text limit bound position).andThen
          (matchElements call text limit bound rest) := by
  obtain ⟨node, starred⟩ := item
  unfold Element.matchWith
  cases starred with
  | true =>
      rw [matchElements, if_pos rfl]
      rcases repeatFrom (node.matchWith call text limit bound) bound position
        with e | next <;> rfl
  | false =>
      rw [matchElements, if_neg Bool.false_ne_true]
      rcases node.matchWith call text limit bound position
        with e | _ | next <;> rfl

/-- Two lists of items match one after the other. -/
private theorem matchElements_append (front back : List Element)
    (position : Nat) :
    matchElements call text limit bound (front ++ back) position
      = (matchElements call text limit bound front position).andThen
          (matchElements call text limit bound back) := by
  induction front generalizing position with
  | nil => rfl
  | cons item front ih =>
      rw [List.cons_append, matchElements_cons, matchElements_cons,
        Answer.andThen_assoc]
      exact congrArg _ (funext ih)

private theorem matchElements_single (item : Element) (position : Nat) :
    matchElements call text limit bound [item] position
      = item.matchWith call text limit bound position := by
  rw [matchElements_cons]
  exact Answer.andThen_ok _

/-- A later choice is tried where the first one fails. -/
private theorem matchChoices_cons (node : Node) (rest : List Node)
    (start : Nat) :
    matchChoices call text limit bound (node :: rest) start
      = (node.matchWith call text limit bound start).orElse
          (matchChoices call text limit bound rest start) := by
  rw [matchChoices]
  rcases node.matchWith call text limit bound start with e | _ | next <;> rfl

/-- A later list of choices is tried where the first one fails. -/
private theorem matchChoices_concat (front back : List Node) (start : Nat) :
    matchChoices call text limit bound (front ++ back) start
      = (matchChoices call text limit bound front start).orElse
          (matchChoices call text limit bound back start) := by
  induction front with
  | nil => rfl
  | cons node front ih =>
      rw [List.cons_append, matchChoices_cons, matchChoices_cons, ih,
        Answer.orElse_assoc]

end Matching

-- ============================================================ repetitions

section Repetition

variable {attempt : Nat → Answer} {bound p q : Nat}

/-- What a repetition's first attempt can be, where it has an answer. -/
theorem repeatFrom_cases (h : repeatFrom attempt (bound + 1) p = .ok q) :
    (q = p ∧ (attempt p = .ok none ∨ attempt p = .ok (some p)))
      ∨ ∃ next, next ≠ p ∧ attempt p = .ok (some next)
        ∧ repeatFrom attempt bound next = .ok q := by
  rcases hp : attempt p with e | _ | next
  · rw [repeatFrom_error hp] at h
    cases h
  · rw [repeatFrom_fails hp] at h
    exact .inl ⟨(Except.ok.inj h).symm, .inl rfl⟩
  · by_cases hne : next = p
    · subst hne
      rw [repeatFrom_stays hp] at h
      exact .inl ⟨(Except.ok.inj h).symm, .inr rfl⟩
    · rw [repeatFrom_moves hp hne] at h
      exact .inr ⟨next, hne, rfl, h⟩

/-- Where a repetition has stopped it stops at once when it is started
again. -/
theorem repeatFrom_settled (h : repeatFrom attempt bound p = .ok q)
    (again : Nat) : repeatFrom attempt (again + 1) q = .ok q := by
  induction bound generalizing p with
  | zero => cases h
  | succ bound ih =>
      rcases repeatFrom_cases h with ⟨rfl, hfails | hstays⟩
        | ⟨next, -, -, hrest⟩
      · exact repeatFrom_fails hfails
      · exact repeatFrom_stays hstays
      · exact ih hrest

/-- A repetition that moves takes two attempts. -/
theorem two_le_of_moved (h : repeatFrom attempt bound p = .ok q) (hne : q ≠ p) :
    2 ≤ bound := by
  match bound with
  | 0 => cases h
  | 1 =>
      rcases repeatFrom_cases h with ⟨rfl, -⟩ | ⟨next, -, -, hrest⟩
      · exact absurd rfl hne
      · cases hrest
  | bound + 2 => exact Nat.le_add_left 2 bound

/-- To repeat a repetition is to repeat. -/
theorem repeatFrom_repeatFrom (attempt : Nat → Answer) (bound p : Nat) :
    repeatFrom (fun position => (repeatFrom attempt bound position).map some)
      bound p
      = repeatFrom attempt bound p := by
  cases bound with
  | zero => rfl
  | succ bound =>
      rcases h : repeatFrom attempt (bound + 1) p with e | q
      · apply repeatFrom_error
        rw [h]
        rfl
      · by_cases hmoved : q = p
        · subst hmoved
          apply repeatFrom_stays
          rw [h]
          rfl
        · -- once around, and once more to see that it has stopped
          obtain ⟨rounds, rfl⟩ : ∃ rounds, bound = rounds + 1 :=
            ⟨bound - 1, by have := two_le_of_moved h hmoved; omega⟩
          have hfirst : (repeatFrom attempt (rounds + 1 + 1) p).map some
              = .ok (some q) := by
            rw [h]
            rfl
          rw [repeatFrom_moves hfirst hmoved]
          apply repeatFrom_stays
          rw [repeatFrom_settled h]
          rfl

end Repetition

-- =============================================================== literals

section Literals

variable {text : Text} {limit start : Nat} {front back : Text}

/-- A literal fits where its first part does and its second behind it. -/
theorem literalFits_append : LiteralFits text limit (front ++ back) start
    ↔ LiteralFits text limit front start
      ∧ LiteralFits text limit back (start + front.size) := by
  unfold LiteralFits
  rw [Text.standsAt_append, Text.size_append]
  constructor
  · rintro ⟨hlimit, hfront, hback⟩
    exact ⟨⟨by omega, hfront⟩, by omega, hback⟩
  · rintro ⟨⟨-, hfront⟩, hlimit, hback⟩
    exact ⟨by omega, hfront, hback⟩

/-- A literal of two parts is matched as the one and then the other. -/
private theorem literalAt_append (text : Text) (limit : Nat) (front back : Text)
    (start : Nat) :
    (.ok (literalAt text limit (front ++ back) start) : Answer)
      = Answer.andThen (.ok (literalAt text limit front start)) fun position =>
          .ok (literalAt text limit back position) := by
  by_cases hfront : LiteralFits text limit front start
  · rw [literalAt_eq_some hfront]
    show _ = Except.ok (literalAt text limit back (start + front.size))
    by_cases hback : LiteralFits text limit back (start + front.size)
    · rw [literalAt_eq_some hback,
        literalAt_eq_some (literalFits_append.2 ⟨hfront, hback⟩),
        Text.size_append, Nat.add_assoc]
    · rw [literalAt_eq_none hback,
        literalAt_eq_none fun h => hback (literalFits_append.1 h).2]
  · rw [literalAt_eq_none hfront, literalAt_eq_none fun h =>
      hfront (literalFits_append.1 h).1]
    rfl

end Literals

-- ============================================================ both together

section Trees

variable (call : Nat → Nat → Answer) (text : Text) (limit bound : Nat)

/-- Two ways to group a tree answer alike. -/
theorem Regroups.matchWith {old new : Node} (h : Regroups old new)
    (start : Nat) :
    old.matchWith call text limit bound start
      = new.matchWith call text limit bound start := by
  cases h with
  | sequence front inner back =>
      rw [Node.matchWith, Node.matchWith, List.append_assoc,
        matchElements_append,
        matchElements_append]
      refine congrArg _ (funext fun position => ?_)
      rw [matchElements_cons, matchElements_append]
      rfl
  | choice front inner back =>
      rw [Node.matchWith, Node.matchWith, List.append_assoc,
        matchChoices_concat,
        matchChoices_concat, matchChoices_cons, matchChoices_concat,
          Node.matchWith]
  | single node =>
      rw [Node.matchWith, matchElements_single]
      rfl
  | star node =>
      rw [Node.matchWith, Node.matchWith, matchElements_single,
        matchElements_single]
      have hinner : (Node.sequence [⟨node, true⟩]).matchWith call text
        limit bound
          = fun position =>
            (repeatFrom (node.matchWith call text limit bound) bound
              position).map some := by
        funext position
        rw [Node.matchWith, matchElements_single]
        rfl
      unfold Element.matchWith
      rw [if_pos rfl, if_pos rfl, hinner, repeatFrom_repeatFrom]
  | literal front back =>
      rw [Node.matchWith, Node.matchWith, matchElements_cons, literalAt_append]
      refine congrArg _ (funext fun position => ?_)
      rw [matchElements_single]
      rfl

/-- Trees that answer alike can stand in each other's place. -/
theorem Node.Replaces.matchWith {old new m n : Node} (h : Replaces old new m n)
    (hnodes : ∀ start, old.matchWith call text limit bound start
      = new.matchWith call text limit bound start) (start : Nat) :
    m.matchWith call text limit bound start
      = n.matchWith call text limit bound start := by
  induction h generalizing start with
  | here => exact hnodes start
  | @item node node' front back starred _ ih =>
      have hitem : (⟨node, starred⟩ : Element).matchWith call text limit bound
          = (⟨node', starred⟩ : Element).matchWith call text limit bound := by
        funext position
        unfold Element.matchWith
        rw [funext ih]
      rw [Node.matchWith, Node.matchWith, matchElements_append,
        matchElements_append]
      refine congrArg _ (funext fun position => ?_)
      rw [matchElements_cons, matchElements_cons, hitem]
  | choice front back _ ih =>
      rw [Node.matchWith, Node.matchWith, matchChoices_concat,
        matchChoices_concat,
        matchChoices_cons, matchChoices_cons, ih]

end Trees

/-- To group a part of a tree in another way does not change what the
tree matches: where a match ends, that there is none, or the error. It
does not even change what bound a match needs. -/
theorem captureNode_regroup {old new m n : Node} (h : Regroups old new)
    (hplace : Node.Replaces old new m n) (s : ExpressionSet) (text : Text)
    (start stop : Nat) :
    s.captureNode m text start stop = s.captureNode n text start stop
      ∧ ∀ bound, s.captureNodeWithin bound m text start stop
          = s.captureNodeWithin bound n text start stop := by
  have hbound : ∀ bound, s.captureNodeWithin bound m text start stop
      = s.captureNodeWithin bound n text start stop := fun bound =>
    hplace.matchWith _ text _ bound (h.matchWith _ text _ bound) start
  exact ⟨hbound (s.budget text), hbound⟩

/-- Items in brackets, one after another. -/
def items : Node := .sequence [⟨.reference "Item" (some (.expression 1)), true⟩]

/-- A second star on them makes no difference. -/
theorem captureNode_regroup_bracketed :
    Regroups (.sequence [⟨items, true⟩]) items
      ∧ bracketed.captureNode
          (.sequence [⟨.literal ['['], false⟩,
            ⟨.sequence [⟨items, true⟩], false⟩,
            ⟨.literal [']'], false⟩])
          ['[', 'é', '[', 'a', ']', ']', '!'] 0 9 = .ok (some 7) := by
  have hstar : Regroups (.sequence [⟨items, true⟩]) items := .star _
  have hplace : Node.Replaces (.sequence [⟨items, true⟩]) items
      (.sequence [⟨.literal ['['], false⟩, ⟨.sequence [⟨items, true⟩], false⟩,
        ⟨.literal [']'], false⟩])
      (.sequence [⟨.literal ['['], false⟩, ⟨items, false⟩,
        ⟨.literal [']'], false⟩]) :=
    .item [⟨.literal ['['], false⟩] [⟨.literal [']'], false⟩] false .here
  refine ⟨hstar, (captureNode_regroup hstar hplace bracketed
    ['[', 'é', '[', 'a', ']', ']', '!'] 0 9).1.trans ?_⟩
  rfl

end Munch
