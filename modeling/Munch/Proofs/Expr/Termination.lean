/-
Matching ends on every set without left recursion: the matcher's own
budget is enough, whatever the tree, the text and the offset
(`captureNode_returns`).

# Left recursion

A tree is `Nullable` if it may match without moving, judged by its shape
alone: the least such notion. An expression *left-calls* another if it
may call it before it has moved (`LeftReference`): through any child of
an alternation, and through every item of a sequence up to the first that
is neither starred nor nullable. A set is free of left recursion if no
chain of left calls leads back to where it began.

# The measure

The set has `n` expressions. Each gets a rank, no more than `n`, that
falls along left calls (`exists_rank`). With `left` bytes between a
position and the limit, a call needs no more than

    left * (n + 1) + rank + 2

nested calls: one made before the caller has moved lowers the rank, any
other one lowers `left`, by which the first summand pays for every rank
there is. The induction is over the bound; what it needs of a tree is
`matchWith_returns`: the tree returns if the calls do that it can make,
at its start only those in left position.

That a position cannot fall, and that a tree that matches without moving
is nullable (`Derives.nullable_of`), comes from the semantics, where the
matcher's answers are derivable.
-/
import Mathlib.Data.Finset.Card
import Mathlib.Data.Finset.Range
import Mathlib.Data.Finset.Filter
import Mathlib.Logic.Relation
import Munch.Proofs.Expr.Adequacy

namespace Munch

-- ========================================================= left recursion

/-- Between some two offsets in order, a primitive matches without
moving. -/
def Primitive.MayStay (scan : Primitive) : Prop :=
  ∃ text start stop, start ≤ stop ∧ scan text start stop = some start

/-- Trees that may match without moving. -/
inductive Nullable (s : ExpressionSet) : Node → Prop where
  | literal : Nullable s (.literal [])
  | expression {key : String} {index : Nat} {e : Expression} :
      s.get? index = some e → Nullable s e.root →
      Nullable s (.reference key (some (.expression index)))
  | primitive {key : String} {scan : Primitive} :
      scan.MayStay → Nullable s (.reference key (some (.primitive scan)))
  /-- Every item is starred or nullable. -/
  | sequence {elements : List Element} :
      (∀ e ∈ elements, e.starred = false → Nullable s e.node) →
      Nullable s (.sequence elements)
  | alternation {choices : List Node} {c : Node} :
      c ∈ choices → Nullable s c → Nullable s (.alternation choices)

/-- A tree refers to an expression in left position. -/
inductive LeftReference (s : ExpressionSet) : Node → Nat → Prop where
  | reference {key : String} {index : Nat} :
      LeftReference s (.reference key (some (.expression index))) index
  | sequence {before after : List Element} {e : Element} {index : Nat} :
      (∀ d ∈ before, d.starred = false → Nullable s d.node) →
      LeftReference s e.node index →
      LeftReference s (.sequence (before ++ e :: after)) index
  | alternation {choices : List Node} {c : Node} {index : Nat} :
      c ∈ choices → LeftReference s c index →
      LeftReference s (.alternation choices) index

namespace ExpressionSet

/-- An expression may call another before it has moved. -/
def LeftCalls (s : ExpressionSet) (caller callee : Nat) : Prop :=
  ∃ e, s.get? caller = some e ∧ LeftReference s e.root callee

/-- No chain of left calls leads back to where it began. -/
def LeftRecursionFree (s : ExpressionSet) : Prop :=
  ∀ index, ¬ Relation.TransGen s.LeftCalls index index

/-- A rank that falls along left calls shows a set free of left
recursion. -/
theorem leftRecursionFree_of_rank {s : ExpressionSet} (rank : Nat → Nat)
    (hrank : ∀ a b, s.LeftCalls a b → rank b < rank a) :
    s.LeftRecursionFree := by
  have hfalls : ∀ a b, Relation.TransGen s.LeftCalls a b → rank b < rank a := by
    intro a b hab
    induction hab with
    | single hab => exact hrank _ _ hab
    | tail _ hbc ih => exact Nat.lt_trans (hrank _ _ hbc) ih
  exact fun index hloop => Nat.lt_irrefl _ (hfalls index index hloop)

end ExpressionSet

variable {s : ExpressionSet} {text : Text} {limit : Nat}

/-- Only the empty literal can match without moving on. -/
@[simp] theorem nullable_literal {w : Text} :
    Nullable s (.literal w) ↔ w = [] := by
  constructor
  · intro h
    cases h
    rfl
  · intro h
    subst h
    exact .literal

@[simp] theorem leftReference_literal {w : Text} {index : Nat} :
    ¬ LeftReference s (.literal w) index := fun h => nomatch h

/-- A reference calls its own expression first. -/
@[simp] theorem leftReference_reference {key : String} {target : Option Target}
    {index : Nat} :
    LeftReference s (.reference key target) index
      ↔ target = some (.expression index) := by
  constructor
  · intro h
    cases h
    rfl
  · intro h
    subst h
    exact .reference

@[simp] theorem leftReference_sequence_nil {index : Nat} :
    ¬ LeftReference s (.sequence []) index := by
  generalize hempty : Node.sequence [] = node
  intro h
  cases h with
  | sequence => simp at hempty
  | reference => cases hempty
  | alternation => cases hempty

/-- The first item of a sequence is in left position; those behind it are
if it can be matched without moving. -/
@[simp] theorem leftReference_sequence_cons {e : Element} {rest : List Element}
    {index : Nat} :
    LeftReference s (.sequence (e :: rest)) index
      ↔ LeftReference s e.node index
        ∨ (e.starred = false → Nullable s e.node)
          ∧ LeftReference s (.sequence rest) index := by
  constructor
  · generalize hcons : Node.sequence (e :: rest) = node
    intro h
    cases h with
    | reference => cases hcons
    | alternation => cases hcons
    | @sequence before after d _ hbefore href =>
        cases before with
        | nil =>
            cases hcons
            exact .inl href
        | cons d before =>
            cases hcons
            obtain ⟨hd, hbefore⟩ := List.forall_mem_cons.1 hbefore
            exact .inr ⟨hd, .sequence hbefore href⟩
  · intro h
    rcases h with href | ⟨he, href⟩
    · exact @LeftReference.sequence s [] rest e index
        (fun d hd => absurd hd List.not_mem_nil) href
    · generalize hnode : Node.sequence rest = node at href
      cases href with
      | reference => cases hnode
      | alternation => cases hnode
      | @sequence before after d _ hbefore href =>
          cases hnode
          exact @LeftReference.sequence s (e :: before) after d index
            (List.forall_mem_cons.2 ⟨he, hbefore⟩) href

/-- An alternation may call first what one of its choices does. -/
@[simp] theorem leftReference_alternation {choices : List Node} {index : Nat} :
    LeftReference s (.alternation choices) index
      ↔ ∃ c ∈ choices, LeftReference s c index := by
  constructor
  · intro h
    cases h with
    | alternation hc href => exact ⟨_, hc, href⟩
  · intro h
    obtain ⟨c, hc, href⟩ := h
    exact .alternation hc href

/-- The references of a linked tree lead to expressions that exist, those
in left position too. -/
theorem LeftReference.lt_size {node : Node} {index : Nat}
    (h : LeftReference s node index) (hnode : node.ResolvedIn s) :
    index < s.size := by
  induction h with
  | reference =>
      obtain ⟨t, ht, hexists⟩ := Node.references_reference.1 hnode
      cases ht
      exact hexists
  | sequence _ _ ih =>
      exact ih (Node.references_sequence.1 hnode _ List.mem_append_cons_self)
  | alternation hc _ ih => exact ih (Node.references_alternation.1 hnode _ hc)

open Classical in
/-- Without left recursion, the number of expressions that one leads to
through left calls is a rank: a callee leads to fewer, since it does not
lead to itself. -/
theorem exists_rank (hs : s.Resolved) (hfree : s.LeftRecursionFree) :
    ∃ rank : Nat → Nat, (∀ a, rank a ≤ s.size)
      ∧ ∀ a b, s.LeftCalls a b → rank b < rank a := by
  let reached := fun a =>
    (Finset.range s.size).filter (Relation.TransGen s.LeftCalls a)
  refine ⟨fun a => (reached a).card, fun a => ?_, fun a b hab => ?_⟩
  · calc (reached a).card
        ≤ (Finset.range s.size).card := Finset.card_filter_le _ _
      _ = s.size := Finset.card_range s.size
  · refine Finset.card_lt_card ((Finset.ssubset_iff_of_subset ?_).2 ⟨b, ?_, ?_⟩)
    · intro c hc
      obtain ⟨hsize, hbc⟩ := Finset.mem_filter.1 hc
      exact Finset.mem_filter.2 ⟨hsize, .head hab hbc⟩
    · obtain ⟨e, he, href⟩ := hab
      have hb := href.lt_size (hs e (ExpressionSet.mem_of_get? he))
      exact Finset.mem_filter.2 ⟨Finset.mem_range.2 hb, .single ⟨e, he, href⟩⟩
    · exact fun hmem => hfree b (Finset.mem_filter.1 hmem).2

-- ====================================================== standing still

mutual

/-- A tree that matches without moving is nullable. -/
theorem Derives.nullable_of (hs : s.Primitives Primitive.InRange) {node : Node}
    {start : Nat} {answer : Option Nat} :
    Derives s text limit node start answer →
    node.Primitives Primitive.InRange → start ≤ limit →
    answer = some start → Nullable s node
  | .literal (w := w) _, _, _, hstay => by
      have hw : w = [] :=
        Text.size_eq_zero_iff.1 (by have := Option.some.inj hstay; omega)
      subst hw
      exact .literal
  | .noLiteral _, _, _, hstay => by cases hstay
  | .expression he hd, _, hle, hstay =>
      .expression he (Derives.nullable_of hs hd
        (hs _ (ExpressionSet.mem_of_get? he)) hle hstay)
  | .primitive hscan, _, hle, hstay =>
      .primitive ⟨text, start, limit, hle, hscan.trans hstay⟩
  | .choice _ hc, hnode, hle, hstay =>
      .alternation List.mem_append_cons_self (Derives.nullable_of hs hc
        (Node.references_alternation.1 hnode _ List.mem_append_cons_self)
        hle hstay)
  | .noChoice _, _, _, hstay => by cases hstay
  | .sequence hthreads, hnode, hle, hstay =>
      .sequence (Threads.nullable_of hs hthreads
        (Node.references_sequence.1 hnode) hle (Option.some.inj hstay))
  | .noSequence _ _, _, _, hstay => by cases hstay

/-- Items that lead back to where they began are starred or nullable:
between the two, no position can have risen. -/
theorem Threads.nullable_of (hs : s.Primitives Primitive.InRange)
    {elements : List Element} {start stop : Nat} :
    Threads s text limit elements start stop →
    (∀ e ∈ elements, e.node.Primitives Primitive.InRange) → start ≤ limit →
    stop = start → ∀ e ∈ elements, e.starred = false → Nullable s e.node
  | .nil, _, _, _ => fun e he => absurd he List.not_mem_nil
  | .once hd hrest, hnodes, hle, hstay => by
      obtain ⟨hnode, hnodes⟩ := List.forall_mem_cons.1 hnodes
      obtain ⟨hlow, hnext⟩ := hd.mem_range hs hnode hle
      obtain ⟨hlow', -⟩ := hrest.mem_range hs hnodes hnext
      refine List.forall_mem_cons.2 ⟨fun _ => ?_, ?_⟩
      · exact Derives.nullable_of hs hd hnode hle (congrArg some (by omega))
      · exact Threads.nullable_of hs hrest hnodes hnext (by omega)
  | .starred hrepeats hrest, hnodes, hle, hstay => by
      obtain ⟨hnode, hnodes⟩ := List.forall_mem_cons.1 hnodes
      obtain ⟨hlow, hnext⟩ := hrepeats.mem_range hs hnode hle
      obtain ⟨hlow', -⟩ := hrest.mem_range hs hnodes hnext
      refine List.forall_mem_cons.2 ⟨fun hstar => (nomatch hstar), ?_⟩
      exact Threads.nullable_of hs hrest hnodes hnext (by omega)

end

-- ========================================================== enough calls

/-- The calls that a tree can make return: those at its start to what it
refers to in left position, and those behind its start to anything. -/
def CallsReturn (s : ExpressionSet) (limit : Nat) (call : Nat → Nat → Answer)
    (node : Node) (start : Nat) : Prop :=
  ∀ index position, index < s.size → start ≤ position → position ≤ limit →
    (position = start → LeftReference s node index) →
    ∃ answer, call index position = .ok answer

section CallsReturn

variable {call : Nat → Nat → Answer} {start position : Nat}

/-- Calls that return from one place on return from later ones. -/
private theorem CallsReturn.later {node : Node}
    (h : CallsReturn s limit call node start) (hle : start ≤ position) :
    CallsReturn s limit call node position := by
  intro index p hindex hp hlimit href
  exact h index p hindex (Nat.le_trans hle hp) hlimit fun heq => href (by omega)

/-- An item is in left position for as long as the items before it have
not moved. -/
theorem CallsReturn.item {before after : List Element} {e : Element}
    (h : CallsReturn s limit call (.sequence (before ++ e :: after)) start)
    (hle : start ≤ position)
    (hbefore : position = start →
      ∀ d ∈ before, d.starred = false → Nullable s d.node) :
    CallsReturn s limit call e.node position := by
  intro index p hindex hp hlimit href
  apply h index p hindex (Nat.le_trans hle hp) hlimit
  intro heq
  exact .sequence (hbefore (by omega)) (href (by omega))

/-- The calls of a choice are among those of the alternation. -/
theorem CallsReturn.choice {choices : List Node} {c : Node}
    (h : CallsReturn s limit call (.alternation choices) start)
    (hc : c ∈ choices) : CallsReturn s limit call c start := by
  intro index p hindex hp hlimit href
  exact h index p hindex hp hlimit fun heq => .alternation hc (href heq)

end CallsReturn

/-- A repetition returns if its attempts do and never go backwards: each
round but the last moves on by a byte. -/
theorem repeatFrom_returns {attempt : Nat → Answer} {start : Nat}
    (hattempt : ∀ p, start ≤ p → p ≤ limit → ∃ answer, attempt p = .ok answer)
    (hrange : ∀ p next, p ≤ limit → attempt p = .ok (some next) →
      p ≤ next ∧ next ≤ limit) :
    ∀ rounds p, start ≤ p → p ≤ limit → limit - p < rounds →
      ∃ stop, repeatFrom attempt rounds p = .ok stop := by
  intro rounds
  induction rounds with
  | zero => intro p _ _ hlt; omega
  | succ rounds ih =>
      intro p hp hlimit hlt
      obtain ⟨answer, ha⟩ := hattempt p hp hlimit
      cases answer with
      | none => exact ⟨p, repeatFrom_fails ha⟩
      | some next =>
          by_cases hne : next = p
          · subst hne
            exact ⟨next, repeatFrom_stays ha⟩
          · obtain ⟨hlow, hhigh⟩ := hrange p next hlimit ha
            rw [repeatFrom_moves ha hne]
            exact ih next (by omega) hhigh (by omega)

section Returns

variable {bound : Nat}

mutual

/-- A tree returns if the calls do that it can make. -/
theorem matchWith_returns (hs : s.Primitives Primitive.InRange) :
    ∀ (node : Node) (start : Nat), node.ResolvedIn s →
    node.Primitives Primitive.InRange → start ≤ limit → limit - start < bound →
    CallsReturn s limit (s.captureWithin text limit bound) node start →
    ∃ answer, node.matchWith (s.captureWithin text limit bound) text limit bound
      start = .ok answer
  | .literal w, start, _, _, _, _, _ => ⟨_, by rw [Node.matchWith]⟩
  | .reference key (some (.expression index)), start, hnode, _, hle, _,
      hcalls => by
      obtain ⟨t, ht, hexists⟩ := Node.references_reference.1 hnode
      cases ht
      rw [Node.matchWith]
      exact hcalls index start hexists (Nat.le_refl start) hle
        fun _ => .reference
  | .reference key (some (.primitive scan)), start, _, _, _, _, _ =>
      ⟨_, by rw [Node.matchWith]⟩
  | .reference key none, start, hnode, _, _, _, _ => by
      obtain ⟨t, ht, -⟩ := Node.references_reference.1 hnode
      cases ht
  | .sequence elements, start, hnode, hprims, hle, hbound, hcalls => by
      rw [Node.matchWith]
      exact matchElements_returns hs elements [] start start
        (Node.references_sequence.1 hnode) (Node.references_sequence.1 hprims)
        (Nat.le_refl start) hle hbound
        (fun _ d hd => absurd hd List.not_mem_nil) hcalls
  | .alternation choices, start, hnode, hprims, hle, hbound, hcalls => by
      rw [Node.matchWith]
      exact matchChoices_returns hs choices start
        (Node.references_alternation.1 hnode)
        (Node.references_alternation.1 hprims) hle hbound
        fun c hc => hcalls.choice hc

/-- The items of a sequence return from wherever those before them have
led. -/
private theorem matchElements_returns (hs : s.Primitives Primitive.InRange) :
    ∀ (rest before : List Element) (start position : Nat),
    (∀ e ∈ rest, e.node.ResolvedIn s) →
    (∀ e ∈ rest, e.node.Primitives Primitive.InRange) →
    start ≤ position → position ≤ limit → limit - position < bound →
    (position = start → ∀ d ∈ before, d.starred = false → Nullable s d.node) →
    CallsReturn s limit (s.captureWithin text limit bound)
      (.sequence (before ++ rest)) start →
    ∃ answer, matchElements (s.captureWithin text limit bound) text limit bound
      rest position = .ok answer
  | [], before, start, position, _, _, _, _, _, _, _ =>
      ⟨_, by rw [matchElements]⟩
  | ⟨node, true⟩ :: rest, before, start, position, hnodes, hprims, hle, hlimit,
      hbound, hbefore, hcalls => by
      obtain ⟨hnode, hnodes⟩ := List.forall_mem_cons.1 hnodes
      obtain ⟨hprim, hprims⟩ := List.forall_mem_cons.1 hprims
      have hsound : ∀ p answer,
          node.matchWith (s.captureWithin text limit bound) text limit bound p
            = .ok answer → Derives s text limit node p answer :=
        matchWith_sound (captureWithin_sound s text limit bound) node
      have hreturns : ∀ p, position ≤ p → p ≤ limit → ∃ answer,
          node.matchWith (s.captureWithin text limit bound) text limit bound p
            = .ok answer := fun p hp hpl =>
        matchWith_returns hs node p hnode hprim hpl (by omega)
          ((hcalls.item hle hbefore).later hp)
      obtain ⟨next, hnext⟩ := repeatFrom_returns hreturns
        (fun p q hpl hq => (hsound p _ hq).mem_range hs hprim hpl)
        bound position (Nat.le_refl position) hlimit hbound
      obtain ⟨hlow, hhigh⟩ :=
        (repeatFrom_sound hsound bound position next hnext).mem_range hs hprim
          hlimit
      rw [matchElements, hnext]
      refine matchElements_returns hs rest (before ++ [⟨node, true⟩]) start next
        hnodes hprims (Nat.le_trans hle hlow) hhigh (by omega)
        (fun heq => ?_) ?_
      · refine List.forall_mem_append.2 ⟨hbefore (by omega), ?_⟩
        exact List.forall_mem_singleton.2 fun hstar => (nomatch hstar)
      · rw [List.append_assoc]
        exact hcalls
  | ⟨node, false⟩ :: rest, before, start, position, hnodes, hprims, hle, hlimit,
      hbound, hbefore, hcalls => by
      obtain ⟨hnode, hnodes⟩ := List.forall_mem_cons.1 hnodes
      obtain ⟨hprim, hprims⟩ := List.forall_mem_cons.1 hprims
      obtain ⟨answer, ha⟩ :=
        matchWith_returns hs node position hnode hprim hlimit
        hbound (hcalls.item hle hbefore)
      have hd := matchWith_sound (captureWithin_sound s text limit bound) node
        position answer ha
      rw [matchElements, ha]
      cases answer with
      | none => exact ⟨none, rfl⟩
      | some next =>
          obtain ⟨hlow, hhigh⟩ := hd.mem_range hs hprim hlimit
          refine matchElements_returns hs rest (before ++ [⟨node, false⟩]) start
            next hnodes hprims (Nat.le_trans hle hlow) hhigh (by omega)
            (fun heq => ?_) ?_
          · refine List.forall_mem_append.2 ⟨hbefore (by omega), ?_⟩
            refine List.forall_mem_singleton.2 fun _ => ?_
            exact Derives.nullable_of hs hd hprim hlimit
              (congrArg some (by omega))
          · rw [List.append_assoc]
            exact hcalls

private theorem matchChoices_returns (hs : s.Primitives Primitive.InRange) :
    ∀ (choices : List Node) (start : Nat), (∀ c ∈ choices, c.ResolvedIn s) →
    (∀ c ∈ choices, c.Primitives Primitive.InRange) → start ≤ limit →
    limit - start < bound →
    (∀ c ∈ choices,
      CallsReturn s limit (s.captureWithin text limit bound) c start) →
    ∃ answer, matchChoices (s.captureWithin text limit bound) text limit bound
      choices start = .ok answer
  | [], start, _, _, _, _, _ => ⟨_, by rw [matchChoices]⟩
  | c :: rest, start, hnodes, hprims, hle, hbound, hcalls => by
      obtain ⟨hnode, hnodes⟩ := List.forall_mem_cons.1 hnodes
      obtain ⟨hprim, hprims⟩ := List.forall_mem_cons.1 hprims
      obtain ⟨hcall, hcalls⟩ := List.forall_mem_cons.1 hcalls
      obtain ⟨answer, ha⟩ :=
        matchWith_returns hs c start hnode hprim hle hbound hcall
      rw [matchChoices, ha]
      cases answer with
      | some next => exact ⟨some next, rfl⟩
      | none =>
          exact matchChoices_returns hs rest start hnodes hprims hle
            hbound hcalls

end

end Returns

-- ========================================================== termination

/-- What a call needs grows with the bytes left and with the rank. -/
theorem captureWithin_returns (hs : s.Resolved)
    (hprims : s.Primitives Primitive.InRange) {rank : Nat → Nat}
    (hrank : ∀ a, rank a ≤ s.size)
    (hfalls : ∀ a b, s.LeftCalls a b → rank b < rank a) :
    ∀ bound index start, index < s.size → start ≤ limit →
      (limit - start) * (s.size + 1) + rank index + 2 ≤ bound →
      ∃ answer, s.captureWithin text limit bound index start = .ok answer := by
  intro bound
  induction bound with
  | zero => intro index start _ _ hbound; omega
  | succ bound ih =>
      intro index start hindex hle hbound
      obtain ⟨e, he⟩ := ExpressionSet.exists_get? hindex
      have hmem := ExpressionSet.mem_of_get? he
      rw [ExpressionSet.captureWithin, he]
      refine matchWith_returns hprims e.root start (hs e hmem) (hprims e hmem)
        hle ?_ ?_
      · have hleft : limit - start ≤ (limit - start) * (s.size + 1) :=
          Nat.le_mul_of_pos_right _ (Nat.succ_pos _)
        omega
      · intro callee p hcallee hp hpl href
        apply ih callee p hcallee hpl
        by_cases heq : p = start
        · -- nothing has moved, and the rank falls
          subst heq
          have := hfalls index callee ⟨e, he, href rfl⟩
          omega
        · -- a byte has been passed, which pays for any rank
          have hbyte : (limit - p + 1) * (s.size + 1)
              ≤ (limit - start) * (s.size + 1) :=
            Nat.mul_le_mul_right _ (by omega)
          rw [Nat.add_mul, Nat.one_mul] at hbyte
          have := hrank callee
          omega

/-- The budget is enough for every rank and every number of bytes left. -/
theorem ExpressionSet.le_budget (s : ExpressionSet) {text : Text} {left : Nat}
    (hleft : left ≤ text.size) :
    left * (s.size + 1) + s.size + 2 ≤ s.budget text := by
  have hmul : left * (s.size + 1) ≤ text.size * (s.size + 2) :=
    Nat.mul_le_mul hleft (Nat.le_succ _)
  calc left * (s.size + 1) + s.size + 2
      ≤ text.size * (s.size + 2) + 3 * (s.size + 2) := by omega
    _ = s.budget text := (Nat.add_mul ..).symm

/-- Without left recursion, and with primitives that stay in range, calls
end: an expression of a linked set is answered within the matcher's
budget. -/
theorem capture_returns_of_inRange (hs : s.Resolved)
    (hprims : s.Primitives Primitive.InRange) (hfree : s.LeftRecursionFree)
    {index : Nat} (hindex : index < s.size) {text : Text} {start stop : Nat}
    (hle : start ≤ min stop text.size) :
    ∃ answer, s.capture index text start stop = .ok answer := by
  obtain ⟨rank, hrank, hfalls⟩ := exists_rank hs hfree
  apply captureWithin_returns hs hprims hrank hfalls _ index start hindex hle
  have hleft : min stop text.size - start ≤ text.size := by omega
  have hbudget := s.le_budget hleft
  have hindexRank := hrank index
  omega

/-- Without left recursion, matching ends: every node of a linked set, on
every text and from every offset that is not past the limit, is answered
within the matcher's budget. -/
theorem captureNode_returns (hs : s.Resolved)
    (hprims : s.Primitives Primitive.InRange) (hfree : s.LeftRecursionFree)
    {e : Expression} (he : e ∈ s.expressions) {node : Node}
    (hnode : node ∈ e.root.postorder) (text : Text) {start stop : Nat}
    (hstart : start ≤ min stop text.size) :
    ∃ answer, s.captureNode node text start stop = .ok answer := by
  obtain ⟨rank, hrank, hfalls⟩ := exists_rank hs hfree
  refine matchWith_returns hprims node start ((hs e he).of_mem hnode)
    ((hprims e he).of_mem hnode) hstart ?_ ?_
  · have hleft : text.size ≤ text.size * (s.size + 1) :=
      Nat.le_mul_of_pos_right _ (Nat.succ_pos _)
    have hbudget := s.le_budget (Nat.le_refl text.size)
    omega
  · intro index p hindex hp hpl _
    apply captureWithin_returns hs hprims hrank hfalls _ index p hindex hpl
    have hbytes : min stop text.size - p ≤ text.size := by omega
    have hbudget := s.le_budget hbytes
    have hindexRank := hrank index
    omega

/-- An item may call a list first, but a list begins with a bracket. -/
theorem bracketed_leftRecursionFree : bracketed.LeftRecursionFree := by
  apply ExpressionSet.leftRecursionFree_of_rank id
  intro caller callee hcalls
  obtain ⟨e, he, href⟩ := hcalls
  have hcaller : caller < 2 := (Array.getElem?_eq_some_iff.1 he).1
  have hcases : caller = 0 ∨ caller = 1 := by omega
  rcases hcases with rfl | rfl
  · obtain rfl : _ = e := Option.some.inj he
    simp [bracketed] at href
  · obtain rfl : _ = e := Option.some.inj he
    simp [bracketed] at href
    rw [← href]
    exact Nat.zero_lt_one

/-- Lists in lists, which call each other, come to an answer. -/
theorem captureNode_returns_bracketed :
    bracketed.Resolved ∧ bracketed.Primitives Primitive.InRange
      ∧ bracketed.LeftRecursionFree
      ∧ ∃ answer, bracketed.captureNode
          (.reference "Item" (some (.expression 1)))
          ['[', 'é', '[', 'a', ']', ']', '!'] 3 7 = .ok answer := by
  refine ⟨bracketed_resolved, bracketed_inRange,
    bracketed_leftRecursionFree, ?_⟩
  have he : bracketed.expressions[0] ∈ bracketed.expressions :=
    Array.getElem_mem (Nat.zero_lt_succ 1)
  refine captureNode_returns bracketed_resolved bracketed_inRange
    bracketed_leftRecursionFree he ?_ _ (by decide)
  simp [bracketed, Node.postorder, postorderElements]

end Munch
