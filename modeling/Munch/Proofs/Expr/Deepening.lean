/-
Matching under a larger bound.

An answer that some bound on the depth of calls gives is given by every
larger one (`captureWithin_deepen`), so two bounds that both give an
answer give the same one.

As matching is, this is an induction over trees relative to what calls
answer. The bound on repetitions grows along.
-/
import Munch.Proofs.Expr.Semantics

namespace Munch

/-- What the one answers, the other does. -/
def Deepens (call call' : Nat → Nat → Answer) : Prop :=
  ∀ index p answer, call index p = .ok answer → call' index p = .ok answer

section Deepen

variable {call call' : Nat → Nat → Answer} {text : Text}
  {limit bound bound' : Nat}

/-- A repetition that ends does so where attempts are answered at least as
often, and more rounds are left. -/
private theorem repeatFrom_deepen {attempt attempt' : Nat → Answer}
    (hattempt : ∀ p answer, attempt p = .ok answer → attempt' p = .ok answer) :
    ∀ {rounds rounds' p stop : Nat}, rounds ≤ rounds' →
      repeatFrom attempt rounds p = .ok stop →
        repeatFrom attempt' rounds' p = .ok stop := by
  intro rounds
  induction rounds with
  | zero => intro rounds' p stop _ h; cases h
  | succ rounds ih =>
      intro rounds' p stop hle h
      obtain ⟨rounds', rfl⟩ : ∃ r, rounds' = r + 1 := ⟨rounds' - 1, by omega⟩
      cases ha : attempt p with
      | error e => rw [repeatFrom_error ha] at h; cases h
      | ok answer =>
          have ha' := hattempt p answer ha
          cases answer with
          | none =>
              rw [repeatFrom_fails ha] at h
              rw [repeatFrom_fails ha', h]
          | some next =>
              by_cases hne : next = p
              · subst hne
                rw [repeatFrom_stays ha] at h
                rw [repeatFrom_stays ha', h]
              · rw [repeatFrom_moves ha hne] at h
                rw [repeatFrom_moves ha' hne]
                exact ih (Nat.le_of_succ_le_succ hle) h

mutual

/-- A tree that is answered is answered alike where calls are answered at
least as often, and repetitions may be longer. -/
theorem matchWith_deepen (hcall : Deepens call call') (hle : bound ≤ bound') :
    ∀ (node : Node) (p : Nat) (answer : Option Nat),
    node.matchWith call text limit bound p = .ok answer →
    node.matchWith call' text limit bound' p = .ok answer
  | .literal w, p, answer, h => by
      rw [Node.matchWith] at h ⊢
      exact h
  | .reference key (some (.expression index)), p, answer, h => by
      rw [Node.matchWith] at h ⊢
      exact hcall index p answer h
  | .reference key (some (.primitive scan)), p, answer, h => by
      rw [Node.matchWith] at h ⊢
      exact h
  | .reference key none, p, answer, h => by
      rw [Node.matchWith] at h
      cases h
  | .sequence elements, p, answer, h => by
      rw [Node.matchWith] at h ⊢
      exact matchElements_deepen hcall hle elements p answer h
  | .alternation choices, p, answer, h => by
      rw [Node.matchWith] at h ⊢
      exact matchChoices_deepen hcall hle choices p answer h

private theorem matchElements_deepen (hcall : Deepens call call')
    (hle : bound ≤ bound') :
    ∀ (elements : List Element) (p : Nat) (answer : Option Nat),
    matchElements call text limit bound elements p = .ok answer →
    matchElements call' text limit bound' elements p = .ok answer
  | [], p, answer, h => by
      rw [matchElements] at h ⊢
      exact h
  | ⟨node, true⟩ :: rest, p, answer, h => by
      rw [matchElements] at h ⊢
      cases hr : repeatFrom (node.matchWith call text limit bound) bound p with
      | error e => rw [hr] at h; cases h
      | ok next =>
          rw [hr] at h
          rw [repeatFrom_deepen (matchWith_deepen hcall hle node) hle hr]
          exact matchElements_deepen hcall hle rest next answer h
  | ⟨node, false⟩ :: rest, p, answer, h => by
      rw [matchElements] at h ⊢
      cases hm : node.matchWith call text limit bound p with
      | error e => rw [hm] at h; cases h
      | ok first =>
          rw [hm] at h
          rw [matchWith_deepen hcall hle node p first hm]
          cases first with
          | none => exact h
          | some next => exact matchElements_deepen hcall hle rest next answer h

private theorem matchChoices_deepen (hcall : Deepens call call')
    (hle : bound ≤ bound') :
    ∀ (choices : List Node) (p : Nat) (answer : Option Nat),
    matchChoices call text limit bound choices p = .ok answer →
    matchChoices call' text limit bound' choices p = .ok answer
  | [], p, answer, h => by
      rw [matchChoices] at h ⊢
      exact h
  | node :: rest, p, answer, h => by
      rw [matchChoices] at h ⊢
      cases hm : node.matchWith call text limit bound p with
      | error e => rw [hm] at h; cases h
      | ok first =>
          rw [hm] at h
          rw [matchWith_deepen hcall hle node p first hm]
          cases first with
          | none => exact matchChoices_deepen hcall hle rest p answer h
          | some next => exact h

end

end Deepen

/-- An answer that a bound gives is given by every larger one. -/
theorem captureWithin_deepen (s : ExpressionSet) (text : Text) (limit : Nat)
    {bound : Nat} :
    ∀ {bound' : Nat}, bound ≤ bound' →
      Deepens (s.captureWithin text limit bound)
        (s.captureWithin text limit bound') := by
  induction bound with
  | zero => intro bound' _ index p answer h; cases h
  | succ bound ih =>
      intro bound' hle index p answer h
      obtain ⟨bound', rfl⟩ : ∃ b, bound' = b + 1 := ⟨bound' - 1, by omega⟩
      have hle' := Nat.le_of_succ_le_succ hle
      rw [ExpressionSet.captureWithin] at h ⊢
      cases he : s.get? index with
      | none => rw [he] at h; cases h
      | some e =>
          rw [he] at h
          exact matchWith_deepen (ih hle') hle' e.root p answer h

end Munch
