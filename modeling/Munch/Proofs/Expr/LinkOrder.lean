/-
The order of a pass over the references of a set, and where it stops.

A pass meets the references expression by expression and left to right
(`ExpressionSet.occurrences`), and how far it comes does not depend on
anything else in the trees: not on their shapes, and not on the targets
that are there. So it is one step for each reference, taken one after
another (`linkExpressions_snd`).

Of a lookup without a state that leaves only the keys to look at. Each
reference is refused or not by itself (`refusal`), and what the pass
answers is the first refusal there is (`ExpressionSet.link_failure_eq`).
-/
import Munch.Proofs.Expr.Relink

namespace Munch

-- ============================================================ occurrences

/-- The key of a node that is a reference. -/
def Node.word? : Node → Option String
  | .reference key _ => some key
  | _ => none

/-- The keys that a tree refers to, left to right. -/
def Node.words (node : Node) : List String :=
  node.postorder.filterMap Node.word?

/-- A reference where it stands. -/
structure Occurrence where
  /-- The key of the expression that holds the reference. -/
  owner : String
  key : String

/-- The references of an expression, left to right. -/
def Expression.occurrences (e : Expression) : List Occurrence :=
  e.root.words.map fun key => ⟨e.key, key⟩

/-- The references of a set, expression by expression. -/
def ExpressionSet.occurrences (s : ExpressionSet) : List Occurrence :=
  s.expressions.toList.flatMap Expression.occurrences

/-- The keys that the items of a sequence refer to. -/
theorem Node.words_sequence (elements : List Element) :
    (Node.sequence elements).words
      = (postorderElements elements).filterMap Node.word? := by
  rw [words, postorder, List.filterMap_append]
  exact List.append_nil _

/-- The keys that the alternatives of a choice refer to. -/
theorem Node.words_alternation (choices : List Node) :
    (Node.alternation choices).words
      = (postorderNodes choices).filterMap Node.word? := by
  rw [words, postorder, List.filterMap_append]
  exact List.append_nil _

/-- Targets make no difference to the keys. -/
theorem Node.words_retarget (f : String → Option Target → Option Target)
    (node : Node) : (node.retarget f).words = node.words := by
  have hword : ∀ n : Node, (n.retarget f).word? = n.word? := by
    intro n
    cases n <;> rfl
  rw [words, Node.postorder_retarget, List.filterMap_map]
  exact List.filterMap_congr fun n _ => hword n

-- ================================================================ the pass

section Pass

variable {σ : Type} (lookup : String → σ → Lookup × σ)

/-- What a pass is behind one more reference. -/
def Linking.step (l : Linking σ) (r : Occurrence) : Linking σ :=
  (linkReference lookup r.owner r.key none l).2

/-- The target that a reference has does not matter to the pass. -/
theorem linkReference_snd (owner key : String) (target : Option Target)
    (l : Linking σ) :
    (linkReference lookup owner key target l).2
      = l.step lookup ⟨owner, key⟩ := by
  show _ = (linkReference lookup owner key none l).2
  unfold linkReference
  by_cases hpast : l.failure.isSome ∨ key = owner
  · rw [if_pos hpast, if_pos hpast]
  · rw [if_neg hpast, if_neg hpast]
    split <;> rfl

mutual

/-- The pass over a tree takes a step for each reference. -/
theorem Node.link_snd (owner : String) : ∀ (node : Node) (l : Linking σ),
    (node.link lookup owner l).2
      = (node.words.map fun key => ⟨owner, key⟩).foldl (Linking.step lookup) l
  | .literal text, l => rfl
  | .reference key target, l => linkReference_snd lookup owner key target l
  | .sequence elements, l => by
      rw [Node.words_sequence]
      exact linkElements_snd owner elements l
  | .alternation choices, l => by
      rw [Node.words_alternation]
      exact linkNodes_snd owner choices l

private theorem linkElements_snd (owner : String) :
    ∀ (elements : List Element) (l : Linking σ),
      (linkElements lookup owner elements l).2
        = (((postorderElements elements).filterMap Node.word?).map fun key =>
            ⟨owner, key⟩).foldl (Linking.step lookup) l
  | [], l => rfl
  | ⟨node, starred⟩ :: rest, l => by
      rw [postorderElements, List.filterMap_append, List.map_append,
        List.foldl_append]
      show (linkElements lookup owner rest (node.link lookup owner l).2).2 = _
      rw [linkElements_snd owner rest, Node.link_snd owner node l]
      rfl

private theorem linkNodes_snd (owner : String) :
    ∀ (choices : List Node) (l : Linking σ),
      (linkNodes lookup owner choices l).2
        = (((postorderNodes choices).filterMap Node.word?).map fun key =>
            ⟨owner, key⟩).foldl (Linking.step lookup) l
  | [], l => rfl
  | node :: rest, l => by
      rw [postorderNodes, List.filterMap_append, List.map_append,
        List.foldl_append]
      show (linkNodes lookup owner rest (node.link lookup owner l).2).2 = _
      rw [linkNodes_snd owner rest, Node.link_snd owner node l]
      rfl

end

/-- So does the pass over expressions. -/
theorem linkExpressions_snd (expressions : List Expression) (l : Linking σ) :
    (linkExpressions lookup expressions l).2
      = (expressions.flatMap Expression.occurrences).foldl
        (Linking.step lookup) l := by
  induction expressions generalizing l with
  | nil => rfl
  | cons e rest ih =>
      rw [List.flatMap_cons, List.foldl_append]
      show (linkExpressions lookup rest (e.root.link lookup e.key l).2).2 = _
      rw [ih, Node.link_snd lookup e.key e.root l]
      rfl

end Pass

-- ======================================================== where it stops

/-- Why a pass stops at a reference, if it does. -/
def refusal (lookup : String → Lookup) (r : Occurrence) : Option Error :=
  if r.key = r.owner then none
  else
    match lookup r.key with
    | .found _ => none
    | .notScannable => some (.noMatcher r.owner r.key)
    | .missing => some (.unresolvedReference r.owner r.key)

variable {lookup : String → Lookup}

/-- A reference is not refused exactly where it can be resolved. -/
theorem refusal_eq_none_iff {r : Occurrence} :
    refusal lookup r = none ↔ Resolvable lookup r.owner r.key := by
  unfold refusal Resolvable
  by_cases howner : r.key = r.owner
  · simp [howner]
  · cases lookup r.key <;> simp [howner]

/-- A pass that has stopped stays as it is, and any other stops where the
reference is refused. -/
theorem failure_step (l : Linking Unit) (r : Occurrence) :
    (l.step (Lookup.stateless lookup) r).failure
      = l.failure.or (refusal lookup r) := by
  unfold Linking.step linkReference refusal Lookup.stateless
  cases hl : l.failure with
  | some e => simp [hl]
  | none =>
      by_cases howner : r.key = r.owner
      · simp [howner, hl]
      · cases lookup r.key <;> simp [howner]

/-- A pass stops at the first reference that is refused. -/
private theorem failure_foldl (occurrences : List Occurrence)
    (l : Linking Unit) :
    (occurrences.foldl (Linking.step (Lookup.stateless lookup)) l).failure
      = l.failure.or (occurrences.findSome? (refusal lookup)) := by
  induction occurrences generalizing l with
  | nil => exact Option.or_none.symm
  | cons r rest ih =>
      rw [List.foldl_cons, ih, failure_step, List.findSome?_cons,
        Option.or_assoc]
      cases refusal lookup r <;> rfl

namespace ExpressionSet

variable {s : ExpressionSet}

/-- A pass answers the first refusal, if there is one. -/
theorem link_failure_eq :
    (s.link lookup).failure = s.occurrences.findSome? (refusal lookup) := by
  rw [link_eq]
  show (linkExpressions (Lookup.stateless lookup) s.expressions.toList
    ⟨(), [], none⟩).2.failure = _
  rw [linkExpressions_snd, failure_foldl]
  exact Option.none_or

end ExpressionSet

end Munch
