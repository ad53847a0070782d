/-
The matcher and the relation agree (`capture_adequate`): what some bound
answers is what is derivable, and nothing else can happen but that a
bound is used up. Where primitives stay in range, the matcher's own
budget is one of the bounds that are large enough.
-/
import Munch.Proofs.Expr.Budget

namespace Munch

variable {s : ExpressionSet}

/-- The matcher and the relation agree. In a linked set the matcher gives
an answer, under some bound, exactly if the relation derives it; the
relation derives at most one; and whatever the bound, the matcher gives
an answer or has used the bound up. Where primitives stay in range, its
own budget is bound enough from every offset that is not past the
limit. -/
theorem capture_adequate (hs : s.Resolved) {node : Node}
    (hnode : node.ResolvedIn s) (text : Text) (start stop : Nat) :
    (∀ answer,
      (∃ bound, s.captureNodeWithin bound node text start stop = .ok answer)
        ↔ Derives s text (min stop text.size) node start answer)
      ∧ (∀ a b, Derives s text (min stop text.size) node start a →
          Derives s text (min stop text.size) node start b → a = b)
      ∧ (∀ bound,
          s.captureNodeWithin bound node text start stop = .error .endless
            ∨ ∃ answer,
                s.captureNodeWithin bound node text start stop = .ok answer)
      ∧ (s.Primitives Primitive.InRange → node.Primitives Primitive.InRange →
          start ≤ min stop text.size → ∀ answer,
          s.captureNode node text start stop = .ok answer
            ↔ Derives s text (min stop text.size) node start answer) := by
  refine ⟨fun answer => ⟨?_, ?_⟩, fun a b => Derives.unique, fun bound => ?_,
    fun hprims hnodePrims hstart answer => ⟨?_, ?_⟩⟩
  · intro h
    obtain ⟨bound, h⟩ := h
    exact captureNodeWithin_sound h
  · intro h
    obtain ⟨least, hleast⟩ := h.matchWith
    exact ⟨least, hleast least (Nat.le_refl least)⟩
  · cases h : s.captureNodeWithin bound node text start stop with
    | ok answer => exact .inr ⟨answer, rfl⟩
    | error e =>
        have he : e = .endless := matchWith_endless
          (captureWithin_endless hs text _ bound) node start e hnode h
        rw [he]
        exact .inl rfl
  · exact captureNodeWithin_sound
  · exact fun h => h.captureNode hprims hnodePrims hstart

/-- Letters in nested brackets: two rules that call each other, linked. -/
def bracketed : ExpressionSet where
  expressions := #[
    ⟨"List", .sequence [⟨.literal ['['], false⟩,
      ⟨.reference "Item" (some (.expression 1)), true⟩,
      ⟨.literal [']'], false⟩]⟩,
    ⟨"Item", .alternation [.reference "List" (some (.expression 0)),
      .reference "letter" (some (.primitive CharClass.letter.scan))]⟩]
  indices := ∅

theorem bracketed_resolved : bracketed.Resolved := by
  intro e he
  simp only [bracketed, List.mem_toArray, List.mem_cons, List.not_mem_nil,
    or_false] at he
  rcases he with rfl | rfl
  · simp [Node.ResolvedIn, Target.ExistsIn, bracketed, ExpressionSet.size]
  · simp [Node.ResolvedIn, Target.ExistsIn, bracketed, ExpressionSet.size]

theorem bracketed_inRange : bracketed.Primitives Primitive.InRange := by
  intro e he
  simp only [bracketed, List.mem_toArray, List.mem_cons, List.not_mem_nil,
    or_false] at he
  rcases he with rfl | rfl
  · simp [Node.Primitives]
  · simp [Node.Primitives, CharClass.scan_inRange]

/-- Lists in lists, matched up to the bracket that closes the outer one. -/
theorem capture_adequate_bracketed :
    bracketed.Resolved ∧ bracketed.Primitives Primitive.InRange
      ∧ (Node.reference "List" (some (.expression 0))).ResolvedIn bracketed
      ∧ bracketed.captureNode (.reference "List" (some (.expression 0)))
          ['[', 'é', '[', 'a', ']', ']', '!'] 0 9 = .ok (some 7)
      ∧ Derives bracketed ['[', 'é', '[', 'a', ']', ']', '!'] 8
          (.reference "List" (some (.expression 0))) 0 (some 7) := by
  have hnode : (Node.reference "List" (some (.expression 0))).ResolvedIn
      bracketed :=
    Node.references_reference.2 ⟨.expression 0, rfl, Nat.zero_lt_succ 1⟩
  have hprims : (Node.reference "List" (some (.expression 0))).Primitives
      Primitive.InRange := by
    simp [Node.Primitives]
  have hcapture :
    bracketed.captureNode (.reference "List" (some (.expression 0)))
      ['[', 'é', '[', 'a', ']', ']', '!'] 0 9 = .ok (some 7) := by
    rfl
  obtain ⟨-, -, -, hbudget⟩ := capture_adequate bracketed_resolved hnode
    ['[', 'é', '[', 'a', ']', ']', '!'] 0 9
  refine ⟨bracketed_resolved, bracketed_inRange, hnode, hcapture, ?_⟩
  exact (hbudget bracketed_inRange hprims (by decide) (some 7)).1 hcapture

end Munch
