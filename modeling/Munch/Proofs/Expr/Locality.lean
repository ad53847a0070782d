/-
Matching depends on nothing but its window.

What stands between two character boundaries of a text is a text of its
own, and matching in the one is matching in the other, with all offsets
larger by the first boundary (`captureNode_window`). Under each bound on
the depth of calls that is known (`Node.matchWith_window`). But the
matcher takes its budget from the length of the text, so a match in the
window alone has the smaller one, and might use it up where the match in
the text does not. It does not, since its budget is enough for every
answer that is derivable (`Derives.captureNode_of_classes`).
-/
import Munch.Proofs.Expr.Boundary
import Munch.Proofs.Expr.Window

namespace Munch

variable {s : ExpressionSet} {node : Node}

/-- In a linked set, either an answer comes or the bound is used up. -/
theorem captureNodeWithin_cases (hs : s.Resolved) (hnode : node.ResolvedIn s)
    (bound : Nat) (text : Text) (start stop : Nat) :
    s.captureNodeWithin bound node text start stop = .error .endless
      ∨ ∃ answer, s.captureNodeWithin bound node text start stop = .ok answer :=
  (capture_adequate hs hnode text start stop).2.2.1 bound

section Windows

variable (hprims : s.Primitives Primitive.IsClass)
  (hnodePrims : node.Primitives Primitive.IsClass)

include hprims hnodePrims

/-- A tree matches in its window, wherever that stands, under each
bound. -/
theorem captureNodeWithin_window (bound : Nat) (front mid back : Text) :
    s.captureNodeWithin bound node (front ++ (mid ++ back)) front.size
        (front.size + mid.size)
      = (s.captureNodeWithin bound node mid 0 mid.size).shift front.size := by
  have hlimit : min (front.size + mid.size) (Text.size (front ++ (mid ++ back)))
      = front.size + mid.size := by
    rw [Text.size_append, Text.size_append]
    omega
  have hwindowed : s.Primitives Primitive.Windowed := fun e he =>
    (hprims e he).mono fun _ _ h scan hscan => (h scan hscan).windowed
  unfold ExpressionSet.captureNodeWithin
  rw [hlimit, Nat.min_self]
  exact Node.matchWith_window (captureWithin_window hwindowed front mid back
    bound) node 0
    (hnodePrims.mono fun _ _ h scan hscan => (h scan hscan).windowed)

/-- No bound beyond the budget changes anything. -/
theorem captureNodeWithin_eq (hs : s.Resolved) (hnode : node.ResolvedIn s)
    {bound : Nat} {text : Text} {start stop : Nat}
    (hle : s.budget text ≤ bound) :
    s.captureNodeWithin bound node text start stop
      = s.captureNode node text start stop := by
  rcases captureNodeWithin_cases hs hnode bound text start stop
    with hend | ⟨answer, hanswer⟩
  · rcases captureNodeWithin_cases hs hnode (s.budget text) text start stop
      with hown | ⟨answer, hown⟩
    · exact hend.trans hown.symm
    · -- an answer within the budget would be one within the larger bound
      have hdeep : s.captureNodeWithin bound node text start stop
          = .ok answer :=
        matchWith_deepen (captureWithin_deepen s text _ hle) hle node start
          answer hown
      rw [hend] at hdeep
      cases hdeep
  · have hown :=
      (captureNodeWithin_sound hanswer).captureNode_of_classes hprims hnodePrims
    exact hanswer.trans hown.symm

/-- Between two boundaries of a text, a tree matches as it does in the
part between them by itself, whatever stands before and behind. An end
past the text is as good as the end of the text. -/
theorem captureNode_window (hs : s.Resolved) (hnode : node.ResolvedIn s)
    {text : Text} {start stop : Nat} (hstart : text.isBoundary start = true)
    (hstop : text.isBoundary stop = true) (hle : start ≤ stop) :
    (∃ part, text.slice? start stop = some part
      ∧ s.captureNode node text start stop
        = (s.captureNode node part 0 (stop - start)).shift start)
      ∧ ∀ past, text.size ≤ past →
          s.captureNode node text start past
            = s.captureNode node text start text.size := by
  refine ⟨?_, fun past hpast => ?_⟩
  · obtain ⟨part, hpart⟩ := Text.exists_slice? hstart hstop hle
    refine ⟨part, hpart, ?_⟩
    obtain ⟨front, back, rfl, rfl, rfl⟩ := Text.slice?_eq_some_iff.1 hpart
    rw [List.append_assoc, Nat.add_sub_cancel_left]
    have hbudget : s.budget part ≤ s.budget (front ++ (part ++ back)) := by
      apply Nat.mul_le_mul_right
      rw [Text.size_append, Text.size_append]
      omega
    show s.captureNodeWithin (s.budget (front ++ (part ++ back))) node _ _ _ = _
    rw [captureNodeWithin_window hprims hnodePrims,
      captureNodeWithin_eq hprims hnodePrims hs hnode hbudget]
  · unfold ExpressionSet.captureNode ExpressionSet.captureNodeWithin
    rw [Nat.min_eq_right hpast, Nat.min_self]

end Windows

/-- Nested brackets between two accented letters. -/
theorem captureNode_window_bracketed :
    bracketed.Resolved ∧ bracketed.Primitives Primitive.IsClass
      ∧ Text.isBoundary ['é', '[', 'a', '[', 'b', ']', ']', 'é'] 2 = true
      ∧ Text.isBoundary ['é', '[', 'a', '[', 'b', ']', ']', 'é'] 8 = true
      ∧ bracketed.captureNode (.reference "List" (some (.expression 0)))
          ['é', '[', 'a', '[', 'b', ']', ']', 'é'] 2 8 = .ok (some 8)
      ∧ bracketed.captureNode (.reference "List" (some (.expression 0)))
          ['é', '[', 'a', '[', 'b', ']', ']', 'é'] 2 8
        = (bracketed.captureNode (.reference "List" (some (.expression 0)))
            ['[', 'a', '[', 'b', ']', ']'] 0 6).shift 2 := by
  have hnode : (Node.reference "List" (some (.expression 0))).ResolvedIn
      bracketed :=
    Node.references_reference.2 ⟨.expression 0, rfl, Nat.zero_lt_succ 1⟩
  have hprims : (Node.reference "List" (some (.expression 0))).Primitives
      Primitive.IsClass := by
    simp [Node.Primitives]
  have hslice : Text.slice? ['é', '[', 'a', '[', 'b', ']', ']', 'é'] 2 8
      = some ['[', 'a', '[', 'b', ']', ']'] := by
    rfl
  have hstart : Text.isBoundary ['é', '[', 'a', '[', 'b', ']', ']', 'é'] 2
    = true := by decide
  have hstop : Text.isBoundary ['é', '[', 'a', '[', 'b', ']', ']', 'é'] 8
    = true := by decide
  obtain ⟨⟨part, hpart, hcapture⟩, -⟩ :=
    captureNode_window bracketed_isClass hprims
    bracketed_resolved hnode hstart hstop (by decide)
  rw [hslice] at hpart
  obtain rfl := Option.some.inj hpart
  exact ⟨bracketed_resolved, bracketed_isClass, hstart, hstop, by rfl, hcapture⟩

end Munch
