/-
Matches end in their window and between characters.

Literals are compared byte by byte, and one that begins at a character
boundary ends at one, since bytes that make up whole characters can stand
nowhere else (`LiteralFits.isBoundary`). A character class cuts a
character out of the text, so whatever it answers is a boundary, even
where the limit is none (`CharClass.scan_isBoundary`). So where classes
are all the primitives there are, nothing is asked of the limit
(`motion_classes`); other primitives have to be asked between boundaries
(`motion_boundary`).

The main result takes both together, whatever the bound on the depth of
calls (`captureNodeWithin_isBoundary`).
-/
import Munch.Proofs.Expr.Adequacy

namespace Munch

/-- Wherever a character class is asked, it answers with a boundary. -/
theorem CharClass.scan_isBoundary {k : CharClass} {text : Text}
    {start stop next : Nat} (h : k.scan text start stop = some next) :
    text.isBoundary next = true := by
  obtain ⟨c, rest, hslice, -, rfl⟩ := CharClass.scan_eq_some h
  obtain ⟨front, after, rfl, rfl, -⟩ := Text.slice?_eq_some_iff.1 hslice
  refine Text.isBoundary_iff.2 ⟨front ++ [c], rest ++ after, ?_, ?_⟩
  · simp only [List.append_assoc, List.cons_append, List.nil_append]
  · simp only [Text.size_append, Text.size_cons, Text.size_nil, Nat.add_zero]

/-- With character classes alone, to stay in range and on boundaries,
wherever the limit is. -/
theorem motion_classes (text : Text) (limit : Nat) :
    Motion text limit Primitive.IsClass
      (fun p q => p ≤ limit → text.isBoundary p = true →
        p ≤ q ∧ q ≤ limit ∧ text.isBoundary q = true) :=
  motion_aligned fun scan hclass p q hp _ h => by
    obtain ⟨hlow, hhigh⟩ := hclass.inRange text p limit q hp h
    obtain ⟨k, rfl⟩ := hclass
    exact ⟨hlow, hhigh, CharClass.scan_isBoundary h⟩

section Boundary

variable {s : ExpressionSet} {node : Node} {text : Text}

/-- Where all primitives are character classes, a match that begins on a
boundary ends on one, wherever the limit is. -/
theorem Derives.isBoundary_of_classes {limit start next : Nat}
    (hs : s.Primitives Primitive.IsClass)
    (hnode : node.Primitives Primitive.IsClass)
    (h : Derives s text limit node start (some next)) (hle : start ≤ limit)
    (hstart : text.isBoundary start = true) :
    start ≤ next ∧ next ≤ limit ∧ text.isBoundary next = true :=
  h.relates (motion_classes text limit) hs hnode next rfl hle hstart

/-- A match that starts at a boundary ends at one, in its window. The
window itself may end inside a character, if all primitives are character
classes; other primitives have to answer boundaries with boundaries, and
the window has to end at one. -/
theorem captureNodeWithin_isBoundary {bound start stop next : Nat}
    (hprims : (s.Primitives Primitive.IsClass
      ∧ node.Primitives Primitive.IsClass)
        ∨ (text.isBoundary (min stop text.size) = true
          ∧ s.Primitives Primitive.Aligned ∧ node.Primitives Primitive.Aligned))
    (hstart : text.isBoundary start = true) (hle : start ≤ min stop text.size)
    (h : s.captureNodeWithin bound node text start stop = .ok (some next)) :
    start ≤ next ∧ next ≤ min stop text.size ∧ text.isBoundary next = true := by
  have hderives := captureNodeWithin_sound h
  rcases hprims with ⟨hs, hnode⟩ | ⟨hstop, hs, hnode⟩
  · exact hderives.isBoundary_of_classes hs hnode hle hstart
  · exact hderives.isBoundary hs hnode hstop hle hstart

end Boundary

theorem bracketed_isClass : bracketed.Primitives Primitive.IsClass := by
  intro e he
  simp only [bracketed, List.mem_toArray, List.mem_cons, List.not_mem_nil,
    or_false] at he
  rcases he with rfl | rfl
  · simp [Node.Primitives]
  · simp [Node.Primitives, Primitive.IsClass]

/-- The rest of the window, whatever it is. -/
def remainder : Primitive := fun _ _ stop => some stop

private theorem remainder_aligned : remainder.Aligned := by
  intro text start stop next _ hstop hle h
  cases h
  exact ⟨hle, Nat.le_refl stop, hstop⟩

/-- Brackets in a window that ends inside the last character, and a
primitive that is no class in one that ends behind it. -/
theorem captureNodeWithin_isBoundary_bracketed :
    (bracketed.captureNode (.reference "List" (some (.expression 0)))
        ['[', '[', ']', ']', 'é'] 0 5 = .ok (some 4)
      ∧ 0 ≤ 4 ∧ 4 ≤ min 5 (Text.size ['[', '[', ']', ']', 'é'])
      ∧ Text.isBoundary ['[', '[', ']', ']', 'é'] 4 = true)
    ∧ (bracketed.captureNode
          (.sequence [⟨.literal ['é'], false⟩,
            ⟨.reference "remainder" (some (.primitive remainder)), false⟩])
          ['é', 'a', 'ß'] 0 9 = .ok (some 5)
        ∧ 0 ≤ 5 ∧ 5 ≤ min 9 (Text.size ['é', 'a', 'ß'])
        ∧ Text.isBoundary ['é', 'a', 'ß'] 5 = true) := by
  have hlist : bracketed.captureNode (.reference "List" (some (.expression 0)))
      ['[', '[', ']', ']', 'é'] 0 5 = .ok (some 4) := by rfl
  have hrest : bracketed.captureNode
      (.sequence [⟨.literal ['é'], false⟩,
        ⟨.reference "remainder" (some (.primitive remainder)), false⟩])
      ['é', 'a', 'ß'] 0 9 = .ok (some 5) := by rfl
  have haligned : bracketed.Primitives Primitive.Aligned := fun e he =>
    (bracketed_isClass e he).mono fun _ _ h scan hscan => (h scan hscan).aligned
  refine ⟨⟨hlist, ?_⟩, ⟨hrest, ?_⟩⟩
  · exact captureNodeWithin_isBoundary (.inl ⟨bracketed_isClass, by
      simp [Node.Primitives]⟩)
      (by decide) (by decide) hlist
  · exact captureNodeWithin_isBoundary
      (.inr ⟨by decide, haligned, by simp [Node.Primitives, remainder_aligned]⟩)
      (by decide) (by decide) hrest

end Munch
