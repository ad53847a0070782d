/-
Matching sees no more of a text than its window, from where it starts up
to its limit.

A text is cut in three, `front ++ (mid ++ back)`. Matching in the middle
part, up to the end of it, is the same whether that part is the text or
stands in it: all offsets are larger by the size of the part in front,
nothing else (`captureWithin_window`). It is so for literals, since
bytes are compared that lie in the part, and for primitives of which it
is known (`Primitive.Windowed`), as for the character classes, which cut
a character out of the part.

The proof takes the trees one call at a time, as matching does; under
each bound on the depth of calls, the answers are the same. The matcher's
own budget is that of the longer text, which is the larger one, so an
answer in the part is one in the text (`capture_window`).
-/
import Munch.Proofs.Expr.Deepening
import Munch.Proofs.Expr.Range

namespace Munch

/-- The same answer, all offsets larger by a number. -/
def Answer.shift (n : Nat) (answer : Answer) : Answer :=
  answer.map (Option.map (n + ·))

@[simp] theorem Answer.shift_ok (n : Nat) (answer : Option Nat) :
    Answer.shift n (.ok answer) = .ok (answer.map (n + ·)) := rfl

@[simp] theorem Answer.shift_error (n : Nat) (e : Error) :
    Answer.shift n (.error e) = .error e := rfl

/-- A primitive sees nothing outside of its window. -/
def Primitive.Windowed (scan : Primitive) : Prop :=
  ∀ (front mid back : Text) (start : Nat),
    scan (front ++ (mid ++ back)) (front.size + start) (front.size + mid.size)
      = (scan mid start mid.size).map (front.size + ·)

/-- A character class matches in a part of a text as in the text. -/
theorem CharClass.scan_windowed (k : CharClass) :
    Primitive.Windowed k.scan := by
  intro front mid back start
  unfold CharClass.scan
  rw [Text.slice?_window front mid back start (Nat.le_refl _)]
  by_cases hlt : start < mid.size
  · rw [if_pos hlt, if_pos (by omega)]
    cases mid.slice? start mid.size with
    | none => rfl
    | some part =>
        cases part with
        | nil => rfl
        | cons c rest =>
            by_cases hc : k.has c = true
            · simp only [if_pos hc, Option.map_some, Nat.add_assoc]
            · simp only [if_neg hc, Option.map_none]
  · rw [if_neg hlt, if_neg (by omega)]
    rfl

/-- Such a primitive matches in a part of a text as in the text. -/
theorem Primitive.IsClass.windowed {scan : Primitive} (h : scan.IsClass) :
    scan.Windowed := by
  obtain ⟨k, rfl⟩ := h
  exact k.scan_windowed

-- =============================================================== literals

section Literals

variable (front mid back : Text)

/-- A literal fits in a part of a text where it fits in the part by itself. -/
private theorem literalFits_window {w : Text} {start : Nat} :
    LiteralFits (front ++ (mid ++ back)) (front.size + mid.size) w
      (front.size + start)
      ↔ LiteralFits mid mid.size w start := by
  unfold LiteralFits Text.StandsAt
  rw [Nat.add_assoc, Nat.add_le_add_iff_left]
  refine and_congr_right fun hfits => ?_
  -- the bytes that are compared lie in the middle part
  rw [Text.bytes_append, Text.bytes_append, ← Text.length_bytes front,
    List.drop_append,
    List.drop_of_length_le (Nat.le_add_right ..), List.nil_append,
      Nat.add_sub_cancel_left,
    List.drop_append, List.take_append_of_le_length]
  rw [List.length_drop, Text.length_bytes]
  omega

private theorem literalAt_window (w : Text) (start : Nat) :
    literalAt (front ++ (mid ++ back)) (front.size + mid.size) w
      (front.size + start)
      = (literalAt mid mid.size w start).map (front.size + ·) := by
  by_cases h : LiteralFits mid mid.size w start
  · rw [literalAt_eq_some h, literalAt_eq_some
      ((literalFits_window front mid back).2 h),
      Option.map_some, Nat.add_assoc]
  · rw [literalAt_eq_none h,
      literalAt_eq_none fun hfits =>
        h ((literalFits_window front mid back).1 hfits),
      Option.map_none]

end Literals

-- ================================================================== trees

section Trees

variable {front mid back : Text} {call call' : Nat → Nat → Answer} {bound : Nat}

/-- A repetition of shifted attempts is the repetition, shifted. -/
private theorem repeatFrom_shift {attempt attempt' : Nat → Answer} {n : Nat}
    (hattempt : ∀ p, attempt' (n + p) = (attempt p).shift n) (rounds p : Nat) :
    repeatFrom attempt' rounds (n + p)
      = (repeatFrom attempt rounds p).map (n + ·) := by
  induction rounds generalizing p with
  | zero => rfl
  | succ rounds ih =>
      unfold repeatFrom
      rw [hattempt]
      cases attempt p with
      | error e => rfl
      | ok answer =>
          cases answer with
          | none => rfl
          | some next =>
              simp only [Answer.shift_ok, Option.map_some,
                Nat.add_left_cancel_iff]
              by_cases hnext : next = p
              · rw [if_pos hnext, if_pos hnext]
                rfl
              · rw [if_neg hnext, if_neg hnext]
                exact ih next

mutual

/-- A tree matches in its window, wherever that stands. -/
theorem Node.matchWith_window
    (hcall : ∀ index p, call' index (front.size + p)
      = (call index p).shift front.size) :
    ∀ (node : Node) (p : Nat), node.Primitives Primitive.Windowed →
      node.matchWith call' (front ++ (mid ++ back)) (front.size + mid.size)
          bound (front.size + p)
        = (node.matchWith call mid mid.size bound p).shift front.size
  | .literal w, p, _ => by
      rw [Node.matchWith, Node.matchWith, literalAt_window]
      rfl
  | .reference key (some (.expression index)), p, _ => by
      rw [Node.matchWith, Node.matchWith]
      exact hcall index p
  | .reference key (some (.primitive scan)), p, hnode => by
      rw [Node.matchWith, Node.matchWith,
        Node.references_reference.1 hnode scan rfl front mid back p]
      rfl
  | .reference key none, p, _ => by
      rw [Node.matchWith, Node.matchWith]
      rfl
  | .sequence elements, p, hnode => by
      rw [Node.matchWith, Node.matchWith]
      exact matchElements_window hcall elements p
        (Node.references_sequence.1 hnode)
  | .alternation choices, p, hnode => by
      rw [Node.matchWith, Node.matchWith]
      exact matchChoices_window hcall choices p
        (Node.references_alternation.1 hnode)

private theorem matchElements_window
    (hcall : ∀ index p, call' index (front.size + p)
      = (call index p).shift front.size) :
    ∀ (elements : List Element) (p : Nat),
      (∀ e ∈ elements, e.node.Primitives Primitive.Windowed) →
      matchElements call' (front ++ (mid ++ back)) (front.size + mid.size)
          bound elements (front.size + p)
        = (matchElements call mid mid.size bound elements p).shift front.size
  | [], p, _ => by
      rw [matchElements, matchElements]
      rfl
  | ⟨node, true⟩ :: rest, p, hnodes => by
      obtain ⟨hnode, hrest⟩ := List.forall_mem_cons.1 hnodes
      rw [matchElements, matchElements,
        repeatFrom_shift (fun q => Node.matchWith_window hcall node q hnode)]
      cases repeatFrom (node.matchWith call mid mid.size bound) bound p with
      | error e => rfl
      | ok next => exact matchElements_window hcall rest next hrest
  | ⟨node, false⟩ :: rest, p, hnodes => by
      obtain ⟨hnode, hrest⟩ := List.forall_mem_cons.1 hnodes
      rw [matchElements, matchElements,
        Node.matchWith_window hcall node p hnode]
      cases node.matchWith call mid mid.size bound p with
      | error e => rfl
      | ok answer =>
          cases answer with
          | none => rfl
          | some next => exact matchElements_window hcall rest next hrest

private theorem matchChoices_window
    (hcall : ∀ index p, call' index (front.size + p)
      = (call index p).shift front.size) :
    ∀ (choices : List Node) (p : Nat),
      (∀ c ∈ choices, c.Primitives Primitive.Windowed) →
      matchChoices call' (front ++ (mid ++ back)) (front.size + mid.size)
          bound choices (front.size + p)
        = (matchChoices call mid mid.size bound choices p).shift front.size
  | [], p, _ => by
      rw [matchChoices, matchChoices]
      rfl
  | node :: rest, p, hnodes => by
      obtain ⟨hnode, hrest⟩ := List.forall_mem_cons.1 hnodes
      rw [matchChoices, matchChoices, Node.matchWith_window hcall node p hnode]
      cases node.matchWith call mid mid.size bound p with
      | error e => rfl
      | ok answer =>
          cases answer with
          | none => exact matchChoices_window hcall rest p hrest
          | some next => rfl

end

end Trees

-- =================================================================== sets

section Sets

variable {s : ExpressionSet} (hs : s.Primitives Primitive.Windowed)
  (front mid back : Text)

include hs

/-- Under each bound, an expression matches in its window, wherever that
stands. -/
theorem captureWithin_window (bound index p : Nat) :
    s.captureWithin (front ++ (mid ++ back)) (front.size + mid.size) bound index
        (front.size + p)
      = (s.captureWithin mid mid.size bound index p).shift front.size := by
  induction bound generalizing index p with
  | zero => rfl
  | succ bound ih =>
      rw [ExpressionSet.captureWithin, ExpressionSet.captureWithin]
      cases he : s.get? index with
      | none => rfl
      | some e =>
          exact Node.matchWith_window ih e.root p
            (hs e (ExpressionSet.mem_of_get? he))

/-- What is answered in a text is answered alike where the text is part
of another. -/
theorem capture_window {index p : Nat} {answer : Option Nat}
    (h : s.capture index mid p mid.size = .ok answer) :
    s.capture index (front ++ (mid ++ back)) (front.size + p)
      (front.size + mid.size)
      = .ok (answer.map (front.size + ·)) := by
  have hlimit : min (front.size + mid.size) (Text.size (front ++ (mid ++ back)))
      = front.size + mid.size := by
    rw [Text.size_append, Text.size_append]
    omega
  have hbudget : s.budget mid ≤ s.budget (front ++ (mid ++ back)) := by
    apply Nat.mul_le_mul_right
    rw [Text.size_append, Text.size_append]
    omega
  unfold ExpressionSet.capture ExpressionSet.captureBounded at h ⊢
  rw [Nat.min_self] at h
  rw [hlimit]
  apply captureWithin_deepen s _ _ hbudget
  rw [captureWithin_window hs, h]
  rfl

end Sets

end Munch
