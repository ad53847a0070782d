/-
Matching between character boundaries, with primitives that are known to
behave only there.

A primitive that answers boundaries with boundaries (`Primitive.Aligned`)
may do anything at other offsets, so it need not stay in range, and the
termination of matching does not apply to it as it stands. But matching
that starts at a boundary never asks it at another offset. So it may be
guarded: silenced wherever it is not asked between boundaries
(`Primitive.guarded`). A guarded primitive stays in range, guarding makes
no more trees nullable and so no left recursion
(`LeftRecursionFree.guarded`), and between boundaries the guarded set
matches as the set itself does. What is left is the termination of the
guarded set (`capture_returns`).
-/
import Munch.Proofs.Expr.Relocation
import Munch.Proofs.Expr.Termination

namespace Munch

-- ================================================================ guarding

/-- A primitive that answers between character boundaries only. -/
def Primitive.guarded (scan : Primitive) : Primitive := fun text start stop =>
  if text.isBoundary start = true ∧ text.isBoundary stop = true then
    scan text start stop
  else none

/-- A set whose primitives are all guarded. -/
def ExpressionSet.guarded (s : ExpressionSet) : ExpressionSet :=
  s.retarget (relocation id Primitive.guarded)

namespace Primitive

variable {scan : Primitive} {text : Text} {start stop next : Nat}

/-- Between boundaries, the guard makes no difference. -/
private theorem guarded_of_isBoundary (hstart : text.isBoundary start = true)
    (hstop : text.isBoundary stop = true) :
    scan.guarded text start stop = scan text start stop :=
  if_pos ⟨hstart, hstop⟩

/-- The guard lets matches pass between boundaries only. -/
private theorem of_guarded_eq_some
    (h : scan.guarded text start stop = some next) :
    text.isBoundary start = true ∧ text.isBoundary stop = true
      ∧ scan text start stop = some next := by
  unfold guarded at h
  split at h
  · rename_i hboundaries
    exact ⟨hboundaries.1, hboundaries.2, h⟩
  · cases h

/-- Guarded, a primitive that answers boundaries with boundaries stays in
range. -/
private theorem Aligned.guarded_inRange (h : scan.Aligned) :
    scan.guarded.InRange := by
  intro text start stop next hle hnext
  obtain ⟨hstart, hstop, hscan⟩ := of_guarded_eq_some hnext
  obtain ⟨hlow, hhigh, -⟩ := h text start stop next hstart hstop hle hscan
  exact ⟨hlow, hhigh⟩

/-- A primitive that may stay where it is, guarded, may without the guard. -/
private theorem MayStay.of_guarded (h : scan.guarded.MayStay) :
    scan.MayStay := by
  obtain ⟨text, start, stop, hle, hstay⟩ := h
  obtain ⟨-, -, hscan⟩ := of_guarded_eq_some hstay
  exact ⟨text, start, stop, hle, hscan⟩

end Primitive

variable {s : ExpressionSet}

private theorem ExpressionSet.embeds_guarded (s : ExpressionSet) :
    s.Embeds id Primitive.guarded s.guarded := by
  intro index e he
  refine ⟨e.key, ?_⟩
  show s.guarded.get? index = _
  unfold guarded
  rw [get?_retarget, he]
  rfl

/-- Guarded primitives leave no reference without its expression. -/
theorem ExpressionSet.Resolved.guarded (hs : s.Resolved) :
    s.guarded.Resolved := by
  refine references_retarget.2 fun e he => (hs e he).mono fun key target h => ?_
  obtain ⟨t, rfl, ht⟩ := h
  cases t with
  | expression index =>
      refine ⟨.expression index, rfl, ?_⟩
      show index < (s.retarget _).size
      rw [size_retarget]
      exact ht
  | primitive scan => exact ⟨.primitive scan.guarded, rfl, trivial⟩

/-- A primitive that answers boundaries with boundaries stays in range,
guarded. -/
theorem ExpressionSet.Primitives.guarded (hs : s.Primitives Primitive.Aligned) :
    s.guarded.Primitives Primitive.InRange := by
  refine references_retarget.2 fun e he =>
    (hs e he).mono fun key target h scan hscan => ?_
  obtain ⟨before, rfl, rfl⟩ := relocation_eq_primitive.1 hscan
  exact (h before rfl).guarded_inRange

-- =========================================================== left recursion

/-- A tree that is nullable once it is guarded was nullable before. -/
theorem Nullable.of_guarded {guarded : Node} (h : Nullable s.guarded guarded) :
    ∀ node : Node, node.retarget (relocation id Primitive.guarded) = guarded →
      Nullable s node := by
  induction h with
  | literal =>
      intro node hnode
      cases node with
      | literal text =>
          rw [Node.retarget] at hnode
          cases hnode
          exact .literal
      | _ => simp [Node.retarget] at hnode
  | expression he _ ih =>
      intro node hnode
      obtain ⟨target, rfl, htarget⟩ := Node.retarget_eq_reference.1 hnode
      obtain ⟨index, rfl, rfl⟩ := relocation_eq_expression.1 htarget
      unfold ExpressionSet.guarded at he
      rw [ExpressionSet.get?_retarget] at he
      obtain ⟨e, hget, rfl⟩ := Option.map_eq_some_iff.1 he
      exact .expression hget (ih e.root rfl)
  | primitive hstay =>
      intro node hnode
      obtain ⟨target, rfl, htarget⟩ := Node.retarget_eq_reference.1 hnode
      obtain ⟨scan, rfl, rfl⟩ := relocation_eq_primitive.1 htarget
      exact .primitive hstay.of_guarded
  | sequence _ ih =>
      intro node hnode
      cases node with
      | sequence elements =>
          rw [Node.retarget, retargetElements_eq_map] at hnode
          cases hnode
          refine .sequence fun e he hstar => ?_
          exact ih _ (List.mem_map.2 ⟨e, he, rfl⟩) hstar e.node rfl
      | _ => simp [Node.retarget] at hnode
  | alternation hc _ ih =>
      intro node hnode
      cases node with
      | alternation choices =>
          rw [Node.retarget, retargetNodes_eq_map] at hnode
          cases hnode
          obtain ⟨c, hmem, rfl⟩ := List.mem_map.1 hc
          exact .alternation hmem (ih c rfl)
      | _ => simp [Node.retarget] at hnode

/-- What is in left position in a guarded tree was so before. -/
theorem LeftReference.of_guarded {guarded : Node} {index : Nat}
    (h : LeftReference s.guarded guarded index) :
    ∀ node : Node, node.retarget (relocation id Primitive.guarded) = guarded →
      LeftReference s node index := by
  induction h with
  | reference =>
      intro node hnode
      obtain ⟨target, rfl, htarget⟩ := Node.retarget_eq_reference.1 hnode
      obtain ⟨index, rfl, rfl⟩ := relocation_eq_expression.1 htarget
      exact .reference
  | sequence hbefore _ ih =>
      intro node hnode
      cases node with
      | sequence elements =>
          rw [Node.retarget, retargetElements_eq_map] at hnode
          obtain ⟨before, later, rfl, rfl, hlater⟩ :=
            List.map_eq_append_iff.1 (Node.sequence.inj hnode)
          obtain ⟨e, after, rfl, rfl, rfl⟩ := List.map_eq_cons_iff.1 hlater
          refine .sequence (fun d hd hstar => ?_) (ih e.node rfl)
          exact (hbefore _ (List.mem_map.2 ⟨d, hd, rfl⟩) hstar).of_guarded
            d.node rfl
      | _ => simp [Node.retarget] at hnode
  | alternation hc _ ih =>
      intro node hnode
      cases node with
      | alternation choices =>
          rw [Node.retarget, retargetNodes_eq_map] at hnode
          cases hnode
          obtain ⟨c, hmem, rfl⟩ := List.mem_map.1 hc
          exact .alternation hmem (ih c rfl)
      | _ => simp [Node.retarget] at hnode

/-- Guarded primitives make no expression call itself without moving. -/
theorem ExpressionSet.LeftRecursionFree.guarded (h : s.LeftRecursionFree) :
    s.guarded.LeftRecursionFree := by
  have hcalls : ∀ a b, s.guarded.LeftCalls a b → s.LeftCalls a b := by
    intro a b hab
    obtain ⟨e, he, href⟩ := hab
    unfold ExpressionSet.guarded at he
    rw [get?_retarget] at he
    obtain ⟨e, hget, rfl⟩ := Option.map_eq_some_iff.1 he
    exact ⟨e, hget, href.of_guarded e.root rfl⟩
  intro index hloop
  exact h index (hloop.lift id hcalls)

-- ============================================================== termination

section Boundaries

variable {text : Text} {limit : Nat} (hs : s.Resolved)
  (hprims : s.Primitives Primitive.Aligned)
  (hlimit : text.isBoundary limit = true)

include hs hprims hlimit

/-- Between boundaries, the guarded set matches as the set does. -/
theorem captureWithin_guarded (bound : Nat) {index start : Nat}
    (hindex : index < s.size) (hle : start ≤ limit)
    (hstart : text.isBoundary start = true) :
    s.guarded.captureWithin text limit bound index start
      = s.captureWithin text limit bound index start := by
  refine captureWithin_relocate (fun p => p ≤ limit ∧ text.isBoundary p = true)
    (P := fun _ target => (∃ t, target = some t ∧ t.ExistsIn s)
      ∧ ∀ scan, target = some (.primitive scan) → scan.Aligned)
    s.embeds_guarded ?_ ?_ ?_ ?_ ?_ bound index start hindex ⟨hle, hstart⟩
  · exact fun e he key target hmem =>
      ⟨hs e he key target hmem, hprims e he key target hmem⟩
  · rintro key callee ⟨⟨t, ht, hexists⟩, -⟩
    obtain rfl := Option.some.inj ht
    exact hexists
  · exact fun _ _ _ => rfl
  · intro key scan _ p hp
    exact Primitive.guarded_of_isBoundary hp.2 hlimit
  · intro bound node hnode p q hp hq
    have hderives :=
      matchWith_sound (captureWithin_sound s text limit bound) node p _ hq
    have haligned : node.Primitives Primitive.Aligned :=
      hnode.mono fun _ _ h => h.2
    obtain ⟨-, hhigh, hboundary⟩ :=
      hderives.isBoundary hprims haligned hlimit hp.1 hp.2
    exact ⟨hhigh, hboundary⟩

omit hlimit in
/-- Between boundaries, every expression of a linked set without left
recursion is answered within the matcher's budget. -/
theorem capture_returns (hfree : s.LeftRecursionFree) {index start stop : Nat}
    (hindex : index < s.size)
    (hstop : text.isBoundary (min stop text.size) = true)
    (hle : start ≤ min stop text.size) (hstart : text.isBoundary start = true) :
    ∃ answer, s.capture index text start stop = .ok answer := by
  have hsize : s.guarded.size = s.size := ExpressionSet.size_retarget ..
  obtain ⟨answer, hanswer⟩ := capture_returns_of_inRange hs.guarded
    hprims.guarded hfree.guarded (hindex.trans_eq hsize.symm) hle
  unfold ExpressionSet.capture ExpressionSet.captureBounded at hanswer ⊢
  rw [captureWithin_guarded hs hprims hstop _ hindex hle hstart] at hanswer
  unfold ExpressionSet.budget at hanswer ⊢
  rw [hsize] at hanswer
  exact ⟨answer, hanswer⟩

end Boundaries

end Munch
