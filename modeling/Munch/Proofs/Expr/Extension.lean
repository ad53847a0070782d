/-
Matching in a set to which expressions were added.

The expressions that were there are still there, under the same indices
(`ExpressionSet.Included`), so that calls between them never reach the
new ones: under each bound on the depth of calls they match as before
(`Included.captureWithin_eq`). Primitives and left recursion that are in
the smaller set are in the larger one as well.
-/
import Munch.Proofs.Expr.Relocation
import Munch.Proofs.Expr.Termination

namespace Munch

-- =========================================================== larger sets

/-- The expressions of a set are those of another, under the same
indices, which may have more. -/
def ExpressionSet.Included (s s' : ExpressionSet) : Prop :=
  ∀ index e, s.get? index = some e → s'.get? index = some e

namespace ExpressionSet.Included

variable {s s' : ExpressionSet} (h : s.Included s')

include h

/-- A set that is included in another stands in it, each expression in its
place. -/
theorem embeds : s.Embeds id id s' := by
  intro index e he
  have hid : relocation id id = fun _ target => target := by
    funext key target
    match target with
    | none => rfl
    | some (.expression _) => rfl
    | some (.primitive _) => rfl
  refine ⟨e.key, ?_⟩
  rw [hid, Node.retarget_id]
  exact h index e he

/-- The expressions of a linked set match in a larger one, call by call,
as they do in the set. -/
theorem captureWithin_eq (hs : s.Resolved) (text : Text) (limit bound : Nat)
    {index : Nat} (hindex : index < s.size) (p : Nat) :
    s'.captureWithin text limit bound index p
      = s.captureWithin text limit bound index p := by
  refine captureWithin_relocate (fun _ => True)
    (P := fun _ target => ∃ t, target = some t ∧ t.ExistsIn s) h.embeds hs ?_
    (fun _ _ _ => rfl) (fun _ _ _ _ _ => rfl) (fun _ _ _ _ _ _ _ =>
      trivial) bound index p
    hindex trivial
  rintro key callee ⟨t, ht, hexists⟩
  obtain rfl := Option.some.inj ht
  exact hexists

-- ======================================================== left recursion

/-- What can match nothing still can. -/
private theorem nullable {node : Node} (hnode : Nullable s node) :
    Nullable s' node := by
  induction hnode with
  | literal => exact .literal
  | expression he _ ih => exact .expression (h _ _ he) ih
  | primitive hstay => exact .primitive hstay
  | sequence _ ih => exact .sequence ih
  | alternation hc _ ih => exact .alternation hc ih

/-- What may be called first still may. -/
private theorem leftReference {node : Node} {index : Nat}
    (hnode : LeftReference s node index) : LeftReference s' node index := by
  induction hnode with
  | reference => exact .reference
  | sequence hbefore _ ih =>
      exact .sequence (fun d hd hstar => h.nullable (hbefore d hd hstar)) ih
  | alternation hc _ ih => exact .alternation hc ih

/-- Left recursion stays. -/
theorem leftRecursionFree (hfree : s'.LeftRecursionFree) :
    s.LeftRecursionFree := by
  intro index hloop
  refine hfree index (hloop.lift id fun caller callee hcalls => ?_)
  obtain ⟨e, he, href⟩ := hcalls
  exact ⟨e, h _ e he, h.leftReference href⟩

/-- What holds of all primitives of the larger set holds of those of the
smaller one. -/
theorem primitives {P : Primitive → Prop} (hs' : s'.Primitives P) :
    s.Primitives P := by
  intro e he
  obtain ⟨index, hget⟩ := exists_get?_of_mem he
  exact hs' e (mem_of_get? (h index e hget))

end ExpressionSet.Included

end Munch
