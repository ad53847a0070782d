/-
The dictionaries there are, and what holds of all of them.

A dictionary comes out of the empty one by registrations, imports, links
and changes of its settings, in any order and whether or not they
succeed (`Dictionary.Built`). The callers' own matching functions come in
with registrations only; `P` is what is known of them.

The invariant is `Dictionary.Sound`: codes of registered tokens are not
negative, and every matching function that a token or a reference leads
to satisfies `P`, if the character classes do. Each operation preserves
it, so every dictionary has it (`Dictionary.Built.sound`).
-/
import Munch.Proofs.Expr.Supply
import Munch.Dictionary.Basic

namespace Munch.Dictionary

/-- A dictionary made by the operations that there are, from matching
functions that satisfy `P`. -/
inductive Built (P : Primitive → Prop) : Dictionary → Prop
  | empty : Built P .empty
  | register {d : Dictionary} (before : Built P d) (t : TokenDef)
      (supplied : ∀ scan, t.body = .primitive scan → P scan) :
      Built P (d.register t).1
  | importLines {d : Dictionary} (before : Built P d) (lines : List Text) :
      Built P (d.importLines lines).1
  | link {d : Dictionary} (before : Built P d) : Built P d.link.1
  | withRetention {d : Dictionary} (before : Built P d) (r : Retention) :
      Built P (d.withRetention r)

/-- Registered tokens cannot be taken for built-in ones, and every
matching function at hand satisfies `P`. -/
structure Sound (P : Primitive → Prop) (d : Dictionary) : Prop where
  codes : ∀ t ∈ d.tokens, 0 ≤ t.code
  matchers : ∀ t ∈ d.tokens, ∀ scan, t.matcher = .primitive scan → P scan
  expressions : d.expressions.Primitives P

variable {P : Primitive → Prop} {d : Dictionary}

private theorem Sound.empty : Sound P .empty where
  codes t ht := absurd ht (Array.not_mem_empty t)
  matchers t ht := absurd ht (Array.not_mem_empty t)
  expressions := ExpressionSet.primitives_empty

-- ======================================================== registration

/-- What a definition is compiled to brings in no matching function but
its own. -/
theorem compile_sound {key : String} {body : TokenBody} {m : Matcher}
    {expression : Option Expression}
    (supplied : ∀ scan, body = .primitive scan → P scan)
    (h : d.compile key body = .ok (m, expression)) :
    (∀ scan, m = .primitive scan → P scan)
      ∧ ∀ e, expression = some e → e.root.Primitives P := by
  match body with
  | .empty =>
      obtain ⟨rfl, rfl⟩ := Prod.mk.inj (Except.ok.inj h)
      exact ⟨fun scan hm => (nomatch hm), fun e he => nomatch he⟩
  | .primitive scan =>
      obtain ⟨rfl, rfl⟩ := Prod.mk.inj (Except.ok.inj h)
      refine ⟨fun scan' hm => ?_, fun e he => nomatch he⟩
      obtain rfl := Matcher.primitive.inj hm
      exact supplied scan rfl
  | .rule text =>
      unfold compile at h
      simp only at h
      split at h
      · cases h
      · rename_i e he
        obtain ⟨rfl, rfl⟩ := Prod.mk.inj (Except.ok.inj h)
        refine ⟨fun scan hm => (nomatch hm), fun e' he' => ?_⟩
        obtain rfl := Option.some.inj he'
        unfold ExpressionSet.compile at he
        split at he
        · cases he
        · split at he
          · cases he
          · rename_i root hroot
            obtain rfl := Except.ok.inj he
            exact Rule.parse_primitives P hroot

/-- A token that is added may bring such primitives only, its matcher or in
its tree. -/
theorem Sound.push (hd : d.Sound P) (t : TokenDef) {m : Matcher}
    {expression : Option Expression} (hm : ∀ scan, m = .primitive scan → P scan)
    (he : ∀ e, expression = some e → e.root.Primitives P) :
    (d.push t m expression).Sound P where
  codes t' ht' := by
    rcases Array.mem_push.1 ht' with ht' | rfl
    · exact hd.codes t' ht'
    · exact Int.natCast_nonneg d.size
  matchers t' ht' := by
    rcases Array.mem_push.1 ht' with ht' | rfl
    · exact hd.matchers t' ht'
    · exact hm
  expressions := by
    unfold Dictionary.push
    simp only
    split
    · exact ExpressionSet.primitives_push hd.expressions (he _ rfl)
    · exact hd.expressions

/-- A registration brings in no other primitives than its definition has. -/
private theorem Sound.register (hd : d.Sound P) (t : TokenDef)
    (supplied : ∀ scan, t.body = .primitive scan → P scan) :
    (d.register t).1.Sound P := by
  unfold Dictionary.register
  split
  · exact hd
  · rename_i m expression haccept
    unfold accept at haccept
    split at haccept
    · cases haccept
    · split at haccept
      · cases haccept
      · obtain ⟨hm, he⟩ := compile_sound supplied haccept
        exact hd.push t hm he

/-- A definition with a new key whose body can be compiled is added. -/
theorem register_of_compile {t : TokenDef} {m : Matcher}
    {expression : Option Expression} (hkey : d.indices.contains t.key = false)
    (hbuiltin : Builtin.ofKey? t.key = none)
    (hsize : d.size ≤ Error.largestCode)
    (h : d.compile t.key t.body = .ok (m, expression)) :
    (d.register t).1 = d.push t m expression := by
  have haccept : d.accept t = .ok (m, expression) := by
    rw [accept, if_neg (by simp [hkey, hbuiltin]),
      if_neg (Nat.not_lt.2 hsize), h]
  unfold Dictionary.register
  rw [haccept]

/-- An import brings in no primitives, since its lines have rules. -/
private theorem Sound.importFrom (hd : d.Sound P) (lines : List Text)
    (number count : Nat) : (d.importFrom number count lines).1.Sound P := by
  induction lines generalizing d number count with
  | nil => exact hd
  | cons line rest ih =>
      unfold Dictionary.importFrom
      split
      · exact hd
      · exact ih hd _ _
      · rename_i l _
        have hnext := hd.register ⟨l.key, .rule l.rule, l.keepText⟩
          (fun scan hscan => by cases hscan)
        split
        · rename_i d' e hd'
          rw [hd'] at hnext
          exact hnext
        · rename_i d' index hd'
          rw [hd'] at hnext
          exact ih hnext _ _

-- ============================================================== linking

/-- A character class is looked up as its own matching function. -/
theorem lookup_builtin_primitive (hclass : ∀ k : CharClass, P k.scan)
    {key : String} {scan : Primitive}
    (h : Lookup.builtin key = .found (.primitive scan)) : P scan := by
  unfold Lookup.builtin at h
  split at h
  · cases h
  · split at h
    · rename_i k _
      obtain rfl := Target.primitive.inj (Lookup.found.inj h)
      exact hclass k
    · cases h

/-- A primitive that is found is that of a token or a character class. -/
private theorem Sound.lookup (hd : d.Sound P)
    (hclass : ∀ k : CharClass, P k.scan) (key : String) (scan : Primitive)
    (h : d.lookup key = .found (.primitive scan)) : P scan := by
  unfold Dictionary.lookup at h
  split at h
  · exact lookup_builtin_primitive hclass h
  · split at h
    · rename_i t ht
      apply hd.matchers t (Array.mem_of_getElem? ht) scan
      cases hm : t.matcher with
      | primitive scan' =>
          rw [hm] at h
          rw [Target.primitive.inj (Lookup.found.inj h)]
      | _ =>
          rw [hm] at h
          cases h
    · cases h

/-- A link brings in no other primitives than those of tokens and the
character classes. -/
theorem Sound.link (hd : d.Sound P) (hclass : ∀ k : CharClass, P k.scan) :
    d.link.1.Sound P := by
  have hpass : d.linkPass.set.Primitives P :=
    ExpressionSet.link_primitives (hd.lookup hclass) hd.expressions
  unfold Dictionary.link
  simp only
  split
  · exact ⟨hd.codes, hd.matchers, hpass⟩
  · exact ⟨hd.codes, hd.matchers, hpass⟩

-- ==================================================== all dictionaries

/-- The invariant of all dictionaries. -/
theorem Built.sound (h : d.Built P) (hclass : ∀ k : CharClass, P k.scan) :
    d.Sound P := by
  induction h with
  | empty => exact .empty
  | register _ t supplied ih => exact ih.register t supplied
  | importLines _ lines ih => exact ih.importFrom lines 1 0
  | link _ ih => exact ih.link hclass
  | withRetention _ r ih => exact ⟨ih.codes, ih.matchers, ih.expressions⟩

/-- What is known of more matching functions is known of fewer. -/
theorem Built.mono {Q : Primitive → Prop} (h : d.Built P)
    (hPQ : ∀ scan, P scan → Q scan) : d.Built Q := by
  induction h with
  | empty => exact .empty
  | register _ t supplied ih =>
      exact .register ih t fun scan hscan => hPQ scan (supplied scan hscan)
  | importLines _ lines ih => exact .importLines ih lines
  | link _ ih => exact .link ih
  | withRetention _ r ih => exact .withRetention ih r

end Munch.Dictionary
