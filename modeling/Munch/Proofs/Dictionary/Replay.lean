/-
How a dictionary was built makes no difference once it is linked.

Two dictionaries are `Alike` if they have the same tokens, the same index
of keys and the same rules, but perhaps with other references linked.
Nothing that is registered depends on more than that, and links and
failures change no more than that, so a run leaves a dictionary that is
like the one its successful registrations alone would have made
(`alike_run`). A link that succeeds then takes the last difference away:
behind it every reference has the target that the dictionary gives for
its key (`Coherent.expressions_eq`), and alike dictionaries give the same
(`Alike.expressions_eq`).

The main result is `link_replay`.
-/
import Mathlib.Algebra.Module.Submodule.Lattice
import Mathlib.Data.List.Permutation
import Munch.Proofs.Dictionary.Runs

namespace Munch

-- ============================================================= erased sets

namespace ExpressionSet

/-- A pass over a set changes nothing but targets. -/
theorem erase_link (s : ExpressionSet) (lookup : String → Lookup) :
    (s.link lookup).set.erase = s.erase :=
  congrArg (ExpressionSet.mk · s.indices) <|
    s.map_linkWith (g := Expression.erase)
    (fun e l => Expression.erase_eq_iff.2 ⟨rfl, Node.erase_link e.root l⟩) ()

end ExpressionSet

namespace Dictionary

variable {d d' : Dictionary}

-- ======================================================= alike dictionaries

/-- Two dictionaries have the same tokens and rules, each perhaps with
other references linked. -/
structure Alike (d d' : Dictionary) : Prop where
  tokens : d.tokens = d'.tokens
  indices : d.indices = d'.indices
  expressions : d.expressions.erase = d'.expressions.erase

namespace Alike

/-- A dictionary is like itself. -/
theorem refl (d : Dictionary) : Alike d d := ⟨rfl, rfl, rfl⟩

private theorem trans {d'' : Dictionary} (h : Alike d d') (h' : Alike d' d'') :
    Alike d d'' :=
  ⟨h.tokens.trans h'.tokens, h.indices.trans h'.indices,
    h.expressions.trans h'.expressions⟩

/-- Likeness goes both ways. -/
theorem symm (h : Alike d d') : Alike d' d :=
  ⟨h.tokens.symm, h.indices.symm, h.expressions.symm⟩

/-- Expressions of dictionaries that are alike are found by the same keys. -/
theorem keys (h : Alike d d') :
    d.expressions.indices = d'.expressions.indices := by
  have hkeys := congrArg ExpressionSet.indices h.expressions
  exact hkeys

/-- An expression stands in both dictionaries, under one key and with
one rule. -/
theorem exists_expression (h : Alike d d') {index : Nat} {e : Expression}
    (he : d.expressions.get? index = some e) :
    ∃ e', d'.expressions.get? index = some e'
      ∧ e'.key = e.key ∧ e'.root.erase = e.root.erase := by
  have hget := ExpressionSet.get?_erase d'.expressions index
  rw [← h.expressions, ExpressionSet.get?_erase, he, Option.map_some] at hget
  obtain ⟨e', he', hsame⟩ := Option.map_eq_some_iff.1 hget.symm
  exact ⟨e', he', Expression.erase_eq_iff.1 hsame⟩

/-- Dictionaries that are alike find the same for each key. -/
private theorem lookup_eq (h : Alike d d') : d.lookup = d'.lookup := by
  funext key
  simp only [lookup, h.indices, h.tokens]

/-- What a definition is compiled to depends on keys and on the number of
expressions only. -/
theorem compile_eq (h : Alike d d') (key : String) (body : TokenBody) :
    d.compile key body = d'.compile key body := by
  have hsize : d.expressions.size = d'.expressions.size := by
    have := congrArg ExpressionSet.size h.expressions
    simpa using this
  cases body with
  | rule text => simp only [compile, ExpressionSet.compile, hsize, h.keys]
  | primitive scan => rfl
  | empty => rfl

/-- Dictionaries that are alike admit the same definitions. -/
private theorem admits {t : TokenDef} {m : Matcher} {x : Option Expression}
    (h : Alike d d') (ht : d.Admits t m x) : d'.Admits t m x where
  fresh := by
    rw [← h.indices]
    exact ht.fresh
  ordinary := ht.ordinary
  room := by
    have hroom := ht.room
    unfold Dictionary.size at hroom ⊢
    rw [← h.tokens]
    exact hroom
  compiled := by
    rw [← h.compile_eq]
    exact ht.compiled

/-- Adding a token to dictionaries that are alike leaves them alike. -/
theorem push (h : Alike d d') (t : TokenDef) (m : Matcher)
    (x : Option Expression) :
    Alike (d.push t m x) (d'.push t m x) where
  tokens := by simp only [Dictionary.push, Dictionary.size, h.tokens]
  indices := by simp only [Dictionary.push, Dictionary.size, h.tokens,
    h.indices]
  expressions := by
    cases x with
    | none => exact h.expressions
    | some e =>
        simp only [Dictionary.push, ExpressionSet.erase_push, h.expressions]

/-- A link leaves a dictionary like it was, however far it comes. -/
theorem link (d : Dictionary) : Alike d.link.1 d where
  tokens := tokens_link
  indices := indices_link
  expressions := by
    rw [expressions_link]
    exact ExpressionSet.erase_link d.expressions d.lookup

/-- What can be registered in a dictionary can be registered in one like
it. -/
theorem registers {last : Dictionary} {ts : List TokenDef}
    (hts : Registers d ts last) (h : Alike d d') :
    ∃ last', Registers d' ts last' ∧ Alike last last' := by
  induction hts generalizing d' with
  | nil => exact ⟨d', .nil, h⟩
  | @cons d next last t ts index first others ih =>
      obtain ⟨m, x, ht, rfl⟩ := exists_admits_of_register first
      obtain ⟨last', hlast', halike⟩ := ih (h.push t m x)
      exact ⟨last', .cons (h.admits ht).register hlast', halike⟩

end Alike

-- ==================================================================== runs

/-- What an operation leaves is like what its registrations leave. -/
theorem alike_apply (d : Dictionary) (op : Operation) :
    ∃ next, Registers d (d.added op) next ∧ Alike (d.apply op) next := by
  cases op with
  | register t => exact ⟨_, registers_added t, .refl _⟩
  | importLines lines => exact ⟨_, registers_imported lines 1 0, .refl _⟩
  | link => exact ⟨d, .nil, .link d⟩
  | configure r => exact ⟨d, .nil, ⟨rfl, rfl, rfl⟩⟩

/-- What a run leaves is like what its successful registrations would
have made by themselves. -/
theorem alike_run (ops : List Operation) (h : Alike d d') :
    ∃ fresh, Registers d' (d.history ops) fresh ∧ Alike (d.run ops) fresh := by
  induction ops generalizing d d' with
  | nil => exact ⟨d', .nil, h⟩
  | cons op ops ih =>
      obtain ⟨next, hnext, hop⟩ := alike_apply d op
      obtain ⟨next', hnext', halike⟩ := Alike.registers hnext h
      obtain ⟨fresh, hfresh, hrun⟩ := ih (hop.trans halike)
      exact ⟨fresh, hnext'.append hfresh, hrun⟩

-- ================================================================== linking

/-- A dictionary can be linked if one like it can. -/
theorem Alike.link_ok (h : Alike d d') (hok : d.link.2 = .ok ()) :
    d'.link.2 = .ok () := by
  rw [link_succeeds_iff] at hok ⊢
  intro e he
  obtain ⟨index, hget⟩ := ExpressionSet.exists_get?_of_mem he
  obtain ⟨before, hbefore, hkey, htree⟩ := h.symm.exists_expression hget
  have hroot := hok before (ExpressionSet.mem_of_get? hbefore)
  rw [← Node.references_erase, htree, Node.references_erase, h.lookup_eq, hkey]
    at hroot
  exact hroot

/-- The expressions of a linked dictionary are its rules, linked as the
dictionary tells. -/
theorem Coherent.expressions_eq (hd : d.Coherent)
    (hlinked : d.state = .linked) :
    d.expressions.erase.retarget (fun key _ => (d.lookup key).target?)
      = d.expressions := by
  apply ExpressionSet.ext_get?
  · rfl
  · intro index
    rw [ExpressionSet.get?_retarget, ExpressionSet.get?_erase]
    cases he : d.expressions.get? index with
    | none => rfl
    | some e =>
        have hroot := hd.root_eq hlinked (ExpressionSet.mem_of_get? he)
        rw [Option.map_some, Option.map_some, Option.some.injEq]
        exact congrArg (Expression.mk e.key) hroot

/-- Linked dictionaries that are alike have the same expressions, their
targets included. -/
theorem Alike.expressions_eq (h : Alike d d') (hd : d.Coherent)
    (hd' : d'.Coherent) (hlinked : d.state = .linked)
    (hlinked' : d'.state = .linked) : d.expressions = d'.expressions := by
  rw [← hd.expressions_eq hlinked, ← hd'.expressions_eq hlinked', h.expressions,
    h.lookup_eq]

/-- A dictionary that could be linked in the end is the one that its
successful registrations make, in their order, and a single link. -/
theorem link_replay {ops : List Operation}
    (h : (empty.run ops).link.2 = .ok ()) :
    ∃ fresh, Registers empty (empty.history ops) fresh
      ∧ fresh.link.2 = .ok ()
      ∧ (empty.run ops).link.1.tokens = fresh.link.1.tokens
      ∧ (empty.run ops).link.1.indices = fresh.link.1.indices
      ∧ (empty.run ops).link.1.expressions = fresh.link.1.expressions := by
  obtain ⟨fresh, hfresh, halike⟩ := alike_run ops (.refl empty)
  have hok := halike.link_ok h
  have hlinked : Alike (empty.run ops).link.1 fresh.link.1 :=
    (Alike.link _).trans (halike.trans (Alike.link fresh).symm)
  refine ⟨fresh, hfresh, hok, hlinked.tokens, hlinked.indices, ?_⟩
  apply hlinked.expressions_eq
  · exact (coherent_run ops).link
  · exact (hfresh.built (P := fun _ => True) .empty fun _ _ _ _ =>
      trivial).coherent.link
  · exact state_link.2 (.inr h)
  · exact state_link.2 (.inr hok)

/-- Operations that fail in every way there is: a link that stops behind
its first reference, an import at a key that is taken, a rule that cannot
be read. -/
def interrupted : List Operation := [
  .register ⟨"Word", .rule "letter Tail*".toList, true⟩,
  .link,
  .importLines ["Tail -> \"-\" Word".toList, "Word -> \"w\"".toList,
    "Late -> \"l\"".toList],
  .register ⟨"Open", .rule "(\"o\"".toList, false⟩,
  .configure { newlines := true }]

/-- What is registered before and between the failures is all that the run
comes to. -/
theorem link_replay_interrupted :
    (empty.run interrupted).link.2 = .ok ()
      ∧ (empty.run (interrupted.take 1)).link.2
        = .error (.unresolvedReference "Word" "Tail")
      ∧ (empty.history interrupted).map (·.key) = ["Word", "Tail"]
      ∧ ∃ fresh, Registers empty (empty.history interrupted) fresh
        ∧ fresh.link.2 = .ok ()
        ∧ (empty.run interrupted).link.1.tokens = fresh.link.1.tokens
        ∧ (empty.run interrupted).link.1.indices = fresh.link.1.indices
        ∧ (empty.run interrupted).link.1.expressions
          = fresh.link.1.expressions := by
  have hok : (empty.run interrupted).link.2 = .ok () := by cbv
  exact ⟨hok, by cbv, by cbv, link_replay hok⟩

end Dictionary

end Munch
