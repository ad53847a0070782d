/-
How the references of a dictionary's rules are linked, at any time of its
life (`run_linkage`).

A reference waits without a target until a link comes past it, or has one
from the start, where a rule names its own key. From then on it has the
target that the dictionary gives for its key, then and ever after: tokens
are never taken out, and none can come in that would have been found in
the place of a character class. Links may stop half-way, so that is said
of every reference by itself; only in a linked dictionary does it hold of
all of them, and there another link has nothing left to do.

That targets stay is one step for each operation (`grows_apply`), and
carried along runs (`grows_run`).
-/
import Munch.Proofs.Dictionary.Runs

namespace Munch.Dictionary

variable {d : Dictionary}

-- ========================================================= targets that stay

/-- The expressions of a dictionary are still there in a later one: the
same rule under the same key, and every reference that had a target has
it still, node by node. -/
def Grows (d later : Dictionary) : Prop :=
  ∀ index e, d.expressions.get? index = some e →
    ∃ e', later.expressions.get? index = some e' ∧ e'.key = e.key
      ∧ e'.root.erase = e.root.erase
      ∧ List.Forall₂ Node.Keeps e.root.postorder e'.root.postorder

private theorem Grows.refl (d : Dictionary) : Grows d d := fun _ e he =>
  ⟨e, he, rfl, rfl, List.forall₂_same.2 fun n _ => .refl n⟩

/-- Nodes that keep their targets twice keep them throughout. -/
private theorem keeps_trans {l m n : List Node}
    (hm : List.Forall₂ Node.Keeps l m) (hn : List.Forall₂ Node.Keeps m n) :
    List.Forall₂ Node.Keeps l n := by
  induction hm generalizing n with
  | nil => exact hn
  | cons hfirst _ ih =>
      cases hn with
      | cons hfirst' hrest => exact .cons (hfirst.trans hfirst') (ih hrest)

/-- What grows twice grows. -/
private theorem Grows.trans {next last : Dictionary} (h : Grows d next)
    (h' : Grows next last) : Grows d last := by
  intro index e he
  obtain ⟨e', he', hkey, htree, hkeeps⟩ := h index e he
  obtain ⟨e'', he'', hkey', htree', hkeeps'⟩ := h' index e' he'
  exact ⟨e'', he'', hkey'.trans hkey, htree'.trans htree,
    keeps_trans hkeeps hkeeps'⟩

/-- Registrations leave the expressions that are there as they are. -/
theorem Registers.grows {last : Dictionary} {ts : List TokenDef}
    (h : Registers d ts last) : Grows d last := by
  induction h with
  | nil => exact .refl _
  | @cons d next _ t _ _ first _ ih =>
      refine Grows.trans (fun index e he => ?_) ih
      obtain ⟨m, x, -, rfl⟩ := exists_admits_of_register first
      exact ⟨e, get?_push he, rfl, rfl, List.forall₂_same.2 fun n _ => .refl n⟩

/-- A link changes no target, since it finds what was found before. -/
theorem Coherent.grows_link (hd : d.Coherent) : Grows d d.link.1 := by
  intro index e he
  obtain ⟨l, hl⟩ := ExpressionSet.get?_link d.lookup he
  rw [expressions_link]
  refine ⟨_, hl, rfl, Node.erase_link e.root l, Node.keeps_link e.root l ?_⟩
  refine (hd.targets index e he).mono fun key target h t ht => .inr fun _ => ?_
  exact h.2 t ht

/-- No operation takes an expression or a target away. -/
theorem Coherent.grows_apply (hd : d.Coherent) (op : Operation) :
    Grows d (d.apply op) := by
  cases op with
  | register t => exact (registers_added t).grows
  | importLines lines => exact (registers_imported lines 1 0).grows
  | link => exact hd.grows_link
  | configure r => exact .refl d

/-- Nor does a run of operations. -/
theorem grows_run (hd : d.Built fun _ => True) (ops : List Operation) :
    Grows d (d.run ops) := by
  induction ops generalizing d with
  | nil => exact .refl d
  | cons op ops ih =>
      rw [run_cons]
      exact (hd.coherent.grows_apply op).trans (ih (hd.run [op]))

-- ==================================================== linking a linked one

/-- A linked dictionary can be linked again, and is left as it was. -/
theorem Coherent.link_again (hd : d.Coherent) (hlinked : d.state = .linked) :
    d.link = (d, .ok ()) := by
  have hok : d.link.2 = .ok () := by
    refine link_succeeds_iff.2 fun e he key target hmem => ?_
    obtain ⟨t, rfl, hfound⟩ := hd.exists_target hlinked he hmem
    exact .inr ⟨t, hfound⟩
  have hset : d.linkPass.set = d.expressions := by
    apply ExpressionSet.ext_get?
    · exact ExpressionSet.indices_link
    · intro index
      rw [← expressions_link, get?_link_of_ok hok]
      cases he : d.expressions.get? index with
      | none => rfl
      | some e =>
          -- each reference is given the target it has
          have hroot : e.root.retarget (relinked d.lookup e.key) = e.root := by
            refine Node.retarget_eq_self fun key target hmem => ?_
            obtain ⟨t, rfl, hfound⟩ :=
              hd.exists_target hlinked (ExpressionSet.mem_of_get? he) hmem
            exact relinked_eq_self hfound
          rw [Option.map_some, hroot]
  unfold Dictionary.link
  simp only [link_eq_ok_iff.1 hok, hset, ← hlinked]

-- ============================================================ at any time

/-- The links of the dictionary that a run of operations has made. -/
structure Linkage (ops : List Operation) : Prop where
  /-- A reference to the rule's own key leads back to the rule. -/
  own : ∀ index e, (empty.run ops).expressions.get? index = some e →
    ∀ target, .reference e.key (some target) ∈ e.root.postorder →
      target = .expression index
  /-- A reference that is linked leads to what the dictionary gives for
  its key, and that is one target. -/
  targets : ∀ e ∈ (empty.run ops).expressions.expressions,
    ∀ key target, .reference key (some target) ∈ e.root.postorder →
      ∀ given, (empty.run ops).Gives key given ↔ given = target
  /-- It leads there for ever, whatever happens. -/
  kept : ∀ later, Grows (empty.run ops) ((empty.run ops).run later)
  /-- The expression that a token has exists, and has the token's key. -/
  matchers : ∀ t ∈ (empty.run ops).tokens, ∀ index,
    t.matcher = .expression index →
    ∃ e, (empty.run ops).expressions.get? index = some e ∧ e.key = t.key
  /-- The expression that a reference leads to exists, and has the
  reference's key. -/
  references : ∀ e ∈ (empty.run ops).expressions.expressions,
    ∀ key index, .reference key (some (.expression index)) ∈ e.root.postorder →
      ∃ e', (empty.run ops).expressions.get? index = some e' ∧ e'.key = key
  /-- In a linked dictionary every reference is linked. -/
  complete : (empty.run ops).state = .linked →
    ∀ e ∈ (empty.run ops).expressions.expressions,
      ∀ key target, .reference key target ∈ e.root.postorder →
        target.isSome = true
  /-- Linking a linked dictionary succeeds, and changes nothing. -/
  again : (empty.run ops).state = .linked →
    (empty.run ops).link = (empty.run ops, .ok ())
  /-- A dictionary is linked exactly if some link of the run has succeeded
  and no token was added since. -/
  linked : (empty.run ops).state = .linked ↔
    ∃ before after, ops = before ++ .link :: after
      ∧ (empty.run before).link.2 = .ok ()
      ∧ (empty.run before).link.1.history after = []

/-- So are the references of every dictionary linked. -/
theorem run_linkage (ops : List Operation) : Linkage ops := by
  have hd : (empty.run ops).Coherent := coherent_run ops
  refine ⟨?_, ?_, ?_, hd.matchers, ?_, ?_, hd.link_again, ?_⟩
  · intro index e he target hmem
    have hown := (hd.targets index e he e.key _ hmem).1 rfl
    exact Option.some.inj hown
  · intro e he key target hmem given
    rw [← hd.lookup_eq_found_iff, hd.lookup_target he hmem]
    constructor
    · intro h
      exact (Lookup.found.inj h).symm
    · intro h
      rw [h]
  · exact fun later => grows_run (Built.empty.run ops) later
  · intro e he key index hmem
    have hgives := hd.lookup_eq_found_iff.1 (hd.lookup_target he hmem)
    cases hgives with
    | expression ht hm => exact hd.matchers _ ht _ hm
  · intro hlinked e he key target hmem
    obtain ⟨t, rfl, -⟩ := hd.exists_target hlinked he hmem
    rfl
  · rw [state_run_iff]
    simp [empty]

end Munch.Dictionary
