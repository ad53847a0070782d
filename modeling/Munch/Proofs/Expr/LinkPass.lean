/-
What a pass over a set changes, and what it depends on.

A pass changes the targets of references to other keys than the owner's
own, and nothing else. So a set from which these targets are taken away,
`ExpressionSet.unlink`, is the same before a pass and after it
(`unlink_linkWith`). It is the set that the definitions alone make, as
long as nothing has been linked: the induction over the history of a set
(`Assembled.defineAll`) carries no more than that.

Nor does a pass depend on the targets that it finds. It asks what it
would ask of the unlinked set (`linkWith_unlink`), and where it ends
without a failure it leaves what it would leave of that one
(`link_unlink`). And where a lookup starts once more from the same state,
the pass does what it did (`linkWith_linkWith`).

The main result is `linkWith_pass`.
-/
import Munch.Proofs.Expr.Definitions
import Munch.Proofs.Expr.Pointers

namespace Munch

open Rule (Spells)

-- ============================================================ vocabulary

/-- The target of a reference that no pass has come to: the owner's own
references have theirs from the beginning. -/
def unlinked (owner key : String) (target : Option Target) : Option Target :=
  if key = owner then target else none

/-- An expression that no pass has come to. -/
def Expression.unlink (e : Expression) : Expression :=
  e.retarget (unlinked e.key)

/-- A set that no pass has come to. -/
def ExpressionSet.unlink (s : ExpressionSet) : ExpressionSet :=
  ⟨s.expressions.map Expression.unlink, s.indices⟩

/-- A set with these definitions, whatever else was done to it: passes
with any lookups, whether they failed or not, and definitions that were
refused. -/
inductive Assembled : Definitions → ExpressionSet → Prop
  | empty : Assembled [] .empty
  | define {definitions : Definitions} {s s' : ExpressionSet} {key : String}
      {rule : Text} {index : Nat} (before : Assembled definitions s)
      (added : s.define key rule = (s', .ok index)) :
      Assembled (definitions ++ [(key, rule)]) s'
  | refuse {definitions : Definitions} {s s' : ExpressionSet} {key : String}
      {rule : Text} {e : Error} (before : Assembled definitions s)
      (refused : s.define key rule = (s', .error e)) : Assembled definitions s'
  | link {definitions : Definitions} {s : ExpressionSet} {σ : Type}
      (before : Assembled definitions s) (lookup : String → σ → Lookup × σ)
      (state : σ) :
      Assembled definitions (s.linkWith lookup state).set

-- ======================================================= unlinked sets

/-- Unlinking takes no account of the targets that there are. -/
private theorem overrides_unlinked (owner : String) :
    Overrides owner (unlinked owner) := by
  intro key hkey before after
  unfold unlinked
  rw [if_neg hkey, if_neg hkey]

/-- A rule that was just read has no targets but the owner's own. -/
theorem unlink_of_spells {key : String} {index : Nat} {rule : Text}
    {root : Node} (h : Spells ⟨key, index⟩ rule root) :
    Expression.unlink ⟨key, root⟩ = ⟨key, root⟩ := by
  apply congrArg (Expression.mk key)
  apply Node.retarget_eq_self
  refine Rule.parse_references (fun word => ?_)
    ((Rule.parse_eq_ok_iff _ _ _).2 h)
  refine Node.references_reference.2 ?_
  unfold unlinked
  by_cases hown : String.ofList word = key
  · rw [if_pos hown]
  · rw [if_neg hown, if_neg hown]

namespace ExpressionSet

variable {s s' : ExpressionSet} {key : String} {rule : Text} {index : Nat}

@[simp] theorem size_unlink (s : ExpressionSet) : s.unlink.size = s.size :=
  Array.size_map

/-- Expressions are found as before without their targets. -/
@[simp] theorem find?_unlink (s : ExpressionSet) (key : String) :
    s.unlink.find? key = s.find? key := rfl

@[simp] theorem unlink_empty : empty.unlink = empty :=
  congrArg (ExpressionSet.mk · ∅) Array.map_empty

private theorem unlink_push (s : ExpressionSet) (e : Expression) :
    (s.push e).unlink = s.unlink.push e.unlink := by
  simp only [push, unlink, Array.map_push, size, Array.size_map]
  rfl

/-- A pass changes nothing but the targets of references to other keys
than the owner's own. -/
theorem unlink_linkWith {σ : Type} (s : ExpressionSet)
    (lookup : String → σ → Lookup × σ) (state : σ) :
    (s.linkWith lookup state).set.unlink = s.unlink := by
  apply congrArg (ExpressionSet.mk · s.indices)
  refine s.map_linkWith (fun e l => ?_) state
  exact congrArg (Expression.mk e.key)
    (Node.retarget_link (overrides_unlinked e.key) e.root l)

/-- A definition does not depend on what is linked. -/
theorem define_unlink (h : s.define key rule = (s', .ok index)) :
    s.unlink.define key rule = (s'.unlink, .ok index) := by
  obtain ⟨hkey, hindex, root, hroot, rfl⟩ := define_eq_ok_iff.1 h
  refine define_eq_ok_iff.2
    ⟨(s.find?_unlink key).trans hkey, hindex.trans s.size_unlink.symm,
      root, ?_, ?_⟩
  · rw [size_unlink]
    exact hroot
  · rw [unlink_push, unlink_of_spells hroot]

/-- A definition that is refused leaves the set as it was. -/
theorem define_of_error {e : Error} (h : s.define key rule = (s', .error e)) :
    s' = s := by
  unfold define at h
  cases hcompile : s.compile key rule with
  | error e' =>
      rw [hcompile] at h
      exact (Prod.mk.inj h).1.symm
  | ok made =>
      rw [hcompile] at h
      cases (Prod.mk.inj h).2

/-- One more definition. -/
theorem defineAll_concat {definitions : Definitions} {next : ExpressionSet}
    (h : s.defineAll definitions = .ok next)
    (hdefine : next.define key rule = (s', .ok index)) :
    s.defineAll (definitions ++ [(key, rule)]) = .ok s' := by
  induction definitions generalizing s with
  | nil =>
      obtain rfl := Except.ok.inj h
      rw [List.nil_append, defineAll, hdefine]
      rfl
  | cons definition definitions ih =>
      obtain ⟨key', rule'⟩ := definition
      unfold defineAll at h
      rw [List.cons_append, defineAll]
      split at h
      · cases h
      · exact ih h

end ExpressionSet

/-- Take away what was linked, and the set is the one that the
definitions make by themselves. -/
theorem Assembled.defineAll {definitions : Definitions} {s : ExpressionSet}
    (h : Assembled definitions s) :
    ExpressionSet.empty.defineAll definitions = .ok s.unlink := by
  induction h with
  | empty =>
      rw [ExpressionSet.unlink_empty]
      rfl
  | define _ added ih =>
      exact ExpressionSet.defineAll_concat ih
        (ExpressionSet.define_unlink added)
  | refuse _ refused ih => rwa [ExpressionSet.define_of_error refused]
  | link _ lookup state ih => rwa [ExpressionSet.unlink_linkWith]

-- ==================================================== what it depends on

/-- The owner's own targets are all that a pass without a failure leaves. -/
theorem relinked_unlinked (lookup : String → Lookup) (owner key : String)
    (target : Option Target) :
    relinked lookup owner key (unlinked owner key target)
      = relinked lookup owner key target := by
  unfold relinked unlinked
  by_cases howner : key = owner
  · rw [if_pos howner, if_pos howner, if_pos howner]
  · rw [if_neg howner, if_neg howner]

namespace ExpressionSet

variable (s : ExpressionSet)

/-- References stand where they stood. -/
private theorem occurrences_unlink : s.unlink.occurrences = s.occurrences := by
  unfold occurrences unlink
  rw [Array.toList_map, List.flatMap_map]
  refine List.flatMap_congr fun e _ => ?_
  unfold Expression.occurrences Expression.unlink Expression.retarget
  rw [Node.words_retarget]

/-- What a pass asks and answers does not depend on the targets that are
there. -/
theorem linkWith_unlink {σ : Type} (lookup : String → σ → Lookup × σ)
    (state : σ) :
    s.unlink.linkWith lookup state
      = { s.linkWith lookup state with
          set := (s.unlink.linkWith lookup state).set } := by
  have hpass :
    (linkExpressions lookup s.unlink.expressions.toList ⟨state, [], none⟩).2
      = (linkExpressions lookup s.expressions.toList ⟨state, [], none⟩).2 := by
    rw [linkExpressions_snd, linkExpressions_snd]
    exact congrArg (List.foldl _ _) s.occurrences_unlink
  unfold linkWith
  simp only [hpass]

/-- Nor does what a pass leaves that ends without a failure. -/
theorem link_unlink {lookup : String → Lookup}
    (h : (s.link lookup).failure = none) :
    (s.unlink.link lookup).set = (s.link lookup).set := by
  have hunlinked : (s.unlink.link lookup).failure = none := by
    rw [link_eq, linkWith_unlink]
    exact h
  have hexpressions : (s.unlink.link lookup).set.expressions
      = (s.link lookup).set.expressions := by
    rw [expressions_link h, expressions_link hunlinked]
    unfold unlink
    rw [Array.map_map]
    refine Array.map_congr_left fun e _ => ?_
    refine congrArg (Expression.mk e.key)
      ((Node.retarget_retarget e.root).trans ?_)
    exact congrArg e.root.retarget (funext₂ (relinked_unlinked lookup e.key))
  exact congrArg (ExpressionSet.mk · s.indices) hexpressions

end ExpressionSet

-- ============================================================ once more

section Again

variable {σ : Type} {lookup : String → σ → Lookup × σ}

/-- A pass that comes to a reference once more, as far as it had come,
does what it did. -/
theorem linkReference_again {owner key : String} {target after : Option Target}
    {l : Linking σ}
    (h : (linkReference lookup owner key target l).1 = .reference key after) :
    linkReference lookup owner key after l
      = linkReference lookup owner key target l := by
  unfold linkReference at h ⊢
  by_cases hpast : l.failure.isSome ∨ key = owner
  · rw [if_pos hpast] at h
    obtain ⟨-, rfl⟩ := Node.reference.inj h
    rfl
  · rw [if_neg hpast] at h
    rw [if_neg hpast, if_neg hpast]
    rcases hanswer : lookup key l.state with ⟨answer, next⟩
    rw [hanswer] at h
    cases answer with
    | found new => rfl
    | notScannable =>
        obtain ⟨-, rfl⟩ := Node.reference.inj h
        rfl
    | missing =>
        obtain ⟨-, rfl⟩ := Node.reference.inj h
        rfl

mutual

/-- A second pass over a tree changes it as one pass does. -/
private theorem Node.link_link (owner : String) :
    ∀ (node : Node) (l : Linking σ),
      (node.link lookup owner l).1.link lookup owner l
        = node.link lookup owner l
  | .literal text, l => rfl
  | .reference key target, l => by
      obtain ⟨after, h⟩ := linkReference_eq lookup owner key target l
      rw [Node.link, h, Node.link]
      exact linkReference_again h
  | .sequence elements, l => by
      have ih := linkElements_linkElements owner elements l
      simp only [Node.link, ih]
  | .alternation choices, l => by
      have ih := linkNodes_linkNodes owner choices l
      simp only [Node.link, ih]

private theorem linkElements_linkElements (owner : String) :
    ∀ (elements : List Element)
      (l : Linking σ),
        linkElements lookup owner (linkElements lookup owner elements l).1 l
        = linkElements lookup owner elements l
  | [], l => rfl
  | ⟨node, starred⟩ :: rest, l => by
      have hnode := Node.link_link owner node l
      have ih :=
        linkElements_linkElements owner rest (node.link lookup owner l).2
      simp only [linkElements, hnode, ih]

private theorem linkNodes_linkNodes (owner : String) :
    ∀ (choices : List Node) (l : Linking σ),
      linkNodes lookup owner (linkNodes lookup owner choices l).1 l
        = linkNodes lookup owner choices l
  | [], l => rfl
  | node :: rest, l => by
      have hnode := Node.link_link owner node l
      have ih := linkNodes_linkNodes owner rest (node.link lookup owner l).2
      simp only [linkNodes, hnode, ih]

end

/-- So does one over several expressions. -/
private theorem linkExpressions_linkExpressions (expressions : List Expression)
    (l : Linking σ) :
    linkExpressions lookup (linkExpressions lookup expressions l).1 l
      = linkExpressions lookup expressions l := by
  induction expressions generalizing l with
  | nil => rfl
  | cons e rest ih =>
      have hroot : (e.root.link lookup e.key l).1.link lookup e.key l
          = e.root.link lookup e.key l := Node.link_link e.key e.root l
      simp only [linkExpressions, hroot, ih]

/-- A pass from the same state once more does what it did. -/
theorem ExpressionSet.linkWith_linkWith (s : ExpressionSet) (state : σ) :
    (s.linkWith lookup state).set.linkWith lookup state
      = s.linkWith lookup state := by
  simp only [linkWith, linkExpressions_linkExpressions]

end Again

-- =============================================================== all of it

namespace ExpressionSet

/-- A pass asks for the keys of the references to other keys than their
owner's own, one after another until one is not found; it gives those
before it what was found, and changes nothing else. So through a lookup
without a state the links that a set had before do not matter: the pass
answers what it answers for the definitions alone, and leaves, if it does
not fail, what it leaves of these. A set that is linked against itself
twice is as it was after the first time. -/
theorem linkWith_pass (s : ExpressionSet) :
    (∀ (σ : Type) (lookup : String → σ → Lookup × σ) (state : σ),
        Answered lookup state (foreign s.pointers) (s.asked lookup state)
            (foreign (s.linkWith lookup state).set.pointers)
            (s.linkWith lookup state).state
            (s.linkWith lookup state).outcome
          ∧ (s.linkWith lookup state).set.unlink = s.unlink)
      ∧ (∀ definitions, Assembled definitions s → ∃ fresh,
          empty.defineAll definitions = .ok fresh ∧ ∀ lookup : String → Lookup,
            (s.link lookup).outcome = (fresh.link lookup).outcome
              ∧ ((s.link lookup).failure = none →
                  (s.link lookup).set = (fresh.link lookup).set))
      ∧ s.linkLocal.set.linkLocal = s.linkLocal := by
  refine ⟨fun σ lookup state => ⟨linkWith_answered lookup s state,
    s.unlink_linkWith lookup state⟩, fun definitions hs => ?_, ?_⟩
  · refine ⟨s.unlink, hs.defineAll, fun lookup =>
      ⟨?_, fun h => (s.link_unlink h).symm⟩⟩
    rw [link_eq, link_eq, linkWith_unlink]
    rfl
  · exact s.linkWith_linkWith ()

/-- Two expressions that refer to each other. -/
def wordAndTail : Definitions :=
  [("Word", "letter Tail*".toList), ("Tail", "\"-\" Word".toList)]

/-- The first of them by itself. -/
def wordOnly : ExpressionSet :=
  empty.push
    ⟨"Word", .sequence [⟨.reference "letter" none, false⟩,
      ⟨.reference "Tail" none, true⟩]⟩

/-- The second behind it, as its rule is read. -/
def tailTree : Node :=
  .sequence [⟨.literal ['-'], false⟩, ⟨.reference "Word" none, false⟩]

/-- The set has one key. -/
private theorem find?_wordOnly (key : String) :
    wordOnly.find? key = if "Word" = key then some 0 else none := by
  rw [wordOnly, find?_push]
  simp [empty, find?, size]

/-- A rule that refers to a key that is not there yet. -/
theorem define_wordOnly :
    empty.define "Word" "letter Tail*".toList = (wordOnly, .ok 0) := by
  refine define_eq_ok_iff.2 ⟨by simp [empty, find?], rfl, _, ?_, rfl⟩
  exact (Rule.parse_eq_ok_iff ⟨"Word", 0⟩ _ _).1 rfl

/-- A pass over it stops at its second reference. -/
theorem linkLocal_wordOnly :
    wordOnly.linkLocal.failure = some (.unresolvedReference "Word" "Tail") := by
  have hletter : refusal wordOnly.lookupLocal ⟨"Word", "letter"⟩ = none :=
    refusal_eq_none_iff.2 (.inr ⟨.primitive CharClass.letter.scan, by
      rw [lookupLocal, find?_wordOnly]
      rfl⟩)
  have htail : refusal wordOnly.lookupLocal ⟨"Word", "Tail"⟩
      = some (.unresolvedReference "Word" "Tail") := by
    unfold refusal lookupLocal
    rw [find?_wordOnly]
    rfl
  have hoccurrences : wordOnly.occurrences
    = [⟨"Word", "letter"⟩, ⟨"Word", "Tail"⟩] := rfl
  unfold linkLocal
  rw [link_failure_eq, hoccurrences, List.findSome?_cons, hletter,
    List.findSome?_cons, htail]

/-- The rule for the key that was missing is read and added. -/
private theorem define_tailTree :
    wordOnly.linkLocal.set.define "Tail" "\"-\" Word".toList
      = (wordOnly.linkLocal.set.push ⟨"Tail", tailTree⟩, .ok 1) := by
  have hsize : wordOnly.linkLocal.set.size = 1 := size_link
  refine define_eq_ok_iff.2 ⟨find?_wordOnly "Tail", hsize.symm, _, ?_, rfl⟩
  rw [hsize]
  exact (Rule.parse_eq_ok_iff ⟨"Tail", 1⟩ _ _).1 rfl

/-- Both together can be linked. -/
theorem linkLocal_tailTree :
    (wordOnly.linkLocal.set.push ⟨"Tail", tailTree⟩).linkLocal.failure
      = none := by
  have hfind : ∀ key, (wordOnly.linkLocal.set.push ⟨"Tail", tailTree⟩).find? key
      = if "Tail" = key then some 1 else if "Word" = key then some 0
        else none := by
    intro key
    rw [find?_push, ← find?_wordOnly, linkLocal, size_link]
    rfl
  have hoccurrences :
    (wordOnly.linkLocal.set.push ⟨"Tail", tailTree⟩).occurrences
      = [⟨"Word", "letter"⟩, ⟨"Word", "Tail"⟩, ⟨"Tail", "Word"⟩] := by
    rw [← occurrences_unlink, unlink_push, linkLocal, link_eq, unlink_linkWith,
      ← unlink_push, occurrences_unlink]
    rfl
  refine link_failure_eq.trans ?_
  rw [hoccurrences, List.findSome?_eq_none_iff]
  simp only [List.forall_mem_cons, refusal_eq_none_iff]
  refine ⟨.inr ⟨.primitive CharClass.letter.scan, ?_⟩, .inr ⟨.expression 1, ?_⟩,
    .inr ⟨.expression 0, ?_⟩, List.forall_mem_nil _⟩
  all_goals
    rw [lookupLocal, hfind]
    rfl

/-- The first of them is linked before the second is there: the pass
stops at its second reference, and the first one stays linked. -/
theorem linkWith_pass_hyphenated : ∃ half s fresh : ExpressionSet,
    half.linkLocal.failure = some (.unresolvedReference "Word" "Tail")
      ∧ half.linkLocal.set.define "Tail" "\"-\" Word".toList = (s, .ok 1)
      ∧ empty.defineAll wordAndTail = .ok fresh
      ∧ s.linkLocal.failure = none
      ∧ s.linkLocal.set = (fresh.link s.lookupLocal).set := by
  have hs :
      Assembled wordAndTail (wordOnly.linkLocal.set.push ⟨"Tail", tailTree⟩) :=
    .define (.link (.define .empty define_wordOnly) _ ()) define_tailTree
  obtain ⟨-, hhistory, -⟩ :=
    linkWith_pass (wordOnly.linkLocal.set.push ⟨"Tail", tailTree⟩)
  obtain ⟨fresh, hfresh, hlink⟩ := hhistory wordAndTail hs
  exact ⟨wordOnly, _, fresh, linkLocal_wordOnly, define_tailTree, hfresh,
    linkLocal_tailTree,
    (hlink _).2 linkLocal_tailTree⟩

end ExpressionSet

end Munch
