/-
A pass over the references of a set, told by the references alone.

A reference stands in some rule, has a key, and leads somewhere or
nowhere (`Pointer`). A pass goes down trees, cannot be left early, and
comes back with other trees; but what it does is a chain of steps, one
for each reference, in the order in which they stand (`Traverses`). The
chain is shown once, by induction on the trees
(`ExpressionSet.traverses_linkWith`), and all else is read off it:
references to the owner's own key are left alone, and the others are
asked for in turn until one is not found, although the steps go on behind
it (`Traverses.answered`). Which keys these are is told by the same pass
with a lookup that keeps a record; it is no other pass (`Traverses.forget`).

The main result is `ExpressionSet.linkWith_answered`.
-/
import Munch.Proofs.Expr.LinkOrder

namespace Munch

-- ============================================================ vocabulary

/-- A reference where it stands, and where it leads. -/
structure Pointer extends Occurrence where
  target : Option Target

/-- The reference with a target. -/
def Pointer.to (r : Pointer) (target : Target) : Pointer :=
  { r with target := some target }

/-- The pointer that a node of the expression `owner` is, if it is one. -/
def Node.pointer? (owner : String) : Node → Option Pointer
  | .reference key target => some ⟨⟨owner, key⟩, target⟩
  | _ => none

/-- The pointers of a tree of the expression `owner`, left to right. -/
def Node.pointers (owner : String) (node : Node) : List Pointer :=
  node.postorder.filterMap (Node.pointer? owner)

/-- The pointers of an expression, left to right. -/
def Expression.pointers (e : Expression) : List Pointer := e.root.pointers e.key

/-- The pointers that a pass asks about: those to another key than the
owner's. -/
def foreign (rs : List Pointer) : List Pointer :=
  rs.filter fun r => r.key ≠ r.owner

/-- The pointers of a set, expression by expression. -/
def ExpressionSet.pointers (s : ExpressionSet) : List Pointer :=
  s.expressions.toList.flatMap Expression.pointers

/-- A reference to another key is asked for. -/
private theorem foreign_cons_of_ne {r : Pointer} (h : r.key ≠ r.owner)
    (rs : List Pointer) : foreign (r :: rs) = r :: foreign rs :=
  List.filter_cons_of_pos (by simpa using h)

/-- A reference of an expression to itself is not asked for. -/
private theorem foreign_cons_of_eq {r : Pointer} (h : r.key = r.owner)
    (rs : List Pointer) : foreign (r :: rs) = foreign rs :=
  List.filter_cons_of_neg (by simpa using h)

/-- What a pass has to say about a reference, given the answer to its
key. -/
def Lookup.complaint? (r : Occurrence) : Lookup → Option Error
  | .found _ => none
  | .notScannable => some (.noMatcher r.owner r.key)
  | .missing => some (.unresolvedReference r.owner r.key)

section Pass

variable {σ : Type} (lookup : String → σ → Lookup × σ)

/-- The lookup finds all of these keys, asked one after another, and
these are the targets. -/
inductive Finds : σ → List String → List Target → σ → Prop
  | nil {state : σ} : Finds state [] [] state
  | cons {state next last : σ} {key : String} {keys : List String}
      {target : Target} {targets : List Target}
      (first : lookup key state = (.found target, next))
      (others : Finds next keys targets last) :
      Finds state (key :: keys) (target :: targets) last

/-- What becomes of pointers that are asked about in turn: the keys that
are asked for, what the pointers are then, and what is answered. -/
inductive Answered (state : σ) :
    List Pointer → List String → List Pointer → σ → Except Error Nat → Prop
  /-- All keys are found. -/
  | all {rs : List Pointer} {targets : List Target} {last : σ}
      (found : Finds lookup state (rs.map (·.key)) targets last) :
      Answered state rs (rs.map (·.key))
        (List.zipWith Pointer.to rs targets) last
        (.ok rs.length)
  /-- The keys before one are found, and that one is not. -/
  | upTo {before : List Pointer} {r : Pointer} {after : List Pointer}
      {targets : List Target} {middle last : σ} {answer : Lookup} {e : Error}
      (found : Finds lookup state (before.map (·.key)) targets middle)
      (asked : lookup r.key middle = (answer, last))
      (refused : answer.complaint? r.toOccurrence = some e) :
      Answered state (before ++ r :: after) ((before ++ [r]).map (·.key))
        (List.zipWith Pointer.to before targets ++ r :: after) last (.error e)

/-- A pass over pointers, one after another: how far it had come, the
pointers before and after it, and how far it has come then. -/
inductive Traverses : Linking σ → List Pointer → List Pointer → Linking σ → Prop
  | nil {l : Linking σ} : Traverses l [] [] l
  | cons {l next last : Linking σ} {r : Pointer} {target : Option Target}
      {rs rs' : List Pointer}
      (first : linkReference lookup r.owner r.key r.target l
        = (.reference r.key target, next))
      (others : Traverses next rs rs' last) :
      Traverses l (r :: rs) ({ r with target } :: rs') last

/-- A lookup that records what it is asked. -/
def recorded (key : String) (state : σ × List String) :
    Lookup × (σ × List String) :=
  ((lookup key state.1).1, ((lookup key state.1).2, state.2 ++ [key]))

end Pass

/-- What a pass answers that has come this far. -/
def Linking.outcome {σ : Type} (l : Linking σ) : Except Error Nat :=
  match l.failure with
  | some e => .error e
  | none => .ok l.resolved.length

/-- How far a pass has come whose lookup keeps a record, the record
aside. -/
def Linking.forget {σ : Type} (l : Linking (σ × List String)) : Linking σ :=
  ⟨l.state.1, l.resolved, l.failure⟩

/-- The keys that a lookup is asked for by a pass over a set, one after
another. -/
def ExpressionSet.asked {σ : Type} (s : ExpressionSet)
    (lookup : String → σ → Lookup × σ) (state : σ) : List String :=
  (s.linkWith (recorded lookup) (state, [])).state.2

section Chain

variable {σ : Type} {lookup : String → σ → Lookup × σ} {l last : Linking σ}
  {rs rs' : List Pointer}

-- ============================================================== one step

/-- What a step can do: pass over the reference, give it the target that
was found, or stop. -/
theorem linkReference_cases (lookup : String → σ → Lookup × σ) (l : Linking σ)
    (owner key : String) (target : Option Target) :
    ((l.failure.isSome ∨ key = owner)
        ∧ linkReference lookup owner key target l = (.reference key target, l))
      ∨ (l.failure = none ∧ key ≠ owner ∧ ∃ new next,
        lookup key l.state = (.found new, next)
          ∧ linkReference lookup owner key target l
            = (.reference key (some new),
                { l with state := next,
                         resolved := ⟨owner, key, new⟩ :: l.resolved }))
      ∨ (l.failure = none ∧ key ≠ owner ∧ ∃ answer next e,
        lookup key l.state = (answer, next)
          ∧ answer.complaint? ⟨owner, key⟩ = some e
          ∧ linkReference lookup owner key target l
            = (.reference key target,
                { l with state := next, failure := some e })) := by
  by_cases hpast : l.failure.isSome ∨ key = owner
  · exact .inl ⟨hpast, if_pos hpast⟩
  · obtain ⟨hgoing, howner⟩ := not_or.1 hpast
    have hfailure : l.failure = none := Option.not_isSome_iff_eq_none.1 hgoing
    unfold linkReference
    rw [if_neg hpast]
    rcases hanswer : lookup key l.state with ⟨answer, next⟩
    cases answer with
    | found new => exact .inr (.inl ⟨hfailure, howner, new, next, rfl, rfl⟩)
    | notScannable =>
        exact .inr (.inr ⟨hfailure, howner, _, next, _, rfl, rfl, rfl⟩)
    | missing => exact .inr (.inr ⟨hfailure, howner, _, next, _, rfl, rfl, rfl⟩)

/-- A step comes to one end only. -/
theorem linkReference_inj {owner key : String}
    {target after after' : Option Target} {next next' : Linking σ}
    (h : linkReference lookup owner key target l = (.reference key after, next))
    (h' : linkReference lookup owner key target l
      = (.reference key after', next')) : after = after' ∧ next = next' := by
  rw [h] at h'
  obtain ⟨hnode, hnext⟩ := Prod.mk.inj h'
  exact ⟨(Node.reference.inj hnode).2, hnext⟩

/-- The record of a lookup makes no difference to a step. -/
theorem linkReference_forget (owner key : String) (target : Option Target)
    (l : Linking (σ × List String)) :
    linkReference lookup owner key target l.forget
      = ((linkReference (recorded lookup) owner key target l).1,
          (linkReference (recorded lookup) owner key target l).2.forget) := by
  unfold linkReference recorded
  by_cases hpast : l.failure.isSome ∨ key = owner
  · rw [if_pos hpast]
    exact if_pos hpast
  · rw [if_neg hpast]
    refine (if_neg hpast).trans ?_
    rw [show l.forget.state = l.state.1 from rfl]
    rcases lookup key l.state.1 with ⟨answer, state⟩
    cases answer <;> rfl

-- ============================================================= the chain

namespace Traverses

/-- Passes one after the other are one pass. -/
private theorem append {l middle last : Linking σ} {more more' : List Pointer}
    (h : Traverses lookup l rs rs' middle)
    (hmore : Traverses lookup middle more more' last) :
    Traverses lookup l (rs ++ more) (rs' ++ more') last := by
  induction h with
  | nil => exact hmore
  | cons first _ ih => exact .cons first (ih hmore)

/-- A pass comes to one end only. -/
theorem unique {rs'' : List Pointer} {last' : Linking σ}
    (h : Traverses lookup l rs rs' last)
    (h' : Traverses lookup l rs rs'' last') : rs' = rs'' ∧ last = last' := by
  induction h generalizing rs'' last' with
  | nil =>
      cases h'
      exact ⟨rfl, rfl⟩
  | cons first _ ih =>
      cases h' with
      | cons first' others' =>
          obtain ⟨rfl, rfl⟩ := linkReference_inj first first'
          obtain ⟨rfl, rfl⟩ := ih others'
          exact ⟨rfl, rfl⟩

/-- A record changes nothing about a pass. -/
theorem forget {l last : Linking (σ × List String)}
    (h : Traverses (recorded lookup) l rs rs' last) :
    Traverses lookup l.forget rs rs' last.forget := by
  induction h with
  | nil => exact .nil
  | cons first _ ih =>
      refine .cons ?_ ih
      rw [linkReference_forget, first]

/-- Once a pass has stopped, it goes on without doing anything. -/
theorem eq_of_stopped (h : Traverses lookup l rs rs' last)
    (hl : l.failure.isSome) : rs' = rs ∧ last = l := by
  induction h with
  | nil => exact ⟨rfl, rfl⟩
  | @cons l next last r target rs rs' first _ ih =>
      have hpast : linkReference lookup r.owner r.key r.target l
          = (.reference r.key r.target, l) :=
        if_pos (.inl hl)
      obtain ⟨rfl, rfl⟩ := linkReference_inj first hpast
      obtain ⟨rfl, rfl⟩ := ih hl
      exact ⟨rfl, rfl⟩

end Traverses

/-- One more key that is found. -/
theorem Answered.found {state next last : σ} {r : Pointer} {target : Target}
    {asked : List String} {outcome : Except Error Nat}
    (hfound : lookup r.key state = (.found target, next))
    (h : Answered lookup next rs asked rs' last outcome) :
    Answered lookup state (r :: rs) (r.key :: asked) (r.to target :: rs') last
      (outcome.map (· + 1)) := by
  cases h with
  | all found => exact @Answered.all _ _ _ (r :: rs) _ _ (.cons hfound found)
  | @upTo before _ _ _ _ _ _ _ found asked refused =>
      exact @Answered.upTo _ _ _ (r :: before) _ _ _ _ _ _ _
        (.cons hfound found) asked refused

/-- A pass that has not stopped asks for the keys of the references to
other keys, in order, until one is not found. Its own answer counts what
it had resolved before, too. -/
theorem Traverses.answered (h : Traverses lookup l rs rs' last)
    (hl : l.failure = none) :
    ∃ asked outcome, Answered lookup l.state (foreign rs) asked (foreign rs')
      last.state outcome
      ∧ last.outcome = outcome.map (l.resolved.length + ·) := by
  induction h with
  | @nil l =>
      refine ⟨[], .ok 0, .all .nil, ?_⟩
      unfold Linking.outcome
      rw [hl]
      rfl
  | @cons l next last r target rs rs' first others ih =>
      rcases linkReference_cases lookup l r.owner r.key r.target with
        ⟨hpast, hstep⟩ | ⟨-, hne, new, state, hfound, hstep⟩
          | ⟨-, hne, answer, state, e, hanswer, hrefused, hstep⟩
      · obtain ⟨rfl, rfl⟩ := linkReference_inj first hstep
        have howner : r.key = r.owner := hpast.resolve_left (by simp [hl])
        rw [foreign_cons_of_eq howner, foreign_cons_of_eq howner]
        exact ih hl
      · obtain ⟨rfl, rfl⟩ := linkReference_inj first hstep
        obtain ⟨asked, outcome, hrest, houtcome⟩ := ih hl
        rw [foreign_cons_of_ne hne, foreign_cons_of_ne (r :=
          ⟨r.toOccurrence, some new⟩) hne]
        refine ⟨_, _, hrest.found hfound, ?_⟩
        rw [houtcome]
        cases outcome with
        | error e => rfl
        | ok n =>
            show Except.ok (l.resolved.length + 1 + n)
              = Except.ok (l.resolved.length + (n + 1))
            rw [Nat.add_right_comm, Nat.add_assoc]
      · obtain ⟨rfl, rfl⟩ := linkReference_inj first hstep
        -- the steps go on, but nothing is done any more
        obtain ⟨rfl, rfl⟩ := others.eq_of_stopped rfl
        rw [foreign_cons_of_ne hne]
        exact ⟨_, _, @Answered.upTo _ _ _ [] _ _ _ _ _ _ _ .nil hanswer
          hrefused, rfl⟩

-- ============================================================= the record

/-- The record of a lookup is what it was asked. -/
theorem Finds.of_recorded {start stop : σ × List String} {keys : List String}
    {targets : List Target}
    (h : Finds (recorded lookup) start keys targets stop) :
    Finds lookup start.1 keys targets stop.1 ∧ stop.2 = start.2 ++ keys := by
  induction h with
  | nil => exact ⟨.nil, (List.append_nil _).symm⟩
  | cons first _ ih =>
      obtain ⟨hanswer, rfl⟩ := Prod.mk.inj first
      obtain ⟨hfinds, hrecord⟩ := ih
      refine ⟨.cons (Prod.ext hanswer rfl) hfinds, ?_⟩
      rw [hrecord, List.append_assoc]
      rfl

/-- A lookup that keeps its log answers as it would without, and has been
asked just for what the log says. -/
private theorem Answered.of_recorded {start stop : σ × List String}
    {asked : List String} {outcome : Except Error Nat}
    (h : Answered (recorded lookup) start rs asked rs' stop outcome) :
    Answered lookup start.1 rs asked rs' stop.1 outcome
      ∧ stop.2 = start.2 ++ asked := by
  cases h with
  | all found =>
      obtain ⟨hfinds, hrecord⟩ := found.of_recorded
      exact ⟨.all hfinds, hrecord⟩
  | upTo found asked refused =>
      obtain ⟨hfinds, hrecord⟩ := found.of_recorded
      obtain ⟨hanswer, rfl⟩ := Prod.mk.inj asked
      refine ⟨.upTo hfinds (Prod.ext hanswer rfl) refused, ?_⟩
      show _ ++ [_] = _
      rw [hrecord, List.append_assoc, List.map_append]
      rfl

end Chain

-- ================================================================== trees

/-- The pointers of a sequence are those of its items. -/
theorem Node.pointers_sequence (owner : String) (elements : List Element) :
    (Node.sequence elements).pointers owner
      = (postorderElements elements).filterMap (Node.pointer? owner) := by
  unfold Node.pointers
  rw [postorder, List.filterMap_append]
  exact List.append_nil _

/-- The pointers of a choice are those of its alternatives. -/
theorem Node.pointers_alternation (owner : String) (choices : List Node) :
    (Node.alternation choices).pointers owner
      = (postorderNodes choices).filterMap (Node.pointer? owner) := by
  unfold Node.pointers
  rw [postorder, List.filterMap_append]
  exact List.append_nil _

section Trees

variable {σ : Type} (lookup : String → σ → Lookup × σ)

mutual

/-- The pass over a tree is a pass over its pointers. -/
theorem Node.traverses_link (owner : String) : ∀ (node : Node) (l : Linking σ),
    Traverses lookup l (node.pointers owner)
      ((node.link lookup owner l).1.pointers owner)
      (node.link lookup owner l).2
  | .literal text, l => .nil
  | .reference key target, l => by
      obtain ⟨after, h⟩ := linkReference_eq lookup owner key target l
      have hstep : linkReference lookup owner key target l
          = (.reference key after,
            (linkReference lookup owner key target l).2) := by
        rw [← h]
      rw [Node.link, h]
      exact .cons (r := ⟨⟨owner, key⟩, target⟩) hstep .nil
  | .sequence elements, l => by
      rw [Node.pointers_sequence, Node.link, Node.pointers_sequence]
      exact traverses_linkElements owner elements l
  | .alternation choices, l => by
      rw [Node.pointers_alternation, Node.link, Node.pointers_alternation]
      exact traverses_linkNodes owner choices l

private theorem traverses_linkElements (owner : String) :
    ∀ (elements : List Element) (l : Linking σ),
      Traverses lookup l ((postorderElements elements).filterMap
        (Node.pointer? owner))
        ((postorderElements (linkElements lookup owner elements l).1).filterMap
          (Node.pointer? owner))
        (linkElements lookup owner elements l).2
  | [], l => .nil
  | ⟨node, starred⟩ :: rest, l => by
      have hnode := Node.traverses_link owner node l
      have hrest :=
        traverses_linkElements owner rest (node.link lookup owner l).2
      have happend := hnode.append hrest
      unfold Node.pointers at happend
      rw [← List.filterMap_append, ← List.filterMap_append] at happend
      exact happend

private theorem traverses_linkNodes (owner : String) :
    ∀ (choices : List Node) (l : Linking σ),
      Traverses lookup l ((postorderNodes choices).filterMap
        (Node.pointer? owner))
        ((postorderNodes (linkNodes lookup owner choices l).1).filterMap
          (Node.pointer? owner))
        (linkNodes lookup owner choices l).2
  | [], l => .nil
  | node :: rest, l => by
      have hnode := Node.traverses_link owner node l
      have hrest := traverses_linkNodes owner rest (node.link lookup owner l).2
      have happend := hnode.append hrest
      unfold Node.pointers at happend
      rw [← List.filterMap_append, ← List.filterMap_append] at happend
      exact happend

end

/-- So is the pass over expressions. -/
theorem traverses_linkExpressions (expressions : List Expression)
    (l : Linking σ) :
    Traverses lookup l (expressions.flatMap Expression.pointers)
      ((linkExpressions lookup expressions l).1.flatMap Expression.pointers)
      (linkExpressions lookup expressions l).2 := by
  induction expressions generalizing l with
  | nil => exact .nil
  | cons e rest ih =>
      have hroot := Node.traverses_link lookup e.key e.root l
      exact hroot.append (ih (e.root.link lookup e.key l).2)

namespace ExpressionSet

variable (s : ExpressionSet) (state : σ)

/-- The pass over a set is a pass over its pointers, from the beginning. -/
theorem traverses_linkWith : ∃ last : Linking σ,
    Traverses lookup ⟨state, [], none⟩ s.pointers
      (s.linkWith lookup state).set.pointers last
      ∧ (s.linkWith lookup state).state = last.state
      ∧ (s.linkWith lookup state).outcome = last.outcome := by
  refine ⟨(linkExpressions lookup s.expressions.toList ⟨state, [], none⟩).2,
    traverses_linkExpressions lookup s.expressions.toList ⟨state, [], none⟩,
      rfl, ?_⟩
  unfold Linked.outcome Linking.outcome linkWith
  rcases linkExpressions lookup s.expressions.toList ⟨state, [], none⟩ with
    ⟨expressions, state, resolved, failure⟩
  cases failure with
  | some e => rfl
  | none => exact congrArg Except.ok List.length_reverse

/-- The pass asks for the keys of the references to other keys in turn,
and makes of them what the lookup answers. -/
theorem linkWith_answered :
    Answered lookup state (foreign s.pointers) (s.asked lookup state)
      (foreign (s.linkWith lookup state).set.pointers)
        (s.linkWith lookup state).state
      (s.linkWith lookup state).outcome := by
  obtain ⟨last, htraverses, hstate, houtcome⟩ :=
    s.traverses_linkWith lookup state
  obtain ⟨last', htraverses', hstate', -⟩ :=
    s.traverses_linkWith (recorded lookup) (state, [])
  obtain ⟨hpointers, rfl⟩ := htraverses.unique htraverses'.forget
  obtain ⟨keys, outcome, hanswered, hresult⟩ := htraverses'.answered rfl
  obtain ⟨hplain, hrecord⟩ := hanswered.of_recorded
  have hasked : s.asked lookup state = keys := by
    unfold asked
    rw [hstate', hrecord]
    rfl
  have houtcome : (s.linkWith lookup state).outcome = outcome := by
    rw [houtcome]
    show last'.outcome = outcome
    rw [hresult]
    cases outcome with
    | error e => rfl
    | ok n => exact congrArg Except.ok (Nat.zero_add n)
  rw [hasked, houtcome, hpointers, hstate]
  exact hplain

end ExpressionSet

end Trees

end Munch
