/-
Nodes that match alike, and what may be put in the place of what.

Whether a tree matches depends on its nodes only through what is
derivable for them. So where two nodes match alike (`Alike`), a tree with
the one in some place matches like the tree with the other in that place
(`Node.Replaces.alike`), by induction on how deep the place is: a
sequence and an alternation each bear with it (`Alike.item`,
`Alike.choice`).

The same holds from set to set. If whatever matches from the roots of one
set, its calls answered by another, matches from the roots of that other
set, then whatever is derivable in the one is derivable in the other
(`Derives.transport`). The trees of recursive expressions are not well
founded, so this is an induction over derivations, which are.
-/
import Munch.Proofs.Expr.Range
import Munch.Proofs.Expr.Retarget

namespace Munch

section Congruence

variable {s : ExpressionSet} {text : Text} {limit : Nat}

-- ================================================ sequences, item by item

/-- Behind an item that matches, a sequence goes on as without it. -/
private theorem Derives.sequence_once {node : Node} {rest : List Element}
    {p q : Nat} {answer : Option Nat}
    (hd : Derives s text limit node p (some q)) :
    Derives s text limit (.sequence rest) q answer →
    Derives s text limit (.sequence (⟨node, false⟩ :: rest)) p answer
  | .sequence hthreads => .sequence (.once hd hthreads)
  | @Derives.noSequence _ _ _ before after last _ _ hthreads hlast =>
      @Derives.noSequence _ _ _ (⟨node, false⟩ :: before) after last _ _
        (.once hd hthreads) hlast

/-- Behind a repetition, a sequence goes on as without it. -/
private theorem Derives.sequence_starred {node : Node} {rest : List Element}
    {p q : Nat} {answer : Option Nat}
    (hrepeats : Repeats s text limit node p q) :
    Derives s text limit (.sequence rest) q answer →
    Derives s text limit (.sequence (⟨node, true⟩ :: rest)) p answer
  | .sequence hthreads => .sequence (.starred hrepeats hthreads)
  | @Derives.noSequence _ _ _ before after last _ _ hthreads hlast =>
      @Derives.noSequence _ _ _ (⟨node, true⟩ :: before) after last _ _
        (.starred hrepeats hthreads) hlast

/-- A sequence matches by its first item and then by the others. -/
theorem derives_sequence_once {node : Node} {rest : List Element} {p : Nat}
    {answer : Option Nat} :
    Derives s text limit (.sequence (⟨node, false⟩ :: rest)) p answer
      ↔ (Derives s text limit node p none ∧ answer = none)
        ∨ ∃ q, Derives s text limit node p (some q)
            ∧ Derives s text limit (.sequence rest) q answer := by
  refine ⟨fun h => ?_, fun h => ?_⟩
  · generalize helements : (⟨node, false⟩ :: rest : List Element)
      = elements at h
    cases h with
    | sequence hthreads =>
        subst helements
        cases hthreads with
        | once hd hrest => exact .inr ⟨_, hd, .sequence hrest⟩
    | noSequence hthreads hd =>
        rcases List.append_eq_cons_iff.1 helements.symm
          with ⟨rfl, hcons⟩ | ⟨before, rfl, rfl⟩
        · cases hcons
          cases hthreads
          exact .inl ⟨hd, rfl⟩
        · cases hthreads with
          | once hfirst hbefore =>
              exact .inr ⟨_, hfirst, .noSequence hbefore hd⟩
  · rcases h with ⟨hd, rfl⟩ | ⟨q, hd, hrest⟩
    · exact @Derives.noSequence _ _ _ [] rest node p p .nil hd
    · exact hd.sequence_once hrest

/-- A sequence with a starred item first goes on where the repetition ends. -/
private theorem derives_sequence_starred {node : Node} {rest : List Element}
    {p : Nat} {answer : Option Nat} :
    Derives s text limit (.sequence (⟨node, true⟩ :: rest)) p answer
      ↔ ∃ q, Repeats s text limit node p q
          ∧ Derives s text limit (.sequence rest) q answer := by
  refine ⟨fun h => ?_, fun ⟨q, hrepeats, hrest⟩ =>
    hrest.sequence_starred hrepeats⟩
  generalize helements : (⟨node, true⟩ :: rest : List Element) = elements at h
  cases h with
  | sequence hthreads =>
      subst helements
      cases hthreads with
      | starred hrepeats hrest => exact ⟨_, hrepeats, .sequence hrest⟩
  | noSequence hthreads hd =>
      rcases List.append_eq_cons_iff.1 helements.symm
        with ⟨rfl, hcons⟩ | ⟨before, rfl, rfl⟩
      · cases hcons
      · cases hthreads with
        | starred hrepeats hbefore =>
            exact ⟨_, hrepeats, .noSequence hbefore hd⟩

-- ========================================= choices, one after another

/-- Behind a choice that fails, an alternation goes on as without it. -/
private theorem Derives.alternation_later {c : Node} {rest : List Node}
    {p : Nat} {answer : Option Nat} (hfirst : Derives s text limit c p none) :
    Derives s text limit (.alternation rest) p answer →
    Derives s text limit (.alternation (c :: rest)) p answer
  | @Derives.choice _ _ _ refused later next _ _ hrefused hc =>
      @Derives.choice _ _ _ (c :: refused) later next _ _
        (List.forall_mem_cons.2 ⟨hfirst, hrefused⟩) hc
  | .noChoice hfails => .noChoice (List.forall_mem_cons.2 ⟨hfirst, hfails⟩)

/-- A choice matches as its first alternative or, where that fails, as
the others. -/
theorem derives_alternation_cons {c : Node} {rest : List Node} {p : Nat}
    {answer : Option Nat} :
    Derives s text limit (.alternation (c :: rest)) p answer
      ↔ (∃ q, Derives s text limit c p (some q) ∧ answer = some q)
        ∨ (Derives s text limit c p none
            ∧ Derives s text limit (.alternation rest) p answer) := by
  refine ⟨fun h => ?_, fun h => ?_⟩
  · generalize hchoices : c :: rest = choices at h
    cases h with
    | choice hrefused hc =>
        rcases List.append_eq_cons_iff.1 hchoices.symm
          with ⟨rfl, hcons⟩ | ⟨refused, rfl, rfl⟩
        · cases hcons
          exact .inl ⟨_, hc, rfl⟩
        · obtain ⟨hfirst, hrefused⟩ := List.forall_mem_cons.1 hrefused
          exact .inr ⟨hfirst, .choice hrefused hc⟩
    | noChoice hfails =>
        subst hchoices
        obtain ⟨hfirst, hrest⟩ := List.forall_mem_cons.1 hfails
        exact .inr ⟨hfirst, .noChoice hrest⟩
  · rcases h with ⟨q, hc, rfl⟩ | ⟨hfirst, hrest⟩
    · exact @Derives.choice _ _ _ [] rest c p q (fun r hr =>
        absurd hr List.not_mem_nil) hc
    · exact hfirst.alternation_later hrest

end Congruence

-- ======================================================== matching alike

/-- Whatever is derivable for the one node is for the other. -/
def Alike (s : ExpressionSet) (text : Text) (limit : Nat) (m n : Node) : Prop :=
  ∀ p answer, Derives s text limit m p answer ↔ Derives s text limit n p answer

section Alike

variable {s : ExpressionSet} {text : Text} {limit : Nat} {m n : Node}

/-- Matching alike goes both ways. -/
theorem Alike.symm (h : Alike s text limit m n) : Alike s text limit n m :=
  fun p answer => (h p answer).symm

/-- A reference matches like the root of the expression it leads to. -/
theorem alike_reference {key : String} {index : Nat} {e : Expression}
    (he : s.get? index = some e) :
    Alike s text limit (.reference key (some (.expression index))) e.root := by
  intro p answer
  refine ⟨fun h => ?_, fun h => .expression he h⟩
  cases h with
  | expression he' hd =>
      rw [he] at he'
      obtain rfl := Option.some.inj he'
      exact hd

/-- Repetitions of nodes that match alike move alike. -/
theorem Repeats.of_alike {p q : Nat} :
    Repeats s text limit m p q → Alike s text limit m n →
      Repeats s text limit n p q
  | .fails hd, h => .fails ((h _ _).1 hd)
  | .stays hd, h => .stays ((h _ _).1 hd)
  | .moves hd hne hrepeats, h => .moves ((h _ _).1 hd) hne (hrepeats.of_alike h)

/-- A sequence bears with a change of an item. -/
theorem Alike.item (h : Alike s text limit m n) (front back : List Element)
    (starred : Bool) :
    Alike s text limit (.sequence (front ++ ⟨m, starred⟩ :: back))
      (.sequence (front ++ ⟨n, starred⟩ :: back)) := by
  intro p answer
  induction front generalizing p with
  | nil =>
      cases starred with
      | true =>
          have hrepeats : ∀ q, Repeats s text limit m p q
              ↔ Repeats s text limit n p q :=
            fun q => ⟨fun hm => hm.of_alike h, fun hn => hn.of_alike h.symm⟩
          simp only [List.nil_append, derives_sequence_starred, hrepeats]
      | false => simp only [List.nil_append, derives_sequence_once, h p]
  | cons e front ih =>
      obtain ⟨node, starred⟩ := e
      cases starred with
      | true => simp only [List.cons_append, derives_sequence_starred, ih]
      | false => simp only [List.cons_append, derives_sequence_once, ih]

/-- An alternation bears with a change of an alternative. -/
theorem Alike.choice (h : Alike s text limit m n) (front back : List Node) :
    Alike s text limit (.alternation (front ++ m :: back))
      (.alternation (front ++ n :: back)) := by
  intro p answer
  induction front with
  | nil => simp only [List.nil_append, derives_alternation_cons, h p]
  | cons c front ih =>
      simp only [List.cons_append, derives_alternation_cons, ih]

end Alike

-- ================================================= one node for another

/-- The tree with `new` in one place where the other tree has `old`. -/
inductive Node.Replaces (old new : Node) : Node → Node → Prop
  | here : Replaces old new old new
  | item {node node' : Node} (front back : List Element) (starred : Bool)
      (inside : Replaces old new node node') :
      Replaces old new (.sequence (front ++ ⟨node, starred⟩ :: back))
        (.sequence (front ++ ⟨node', starred⟩ :: back))
  | choice {node node' : Node} (front back : List Node)
      (inside : Replaces old new node node') :
      Replaces old new (.alternation (front ++ node :: back))
        (.alternation (front ++ node' :: back))

namespace Node.Replaces

variable {old new node node' : Node}

/-- If the two nodes match alike, so do the two trees. -/
theorem alike {s : ExpressionSet} {text : Text} {limit : Nat}
    (h : Replaces old new node node') (hnodes : Alike s text limit old new) :
    Alike s text limit node node' := by
  induction h with
  | here => exact hnodes
  | item front back starred _ ih => exact ih.item front back starred
  | choice front back _ ih => exact ih.choice front back

/-- The references of the new tree are among those of the old one and of
the new node. -/
theorem references {P : String → Option Target → Prop}
    (h : Replaces old new node node') (hnode : node.References P)
    (hnew : new.References P) : node'.References P := by
  induction h with
  | here => exact hnew
  | item front back starred _ ih =>
      rw [references_sequence, List.forall_mem_append, List.forall_mem_cons]
        at hnode ⊢
      exact ⟨hnode.1, ih hnode.2.1, hnode.2.2⟩
  | choice front back _ ih =>
      rw [references_alternation, List.forall_mem_append, List.forall_mem_cons]
        at hnode ⊢
      exact ⟨hnode.1, ih hnode.2.1, hnode.2.2⟩

/-- A replacement stays one when the targets of all trees are changed. -/
theorem retarget (f : String → Option Target → Option Target)
    (h : Replaces old new node node') :
    Replaces (old.retarget f) (new.retarget f) (node.retarget f)
      (node'.retarget f) := by
  induction h with
  | here => exact .here
  | item front back starred _ ih =>
      simp only [Node.retarget, retargetElements_eq_map, List.map_append,
        List.map_cons]
      exact .item _ _ starred ih
  | choice front back _ ih =>
      simp only [Node.retarget, retargetNodes_eq_map, List.map_append,
        List.map_cons]
      exact .choice _ _ ih

end Node.Replaces

-- ===================================================== from set to set

/-- What matches from the roots of the one set matches, with calls
answered by the other set, from the roots of the other. -/
def ExpressionSet.Answers (s s' : ExpressionSet) (text : Text) (limit : Nat) :
    Prop :=
  ∀ index e, s.get? index = some e → ∃ e', s'.get? index = some e'
    ∧ ∀ p answer, Derives s' text limit e.root p answer →
      Derives s' text limit e'.root p answer

section Transport

variable {s s' : ExpressionSet} {text : Text} {limit : Nat}

mutual

/-- A derivation in the one set is followed by one in the other, call by
call. -/
theorem Derives.transport (h : s.Answers s' text limit) {node : Node} {p : Nat}
    {answer : Option Nat} :
    Derives s text limit node p answer → Derives s' text limit node p answer
  | .literal hfits => .literal hfits
  | .noLiteral hfits => .noLiteral hfits
  | .expression he hd => by
      obtain ⟨e', he', hroot⟩ := h _ _ he
      exact .expression he' (hroot _ _ (Derives.transport h hd))
  | .primitive hscan => .primitive hscan
  | .choice hrefused hc =>
      .choice (fun r hr => Derives.transport h (hrefused r hr))
        (Derives.transport h hc)
  | .noChoice hchoices =>
      .noChoice fun c hc => Derives.transport h (hchoices c hc)
  | .sequence hthreads => .sequence (Threads.transport h hthreads)
  | .noSequence hthreads hd =>
      .noSequence (Threads.transport h hthreads) (Derives.transport h hd)

/-- Items lead on in a set that answers as the other does. -/
theorem Threads.transport (h : s.Answers s' text limit)
    {elements : List Element} {p q : Nat} :
    Threads s text limit elements p q → Threads s' text limit elements p q
  | .nil => .nil
  | .once hd hrest => .once (Derives.transport h hd) (Threads.transport h hrest)
  | .starred hrepeats hrest =>
      .starred (Repeats.transport h hrepeats) (Threads.transport h hrest)

/-- A chain of matches is one in a set that answers as the other does. -/
theorem Repeats.transport (h : s.Answers s' text limit) {node : Node}
    {p q : Nat} :
    Repeats s text limit node p q → Repeats s' text limit node p q
  | .fails hd => .fails (Derives.transport h hd)
  | .stays hd => .stays (Derives.transport h hd)
  | .moves hd hne hrepeats =>
      .moves (Derives.transport h hd) hne (Repeats.transport h hrepeats)

end

end Transport

end Munch
