/-
The budget is enough wherever anything is: if primitives stay in range,
the matcher gives every derivable answer within its own budget, left
recursion or not (`Derives.captureNode`). With character classes only,
it does so from offsets past the limit, too
(`Derives.captureNode_of_classes`).

Whether a call is answered may depend on the bound only up to a point.
Let there be finitely many places that matching does not leave: the
offsets up to the limit, or a single one past it. There are no more than
`n * places` calls, of `n` expressions at one of the places. Each bound
settles at least the calls that the one before it settled, so among the
bounds from some least one on there is one, no more than `n * places`
later, that settles as many as the next (`exists_stationary`). From
there on no bound settles more (`Derives.settles`): what a call needs is
settled under such a bound, so the call is under the next, and therefore
under this one.
-/
import Mathlib.Data.Finset.Card
import Mathlib.Data.Finset.Prod
import Mathlib.Data.Finset.Range
import Mathlib.Data.Finset.Filter
import Munch.Proofs.Expr.Range

namespace Munch

section Bounds

variable (s : ExpressionSet) (text : Text) (limit : Nat) (places : Finset Nat)

/-- A call is answered under a bound, and under every larger one in the
same way. -/
def Settled (bound index position : Nat) : Prop :=
  ∃ answer, ∀ b, bound ≤ b →
    s.captureWithin text limit b index position = .ok answer

/-- The next bound settles no more calls from these places. -/
def Stationary (bound : Nat) : Prop :=
  ∀ index position, index < s.size → position ∈ places →
    Settled s text limit (bound + 1) index position →
    Settled s text limit bound index position

variable {s text limit}

/-- What a bound settles, the next one does. -/
private theorem Settled.succ {bound index position : Nat}
    (h : Settled s text limit bound index position) :
    Settled s text limit (bound + 1) index position := by
  obtain ⟨answer, hanswer⟩ := h
  exact ⟨answer, fun b hb => hanswer b (Nat.le_of_succ_le hb)⟩

variable (s text limit)

open Classical in
/-- The calls that a bound settles. -/
noncomputable def settledCalls (bound : Nat) : Finset (Nat × Nat) :=
  (Finset.range s.size ×ˢ places).filter
    fun call => Settled s text limit bound call.1 call.2

private theorem mem_settledCalls {bound index position : Nat} :
    (index, position) ∈ settledCalls s text limit places bound
      ↔ index < s.size ∧ position ∈ places
        ∧ Settled s text limit bound index position := by
  classical
  unfold settledCalls
  rw [Finset.mem_filter, Finset.mem_product, Finset.mem_range, and_assoc]

/-- There are no more settled calls than expressions at each place. -/
private theorem card_settledCalls_le (bound : Nat) :
    (settledCalls s text limit places bound).card ≤ s.size * places.card := by
  classical
  apply Nat.le_trans (Finset.card_filter_le _ _)
  rw [Finset.card_product, Finset.card_range]

/-- A bound that is not stationary settles fewer calls than the next. -/
theorem settledCalls_ssubset {bound : Nat}
    (h : ¬ Stationary s text limit places bound) :
    settledCalls s text limit places bound ⊂ settledCalls s text limit places
      (bound + 1) := by
  unfold Stationary at h
  push Not at h
  obtain ⟨index, position, hindex, hposition, hnext, hnot⟩ := h
  refine (Finset.ssubset_iff_of_subset ?_).2 ⟨(index, position), ?_, ?_⟩
  · intro call hcall
    obtain ⟨hindex, hposition, hsettled⟩ :=
      (mem_settledCalls s text limit places).1 hcall
    exact (mem_settledCalls s text limit places).2 ⟨hindex, hposition,
      hsettled.succ⟩
  · exact (mem_settledCalls s text limit places).2 ⟨hindex, hposition, hnext⟩
  · exact fun hmem => hnot ((mem_settledCalls s text limit places).1 hmem).2.2

/-- Among the bounds from some least one on there is one, not much
larger, that settles as many calls as the next. -/
theorem exists_stationary (least : Nat) :
    ∃ bound, least ≤ bound ∧ bound ≤ least + s.size * places.card
      ∧ Stationary s text limit places bound := by
  by_contra hnone
  -- or else each bound would settle a call more than the one before it
  have hgrow : ∀ k, k ≤ s.size * places.card + 1 →
      k ≤ (settledCalls s text limit places (least + k)).card := by
    intro k
    induction k with
    | zero => exact fun _ => Nat.zero_le _
    | succ k ih =>
        intro hk
        have hnot : ¬ Stationary s text limit places (least + k) :=
          fun h => hnone ⟨least + k, by omega, by omega, h⟩
        have hlt :=
          Finset.card_lt_card (settledCalls_ssubset s text limit places hnot)
        have := ih (by omega)
        rw [← Nat.add_assoc]
        omega
  have := hgrow _ (Nat.le_refl _)
  have := card_settledCalls_le s text limit places
    (least + (s.size * places.card + 1))
  omega

end Bounds

/-- A stationary bound, for places that matching does not leave and that
are not further apart than the bound. -/
structure Ample (s : ExpressionSet) (text : Text) (limit : Nat)
    (P : Primitive → Prop) (places : Finset Nat) (bound : Nat) : Prop where
  primitives : s.Primitives P
  motion : Motion text limit P fun p q => p ∈ places → p ≤ q ∧ q ∈ places
  stationary : Stationary s text limit places bound
  spread : ∀ p ∈ places, ∀ q ∈ places, q < p + bound

section Ample

variable {s : ExpressionSet} {text : Text} {limit bound : Nat}
  {places : Finset Nat} {P : Primitive → Prop}

mutual

/-- From an ample bound on, derivable answers are given. -/
theorem Derives.settles (ha : Ample s text limit P places bound)
    {node : Node} {start : Nat} {answer : Option Nat} :
    Derives s text limit node start answer → node.Primitives P →
    start ∈ places → ∀ b, bound ≤ b →
      node.matchWith (s.captureWithin text limit b) text limit b start
        = .ok answer
  | .literal h, _, _, b, hb => by
      rw [Node.matchWith, literalAt_eq_some h]
  | .noLiteral h, _, _, b, hb => by
      rw [Node.matchWith, literalAt_eq_none h]
  | @Derives.expression _ _ _ key index start e answer he hd, _, hstart, b,
      hb => by
      have hroot := Derives.settles ha hd
        (ha.primitives e (ExpressionSet.mem_of_get? he)) hstart
      have hcall : ∀ b, bound + 1 ≤ b →
          s.captureWithin text limit b index start = .ok answer := by
        intro b hb
        obtain ⟨b, rfl⟩ : ∃ c, b = c + 1 := ⟨b - 1, by omega⟩
        rw [ExpressionSet.captureWithin, he]
        exact hroot b (by omega)
      have hindex : index < s.size := by
        apply Nat.lt_of_not_le
        intro h
        rw [ExpressionSet.get?_eq_none_iff.2 h] at he
        cases he
      -- what the next bound settles, this one does
      obtain ⟨answer', hanswer⟩ :=
        ha.stationary index start hindex hstart ⟨answer, hcall⟩
      have hsame := hanswer (bound + 1) (by omega)
      rw [hcall (bound + 1) (Nat.le_refl _)] at hsame
      rw [Node.matchWith, hanswer b hb, ← Except.ok.inj hsame]
  | .primitive hscan, _, _, b, hb => by
      rw [Node.matchWith, hscan]
  | .choice hrefused hc, hnode, hstart, b, hb => by
      have hnodes := Node.references_alternation.1 hnode
      rw [Node.matchWith, matchChoices_append fun r hr =>
        Derives.settles ha (hrefused r hr)
          (hnodes r (List.mem_append_left _ hr)) hstart b hb]
      rw [matchChoices,
        Derives.settles ha hc (hnodes _ List.mem_append_cons_self) hstart b hb]
  | .noChoice hchoices, hnode, hstart, b, hb => by
      have hnodes := Node.references_alternation.1 hnode
      have happend := matchChoices_append (fun c hc =>
        Derives.settles ha (hchoices c hc) (hnodes c hc) hstart b hb) []
      rw [List.append_nil] at happend
      rw [Node.matchWith, happend, matchChoices]
  | .sequence hthreads, hnode, hstart, b, hb => by
      have happend := Threads.settles ha hthreads
        (Node.references_sequence.1 hnode) hstart b hb []
      rw [List.append_nil] at happend
      rw [Node.matchWith, happend, matchElements]
  | .noSequence hthreads hd, hnode, hstart, b, hb => by
      have hnodes := Node.references_sequence.1 hnode
      have hbefore := fun e he => hnodes e (List.mem_append_left _ he)
      have hposition :=
        (hthreads.relates ha.motion ha.primitives hbefore hstart).2
      rw [Node.matchWith, Threads.settles ha hthreads hbefore hstart b hb,
        matchElements,
        Derives.settles ha hd (hnodes _ List.mem_append_cons_self)
          hposition b hb]

/-- From an ample bound on, items that lead somewhere hand the match
over to those behind. -/
theorem Threads.settles (ha : Ample s text limit P places bound)
    {elements : List Element} {start stop : Nat} :
    Threads s text limit elements start stop →
    (∀ e ∈ elements, e.node.Primitives P) →
    start ∈ places → ∀ b, bound ≤ b → ∀ rest,
      matchElements (s.captureWithin text limit b) text limit b
          (elements ++ rest) start
        = matchElements (s.captureWithin text limit b) text limit b rest stop
  | .nil, _, _, b, hb, rest => rfl
  | .once hd hthreads, hnodes, hstart, b, hb, rest => by
      obtain ⟨hnode, hnodes⟩ := List.forall_mem_cons.1 hnodes
      have hnext := (hd.relates ha.motion ha.primitives hnode _ rfl hstart).2
      rw [List.cons_append, matchElements,
        Derives.settles ha hd hnode hstart b hb]
      exact Threads.settles ha hthreads hnodes hnext b hb rest
  | .starred hrepeats hthreads, hnodes, hstart, b, hb, rest => by
      obtain ⟨hnode, hnodes⟩ := List.forall_mem_cons.1 hnodes
      have hnext := (hrepeats.relates ha.motion ha.primitives hnode hstart).2
      have hrounds : ∀ q ∈ places, q < _ + b := fun q hq =>
        Nat.lt_of_lt_of_le (ha.spread _ hstart q hq) (Nat.add_le_add_left hb _)
      rw [List.cons_append, matchElements,
        Repeats.settles ha hrepeats hnode hstart b hb b hrounds]
      exact Threads.settles ha hthreads hnodes hnext b hb rest

/-- From an ample bound on, a chain is walked to its end, in more
rounds than there are bytes between its start and any place. -/
theorem Repeats.settles (ha : Ample s text limit P places bound)
    {node : Node} {start stop : Nat} :
    Repeats s text limit node start stop → node.Primitives P →
    start ∈ places → ∀ b, bound ≤ b → ∀ rounds,
      (∀ q ∈ places, q < start + rounds) →
      repeatFrom (node.matchWith (s.captureWithin text limit b) text limit b)
        rounds start = .ok stop
  | .fails hd, hnode, hstart, b, hb, rounds, hrounds => by
      have hpos := hrounds _ hstart
      obtain ⟨rounds, rfl⟩ : ∃ r, rounds = r + 1 := ⟨rounds - 1, by omega⟩
      exact repeatFrom_fails (Derives.settles ha hd hnode hstart b hb)
  | .stays hd, hnode, hstart, b, hb, rounds, hrounds => by
      have hpos := hrounds _ hstart
      obtain ⟨rounds, rfl⟩ : ∃ r, rounds = r + 1 := ⟨rounds - 1, by omega⟩
      exact repeatFrom_stays (Derives.settles ha hd hnode hstart b hb)
  | .moves hd hne hrepeats, hnode, hstart, b, hb, rounds, hrounds => by
      have hpos := hrounds _ hstart
      obtain ⟨rounds, rfl⟩ : ∃ r, rounds = r + 1 := ⟨rounds - 1, by omega⟩
      have hnext := hd.relates ha.motion ha.primitives hnode _ rfl hstart
      have hmoves := Derives.settles ha hd hnode hstart b hb
      rw [repeatFrom_moves hmoves hne]
      refine Repeats.settles ha hrepeats hnode hnext.2 b hb rounds
        fun q hq => ?_
      have := hrounds q hq
      omega

end

end Ample

section Capture

variable {s : ExpressionSet} {node : Node} {text : Text} {start stop : Nat}
  {answer : Option Nat}

/-- The matcher gives every answer that is derivable from one of finitely
many places that matching does not leave, if there are not more of them
than the budget allows for. -/
theorem Derives.captureNode_of_motion {P : Primitive → Prop}
    (places : Finset Nat) (hs : s.Primitives P) (hnode : node.Primitives P)
    (hmotion : Motion text (min stop text.size) P fun p q => p ∈ places →
      p ≤ q ∧ q ∈ places)
    (hspread : ∀ p ∈ places, ∀ q ∈ places, q ≤ p + text.size)
    (hcard : places.card ≤ text.size + 1) (hstart : start ∈ places)
    (h : Derives s text (min stop text.size) node start answer) :
    s.captureNode node text start stop = .ok answer := by
  obtain ⟨bound, hleast, hmost, hstationary⟩ :=
    exists_stationary s text (min stop text.size) places (text.size + 1)
  have hbound : ∀ p ∈ places, ∀ q ∈ places, q < p + bound := by
    intro p hp q hq
    have := hspread p hp q hq
    omega
  apply h.settles ⟨hs, hmotion, hstationary,
    hbound⟩ hnode hstart (s.budget text)
  have hcalls : s.size * places.card ≤ s.size * (text.size + 1) :=
    Nat.mul_le_mul_left _ hcard
  calc bound
      ≤ text.size + 1 + s.size * (text.size + 1) := by omega
    _ = (text.size + 1) * (s.size + 1) := by
        rw [Nat.mul_add_one (text.size + 1), Nat.mul_comm s.size, Nat.add_comm]
    _ ≤ s.budget text := Nat.mul_le_mul (by omega) (by omega)

/-- Where primitives stay in range, the matcher gives every answer that
is derivable, from any offset that is not past the limit. -/
theorem Derives.captureNode (hs : s.Primitives Primitive.InRange)
    (hnode : node.Primitives Primitive.InRange)
    (hstart : start ≤ min stop text.size)
    (h : Derives s text (min stop text.size) node start answer) :
    s.captureNode node text start stop = .ok answer := by
  have hplace : ∀ p, p ∈ Finset.range (min stop text.size + 1)
      ↔ p ≤ min stop text.size :=
    fun p => Finset.mem_range.trans Nat.lt_succ_iff
  refine h.captureNode_of_motion (Finset.range (min stop text.size + 1))
    hs hnode
    ?_ ?_ ?_ ((hplace start).2 hstart)
  · simp only [hplace]
    exact motion_range text (min stop text.size)
  · intro p _ q hq
    have := (hplace q).1 hq
    omega
  · rw [Finset.card_range]
    omega

/-- Where all primitives are character classes, the matcher gives every
answer that is derivable. -/
theorem Derives.captureNode_of_classes (hs : s.Primitives Primitive.IsClass)
    (hnode : node.Primitives Primitive.IsClass)
    (h : Derives s text (min stop text.size) node start answer) :
    s.captureNode node text start stop = .ok answer := by
  by_cases hstart : start ≤ min stop text.size
  · refine h.captureNode ?_ ?_ hstart
    · exact fun e he => (hs e he).mono fun _ _ hp scan hscan =>
        (hp scan hscan).inRange
    · exact hnode.mono fun _ _ hp scan hscan => (hp scan hscan).inRange
  · -- past the limit, nothing moves
    have hpast : min stop text.size < start := Nat.not_le.1 hstart
    refine h.captureNode_of_motion (P :=
      Primitive.Silent) {start} ?_ ?_ ?_ ?_ ?_
      (Finset.mem_singleton_self start)
    · exact fun e he => (hs e he).mono fun _ _ hp scan hscan =>
        (hp scan hscan).silent
    · exact hnode.mono fun _ _ hp scan hscan => (hp scan hscan).silent
    · simp only [Finset.mem_singleton]
      exact motion_beyond text hpast
    · intro p hp q hq
      rw [Finset.mem_singleton.1 hp, Finset.mem_singleton.1 hq]
      omega
    · rw [Finset.card_singleton]
      omega

/-- Where all primitives are character classes, calls are answered
exactly as the relation says. -/
theorem capture_eq_ok_iff (hs : s.Primitives Primitive.IsClass) (key : String)
    {index : Nat} :
    s.capture index text start stop = .ok answer
      ↔ Derives s text (min stop text.size)
        (.reference key (some (.expression index)))
          start answer := by
  constructor
  · intro h
    obtain ⟨e, he, hd⟩ := captureWithin_sound s text _ _ index start answer h
    exact .expression he hd
  · intro h
    have hnode : (Node.reference key (some (.expression index))).Primitives
        Primitive.IsClass :=
      Node.references_reference.2 fun scan hscan => nomatch hscan
    exact h.captureNode_of_classes hs hnode

end Capture

end Munch
