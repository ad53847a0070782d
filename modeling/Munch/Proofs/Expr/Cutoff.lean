/-
A window that ends inside a character.

Such an end cuts that character off for literals: one that fits ends at a
boundary, so at the last boundary before the end or earlier
(`literalAt_cutoff`). For character classes it does more. They cut the
whole window out of the text before they look at its first character, and
a window that ends inside a character cannot be cut out, so they find
nothing at all, however far from its end the character is that they are
asked for (`CharClass.scan_eq`).

So matching up to such an end is matching up to the last boundary before
it with all classes silenced (`captureNode_cutoff`), and not with the
classes as they are (`captureNode_cutoff_letter`).
-/
import Mathlib.Order.Lattice.Nat
import Munch.Proofs.Expr.Boundary
import Munch.Proofs.Expr.Relocation

namespace Munch

-- =========================================================== last boundary

/-- The boundaries of a text that are not past an offset. -/
def Text.boundariesUpTo (text : Text) (limit : Nat) : Set Nat :=
  {b | text.isBoundary b = true ∧ b ≤ limit}

/-- There is a last boundary before every offset, or at it. -/
theorem Text.exists_isGreatest_boundary (text : Text) (limit : Nat) :
    ∃ last, IsGreatest (text.boundariesUpTo limit) last := by
  have hne : (text.boundariesUpTo limit).Nonempty :=
    ⟨0, text.isBoundary_zero, Nat.zero_le limit⟩
  have hbounded : BddAbove (text.boundariesUpTo limit) :=
    ⟨limit, fun b hb => hb.2⟩
  exact ⟨_, Nat.sSup_mem hne hbounded, fun b hb => le_csSup hbounded hb⟩

/-- A boundary is the last one before itself. -/
theorem Text.eq_of_isGreatest_boundary {text : Text} {limit last : Nat}
    (hlast : IsGreatest (text.boundariesUpTo limit) last)
    (hlimit : text.isBoundary limit = true) : last = limit :=
  Nat.le_antisymm hlast.1.2 (hlast.2 ⟨hlimit, Nat.le_refl limit⟩)

-- ===================================================== literals and classes

/-- A primitive that finds nothing. -/
def Primitive.never : Primitive := fun _ _ _ => none

section Cutoff

variable {text : Text} {limit last : Nat}

/-- A literal that starts at a boundary is cut off at one. -/
theorem literalAt_cutoff (hlast : IsGreatest (text.boundariesUpTo limit) last)
    (w : Text) {start : Nat} (hstart : text.isBoundary start = true) :
    literalAt text last w start = literalAt text limit w start := by
  by_cases hfits : LiteralFits text limit w start
  · have hend : start + w.size ≤ last :=
      hlast.2 ⟨hfits.isBoundary hstart, hfits.1⟩
    rw [literalAt_eq_some hfits, literalAt_eq_some ⟨hend, hfits.2⟩]
  · have hnot : ¬ LiteralFits text last w start :=
      fun h => hfits ⟨Nat.le_trans h.1 hlast.1.2, h.2⟩
    rw [literalAt_eq_none hfits, literalAt_eq_none hnot]

/-- A class finds nothing where the window ends inside a character. -/
theorem CharClass.scan_eq_none (k : CharClass) (start : Nat)
    (hlimit : ¬ text.isBoundary limit = true) :
    k.scan text start limit = none := by
  apply Option.eq_none_iff_forall_ne_some.2
  intro next hnext
  obtain ⟨c, rest, hslice, -, -⟩ := CharClass.scan_eq_some hnext
  obtain ⟨front, after, rfl, rfl, rfl⟩ := Text.slice?_eq_some_iff.1 hslice
  refine hlimit (Text.isBoundary_iff.2 ⟨front ++ c :: rest, after, rfl, ?_⟩)
  rw [Text.size_append]

/-- A class consumes a character of its own that lies in the window
whole, unless the window ends inside another one. -/
theorem CharClass.scan_eq (k : CharClass) {c : Char} {rest : Text} {start : Nat}
    (hc : k.has c = true) (hstart : text.after? start = some (c :: rest))
    (hfits : start + c.utf8Size ≤ limit) :
    k.scan text start limit
      = if text.isBoundary limit = true then some (start + c.utf8Size)
        else none := by
  by_cases hlimit : text.isBoundary limit = true
  · have hpos := c.utf8Size_pos
    have hboundary : text.isBoundary start = true := by
      unfold Text.isBoundary
      rw [hstart]
      rfl
    obtain ⟨part, hpart⟩ := Text.exists_slice? hboundary hlimit (by omega)
    obtain ⟨front, after, htext, hfront, hsize⟩ :=
      Text.slice?_eq_some_iff.1 hpart
    rw [htext, ← hfront, List.append_assoc, Text.after?_append] at hstart
    -- the window has a first character, since one fits in it
    cases part with
    | nil =>
        rw [Text.size_nil] at hsize
        omega
    | cons d part =>
        obtain ⟨rfl, -⟩ := List.cons.inj (Option.some.inj hstart)
        rw [if_pos hlimit]
        unfold CharClass.scan
        rw [if_pos (by omega), hpart]
        exact if_pos hc
  · rw [if_neg hlimit]
    exact k.scan_eq_none start hlimit

end Cutoff

-- =================================================================== trees

/-- A tree whose primitives find nothing. -/
def Node.silenced (node : Node) : Node :=
  node.retarget (relocation id fun _ => Primitive.never)

/-- A set whose primitives find nothing. -/
def ExpressionSet.silenced (s : ExpressionSet) : ExpressionSet :=
  s.retarget (relocation id fun _ => Primitive.never)

private theorem ExpressionSet.embeds_silenced (s : ExpressionSet) :
    s.Embeds id (fun _ => Primitive.never) s.silenced := by
  intro index e he
  refine ⟨e.key, ?_⟩
  show s.silenced.get? index = _
  unfold silenced
  rw [get?_retarget, he]
  rfl

section Trees

variable {s : ExpressionSet} {node : Node} (hs : s.Resolved)
  (hprims : s.Primitives Primitive.IsClass) (hnode : node.ResolvedIn s)
  (hnodePrims : node.Primitives Primitive.IsClass) {text : Text}
  {limit last : Nat}

include hs hprims hnode hnodePrims

/-- Under each bound, a tree matches up to an end inside a character as
the silenced tree does up to the last boundary before it. -/
theorem matchWith_silenced (hlast : IsGreatest (text.boundariesUpTo limit) last)
    (hlimit : ¬ text.isBoundary limit = true) (bound : Nat) {start : Nat}
    (hle : start ≤ limit) (hstart : text.isBoundary start = true) :
    node.silenced.matchWith (s.silenced.captureWithin text last bound) text last
      bound start
      = node.matchWith (s.captureWithin text limit bound) text limit bound
        start := by
  have hliteral : ∀ (w : Text) p, p ≤ limit ∧ text.isBoundary p = true →
      literalAt text last w p = literalAt text limit w p :=
    fun w p hp => literalAt_cutoff hlast w hp.2
  have hprimitive : ∀ (key : String) scan,
      ((∃ t, some (Target.primitive scan) = some t ∧ t.ExistsIn s)
        ∧ ∀ k, some (Target.primitive scan) = some (.primitive k) → k.IsClass) →
      ∀ p, p ≤ limit ∧ text.isBoundary p = true →
        Primitive.never text p last = scan text p limit := by
    intro key scan hscan p _
    obtain ⟨k, rfl⟩ := hscan.2 scan rfl
    exact (k.scan_eq_none p hlimit).symm
  have hmoves : ∀ bound (node : Node),
      (node.References fun _ target => (∃ t, target = some t ∧ t.ExistsIn s)
        ∧ ∀ scan, target = some (.primitive scan) → scan.IsClass) →
      ∀ p q, p ≤ limit ∧ text.isBoundary p = true →
        node.matchWith (s.captureWithin text limit bound) text limit bound p
          = .ok (some q) →
        q ≤ limit ∧ text.isBoundary q = true := by
    intro bound node href p q hp hq
    have hderives :=
      matchWith_sound (captureWithin_sound s text limit bound) node p _ hq
    exact (hderives.isBoundary_of_classes hprims (href.mono fun _ _ h =>
      h.2) hp.1 hp.2).2
  refine Node.matchWith_relocate ⟨hliteral, ?_, hprimitive,
    hmoves bound⟩ node start
    (fun key target hmem => ⟨hnode key target hmem, hnodePrims key target hmem⟩)
      ⟨hle, hstart⟩
  intro key index hexists p hp
  obtain ⟨⟨t, ht, hlt⟩, -⟩ := hexists
  obtain rfl := Option.some.inj ht
  refine captureWithin_relocate _ s.embeds_silenced ?_ ?_ hliteral hprimitive
    hmoves bound index p
    hlt hp
  · exact fun e he key target hmem =>
      ⟨hs e he key target hmem, hprims e he key target hmem⟩
  · rintro key callee ⟨⟨t, ht, hcallee⟩, -⟩
    obtain rfl := Option.some.inj ht
    exact hcallee

/-- What an end inside a character does. A tree matches as it does up to
the last boundary before the end, but with its classes silenced. A
character that lies before the end whole is consumed by its literal, and
by its classes only where the end is a boundary. -/
theorem captureNode_cutoff {start stop : Nat}
    (hstart : text.isBoundary start = true) (hle : start ≤ stop) :
    ∃ last, IsGreatest (text.boundariesUpTo (min stop text.size)) last
      ∧ s.captureNode node text start stop
        = (if text.isBoundary (min stop text.size) = true then
            s.captureNode node text start last
          else s.silenced.captureNode node.silenced text start last)
      ∧ ∀ c rest, text.after? start = some (c :: rest) →
        start + c.utf8Size ≤ stop →
          s.captureNode (.literal [c]) text start stop
            = .ok (some (start + c.utf8Size))
          ∧ ∀ key (k : CharClass), k.has c = true →
              s.captureNode (.reference key (some (.primitive k.scan)))
                  text start stop
                = .ok (if text.isBoundary (min stop text.size) = true then
                    some (start + c.utf8Size) else none) := by
  obtain ⟨last, hlast⟩ := text.exists_isGreatest_boundary (min stop text.size)
  have hstartLimit : start ≤ min stop text.size :=
    Nat.le_min.2 ⟨hle, Text.le_size_of_isBoundary hstart⟩
  have hlastLimit : min last text.size = last :=
    Nat.min_eq_left (Text.le_size_of_isBoundary hlast.1.1)
  refine ⟨last, hlast, ?_, fun c rest hafter hfits => ?_⟩
  · by_cases hlimit : text.isBoundary (min stop text.size) = true
    · rw [if_pos hlimit, Text.eq_of_isGreatest_boundary hlast hlimit]
      unfold ExpressionSet.captureNode ExpressionSet.captureNodeWithin
      rw [Nat.min_eq_left (Nat.min_le_right ..)]
    · have hbudget : s.silenced.budget text = s.budget text := by
        unfold ExpressionSet.budget ExpressionSet.silenced
        rw [ExpressionSet.size_retarget]
      rw [if_neg hlimit]
      unfold ExpressionSet.captureNode ExpressionSet.captureNodeWithin
      rw [hbudget, hlastLimit]
      exact (matchWith_silenced hs hprims hnode hnodePrims hlast hlimit _
        hstartLimit hstart).symm
  · have hfitsSize : start + c.utf8Size ≤ text.size := by
      obtain ⟨front, rfl, rfl⟩ := Text.after?_eq_some_iff.1 hafter
      rw [Text.size_append, Text.size_cons]
      omega
    have hfitsLimit : start + c.utf8Size ≤ min stop text.size :=
      Nat.le_min.2 ⟨hfits, hfitsSize⟩
    refine ⟨congrArg Except.ok ?_, fun key k hc => congrArg Except.ok ?_⟩
    · refine literalAt_eq_some ⟨hfitsLimit, ?_⟩
      exact (Text.standsAt_iff (List.cons_ne_nil c [])).2 ⟨rest, hafter⟩
    · exact k.scan_eq hc hafter hfitsLimit

end Trees

/-- Brackets around a letter are no match in a window that ends inside the
character behind them. -/
theorem captureNode_cutoff_bracketed :
    bracketed.Resolved ∧ bracketed.Primitives Primitive.IsClass
      ∧ Text.isBoundary ['[', 'a', ']', 'é'] 0 = true ∧ 0 ≤ 4
      ∧ bracketed.captureNode (.reference "List" (some (.expression 0)))
          ['[', 'a', ']', 'é'] 0 4 = .ok none
      ∧ ∃ last, IsGreatest (Text.boundariesUpTo ['[', 'a', ']', 'é'] 4) last
          ∧ bracketed.captureNode (.reference "List" (some (.expression 0)))
              ['[', 'a', ']', 'é'] 0 4
            = bracketed.silenced.captureNode
                (Node.reference "List" (some (.expression 0))).silenced
                ['[', 'a', ']', 'é'] 0 last := by
  have hnode : (Node.reference "List" (some (.expression 0))).ResolvedIn
      bracketed :=
    Node.references_reference.2 ⟨.expression 0, rfl, Nat.zero_lt_succ 1⟩
  have hprims : (Node.reference "List" (some (.expression 0))).Primitives
      Primitive.IsClass := by
    simp [Node.Primitives]
  have hstart : Text.isBoundary ['[', 'a', ']', 'é'] 0 = true := by decide
  have hle : 0 ≤ 4 := by decide
  obtain ⟨last, hlast, hcapture, -⟩ :=
    captureNode_cutoff bracketed_resolved bracketed_isClass hnode hprims
      hstart hle
  rw [if_neg (by decide)] at hcapture
  exact ⟨bracketed_resolved, bracketed_isClass, hstart, hle, by
    rfl, last, hlast, hcapture⟩

/-- The class of letters does not consume the letter before an accented
one if the window ends inside that one, though it does if the window ends
before it, and though the literal of the letter is consumed either way. -/
theorem captureNode_cutoff_letter :
    IsGreatest (Text.boundariesUpTo ['a', 'é'] (min 2 (Text.size ['a', 'é']))) 1
      ∧ ExpressionSet.empty.captureNode
          (.reference "letter" (some (.primitive CharClass.letter.scan)))
          ['a', 'é'] 0 2
        = .ok none
      ∧ ExpressionSet.empty.captureNode
          (.reference "letter" (some (.primitive CharClass.letter.scan)))
          ['a', 'é'] 0 1
        = .ok (some 1)
      ∧ ExpressionSet.empty.captureNode (.literal ['a']) ['a', 'é'] 0 2
        = .ok (some 1)
      ∧ ExpressionSet.empty.captureNode (.literal ['a']) ['a', 'é'] 0 1
        = .ok (some 1) := by
  refine ⟨⟨⟨by decide, by decide⟩, ?_⟩, by rfl, by rfl, by rfl, by rfl⟩
  intro b hb
  have hle : b ≤ 2 := hb.2
  have hne : b ≠ 2 := by
    rintro rfl
    exact absurd hb.1 (by decide)
  omega

end Munch
