/-
Where a match can end. A match moves a position by nothing but literals
and primitives, so whatever relates every place where one of them starts
to the place where it ends, reflexively and transitively, relates start
and end of every match (`Derives.relates`): one induction over the
semantics for all facts of this kind.

Three are drawn from it here:

- if primitives stay between their two offsets, matches end between their
  start and the limit (`Derives.mem_range`);
- if they also answer with character boundaries, matches that start at a
  boundary end at one (`Derives.isBoundary`);
- if they find nothing past the limit, a match that starts there ends
  there, too (`motion_beyond`).
-/
import Munch.Proofs.Expr.Semantics

namespace Munch

-- =========================================================== primitives

/-- Between two offsets in order, a primitive answers with one between
them, if it answers. -/
def Primitive.InRange (scan : Primitive) : Prop :=
  ∀ text start stop next, start ≤ stop → scan text start stop = some next →
    start ≤ next ∧ next ≤ stop

/-- Between two character boundaries of a text in order, a primitive
answers with one between them, if it answers. -/
def Primitive.Aligned (scan : Primitive) : Prop :=
  ∀ (text : Text) start stop next, text.isBoundary start = true →
    text.isBoundary stop = true → start ≤ stop →
    scan text start stop = some next →
    start ≤ next ∧ next ≤ stop ∧ text.isBoundary next = true

/-- From an offset past the other, a primitive finds nothing. -/
def Primitive.Silent (scan : Primitive) : Prop :=
  ∀ text start stop, stop < start → scan text start stop = none

/-- A character class answers with the end of one character. -/
theorem CharClass.scan_eq_some {k : CharClass} {text : Text}
    {start stop next : Nat} (h : k.scan text start stop = some next) :
    ∃ c rest, text.slice? start stop = some (c :: rest) ∧ k.has c = true
      ∧ next = start + c.utf8Size := by
  unfold CharClass.scan at h
  split at h
  case isFalse => cases h
  case isTrue =>
    split at h
    next c rest hslice =>
      split at h
      case isFalse => cases h
      case isTrue hc =>
        cases h
        exact ⟨c, rest, hslice, hc, rfl⟩
    next => cases h

/-- A character class stays in range. -/
theorem CharClass.scan_inRange (k : CharClass) : Primitive.InRange k.scan := by
  intro text start stop next _ h
  obtain ⟨c, rest, hslice, -, rfl⟩ := CharClass.scan_eq_some h
  obtain ⟨front, after, -, -, hsize⟩ := Text.slice?_eq_some_iff.1 hslice
  rw [Text.size_cons] at hsize
  omega

/-- A character class answers boundaries with boundaries. -/
theorem CharClass.scan_aligned (k : CharClass) : Primitive.Aligned k.scan := by
  intro text start stop next _ _ hle h
  obtain ⟨hlow, hhigh⟩ := k.scan_inRange text start stop next hle h
  obtain ⟨c, rest, hslice, -, rfl⟩ := CharClass.scan_eq_some h
  obtain ⟨front, after, rfl, rfl, -⟩ := Text.slice?_eq_some_iff.1 hslice
  refine ⟨hlow, hhigh, Text.isBoundary_iff.2 ⟨front ++ [c], rest ++ after,
    ?_, ?_⟩⟩
  · simp
  · simp

/-- A character class does not match past the limit. -/
private theorem CharClass.scan_silent (k : CharClass) :
    Primitive.Silent k.scan := by
  intro text start stop hlt
  exact if_neg (Nat.not_lt.2 (Nat.le_of_lt hlt))

/-- A primitive that is one of the character classes. -/
def Primitive.IsClass (scan : Primitive) : Prop :=
  ∃ k : CharClass, scan = k.scan

/-- Such a primitive stays in range. -/
theorem Primitive.IsClass.inRange {scan : Primitive} (h : scan.IsClass) :
    scan.InRange := by
  obtain ⟨k, rfl⟩ := h
  exact k.scan_inRange

/-- Such a primitive answers boundaries with boundaries. -/
theorem Primitive.IsClass.aligned {scan : Primitive} (h : scan.IsClass) :
    scan.Aligned := by
  obtain ⟨k, rfl⟩ := h
  exact k.scan_aligned

/-- Such a primitive does not match past the limit. -/
theorem Primitive.IsClass.silent {scan : Primitive} (h : scan.IsClass) :
    scan.Silent := by
  obtain ⟨k, rfl⟩ := h
  exact k.scan_silent

-- ========================================================= one induction

/-- `R` relates the start to the end of whatever moves a position: it
bears with standing still, with moving on, with literals that fit and
with primitives that satisfy `P`. -/
structure Motion (text : Text) (limit : Nat) (P : Primitive → Prop)
    (R : Nat → Nat → Prop) : Prop where
  refl : ∀ p, R p p
  trans : ∀ p q r, R p q → R q r → R p r
  literal : ∀ w p, LiteralFits text limit w p → R p (p + w.size)
  primitive : ∀ scan p q, P scan → scan text p limit = some q → R p q

section Relates

variable {s : ExpressionSet} {text : Text} {limit : Nat}
  {P : Primitive → Prop} {R : Nat → Nat → Prop}

mutual

/-- What literals and primitives can do to a position, every match can:
a motion holds between its start and its end. -/
theorem Derives.relates (hR : Motion text limit P R) (hs : s.Primitives P)
    {node : Node} {start : Nat} {answer : Option Nat} :
    Derives s text limit node start answer → node.Primitives P →
    ∀ stop, answer = some stop → R start stop
  | .literal hfits, _, stop, hstop => by
      cases hstop
      exact hR.literal _ _ hfits
  | .noLiteral _, _, stop, hstop => by cases hstop
  | .expression he hd, _, stop, hstop =>
      Derives.relates hR hs hd (hs _ (ExpressionSet.mem_of_get? he)) stop hstop
  | .primitive hscan, hnode, stop, hstop => by
      subst hstop
      exact hR.primitive _ _ _ (Node.references_reference.1 hnode _ rfl) hscan
  | .choice _ hc, hnode, stop, hstop =>
      Derives.relates hR hs hc
        (Node.references_alternation.1 hnode _ List.mem_append_cons_self)
        stop hstop
  | .noChoice _, _, stop, hstop => by cases hstop
  | .sequence hthreads, hnode, stop, hstop => by
      cases hstop
      exact Threads.relates hR hs hthreads (Node.references_sequence.1 hnode)
  | .noSequence _ _, _, stop, hstop => by cases hstop

/-- Items lead only where the motion allows. -/
theorem Threads.relates (hR : Motion text limit P R) (hs : s.Primitives P)
    {elements : List Element} {start stop : Nat} :
    Threads s text limit elements start stop →
    (∀ e ∈ elements, e.node.Primitives P) → R start stop
  | .nil, _ => hR.refl _
  | .once hd hrest, hnodes => by
      obtain ⟨hnode, hnodes⟩ := List.forall_mem_cons.1 hnodes
      exact hR.trans _ _ _ (Derives.relates hR hs hd hnode _ rfl)
        (Threads.relates hR hs hrest hnodes)
  | .starred hrepeats hrest, hnodes => by
      obtain ⟨hnode, hnodes⟩ := List.forall_mem_cons.1 hnodes
      exact hR.trans _ _ _ (Repeats.relates hR hs hrepeats hnode)
        (Threads.relates hR hs hrest hnodes)

/-- A chain of matches leads only where the motion allows. -/
theorem Repeats.relates (hR : Motion text limit P R) (hs : s.Primitives P)
    {node : Node} {start stop : Nat} :
    Repeats s text limit node start stop → node.Primitives P → R start stop
  | .fails _, _ => hR.refl _
  | .stays _, _ => hR.refl _
  | .moves hd _ hrepeats, hnode =>
      hR.trans _ _ _ (Derives.relates hR hs hd hnode _ rfl)
        (Repeats.relates hR hs hrepeats hnode)

end

end Relates

-- ===================================================== staying in range

/-- Not to go backwards, nor past the limit. -/
theorem motion_range (text : Text) (limit : Nat) :
    Motion text limit Primitive.InRange
      (fun p q => p ≤ limit → p ≤ q ∧ q ≤ limit) where
  refl := fun p hp => ⟨Nat.le_refl p, hp⟩
  trans := fun p q r hpq hqr hp => by
    have hq := hpq hp
    have hr := hqr hq.2
    omega
  literal := fun w p hfits _ => ⟨Nat.le_add_right .., hfits.1⟩
  primitive := fun scan p q hscan h hp => hscan text p limit q hp h

section InRange

variable {s : ExpressionSet} {text : Text} {limit : Nat}

/-- Where primitives stay in range, so does a match. -/
theorem Derives.mem_range (hs : s.Primitives Primitive.InRange) {node : Node}
    (hnode : node.Primitives Primitive.InRange) {start stop : Nat}
    (h : Derives s text limit node start (some stop)) (hle : start ≤ limit) :
    start ≤ stop ∧ stop ≤ limit :=
  h.relates (motion_range text limit) hs hnode stop rfl hle

/-- Where primitives stay in range, so do items. -/
theorem Threads.mem_range (hs : s.Primitives Primitive.InRange)
    {elements : List Element}
    (hnodes : ∀ e ∈ elements, e.node.Primitives Primitive.InRange)
    {start stop : Nat} (h : Threads s text limit elements start stop)
    (hle : start ≤ limit) : start ≤ stop ∧ stop ≤ limit :=
  h.relates (motion_range text limit) hs hnodes hle

/-- Where primitives stay in range, so does a chain of matches. -/
theorem Repeats.mem_range (hs : s.Primitives Primitive.InRange) {node : Node}
    (hnode : node.Primitives Primitive.InRange) {start stop : Nat}
    (h : Repeats s text limit node start stop) (hle : start ≤ limit) :
    start ≤ stop ∧ stop ≤ limit :=
  h.relates (motion_range text limit) hs hnode hle

end InRange

/-- Past the limit, not to move. -/
theorem motion_beyond (text : Text) {limit start : Nat}
    (hpast : limit < start) :
    Motion text limit Primitive.Silent
      (fun p q => p = start → p ≤ q ∧ q = start) where
  refl := fun p hp => ⟨Nat.le_refl p, hp⟩
  trans := fun p q r hpq hqr hp => by
    have hq := hpq hp
    have hr := hqr hq.2
    omega
  literal := fun w p hfits hp => by
    have hle := hfits.1
    omega
  primitive := fun scan p q hscan h hp => by
    subst hp
    rw [hscan text p limit hpast] at h
    cases h

-- ================================================= staying on boundaries

/-- A literal that fits at a boundary ends at one. -/
theorem LiteralFits.isBoundary {text w : Text} {limit start : Nat}
    (h : LiteralFits text limit w start)
    (hstart : text.isBoundary start = true) :
    text.isBoundary (start + w.size) = true := by
  by_cases hw : w = []
  · subst hw
    exact hstart
  · obtain ⟨rest, hrest⟩ := (Text.standsAt_iff hw).1 h.2
    unfold Text.isBoundary
    rw [Text.after?_after? hrest, Text.after?_append]
    rfl

/-- To stay in range and on boundaries, where primitives that are asked
at a boundary do. -/
theorem motion_aligned {text : Text} {limit : Nat} {P : Primitive → Prop}
    (hP : ∀ scan, P scan → ∀ p q, p ≤ limit → text.isBoundary p = true →
      scan text p limit = some q →
      p ≤ q ∧ q ≤ limit ∧ text.isBoundary q = true) :
    Motion text limit P
      (fun p q => p ≤ limit → text.isBoundary p = true →
        p ≤ q ∧ q ≤ limit ∧ text.isBoundary q = true) where
  refl := fun p hp hb => ⟨Nat.le_refl p, hp, hb⟩
  trans := fun p q r hpq hqr hp hb => by
    obtain ⟨hle, hq, hbq⟩ := hpq hp hb
    obtain ⟨hle', hr, hbr⟩ := hqr hq hbq
    exact ⟨Nat.le_trans hle hle', hr, hbr⟩
  literal := fun w p hfits _ hb =>
    ⟨Nat.le_add_right .., hfits.1, hfits.isBoundary hb⟩
  primitive := fun scan p q hscan h hp hb => hP scan hscan p q hp hb h

/-- Between boundaries, aligned primitives do. -/
theorem motion_boundary {text : Text} {limit : Nat}
    (hlimit : text.isBoundary limit = true) :
    Motion text limit Primitive.Aligned
      (fun p q => p ≤ limit → text.isBoundary p = true →
        p ≤ q ∧ q ≤ limit ∧ text.isBoundary q = true) :=
  motion_aligned fun _ hscan p q hp hb h => hscan text p limit q hb hlimit hp h

/-- Where primitives answer boundaries with boundaries, so does a match that
begins within the limit. -/
theorem Derives.isBoundary {s : ExpressionSet} {text : Text} {limit : Nat}
    (hs : s.Primitives Primitive.Aligned) {node : Node}
    (hnode : node.Primitives Primitive.Aligned) {start stop : Nat}
    (h : Derives s text limit node start (some stop))
    (hlimit : text.isBoundary limit = true) (hle : start ≤ limit)
    (hstart : text.isBoundary start = true) :
    start ≤ stop ∧ stop ≤ limit ∧ text.isBoundary stop = true :=
  h.relates (motion_boundary hlimit) hs hnode stop rfl hle hstart

end Munch
