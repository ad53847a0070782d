/-
The reader told by offsets.

`Rule.parse` keeps the characters of the word, the literal or the group
that it is in. Here only the offset is kept at which they begin, and they
are cut out of the rule where they end. Such a cut can fail, off a
boundary or with its ends the wrong way round; so can a subtraction, below
zero, and the count of the groups that are open, beyond 32 bits. All this
is `none` in `Checked`, and so is a call that was one too many.

In a rule that 32-bit offsets can tell none of it happens, and the result
is that of `Rule.parse` (`parse_eq`). The second pass is where the two
differ: `mark` is its state told by offsets, `step_eq` compares a step,
and `run_eq` a run, both from what the pass tracks (`Tracks`).
-/
import Munch.Proofs.Rule.PassFaults

namespace Munch.Rule.ByOffset

/-- A result, if nothing fails on the way to it. -/
abbrev Checked := ExceptT SpannedFault Option

-- ======================================================== what can fail

/-- A part of a text, cut out at boundaries in order. -/
def slice (t : Text) (start stop : Nat) : Checked Text :=
  ExceptT.lift (t.slice? start stop)

/-- A difference that is not below zero. -/
def minus (m n : Nat) : Checked Nat :=
  ExceptT.lift (if n ≤ m then some (m - n) else none)

/-- The place after a character, with the groups counted in 32 bits. -/
def next (p : Place) (c : Char) : Checked Place :=
  ExceptT.lift <|
    if p.quote = .outside ∧ c = '(' ∧ p.depth = 4294967295 then none
    else if p.quote = .outside ∧ c = ')' ∧ p.depth = 0 then none
    else some (p.next c)

/-- How much white space a text starts with. -/
def indent (t : Text) : Checked Nat := minus t.size t.trimStart.size

-- ======================================================= the first pass

/-- The pieces of a rule, each with the offset at which it begins. The
current one began at `start`; `before` are those before it, the last
one first. -/
def pieces (rule : Text) (offset : Nat) :
    Place → Nat → Nat → List (Nat × Text) → Text → Checked (List (Nat × Text))
  | _, start, _, before, [] => do
      let piece ← slice rule start rule.size
      return ((start, piece) :: before).reverse
  | place, start, i, before, c :: rest =>
      if place.IsTop ∧ c = ')' then
        throw (faultAt .unbalancedGroup offset i (i + 1))
      else do
        let after ← next place c
        if place.IsTop ∧ c = '|' then
          let piece ← slice rule start i
          pieces rule offset after (i + 1) (i + c.utf8Size)
            ((start, piece) :: before) rest
        else
          pieces rule offset after start (i + c.utf8Size) before rest

-- ====================================================== the second pass

/-- How far the second pass has come, by offsets. -/
structure Cursor where
  place : Place
  /-- The last one first. -/
  elements : List Element
  /-- Where the word being read begins, if there is one. -/
  word : Option Nat
  /-- Where the contents of the last top-level literal or group begin. -/
  opened : Nat

namespace Cursor

/-- Before the first character. -/
def start : Cursor := ⟨.origin, [], none, 0⟩

/-- One more item. -/
def push (p : Cursor) (node : Node) : Cursor :=
  { p with elements := ⟨node, false⟩ :: p.elements }

/-- The end of a word at offset `i`, if one was being read. -/
def endWord (owner : Owner) (rule : Text) (i : Nat) (p : Cursor) :
    Checked Cursor :=
  match p.word with
  | none => return p
  | some start => do
      let key ← slice rule start i
      return { p.push (owner.reference key) with word := none }

/-- A star marks the last item. -/
def star (p : Cursor) (offset i : Nat) : Checked Cursor :=
  match p.elements with
  | [] => throw (faultAt .danglingStar offset i (i + 1))
  | last :: before =>
      return { p with elements := { last with starred := true } :: before }

/-- A character outside literals and groups. -/
def stepTop (owner : Owner) (rule : Text) (offset i : Nat) (p : Cursor)
    (c : Char) : Checked Cursor :=
  if Pass.endsWord c then do
    let p ← p.endWord owner rule i
    if c = '*' then p.star offset i
    else if c = ')' then throw (faultAt .unbalancedGroup offset i (i + 1))
    else if c = '"' ∨ c = '(' then return { p with opened := i + 1 }
    else return p
  else return { p with word := some (p.word.getD i) }

/-- The end of a top-level group at offset `i`. -/
def closeGroup (inner : Nat → Text → Checked Node) (rule : Text)
    (offset i : Nat) (p : Cursor) : Checked Cursor := do
  let contents ← slice rule p.opened i
  let lead ← indent contents
  if contents.trim = [] then
    let start ← minus p.opened 1
    throw (faultAt .emptyRule offset start (i + 1))
  else
    let node ← inner (offset + p.opened + lead) contents.trim
    return p.push node

/-- The end of a top-level literal at offset `i`. -/
def closeLiteral (rule : Text) (i : Nat) (p : Cursor) : Checked Cursor := do
  let text ← slice rule p.opened i
  return p.push (.literal text)

/-- One character at offset `i`, but for the move to the next place. -/
def step (owner : Owner) (inner : Nat → Text → Checked Node) (rule : Text)
    (offset i : Nat) (p : Cursor) (c : Char) : Checked Cursor :=
  match p.place.quote, p.place.depth with
  | .outside, 0 => p.stepTop owner rule offset i c
  | .outside, 1 =>
      if c = ')' then p.closeGroup inner rule offset i else return p
  | .inside, 0 => if c = '"' then p.closeLiteral rule i else return p
  | _, _ => return p

/-- The second pass over a text that it has reached at offset `i`. -/
def run (owner : Owner) (inner : Nat → Text → Checked Node) (rule : Text)
    (offset : Nat) : Nat → Cursor → Text → Checked Cursor
  | _, p, [] => return p
  | i, p, c :: rest => do
      let q ← p.step owner inner rule offset i c
      let place ← next p.place c
      run owner inner rule offset (i + c.utf8Size)
        { q with place := place } rest

/-- The tree of the items read, at the end of the rule. Where a literal
is open, the offset before it is cut off at zero. -/
def finish (owner : Owner) (rule : Text) (offset : Nat) (p : Cursor) :
    Checked Node :=
  if p.place.quote ≠ .outside then
    throw (faultAt .unterminatedLiteral offset (p.opened - 1) rule.size)
  else if p.place.depth ≠ 0 then do
    let start ← minus p.opened 1
    throw (faultAt .unbalancedGroup offset start rule.size)
  else do
    let p ← p.endWord owner rule rule.size
    match p.elements.reverse with
    | [] => throw (faultAt .emptyRule offset 0 rule.size)
    | [⟨node, false⟩] => return node
    | elements => return .sequence elements

end Cursor

/-- The items of a rule without top-level bars. -/
def items (owner : Owner) (inner : Nat → Text → Checked Node) (offset : Nat)
    (rule : Text) : Checked Node := do
  let p ← Cursor.run owner inner rule offset 0 .start rule
  p.finish owner rule offset

-- ============================================================== rules

/-- The alternatives of a rule, each read less the white space around
it. -/
def alternatives (inner : Nat → Text → Checked Node) (offset : Nat) :
    List (Nat × Text) → Checked (List Node)
  | [] => return []
  | (start, piece) :: rest => do
      let lead ← indent piece
      if piece.trim = [] then
        throw (faultAt .emptyRule offset (start + lead) (start + lead))
      else
        let node ← inner (offset + (start + lead)) piece.trim
        let nodes ← alternatives inner offset rest
        return node :: nodes

/-- Reads a rule that begins at `offset` of the outermost one, in no more
than so many calls inside each other. -/
def parseAt (owner : Owner) : Nat → Nat → Text → Checked Node
  | 0, _, _ => ExceptT.lift none
  | calls + 1, offset, rule => do
      let found ← pieces rule offset .origin 0 0 [] rule
      if found.length = 1 then items owner (parseAt owner calls) offset rule
      else
        let nodes ← alternatives (parseAt owner calls) offset found
        return .alternation nodes

/-- Reads the rule of an expression. -/
def parse (owner : Owner) (rule : Text) : Checked Node :=
  parseAt owner (rule.length + 1) 0 rule

-- ============================================================ no failure

/-- The result of something that does not fail. -/
def told {α : Type} (r : Parsed α) : Checked α := ExceptT.mk (some r)

section Told

variable {α β : Type}

/-- What is told is passed on. -/
private theorem told_ok_bind (a : α) (k : α → Checked β) :
    told (.ok a) >>= k = k a := rfl

/-- A slice at the sizes of the parts before it and with it is the part. -/
private theorem slice_append (front part back : Text) :
    slice (front ++ (part ++ back)) front.size (front ++ part).size
      = told (.ok part) := by
  have hslice : Text.slice? (front ++ (part ++ back)) front.size
    (front ++ part).size
      = some part :=
    Text.slice?_eq_some_iff.2
      ⟨front, back, (List.append_assoc ..).symm, rfl,
        (Text.size_append ..).symm⟩
  rw [slice, hslice]
  rfl

/-- A difference that is not negative is told. -/
private theorem minus_of_le {m n : Nat} (h : n ≤ m) :
    minus m n = told (.ok (m - n)) := by
  rw [minus, if_pos h]
  rfl

/-- The indent is told. -/
private theorem indent_eq (t : Text) : indent t = told (.ok t.indent) := by
  have hsize := Text.size_trimStart t
  rw [indent, minus_of_le (by omega), show t.size - t.trimStart.size
    = t.indent by omega]

/-- The next place is told, unless the depth is at its limit or nothing is
open. -/
private theorem next_eq {p : Place} {c : Char} (hdepth : p.depth < 4294967295)
    (hclose : ¬ (p = .origin ∧ c = ')')) :
    next p c = told (.ok (p.next c)) := by
  have hopen : ¬ (p.quote = .outside ∧ c = '(' ∧ p.depth = 4294967295) := by
    omega
  have hzero : ¬ (p.quote = .outside ∧ c = ')' ∧ p.depth = 0) :=
    fun h => hclose ⟨Place.isTop_iff.1 ⟨h.1, h.2.2⟩, h.2.1⟩
  rw [next, if_neg hopen, if_neg hzero]
  rfl

end Told

/-- No more groups are open than characters have been read. -/
theorem depth_after_le (p : Place) (t : Text) :
    (p.after t).depth ≤ p.depth + t.length := by
  induction t generalizing p with
  | nil => exact Nat.le_refl _
  | cons c t ih =>
      have hnext : (p.next c).depth ≤ p.depth + 1 := by
        simp only [Place.next]
        split
        · split
          · omega
          · split <;> omega
        · omega
      have hrest := ih (p.next c)
      rw [Place.after_cons, List.length_cons]
      omega

-- ============================================= the first pass, compared

/-- The first pass, where it has read `front` and then `held` of the
current piece. -/
theorem pieces_eq {offset start i : Nat} {p : Place} {rule front held t : Text}
    {before : List (Nat × Text)} (hrule : rule = front ++ (held ++ t))
    (hstart : start = front.size) (hi : i = (front ++ held).size)
    (hdepth : p.depth + t.length < 4294967296) :
    pieces rule offset p start i before t
      = told ((cut offset p i t).map fun found =>
          before.reverse ++ (start, held ++ found.1) :: found.2) := by
  induction t generalizing p start i front held before with
  | nil =>
      rw [List.append_nil] at hrule
      have hlast : slice rule start rule.size = told (.ok held) := by
        have h := slice_append front held []
        rwa [List.append_nil, ← hrule, ← hstart] at h
      rw [pieces, hlast, told_ok_bind, List.reverse_cons]
      show _ = told (.ok (before.reverse ++ (start, held ++ []) :: []))
      rw [List.append_nil]
      rfl
  | cons c t ih =>
      rw [pieces, cut]
      by_cases hclose : p.IsTop ∧ c = ')'
      · rw [if_pos hclose, if_pos hclose]
        rfl
      rw [List.length_cons] at hdepth
      have hnext : next p c = told (.ok (p.next c)) :=
        next_eq (by omega) fun h => hclose (Place.isTop_and_iff.2 h)
      have hstep : (p.next c).depth + t.length < 4294967296 := by
        have h : (p.next c).depth ≤ p.depth + 1 := depth_after_le p [c]
        omega
      have hsize : i + c.utf8Size = (front ++ held ++ [c]).size := by
        rw [Text.size_concat, hi]
      rw [if_neg hclose, if_neg hclose, hnext, told_ok_bind]
      by_cases hbar : p.IsTop ∧ c = '|'
      · -- the next piece begins behind the bar
        have hpiece : slice rule start i = told (.ok held) := by
          rw [hrule, hstart, hi]
          exact slice_append front held _
        have hrest : rule = (front ++ held ++ [c]) ++ ([] ++ t) := by
          rw [hrule, List.append_assoc, List.append_assoc]
          rfl
        have hbehind : i + 1 = (front ++ held ++ [c]).size := by
          rw [← hsize, hbar.2]
          rfl
        rw [if_pos hbar, hpiece, told_ok_bind,
          ih hrest hbehind (by rw [hsize, List.append_nil]) hstep]
        cases cut offset (p.next c) (i + c.utf8Size) t with
        | error f => rfl
        | ok found =>
            show _ = told (Except.map _ (if p.IsTop ∧ c = '|' then _ else _))
            rw [if_pos hbar]
            show told (.ok (((start, held) :: before).reverse ++ _))
              = told (.ok (before.reverse ++ (start, held ++ []) :: _))
            rw [List.reverse_cons, List.append_assoc, List.append_nil held]
            rfl
      · have hrest : rule = front ++ ((held ++ [c]) ++ t) := by
          rw [hrule, List.append_assoc]
          rfl
        rw [if_neg hbar,
          ih hrest hstart (by rw [hsize, List.append_assoc]) hstep]
        cases cut offset (p.next c) (i + c.utf8Size) t with
        | error f => rfl
        | ok found =>
            show _ = told (Except.map _ (if p.IsTop ∧ c = '|' then _ else _))
            rw [if_neg hbar]
            show told (.ok (before.reverse ++ (start,
              held ++ [c] ++ found.1) :: _)) = _
            rw [List.append_assoc]
            rfl

-- ============================================ the second pass, compared

/-- The state of the second pass, told by offsets. -/
def mark (read : Text) (p : Pass) : Cursor where
  place := p.place
  elements := p.elements
  word := if p.word = [] then none
    else some (read.size - Text.size p.word.reverse)
  opened := p.opened

section Steps

variable {owner : Owner} {inner : Nat → Text → Parsed Node}
  {inner' : Nat → Text → Checked Node} {offset : Nat} {rule read rest t : Text}
  {p : Pass} {c : Char}

private theorem mark_of_nil (read : Text) (hword : p.word = []) :
    mark read p = ⟨p.place, p.elements, none, p.opened⟩ := by
  rw [mark, if_pos hword]

/-- The result where no word is being read. -/
theorem told_mark (p : Pass) (read : Text) (hword : p.word = []) :
    told (.ok ⟨p.place, p.elements, none, p.opened⟩)
      = told (.ok (mark read p)) := by
  rw [mark_of_nil read hword]

/-- The end of a word. -/
theorem endWord_eq (hrule : rule = read ++ rest)
    (hread : read = t ++ p.word.reverse) :
    (mark read p).endWord owner rule read.size
      = told (.ok (mark read (p.endWord owner))) := by
  by_cases hword : p.word = []
  · rw [Pass.endWord_of_nil hword, mark_of_nil read hword]
    rfl
  · have hstart : read.size - Text.size p.word.reverse = t.size := by
      rw [hread, Text.size_append, Nat.add_sub_cancel]
    have hslice : slice rule t.size read.size = told (.ok p.word.reverse) := by
      rw [hrule, hread, List.append_assoc]
      exact slice_append t p.word.reverse rest
    rw [Pass.endWord_of_ne_nil hword, mark, if_neg hword, hstart]
    show (slice rule t.size read.size >>= fun key => _) = _
    rw [hslice, told_ok_bind]
    rfl

/-- A character at the top. -/
theorem stepTop_eq (hrule : rule = read ++ rest)
    (hread : read = t ++ p.word.reverse) :
    (mark read p).stepTop owner rule offset read.size c
      = told ((p.stepTop owner offset read.size c).map
        (mark (read ++ [c]))) := by
  unfold Cursor.stepTop Pass.stepTop
  by_cases hend : Pass.endsWord c
  · rw [if_pos hend, if_pos hend, endWord_eq hrule hread, told_ok_bind]
    have hword := Pass.endWord_word owner p
    generalize p.endWord owner = q at hword
    rw [mark_of_nil read hword]
    by_cases hstar : c = '*'
    · rw [if_pos hstar, if_pos hstar]
      unfold Cursor.star Pass.star
      cases helements : q.elements with
      | nil => rfl
      | cons last before =>
          exact told_mark
            { q with elements := { last with starred := true } :: before } _
            hword
    rw [if_neg hstar, if_neg hstar]
    by_cases hclose : c = ')'
    · rw [if_pos hclose, if_pos hclose]
      rfl
    rw [if_neg hclose, if_neg hclose]
    by_cases hopen : c = '"' ∨ c = '('
    · rw [if_pos hopen, if_pos hopen]
      exact told_mark (q.openAt (read.size + 1)) _ hword
    · rw [if_neg hopen, if_neg hopen]
      exact told_mark q _ hword
  · rw [if_neg hend, if_neg hend]
    show told (.ok _) = told (.ok (mark _ _))
    have hbegin : (mark read p).word.getD read.size = t.size := by
      by_cases hword : p.word = []
      · rw [mark_of_nil read hword, hread, hword, List.reverse_nil,
          List.append_nil]
        rfl
      · rw [mark, if_neg hword, hread, Text.size_append, Nat.add_sub_cancel]
        rfl
    have hsize : (read ++ [c]).size - Text.size (c :: p.word).reverse
        = t.size := by
      rw [hread, List.reverse_cons, List.append_assoc, Text.size_append,
        Nat.add_sub_cancel]
    -- the word begins where it did, or here if it is new
    rw [hbegin, ← hsize]
    rfl

/-- What stands behind the character that opened a literal or group is
cut out of the rule. -/
theorem slice_held {opening : Char} (hrule : rule = read ++ c :: rest)
    (hread : read = t ++ opening :: p.held.reverse)
    (hopened : p.opened = t.size + opening.utf8Size) :
    slice rule p.opened read.size = told (.ok p.held.reverse) := by
  have hread' : read = (t ++ [opening]) ++ p.held.reverse := by
    rw [hread, List.append_assoc]
    rfl
  have hfront : p.opened = (t ++ [opening]).size :=
    hopened.trans (Text.size_concat t opening).symm
  rw [hrule, hfront, hread', List.append_assoc]
  exact slice_append _ p.held.reverse (c :: rest)

/-- The end of a group. -/
theorem closeGroup_eq (hrule : rule = read ++ c :: rest)
    (hread : read = t ++ '(' :: p.held.reverse)
    (hopened : p.opened = t.size + 1)
    (hword : p.word = [])
    (hinner : ∀ o s, s.length < rule.length → inner' o s = told (inner o s)) :
    (mark read p).closeGroup inner' rule offset read.size
      = told ((p.closeGroup inner offset read.size).map
        (mark (read ++ [c]))) := by
  have hlength : (Text.trim p.held.reverse).length < rule.length := by
    have h := Text.length_trim_le p.held.reverse
    rw [hrule, hread, List.length_append, List.length_append, List.length_cons]
    omega
  unfold Cursor.closeGroup Pass.closeGroup
  rw [show (mark read p).opened = p.opened from rfl,
    slice_held hrule hread hopened,
    told_ok_bind, indent_eq, told_ok_bind]
  simp only
  by_cases hnil : Text.trim p.held.reverse = []
  · rw [if_pos hnil, if_pos hnil, minus_of_le (by omega), told_ok_bind]
    rfl
  · rw [if_neg hnil, if_neg hnil, hinner _ _ hlength]
    cases inner (offset + p.opened + Text.indent p.held.reverse)
      (Text.trim p.held.reverse) with
    | error f => rfl
    | ok node =>
        rw [told_ok_bind, mark_of_nil read hword]
        exact told_mark (p.push node) _ hword

/-- The end of a literal. -/
theorem closeLiteral_eq (hrule : rule = read ++ c :: rest)
    (hread : read = t ++ '"' :: p.held.reverse)
    (hopened : p.opened = t.size + 1)
    (hword : p.word = []) :
    (mark read p).closeLiteral rule read.size
      = told (.ok (mark (read ++ [c]) (p.push (.literal p.held.reverse)))) := by
  unfold Cursor.closeLiteral
  rw [show (mark read p).opened = p.opened from rfl,
    slice_held hrule hread hopened,
    told_ok_bind, mark_of_nil read hword]
  exact told_mark (p.push (.literal p.held.reverse)) _ hword

/-- A character that is only kept. -/
theorem step_holds_eq (hword : p.word = []) (h : Pass.Holds p.place c) :
    (mark read p).step owner inner' rule offset read.size c
      = told (.ok (mark (read ++ [c]) (p.hold c))) := by
  obtain ⟨htop, hgroup, hliteral⟩ := h
  have hmark : (pure (mark read p) : Checked Cursor)
      = told (.ok (mark (read ++ [c]) (p.hold c))) := by
    rw [mark_of_nil read hword]
    exact told_mark (p.hold c) _ hword
  unfold Cursor.step
  split
  · rename_i hquote hdepth
    exact absurd (Place.isTop_iff.1 ⟨hquote, hdepth⟩) htop
  · rename_i hquote hdepth
    have hc : c ≠ ')' := fun hc => hgroup ⟨by rw [← hquote, ← hdepth]; rfl, hc⟩
    rw [if_neg hc, hmark]
  · rename_i hquote hdepth
    have hc : c ≠ '"' := fun hc =>
      hliteral ⟨by rw [← hquote, ← hdepth]; rfl, hc⟩
    rw [if_neg hc, hmark]
  · exact hmark

/-- A step. -/
theorem step_eq (hp : Tracks read p) (hc : Quiet 0 p.place c)
    (hrule : rule = read ++ c :: rest)
    (hinner : ∀ o s, s.length < rule.length → inner' o s = told (inner o s)) :
    (mark read p).step owner inner' rule offset read.size c
      = told ((p.step owner inner offset read.size c).map
        (mark (read ++ [c]))) := by
  cases hp with
  | between place walk shape =>
      have hstep : (mark read p).step owner inner' rule offset read.size c
          = (mark read p).stepTop owner rule offset read.size c := by
        unfold Cursor.step
        rw [show (mark read p).place = .origin from place]
        rfl
      rw [hstep, Pass.step_origin place]
      exact stepTop_eq hrule shape
  | literal top shape opened word quote level place contents =>
      by_cases hend : p.place.quote = .inside ∧ c = '"'
      · obtain ⟨hquote, rfl⟩ := hend
        have hinside : p.place = ⟨.inside, 0⟩ := by rw [← hquote, ← level]
        have hstep : (mark read p).step owner inner' rule offset read.size '"'
            = (mark read p).closeLiteral rule read.size := by
          unfold Cursor.step
          rw [show (mark read p).place = ⟨.inside, 0⟩ from hinside]
          rfl
        rw [hstep, Pass.step_quote hinside]
        exact closeLiteral_eq hrule shape opened word
      · have holds := Pass.holds_of_covered _ _ ⟨quote, level, hend⟩
        rw [Pass.step_holds holds]
        exact step_holds_eq word holds
  | group top shape opened word deep place contents =>
      by_cases hend : p.place = ⟨.outside, 1⟩ ∧ c = ')'
      · obtain ⟨houtside, rfl⟩ := hend
        have hstep : (mark read p).step owner inner' rule offset read.size ')'
            = (mark read p).closeGroup inner' rule offset read.size := by
          unfold Cursor.step
          rw [show (mark read p).place = ⟨.outside, 1⟩ from houtside]
          rfl
        rw [hstep, Pass.step_close houtside]
        exact closeGroup_eq hrule shape opened word hinner
      · have holds := Pass.holds_of_stays _ _ ⟨deep, hend⟩
        rw [Pass.step_holds holds]
        exact step_holds_eq word holds

/-- A run. -/
theorem run_eq (hp : Tracks read p) (ht : Visits (Quiet 0) p.place t)
    (hrule : rule = read ++ t) (hsize : rule.length < 4294967296)
    (hinner : ∀ o s, s.length < rule.length → inner' o s = told (inner o s)) :
    Cursor.run owner inner' rule offset read.size (mark read p) t
      = told ((Pass.run owner inner offset read.size p t).map (mark rule)) := by
  induction t generalizing p read with
  | nil =>
      rw [hrule, List.append_nil]
      rfl
  | cons c t ih =>
      have hnext : next p.place c = told (.ok (p.place.next c)) := by
        have hdepth : p.place.depth ≤ read.length := by
          rw [hp.place_eq]
          have h := depth_after_le .origin read
          rwa [show Place.origin.depth = 0 from rfl, Nat.zero_add] at h
        rw [hrule, List.length_append, List.length_cons] at hsize
        exact next_eq (by omega) ht.1.1.2
      rw [Cursor.run, Pass.run, step_eq hp ht.1 hrule hinner]
      cases hstep : p.step owner inner offset read.size c with
      | error f => rfl
      | ok q =>
          show (next p.place c >>= fun place => _) = _
          rw [hnext, told_ok_bind, ← Text.size_concat]
          exact ih (hp.step ht.1 hstep) ht.2 (hrule.trans (List.append_cons ..))

/-- Where something is open, it began at a character. -/
theorem opened_pos (hp : Tracks read p) (h : p.place ≠ .origin) :
    1 ≤ p.opened := by
  cases hp with
  | between place => exact absurd place h
  | literal top shape opened => omega
  | group top shape opened => omega

/-- The end of a run. -/
theorem finish_eq (hp : Tracks rule p) :
    (mark rule p).finish owner rule offset
      = told (p.finish owner offset rule.size) := by
  unfold Cursor.finish Pass.finish
  rw [show (mark rule p).place = p.place from rfl,
    show (mark rule p).opened = p.opened from rfl]
  by_cases hquote : p.place.quote ≠ .outside
  · rw [if_pos hquote, if_pos hquote]
    rfl
  rw [if_neg hquote, if_neg hquote]
  by_cases hdepth : p.place.depth ≠ 0
  · have hopened := opened_pos hp fun h => hdepth (congrArg Place.depth h)
    rw [if_pos hdepth, if_pos hdepth, minus_of_le hopened]
    rfl
  rw [if_neg hdepth, if_neg hdepth]
  have hword : (mark rule p).endWord owner rule rule.size
      = told (.ok (mark rule (p.endWord owner))) := by
    cases hp with
    | between place walk shape =>
        exact endWord_eq (List.append_nil rule).symm shape
    | literal top shape opened word quote => exact absurd quote hquote
    | group top shape opened word deep => omega
  rw [hword, told_ok_bind,
    show (mark rule (p.endWord owner)).elements
      = (p.endWord owner).elements from rfl]
  generalize (p.endWord owner).elements.reverse = elements
  match elements with
  | [] => rfl
  | [⟨_, false⟩] => rfl
  | [⟨_, true⟩] => rfl
  | ⟨_, false⟩ :: _ :: _ => rfl
  | ⟨_, true⟩ :: _ :: _ => rfl

/-- The items of a rule. -/
theorem items_eq (ht : Visits (Quiet 0) .origin rule)
    (hsize : rule.length < 4294967296)
    (hinner : ∀ o s, s.length < rule.length → inner' o s = told (inner o s)) :
    items owner inner' offset rule
      = told (Rule.items owner inner offset rule) := by
  have hrun : Cursor.run owner inner' rule offset 0 .start rule
      = told ((Pass.run owner inner offset 0 .start rule).map (mark rule)) :=
    run_eq tracks_start ht rfl hsize hinner
  unfold items Rule.items
  rw [hrun]
  cases hp : Pass.run owner inner offset 0 .start rule with
  | error f => rfl
  | ok p => exact finish_eq (tracks_start.run ht hp)

end Steps

-- ===================================================== rules, compared

section Rules

variable {owner : Owner} {inner : Nat → Text → Parsed Node}
  {inner' : Nat → Text → Checked Node} {offset : Nat}

/-- The alternatives of a rule. -/
theorem alternatives_eq {found : List (Nat × Text)}
    (hinner : ∀ q ∈ found, ∀ o, inner' o q.2.trim = told (inner o q.2.trim)) :
    alternatives inner' offset found
      = told (Rule.alternatives inner offset found) := by
  induction found with
  | nil => rfl
  | cons q found ih =>
      obtain ⟨hpiece, hlater⟩ := List.forall_mem_cons.1 hinner
      simp only [alternatives, Rule.alternatives]
      rw [indent_eq, told_ok_bind]
      by_cases hnil : q.2.trim = []
      · rw [if_pos hnil, if_pos hnil]
        rfl
      rw [if_neg hnil, if_neg hnil, hpiece, ih hlater]
      cases inner (offset + (q.1 + q.2.indent)) q.2.trim with
      | error f => rfl
      | ok node =>
          cases Rule.alternatives inner offset found with
          | error f => rfl
          | ok nodes => rfl

/-- A rule, or a part of one, in one call more than the bound. -/
theorem parseAt_eq {bound : Nat} {t : Text} (hbound : bound < 4294967296)
    (ht : t.length ≤ bound) :
    parseAt owner (bound + 1) offset t
      = told (Rule.parseAt owner bound offset t) := by
  induction bound generalizing offset t with
  | zero =>
      obtain rfl := List.length_eq_zero_iff.1 (Nat.le_zero.1 ht)
      rfl
  | succ bound ih =>
      have hinner : ∀ o s, s.length < t.length →
          parseAt owner (bound + 1) o s = told (Rule.parseAt owner bound o s) :=
        fun o s hs => ih (by omega) (by omega)
      have hpieces : pieces t offset .origin 0 0 [] t
          = told ((cut offset .origin 0 t).map fun found =>
            (0, found.1) :: found.2) := by
        have hrule : t = [] ++ ([] ++ t) := rfl
        have hdepth : Place.origin.depth + t.length < 4294967296 := by
          show 0 + t.length < _
          omega
        exact pieces_eq hrule rfl rfl hdepth
      unfold parseAt Rule.parseAt
      rw [hpieces]
      cases hcut : cut offset .origin 0 t with
      | error f => rfl
      | ok found =>
          obtain ⟨first, later⟩ := found
          show (if ((0, first) :: later).length = 1 then _ else _) = _
          cases later with
          | nil =>
              obtain ⟨rfl, hquiet, -⟩ := cut_sound hcut
              exact items_eq hquiet (by omega) hinner
          | cons q later =>
              have hmany : ((0, first) :: q :: later).length ≠ 1 := by simp
              have hpiece : ∀ piece ∈ (0, first) :: q :: later, ∀ o,
                  parseAt owner (bound + 1) o piece.2.trim
                    = told (Rule.parseAt owner bound o piece.2.trim) := by
                intro piece hmem o
                obtain ⟨front, behind, hcutOut, -⟩ :=
                  cut_pieces hcut (List.cons_ne_nil q later) piece hmem
                have hlength := hcutOut.length_lt
                exact hinner o _ (Nat.lt_of_le_of_lt
                  (Text.length_trim_le piece.2) hlength)
              rw [if_neg hmany, alternatives_eq hpiece]
              dsimp only
              cases Rule.alternatives (Rule.parseAt owner bound) offset
                ((0, first) :: q :: later) with
              | error f => rfl
              | ok nodes => rfl

/-- In a rule that 32-bit offsets can tell, reading by offsets does not
fail, and gives what reading by characters gives. -/
theorem parse_eq {rule : Text} (h : rule.size < 4294967296) :
    parse owner rule = told (Rule.parse owner rule) :=
  parseAt_eq (Nat.lt_of_le_of_lt (Text.length_le_size rule) h) (Nat.le_refl _)

end Rules

end Munch.Rule.ByOffset
