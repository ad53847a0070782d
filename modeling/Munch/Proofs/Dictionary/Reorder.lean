/-
Dictionaries made of the same definitions in another order.

The order tells which index an expression has, and so where references
lead, but nothing else. A definition has its place in either dictionary
(`placeIn`), and the expressions of the one stand in the other at those
places, with their targets relocated (`Reordered.embeds`). As matching
does not depend on indices, tokens of one key match alike
(`Reordered.covers`).
-/
import Munch.Proofs.Dictionary.RuleFile
import Munch.Proofs.Expr.Relocation
import Munch.Scan.Step

namespace Munch.Dictionary

/-- Every token of a dictionary has one of its key in another, which
matches just as it does, under each bound on the depth of calls. -/
def Covers (d d' : Dictionary) : Prop :=
  ∀ t ∈ d.tokens, ∃ t' ∈ d'.tokens, t'.key = t.key
    ∧ ∀ bound text start,
      t'.captureWithin d'.expressions bound text start
        = t.captureWithin d.expressions bound text start

/-- The place of an expression in another dictionary, by its key. -/
def placeIn (d d' : Dictionary) (index : Nat) : Nat :=
  ((d.expressions.get? index).bind fun e => d'.indices[e.key]?).getD 0

/-- Two linked dictionaries made of the same definitions. -/
structure Reordered (d d' : Dictionary) (ls ls' : List RuleLine) : Prop where
  coherent : d.Coherent
  coherent' : d'.Coherent
  linked : d.state = .linked
  linked' : d'.state = .linked
  spelled : d.Spelled ls
  spelled' : d'.Spelled ls'
  perm : ls.Perm ls'

namespace Reordered

variable {d d' : Dictionary} {ls ls' : List RuleLine}
  (h : d.Reordered d' ls ls')

include h

/-- There are as many expressions in the one as in the other. -/
theorem size_eq : d.expressions.size = d'.expressions.size := by
  rw [h.spelled.expressions, h.spelled'.expressions, h.perm.length_eq]

/-- A definition of the one has a place in the other. -/
theorem exists_place {index : Nat} {l : RuleLine} (hl : ls[index]? = some l) :
    ∃ place, ls'[place]? = some l ∧ placeIn d d' index = place := by
  obtain ⟨place, hplace⟩ :=
    List.getElem?_of_mem (h.perm.mem_iff.1 (List.mem_of_getElem? hl))
  obtain ⟨root, hroot, -⟩ := h.spelled.trees index l hl
  have hindex : d'.indices[l.key]? = some place :=
    (h.coherent'.indices l.key place).2 ⟨_,
      h.spelled'.tokens place l hplace, rfl⟩
  refine ⟨place, hplace, ?_⟩
  unfold placeIn
  rw [hroot, Option.bind_some, hindex, Option.getD_some]

/-- What is looked up in the one is looked up in the other, relocated. -/
theorem target?_lookup (key : String) :
    relocation (placeIn d d') id key (d.lookup key).target?
      = (d'.lookup key).target? := by
  by_cases hkey : ∀ l ∈ ls, l.key ≠ key
  · have hkey' : ∀ l ∈ ls', l.key ≠ key :=
      fun l hl => hkey l (h.perm.mem_iff.2 hl)
    rw [h.spelled.lookup_other hkey, h.spelled'.lookup_other hkey']
    cases hbuiltin : Lookup.builtin key with
    | found target =>
        obtain ⟨b, k, -, -, rfl⟩ := Lookup.builtin_eq_found.1 hbuiltin
        rfl
    | notScannable => rfl
    | missing => rfl
  · simp only [ne_eq, not_forall, not_not] at hkey
    obtain ⟨l, hl, rfl⟩ := hkey
    obtain ⟨index, hindex⟩ := List.getElem?_of_mem hl
    obtain ⟨place, hplace, heq⟩ := h.exists_place hindex
    rw [h.spelled.lookup_definition h.coherent hindex,
      h.spelled'.lookup_definition h.coherent' hplace, ← heq]
    rfl

/-- The expressions of the one stand in the other. -/
theorem embeds : d.expressions.Embeds (placeIn d d') id d'.expressions := by
  intro index e he
  obtain ⟨l, hl, -, hreads⟩ := h.spelled.exists_definition he
  obtain ⟨place, hplace, heq⟩ := h.exists_place hl
  obtain ⟨root', hroot', hreads'⟩ := h.spelled'.trees place l hplace
  have htree : root'.erase = e.root.erase := hreads'.unique hreads
  have hroot : root' = e.root.retarget (relocation (placeIn d d') id) := by
    calc root'
        = root'.erase.retarget (fun key _ => (d'.lookup key).target?) :=
          (h.coherent'.root_eq h.linked'
            (ExpressionSet.mem_of_get? hroot')).symm
      _ = e.root.erase.retarget (fun key _ => (d'.lookup key).target?) := by
        rw [htree]
      _ = (e.root.erase.retarget fun key _ => (d.lookup key).target?).retarget
            (relocation (placeIn d d') id) := by
          rw [Node.retarget_retarget]
          simp only [h.target?_lookup]
      _ = e.root.retarget (relocation (placeIn d d') id) := by
          rw [h.coherent.root_eq h.linked (ExpressionSet.mem_of_get? he)]
  refine ⟨l.key, ?_⟩
  rw [heq, hroot', hroot]

/-- Expressions match alike in both. -/
theorem captureBounded_placeIn {index : Nat}
    (hindex : index < d.expressions.size) (bound : Nat) (text : Text)
    (start stop : Nat) :
    d'.expressions.captureBounded bound (placeIn d d' index) text start stop
      = d.expressions.captureBounded bound index text start stop := by
  refine captureWithin_relocate (fun _ => True)
    (P := fun _ target => ∃ t, target = some t ∧ t.ExistsIn d.expressions)
    h.embeds ?_ ?_ ?_ ?_ ?_ bound index start hindex trivial
  · exact h.coherent.resolved h.linked
  · rintro key callee ⟨t, ht, hexists⟩
    obtain rfl := Option.some.inj ht
    exact hexists
  · exact fun _ _ _ => rfl
  · exact fun _ _ _ _ _ => rfl
  · exact fun _ _ _ _ _ _ _ => trivial

/-- Tokens of one key match alike. -/
theorem covers : d.Covers d' := by
  intro t ht
  obtain ⟨index, hget⟩ := Array.getElem?_of_mem ht
  have hlt : index < ls.length := by
    rw [← h.spelled.size]
    exact (Array.getElem?_eq_some_iff.1 hget).1
  have hl : ls[index]? = some ls[index] := List.getElem?_eq_getElem hlt
  obtain ⟨place, hplace, heq⟩ := h.exists_place hl
  have htoken := h.spelled.tokens index _ hl
  have htoken' := h.spelled'.tokens place _ hplace
  rw [hget] at htoken
  rw [Option.some.inj htoken]
  refine ⟨_, Array.mem_of_getElem? htoken', rfl, fun bound text start => ?_⟩
  show d'.expressions.captureBounded bound place text start text.size = _
  rw [← heq]
  apply h.captureBounded_placeIn
  rw [h.spelled.expressions]
  exact hlt

/-- Either order may be taken as the first. -/
theorem symm : d'.Reordered d ls' ls :=
  ⟨h.coherent', h.coherent, h.linked', h.linked, h.spelled', h.spelled,
    h.perm.symm⟩

end Reordered

/-- The dictionaries of a rule file and of the file with its lines in
another order. -/
theorem reordered_of_perm {lines lines' : List Text} {d d' : Dictionary}
    (hperm : lines.Perm lines') (h : ofRules lines = .ok d)
    (h' : ofRules lines' = .ok d') :
    d.Reordered d' (ruleLines lines) (ruleLines lines') := by
  obtain ⟨hbuilt, hlinked, hspelled⟩ := ofRules_spelled (fun _ => True) h
  obtain ⟨hbuilt', hlinked', hspelled'⟩ := ofRules_spelled (fun _ => True) h'
  exact ⟨hbuilt.coherent, hbuilt'.coherent, hlinked, hlinked', hspelled,
    hspelled',
    ruleLines_perm hperm⟩

end Munch.Dictionary
