/-
Named rules and groups mean the same.

Where the rule of an expression names another one, it can have that
one's rule in parentheses instead: the definitions make a set as before,
and whatever an expression matches it matches still
(`ofDefinitions_inline`).

Read under the owner that it is put into, and linked, the rule in
parentheses is node by node the root that the reference leads to, so the
two match alike in every set that has the definition
(`Compiled.alike_inline`), and with them the two trees. That is told of
each of the two sets by itself. They differ in an expression that may
call itself, so from the one set to the other it takes an induction over
derivations: each call is answered by a root that the other set has in
another, but equivalent form (`Compiled.answers`).
-/
import Munch.Proofs.Expr.Budget
import Munch.Proofs.Expr.Definitions
import Munch.Proofs.Rule.Inline

namespace Munch

open ExpressionSet (ofDefinitions)
open Rule (Owner Spells WordAt grouped)

-- ================================================== one definition changed

/-- Lists that differ in one place have the same entries everywhere
else. -/
theorem getElem?_middle {α : Type} (front back : List α) (a b : α) {index : Nat}
    (hindex : index ≠ front.length) :
    (front ++ a :: back)[index]? = (front ++ b :: back)[index]? := by
  rcases Nat.lt_or_gt_of_ne hindex with hlt | hgt
  · rw [List.getElem?_append_left hlt, List.getElem?_append_left hlt]
  · obtain ⟨k, rfl⟩ : ∃ k, index = front.length + (k + 1) :=
      ⟨index - front.length - 1, by omega⟩
    rw [List.getElem?_append_right (Nat.le_add_right ..),
      List.getElem?_append_right (Nat.le_add_right ..), Nat.add_sub_cancel_left]
    rfl

/-- Another rule does not change the keys. -/
theorem map_fst_middle (front back : Definitions) (a : String) (x y : Text) :
    (front ++ (a, x) :: back).map Prod.fst
      = (front ++ (a, y) :: back).map Prod.fst := by
  rw [List.map_append, List.map_append, List.map_cons, List.map_cons]

variable {definitions definitions' : Definitions} {s s' : ExpressionSet}

/-- Which keys are known depends on the keys of the definitions only. -/
theorem Definitions.known_congr
    (h : definitions.map Prod.fst = definitions'.map Prod.fst) (key : String) :
    definitions.Known key ↔ definitions'.Known key := by
  have hkeys : ∀ l : Definitions, (∃ rule, (key, rule) ∈ l)
      ↔ key ∈ l.map Prod.fst := by
    intro l
    simp
  unfold Known
  rw [hkeys, hkeys, h]

/-- So does what they lead to. -/
theorem Indexed.find?_congr (hs : Indexed definitions s)
    (hs' : Indexed definitions' s')
    (h : definitions.map Prod.fst = definitions'.map Prod.fst) (key : String) :
    s.find? key = s'.find? key := by
  have hkeys : ∀ (l : Definitions) (index : Nat),
      (∃ rule, l[index]? = some (key, rule))
        ↔ (l.map Prod.fst)[index]? = some key := by
    intro l index
    simp
  apply Option.ext
  intro index
  rw [hs.keys, hs'.keys, hkeys, hkeys, h]

namespace Compiled

variable {text : Text} {limit : Nat}

/-- In a set with this definition, a tree that names it matches like the
tree that has its rule instead. -/
theorem alike_inline (hs : Compiled definitions s) {owner : Owner} {b : String}
    {rule : Text} {inner node node' : Node} (hb : (b, rule) ∈ definitions)
    (hinner : Spells owner rule inner)
    (h : Node.Replaces (owner.reference b.toList) inner node node') :
    Alike s text limit (node.retarget (resolving s.lookupLocal))
      (node'.retarget (resolving s.lookupLocal)) := by
  obtain ⟨index, hindex⟩ := List.getElem?_of_mem hb
  obtain ⟨root, hroot, -, he⟩ := hs.roots index b rule hindex
  refine (h.retarget (resolving s.lookupLocal)).alike ?_
  -- the word leads to the expression, and the rule makes its root
  have hword : (owner.reference b.toList).retarget (resolving s.lookupLocal)
      = .reference b (some (.expression index)) := by
    unfold Owner.reference
    rw [Node.retarget, String.ofList_toList]
    unfold resolving ExpressionSet.lookupLocal
    rw [(hs.keys b index).2 ⟨rule, hindex⟩]
    rfl
  have hgroup : inner.retarget (resolving s.lookupLocal)
      = root.retarget (resolving s.lookupLocal) := by
    obtain rfl := (hroot.of_owner owner).unique hinner
    exact root.retarget_retarget
  rw [hword, hgroup]
  exact alike_reference he

/-- A set answers for another one whose keys are in the same places, if
the trees of their rules match alike in it. -/
theorem answers (hs : Compiled definitions s) (hs' : Compiled definitions' s')
    (hfind : ∀ key, s.find? key = s'.find? key)
    (h : ∀ index key rule rule', definitions[index]? = some (key, rule) →
      definitions'[index]? = some (key, rule') → ∀ root root',
        Spells ⟨key, index⟩ rule root → Spells ⟨key, index⟩ rule' root' →
          Alike s' text limit (root.retarget (resolving s'.lookupLocal))
            (root'.retarget (resolving s'.lookupLocal))) :
    s.Answers s' text limit := by
  have hlookup : s.lookupLocal = s'.lookupLocal := by
    funext key
    unfold ExpressionSet.lookupLocal
    rw [hfind]
  intro index e he
  obtain ⟨key, rule, hrule⟩ :=
    hs.exists_definition (ExpressionSet.lt_size_of_get? he)
  obtain ⟨rule', hrule'⟩ : ∃ rule',
      definitions'[index]? = some (key, rule') := by
    rw [← hs'.keys, ← hfind]
    exact (hs.keys key index).2 ⟨rule, hrule⟩
  obtain ⟨root, hroot, -, he₁⟩ := hs.roots index key rule hrule
  obtain ⟨root', hroot', -, he'⟩ := hs'.roots index key rule' hrule'
  rw [he] at he₁
  obtain rfl := Option.some.inj he₁
  refine ⟨_, he', fun p answer hd => ?_⟩
  rw [hlookup] at hd
  exact (h index key rule rule' hrule hrule' root root' hroot hroot' p answer).1
    hd

/-- What is answered for an expression is answered by the set that
answers for the other. -/
theorem capture_eq_ok (hs : Compiled definitions s)
    (hs' : Compiled definitions' s') {start stop : Nat}
    (h : s.Answers s' text (min stop text.size)) {index : Nat}
    {answer : Option Nat}
    (hanswer : s.capture index text start stop = .ok answer) :
    s'.capture index text start stop = .ok answer := by
  have hd := (capture_eq_ok_iff hs.primitives "").1 hanswer
  exact (capture_eq_ok_iff hs'.primitives "").2 (hd.transport h)

/-- A call of an expression that is there does not fail, but it may have
no end. -/
theorem capture_ne_error (hs : Compiled definitions s) {key : String}
    {index : Nat} (hindex : s.find? key = some index) {start stop : Nat}
    {e : Error} (he : e ≠ .endless) :
    s.capture index text start stop ≠ .error e := by
  intro h
  obtain ⟨rule, hrule⟩ := (hs.keys key index).1 hindex
  have hlt : index < s.size := by
    rw [hs.size]
    exact (List.getElem?_eq_some_iff.1 hrule).1
  exact he (captureWithin_endless hs.resolved text _ _ index start e hlt h)

end Compiled

-- ================================================================ inlining

section Inline

variable {front back : Definitions} {a b : String} {before after rule : Text}

/-- With a rule in the place of a word, the definitions make a set, if
they made one with the word. -/
theorem exists_ofDefinitions_inline {s : ExpressionSet}
    (h : ofDefinitions (front ++ (a, before ++ (b.toList ++ after)) :: back)
      = .ok s) (hb : (b, rule) ∈ front ++ back)
    (hword : WordAt before b.toList after) :
    ∃ s',
      ofDefinitions (front ++ (a, before ++ (grouped rule ++ after)) :: back)
        = .ok s' := by
  have hkeys := map_fst_middle front back a (before ++ (b.toList ++ after))
    (before ++ (grouped rule ++ after))
  obtain ⟨hnodup, hrules⟩ := exists_ofDefinitions_iff.1 ⟨s, h⟩
  have hothers : ∀ d ∈ front ++ back, ∀ x : Text, d ∈ front ++ (a, x) :: back :=
    fun d hd x => List.perm_middle.mem_iff.2 (List.mem_cons_of_mem _ hd)
  rw [hkeys] at hnodup
  simp only [Definitions.known_congr hkeys] at hrules
  refine exists_ofDefinitions_iff.2 ⟨hnodup, fun key r hmem => ?_⟩
  rcases List.mem_cons.1 (List.perm_middle.mem_iff.1 hmem) with hnew | hother
  · cases hnew
    obtain ⟨owner, root, hroot, hrootKnown⟩ :=
      hrules a _ List.mem_append_cons_self
    obtain ⟨owner', inner, hinner, hinnerKnown⟩ :=
      hrules b rule (hothers _ hb _)
    obtain ⟨root', hroot', hreplaces⟩ :=
      hroot.inline hword (hinner.of_owner owner)
    exact ⟨owner, root', hroot',
      hreplaces.references hrootKnown (Node.references_retarget.2 hinnerKnown)⟩
  · exact hrules key r (hothers _ hother _)

/-- Rules in the same place of the two lists match alike in a set that
has the definition put in. -/
theorem Compiled.alike_rules {definitions : Definitions} {s : ExpressionSet}
    (hs : Compiled definitions s) (hb : (b, rule) ∈ definitions)
    (hword : WordAt before b.toList after) {index : Nat} {key : String}
    {r r' : Text}
    (hr : (front ++ (a, before ++ (b.toList ++ after)) :: back)[index]?
      = some (key, r))
    (hr' : (front ++ (a, before ++ (grouped rule ++ after)) :: back)[index]?
      = some (key, r')) {root root' : Node} (hroot : Spells ⟨key, index⟩ r root)
    (hroot' : Spells ⟨key, index⟩ r' root') (text : Text) (limit : Nat) :
    Alike s text limit (root.retarget (resolving s.lookupLocal))
      (root'.retarget (resolving s.lookupLocal)) := by
  by_cases hindex : index = front.length
  · subst hindex
    rw [List.getElem?_append_right (Nat.le_refl _), Nat.sub_self] at hr hr'
    cases hr
    cases hr'
    obtain ⟨index, hb'⟩ := List.getElem?_of_mem hb
    obtain ⟨inner, hinner, -⟩ := hs.roots index b rule hb'
    have hinner' := hinner.of_owner ⟨a, front.length⟩
    obtain ⟨inlined, hinlined, hreplaces⟩ := hroot.inline hword hinner'
    obtain rfl := hinlined.unique hroot'
    exact hs.alike_inline hb hinner' hreplaces
  · rw [getElem?_middle front back _ (a,
      before ++ (grouped rule ++ after)) hindex, hr'] at hr
    cases hr
    obtain rfl := hroot.unique hroot'
    exact fun p answer => Iff.rfl

/-- A rule can have another one, in parentheses, in the place of a word
that names it: the definitions still make a set, and in the two sets
every key leads to expressions that match the same. -/
theorem ofDefinitions_inline {s : ExpressionSet}
    (h : ofDefinitions (front ++ (a, before ++ (b.toList ++ after)) :: back)
      = .ok s) (hb : (b, rule) ∈ front ++ back)
    (hword : WordAt before b.toList after) :
    ∃ s',
      ofDefinitions (front ++ (a, before ++ (grouped rule ++ after)) :: back)
        = .ok s'
      ∧ ∀ key, s.find? key = s'.find? key ∧ ∀ index, s.find? key = some index →
        ∀ text start stop result, result ≠ .error .endless →
          (s.capture index text start stop = result
            ↔ s'.capture index text start stop = result) := by
  obtain ⟨s', h'⟩ := exists_ofDefinitions_inline h hb hword
  have hs := compiled_of_ofDefinitions h
  have hs' := compiled_of_ofDefinitions h'
  have hothers : ∀ x : Text, (b, rule) ∈ front ++ (a, x) :: back :=
    fun x => List.perm_middle.mem_iff.2 (List.mem_cons_of_mem _ hb)
  have hfind := hs.find?_congr hs'.toIndexed (map_fst_middle front back a _ _)
  have hforth : ∀ text limit, s.Answers s' text limit := fun text limit =>
    hs.answers hs' hfind fun index key r r' hr hr' root root' hroot hroot' =>
      hs'.alike_rules (hothers _) hword hr hr' hroot hroot' text limit
  have hback : ∀ text limit, s'.Answers s text limit := fun text limit =>
    hs'.answers hs (fun key => (hfind key).symm)
      fun index key r' r hr' hr root' root hroot' hroot =>
        (hs.alike_rules (hothers _) hword hr hr' hroot hroot' text limit).symm
  refine ⟨s', h', fun key => ⟨hfind key,
    fun index hindex text start stop result hresult => ?_⟩⟩
  cases result with
  | ok answer =>
      exact ⟨hs.capture_eq_ok hs' (hforth text _),
        hs'.capture_eq_ok hs (hback text _)⟩
  | error e =>
      have he : e ≠ .endless := fun he => hresult (congrArg Except.error he)
      rw [iff_false_left (hs.capture_ne_error hindex he)]
      exact hs'.capture_ne_error ((hfind key).symm.trans hindex) he

end Inline

-- ========================================================== a pair of sets

/-- Lists of digits and lists, for one way or another to say "digit or
list". -/
def nested (item : Text) : Definitions :=
  [("List", "\"[\" ".toList ++ (item ++ "* \"]\"".toList)),
    ("Item", "digit | List".toList)]

private theorem exists_nested :
    ∃ s, ofDefinitions (nested "Item".toList) = .ok s := by
  have hlist : (nested "Item".toList).Known "List" :=
    .inl ⟨_, List.mem_cons_self⟩
  have hitem : (nested "Item".toList).Known "Item" :=
    .inl ⟨_, List.mem_cons_of_mem _ List.mem_cons_self⟩
  have hdigit : (nested "Item".toList).Known "digit" :=
    .inr ⟨.digit, .digit, rfl, rfl⟩
  refine exists_ofDefinitions_iff.2 ⟨by decide, fun key rule hmem => ?_⟩
  rcases List.mem_pair.1 hmem with h | h
  · cases h
    have hparse : Rule.parse ⟨"List", 0⟩ "\"[\" Item* \"]\"".toList
        = .ok (.sequence [⟨.literal ['['], false⟩,
          ⟨.reference "Item" none, true⟩,
            ⟨.literal [']'], false⟩]) := by rfl
    exact ⟨_, _, (Rule.parse_eq_ok_iff _ _ _).1 hparse, by simpa using hitem⟩
  · cases h
    have hparse : Rule.parse ⟨"Item", 1⟩ "digit | List".toList
        = .ok (.alternation [.reference "digit" none,
          .reference "List" none]) := by rfl
    exact ⟨_, _, (Rule.parse_eq_ok_iff _ _ _).1 hparse, by
      simpa using ⟨hdigit, hlist⟩⟩

/-- The word stands between white space and a star. -/
private theorem wordAt_nested :
    WordAt "\"[\" ".toList "Item".toList "* \"]\"".toList where
  filled := by decide
  chars := by
    have hall : "Item".toList.all (Rule.IsWordChar ·) = true := by decide
    simpa using hall
  outside := rfl
  front c hc := by
    obtain rfl : ' ' = c := Option.some.inj hc
    decide
  back c hc := by
    obtain rfl : '*' = c := Option.some.inj hc
    decide

/-- The two expressions call each other, and the word is repeated. -/
theorem ofDefinitions_inline_nested :
    ∃ s s', ofDefinitions (nested "Item".toList) = .ok s
      ∧ ofDefinitions (nested "(digit | List)".toList) = .ok s'
      ∧ ∀ key, s.find? key = s'.find? key ∧ ∀ index, s.find? key = some index →
          ∀ text start stop result, result ≠ .error .endless →
            (s.capture index text start stop = result
              ↔ s'.capture index text start stop = result) := by
  obtain ⟨s, hs⟩ := exists_nested
  obtain ⟨s', hs', hsame⟩ :=
    @ofDefinitions_inline [] [("Item", "digit | List".toList)] "List" "Item"
      "\"[\" ".toList "* \"]\"".toList "digit | List".toList s hs (by simp)
      wordAt_nested
  exact ⟨s, s', hs, hs', hsame⟩

end Munch
