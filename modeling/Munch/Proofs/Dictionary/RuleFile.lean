/-
The dictionaries that rule files make, and which files make one.

A file holds definitions, one on every line that is not blank
(`ruleLines`). A dictionary made of nothing else is told by them: the
token and the expression at each index are those of the definition there
(`Dictionary.Spelled`), the tree of the expression but for its targets
being a matter of the rule alone (`RuleLine.Reads`).

Whether the next definition is accepted can be read off the ones before
it (`Spelled.admits_iff`), so whether all of them are can be read off the
file (`registers_iff`), and so can whether their references are then
linked. Together that is `ofRules_succeeds_iff`, in terms that do not
depend on the order of the lines (`Accepted.perm`).
-/
import Munch.Proofs.Dictionary.Runs
import Munch.Proofs.Expr.Definitions

namespace Munch

-- ============================================================= definitions

/-- The rule of a definition has this tree, its targets aside. -/
def RuleLine.Reads (l : RuleLine) (tree : Node) : Prop :=
  ∃ owner root, Rule.parse owner l.rule = .ok root ∧ root.erase = tree

/-- The definitions in the lines of a rule file. -/
def ruleLines (lines : List Text) : List RuleLine :=
  lines.filterMap fun line => (RuleLine.parse line).toOption.join

/-- Every line of a rule file is blank, or a key and a rule. -/
def Readable (lines : List Text) : Prop :=
  ∀ line ∈ lines, ∃ l, RuleLine.parse line = .ok l

/-- Definitions that can be added one after another. -/
structure Acceptable (ls : List RuleLine) : Prop where
  keys : (ls.map (·.key)).Nodup
  ordinary : ∀ l ∈ ls, Builtin.ofKey? l.key = none
  /-- There is a code for each of them. -/
  room : ls.length ≤ Error.largestCode + 1
  rules : ∀ l ∈ ls, ∃ tree, l.Reads tree

/-- A reference to this key can be linked: it is one of the definitions'
keys, or names a character class. -/
def Known (ls : List RuleLine) (key : String) : Prop :=
  (∃ l ∈ ls, l.key = key) ∨ ∃ b k, Builtin.key b = key ∧ b.charClass? = some k

/-- What a rule file has to be for a dictionary to come of it. -/
structure Accepted (lines : List Text) : Prop where
  readable : Readable lines
  definitions : Acceptable (ruleLines lines)
  references : ∀ l ∈ ruleLines lines, ∀ tree, l.Reads tree →
    tree.References fun key _ => Known (ruleLines lines) key

namespace RuleLine

variable {l : RuleLine} {tree tree' : Node}

/-- A rule that has a tree is read so by every owner. -/
theorem Reads.parse (h : l.Reads tree) (owner : Rule.Owner) :
    ∃ root, Rule.parse owner l.rule = .ok root ∧ root.erase = tree := by
  obtain ⟨other, root, hroot, rfl⟩ := h
  exact ⟨_, Rule.parse_of_owner owner hroot, Node.erase_retarget root⟩

/-- A rule line reads as one tree at most. -/
theorem Reads.unique (h : l.Reads tree) (h' : l.Reads tree') :
    tree = tree' := by
  obtain ⟨owner, root, hroot, rfl⟩ := h
  obtain ⟨root', hroot', rfl⟩ := h'.parse owner
  rw [hroot] at hroot'
  rw [Except.ok.inj hroot']

end RuleLine

-- ==================================================================== order

section Perm

variable {lines lines' : List Text} {ls ls' : List RuleLine}

/-- Lines in another order hold their rules in that order. -/
theorem ruleLines_perm (h : lines.Perm lines') :
    (ruleLines lines).Perm (ruleLines lines') :=
  h.filterMap _

/-- Rules are acceptable in every order or in none. -/
theorem Acceptable.perm (h : ls.Perm ls') (hls : Acceptable ls) :
    Acceptable ls' where
  keys := (h.map (·.key)).nodup_iff.1 hls.keys
  ordinary l hl := hls.ordinary l (h.mem_iff.2 hl)
  room := by
    rw [← h.length_eq]
    exact hls.room
  rules l hl := hls.rules l (h.mem_iff.2 hl)

/-- The order of rules has no part in which keys are known. -/
theorem Known.perm (h : ls.Perm ls') {key : String} (hkey : Known ls key) :
    Known ls' key := by
  rcases hkey with ⟨l, hl, rfl⟩ | hclass
  · exact .inl ⟨l, h.mem_iff.1 hl, rfl⟩
  · exact .inr hclass

/-- The order of the lines makes no difference. -/
theorem Accepted.perm (h : lines.Perm lines') (haccepted : Accepted lines) :
    Accepted lines' where
  readable line hline := haccepted.readable line (h.mem_iff.2 hline)
  definitions := haccepted.definitions.perm (ruleLines_perm h)
  references l hl tree htree := by
    have hbefore :=
      haccepted.references l ((ruleLines_perm h).mem_iff.2 hl) tree htree
    exact hbefore.mono fun key _ hkey => hkey.perm (ruleLines_perm h)

end Perm

private theorem acceptable_nil : Acceptable [] where
  keys := List.nodup_nil
  ordinary _ hl := absurd hl List.not_mem_nil
  room := Nat.zero_le _
  rules _ hl := absurd hl List.not_mem_nil

/-- The first of acceptable rules are acceptable. -/
private theorem Acceptable.of_append {ls more : List RuleLine}
    (h : Acceptable (ls ++ more)) :
    Acceptable ls where
  keys := by
    have hkeys := h.keys
    rw [List.map_append] at hkeys
    exact (List.nodup_append.1 hkeys).1
  ordinary l hl := h.ordinary l (List.mem_append_left more hl)
  room := by
    have hroom := h.room
    rw [List.length_append] at hroom
    omega
  rules l hl := h.rules l (List.mem_append_left more hl)

/-- A definition can be added to others if its key is new and no
built-in's, a code is left and its rule can be read. -/
theorem acceptable_concat {ls : List RuleLine} {l : RuleLine} :
    Acceptable (ls ++ [l])
      ↔ Acceptable ls ∧ (∀ l' ∈ ls, l'.key ≠ l.key)
        ∧ Builtin.ofKey? l.key = none
        ∧ ls.length ≤ Error.largestCode ∧ ∃ tree, l.Reads tree := by
  constructor
  · intro h
    have hl : l ∈ ls ++ [l] := List.mem_append_right _ List.mem_cons_self
    refine ⟨h.of_append, ?_, h.ordinary l hl, ?_, h.rules l hl⟩
    · have hkeys := h.keys
      rw [List.map_append, List.nodup_append] at hkeys
      exact fun l' hl' => hkeys.2.2 _ (List.mem_map.2 ⟨l', hl', rfl⟩) _
        List.mem_cons_self
    · have hroom := h.room
      rw [List.length_append, List.length_singleton] at hroom
      omega
  · rintro ⟨h, hnew, hordinary, hroom, hrule⟩
    refine ⟨?_, ?_, ?_, ?_⟩
    · rw [List.map_append, List.nodup_append]
      refine ⟨h.keys, List.nodup_cons.2 ⟨List.not_mem_nil, List.nodup_nil⟩, ?_⟩
      intro key hkey key' hkey'
      obtain ⟨l', hl', rfl⟩ := List.mem_map.1 hkey
      rw [List.map_singleton, List.mem_singleton] at hkey'
      rw [hkey']
      exact hnew l' hl'
    · exact List.forall_mem_append.2 ⟨h.ordinary,
        List.forall_mem_singleton.2 hordinary⟩
    · rw [List.length_append, List.length_singleton]
      omega
    · exact List.forall_mem_append.2 ⟨h.rules,
        List.forall_mem_singleton.2 hrule⟩

namespace Dictionary

variable {d last : Dictionary} {ls : List RuleLine} {l : RuleLine}

-- ============================================================ registration

/-- A dictionary is made of these definitions, in this order, and of
nothing else. -/
structure Spelled (d : Dictionary) (ls : List RuleLine) : Prop where
  size : d.size = ls.length
  expressions : d.expressions.size = ls.length
  tokenKeys : ∀ key, d.indices[key]? = none ↔ ∀ l ∈ ls, l.key ≠ key
  expressionKeys : ∀ key, d.expressions.indices[key]? = none
    ↔ ∀ l ∈ ls, l.key ≠ key
  tokens : ∀ (index : Nat) (l : RuleLine), ls[index]? = some l →
    d.tokens[index]? = some ⟨l.key, index, .expression index, l.keepText⟩
  trees : ∀ (index : Nat) (l : RuleLine), ls[index]? = some l → ∃ root,
    d.expressions.get? index = some ⟨l.key, root⟩ ∧ l.Reads root.erase

/-- The empty dictionary spells no rule. -/
theorem spelled_empty : Spelled .empty [] where
  size := rfl
  expressions := rfl
  tokenKeys key := by simp [empty]
  expressionKeys key := by simp [empty, ExpressionSet.empty]
  tokens index l hl := by simp at hl
  trees index l hl := by simp at hl

private theorem ite_some_eq_none_iff {p : Prop} [Decidable p] {α : Type} {a : α}
    {o : Option α} : (if p then some a else o) = none ↔ ¬ p ∧ o = none := by
  by_cases hp : p
  · simp [hp]
  · simp [hp]

namespace Spelled

/-- Whether a definition is accepted next. -/
theorem admits_iff (h : d.Spelled ls) :
    (∃ m x, d.Admits l.definition m x)
      ↔ (∀ l' ∈ ls, l'.key ≠ l.key) ∧ Builtin.ofKey? l.key = none
        ∧ ls.length ≤ Error.largestCode ∧ ∃ tree, l.Reads tree := by
  constructor
  · rintro ⟨m, x, hadmits⟩
    refine ⟨(h.tokenKeys l.key).1 hadmits.fresh, hadmits.ordinary, ?_, ?_⟩
    · rw [← h.size]
      exact hadmits.room
    · rcases compile_cases hadmits.compiled
        with ⟨⟨hbody, -⟩ | ⟨scan, hbody, -⟩, -⟩
        | ⟨text, root, hbody, -, -, hroot⟩
      · cases hbody
      · cases hbody
      · obtain rfl := TokenBody.rule.inj hbody
        exact ⟨root.erase, _, root, hroot, rfl⟩
  · rintro ⟨hnew, hordinary, hroom, tree, htree⟩
    obtain ⟨root, hroot, -⟩ := htree.parse ⟨l.key, d.expressions.size⟩
    refine ⟨.expression d.expressions.size, some ⟨l.key, root⟩, ?_⟩
    refine ⟨(h.tokenKeys l.key).2 hnew, hordinary, ?_, ?_⟩
    · rw [h.size]
      exact hroom
    · show d.compile l.key (.rule l.rule) = _
      rw [compile_rule ((h.expressionKeys l.key).2 hnew), hroot]

/-- A definition that is accepted is the next one. -/
theorem push {m : Matcher} {x : Option Expression} (h : d.Spelled ls)
    (hl : d.Admits l.definition m x) :
    (d.push l.definition m x).Spelled (ls ++ [l]) := by
  rcases compile_cases hl.compiled with ⟨⟨hbody, -⟩ | ⟨scan, hbody, -⟩, -⟩
    | ⟨text, root, hbody, rfl, rfl, hroot⟩
  · cases hbody
  · cases hbody
  obtain rfl := TokenBody.rule.inj hbody
  have hnew : ∀ key, (∀ l' ∈ ls ++ [l], l'.key ≠ key)
      ↔ l.key ≠ key ∧ ∀ l' ∈ ls, l'.key ≠ key := by
    intro key
    rw [List.forall_mem_append, List.forall_mem_singleton, and_comm]
  refine ⟨?_, ?_, ?_, ?_, ?_, ?_⟩
  · show (d.tokens.push _).size = _
    rw [Array.size_push, List.length_append, ← h.size]
    rfl
  · show (d.expressions.expressions.push _).size = _
    rw [Array.size_push, List.length_append, ← h.expressions]
    rfl
  · intro key
    rw [indices_push, hnew, ← h.tokenKeys, ite_some_eq_none_iff]
    rfl
  · intro key
    rw [indices_expressions_push, hnew, ← h.expressionKeys,
      ite_some_eq_none_iff]
    rfl
  · intro index l' hl'
    rw [tokens_push]
    rcases getElem?_concat_iff.1 hl' with hbefore | ⟨rfl, rfl⟩
    · have hindex := (List.getElem?_eq_some_iff.1 hbefore).1
      rw [if_neg (by rw [h.size]; omega)]
      exact h.tokens index l' hbefore
    · rw [if_pos h.size.symm, h.size, h.expressions]
      rfl
  · intro index l' hl'
    rcases getElem?_concat_iff.1 hl' with hbefore | ⟨rfl, rfl⟩
    · obtain ⟨root', hroot', hreads⟩ := h.trees index l' hbefore
      exact ⟨root', get?_push hroot', hreads⟩
    · refine ⟨root, ?_, _, root, hroot, rfl⟩
      rw [← h.expressions]
      exact get?_push_new _

end Spelled

/-- Registering definitions spells them out. -/
theorem Registers.spelled {more : List RuleLine}
    (h : Registers d (more.map RuleLine.definition) last) (hd : d.Spelled ls) :
    last.Spelled (ls ++ more) := by
  induction more generalizing d ls with
  | nil =>
      cases h
      rw [List.append_nil]
      exact hd
  | cons l more ih =>
      cases h with
      | cons first others =>
          obtain ⟨m, x, hadmits, rfl⟩ := exists_admits_of_register first
          have hlast := ih others (hd.push hadmits)
          rw [List.append_assoc] at hlast
          exact hlast

/-- Definitions can be registered one after another if and only if they
are acceptable with those before them. -/
theorem registers_iff (hd : d.Spelled ls) (hls : Acceptable ls)
    (more : List RuleLine) :
    (∃ last, Registers d (more.map RuleLine.definition) last)
      ↔ Acceptable (ls ++ more) := by
  induction more generalizing d ls with
  | nil =>
      rw [List.append_nil]
      exact ⟨fun _ => hls, fun _ => ⟨d, .nil⟩⟩
  | cons l more ih =>
      have hnext : (∃ m x, d.Admits l.definition m x)
          ↔ Acceptable (ls ++ [l]) := by
        rw [hd.admits_iff, acceptable_concat]
        exact (and_iff_right hls).symm
      have happend : ls ++ l :: more = (ls ++ [l]) ++ more := by
        rw [List.append_assoc, List.singleton_append]
      rw [happend]
      constructor
      · rintro ⟨last, h⟩
        cases h with
        | cons first others =>
            obtain ⟨m, x, hadmits, rfl⟩ := exists_admits_of_register first
            exact (ih (hd.push hadmits) (hnext.1 ⟨m, x, hadmits⟩)).1
              ⟨last, others⟩
      · intro h
        obtain ⟨m, x, hadmits⟩ := hnext.2 h.of_append
        obtain ⟨last, hlast⟩ := (ih (hd.push hadmits) h.of_append).2 h
        exact ⟨last, .cons hadmits.register hlast⟩

-- =================================================================== import

/-- An import succeeds if every line can be read and every definition
registered. -/
theorem importFrom_succeeds_iff (lines : List Text) (number count : Nat) :
    (∃ n, d.importFrom number count lines = (last, .ok n))
      ↔ Readable lines ∧ Registers d ((ruleLines lines).map RuleLine.definition)
        last := by
  induction lines generalizing d number count with
  | nil =>
      constructor
      · rintro ⟨n, h⟩
        obtain ⟨rfl, -⟩ := Prod.mk.inj h
        exact ⟨fun line hline => absurd hline List.not_mem_nil, .nil⟩
      · rintro ⟨-, h⟩
        cases h
        exact ⟨count, rfl⟩
  | cons line rest ih =>
      unfold Readable
      rw [List.forall_mem_cons]
      cases hline : RuleLine.parse line with
      | error fault =>
          rw [importFrom, hline]
          simp
      | ok parsed =>
          cases parsed with
          | none =>
              have hlines : ruleLines (line :: rest) = ruleLines rest := by
                simp [ruleLines, hline, Except.toOption]
              rw [importFrom, hline, hlines]
              simp only [ih]
              simp [Readable]
          | some l =>
              have hlines : ruleLines (line :: rest) = l :: ruleLines rest := by
                simp [ruleLines, hline, Except.toOption]
              rw [hlines, List.map_cons]
              rcases register_cases d l.definition
                with ⟨e, herror⟩ | ⟨m, x, hadmits, hok⟩
              · rw [importFrom_of_error hline herror]
                constructor
                · rintro ⟨n, h⟩
                  cases (Prod.mk.inj h).2
                · rintro ⟨-, h⟩
                  cases h with
                  | cons first _ =>
                      rw [herror] at first
                      cases first
              · rw [importFrom_of_ok hline hok, ih]
                constructor
                · rintro ⟨hreadable, h⟩
                  exact ⟨⟨⟨_, rfl⟩, hreadable⟩, .cons hok h⟩
                · rintro ⟨⟨-, hreadable⟩, h⟩
                  cases h with
                  | cons first others =>
                      rw [hok] at first
                      obtain ⟨rfl, -⟩ := Prod.mk.inj first
                      exact ⟨hreadable, others⟩

-- ================================================================== linking

/-- Linking leaves a dictionary made of the same definitions. -/
theorem Spelled.link (h : d.Spelled ls) : d.link.1.Spelled ls where
  size := by
    unfold Dictionary.size
    rw [tokens_link]
    exact h.size
  expressions := by
    rw [expressions_link, ← h.expressions]
    exact ExpressionSet.size_link ..
  tokenKeys key := by
    rw [indices_link]
    exact h.tokenKeys key
  expressionKeys key := by
    rw [expressions_link]
    exact h.expressionKeys key
  tokens index l hl := by
    rw [tokens_link]
    exact h.tokens index l hl
  trees index l hl := by
    obtain ⟨root, hroot, hreads⟩ := h.trees index l hl
    obtain ⟨pass, hpass⟩ := ExpressionSet.get?_link d.lookup hroot
    rw [expressions_link]
    refine ⟨_, hpass, ?_⟩
    rw [Node.erase_link]
    exact hreads

namespace Spelled

variable (h : d.Spelled ls)

include h

/-- There is a rule for each expression. -/
private theorem lt_length {index : Nat} {e : Expression}
    (he : d.expressions.get? index = some e) :
    index < ls.length := by
  rw [← h.expressions]
  exact ExpressionSet.lt_size_of_get? he

/-- The definition of an expression. -/
theorem exists_definition {index : Nat} {e : Expression}
    (he : d.expressions.get? index = some e) :
    ∃ l, ls[index]? = some l ∧ l.key = e.key ∧ l.Reads e.root.erase := by
  have hlt := h.lt_length he
  have hl : ls[index]? = some ls[index] := List.getElem?_eq_getElem hlt
  obtain ⟨root, hroot, hreads⟩ := h.trees index _ hl
  rw [he] at hroot
  obtain rfl := Option.some.inj hroot
  exact ⟨_, hl, rfl, hreads⟩

/-- The key of a definition leads to its expression. -/
theorem lookup_definition (hd : d.Coherent) {index : Nat} {l : RuleLine}
    (hl : ls[index]? = some l) :
    d.lookup l.key = .found (.expression index) := by
  have ht := h.tokens index l hl
  exact hd.lookup_key (Array.mem_of_getElem? ht)

/-- A key that no rule defines is looked up among the built-ins. -/
theorem lookup_other {key : String} (hkey : ∀ l ∈ ls, l.key ≠ key) :
    d.lookup key = .builtin key :=
  lookup_eq_builtin ((h.tokenKeys key).2 hkey)

/-- What is known can be found. -/
theorem lookup_found_iff (hd : d.Coherent) {key : String} :
    (∃ target, d.lookup key = .found target) ↔ Known ls key := by
  by_cases hkey : ∀ l ∈ ls, l.key ≠ key
  · rw [h.lookup_other hkey]
    constructor
    · rintro ⟨target, htarget⟩
      obtain ⟨b, k, hb, hk, -⟩ := Lookup.builtin_eq_found.1 htarget
      exact .inr ⟨b, k, hb, hk⟩
    · rintro (⟨l, hl, hlkey⟩ | ⟨b, k, hb, hk⟩)
      · exact absurd hlkey (hkey l hl)
      · exact ⟨_, Lookup.builtin_eq_found.2 ⟨b, k, hb, hk, rfl⟩⟩
  · simp only [ne_eq, not_forall, not_not] at hkey
    obtain ⟨l, hl, rfl⟩ := hkey
    obtain ⟨index, hindex⟩ := List.getElem?_of_mem hl
    exact iff_of_true ⟨_, h.lookup_definition hd hindex⟩ (.inl ⟨l, hl, rfl⟩)

/-- A reference of a definition can be resolved if its key is known; the
definition's own key is. -/
theorem resolvable_iff (hd : d.Coherent) {l : RuleLine} (hl : l ∈ ls)
    {key : String} : Resolvable d.lookup l.key key ↔ Known ls key := by
  unfold Resolvable
  rw [h.lookup_found_iff hd]
  constructor
  · intro hkey
    rcases hkey with rfl | hknown
    · exact .inl ⟨l, hl, rfl⟩
    · exact hknown
  · exact .inr

/-- Linking succeeds if and only if all references are to known keys. -/
theorem link_succeeds_iff (hd : d.Coherent) :
    d.link.2 = .ok ()
      ↔ ∀ l ∈ ls, ∀ tree, l.Reads tree → tree.References fun key _ =>
        Known ls key := by
  rw [Dictionary.link_succeeds_iff]
  constructor
  · intro hreferences l hl tree htree
    obtain ⟨index, hindex⟩ := List.getElem?_of_mem hl
    obtain ⟨root, hroot, hreads⟩ := h.trees index l hindex
    obtain rfl := hreads.unique htree
    refine Node.references_erase.2
      ((hreferences _ (ExpressionSet.mem_of_get? hroot)).mono ?_)
    exact fun key _ => (h.resolvable_iff hd hl).1
  · intro hreferences e he
    obtain ⟨index, hget⟩ := ExpressionSet.exists_get?_of_mem he
    obtain ⟨l, hl, hkey, hreads⟩ := h.exists_definition hget
    have hmem := List.mem_of_getElem? hl
    refine (Node.references_erase.1 (hreferences l hmem _ hreads)).mono
      fun key _ hknown => ?_
    rw [← hkey]
    exact (h.resolvable_iff hd hmem).2 hknown

end Spelled

-- =============================================================== rule files

/-- A rule file is accepted if its import succeeds and then its link. -/
private theorem ofRules_eq_ok_iff {lines : List Text} :
    ofRules lines = .ok d
      ↔ ∃ loose n, empty.importLines lines = (loose, .ok n)
        ∧ loose.link = (d, .ok ()) := by
  unfold ofRules
  split
  · rename_i loose e himport
    simp [himport]
  · rename_i loose n himport
    split
    · rename_i d' e hlink
      simp [himport, hlink]
    · rename_i d' hlink
      simp [himport, hlink]

/-- A rule file is refused for its import or for its link. -/
theorem ofRules_eq_error_iff {lines : List Text} {e : Error} :
    ofRules lines = .error e
      ↔ (∃ loose, empty.importLines lines = (loose, .error e))
        ∨ ∃ loose n, empty.importLines lines = (loose, .ok n)
          ∧ loose.link.2 = .error e := by
  unfold ofRules
  split
  · rename_i loose e' himport
    simp [himport]
  · rename_i loose n himport
    split
    · rename_i d' e' hlink
      simp [himport, hlink]
    · rename_i d' hlink
      simp [himport, hlink]

/-- Definitions bring no caller's primitive in. -/
theorem registers_built (P : Primitive → Prop)
    (h : Registers empty (ls.map RuleLine.definition) last) : last.Built P := by
  refine h.built .empty fun t ht scan hscan => ?_
  obtain ⟨l, -, rfl⟩ := List.mem_map.1 ht
  cases hscan

/-- The dictionary of a rule file is made of its definitions, and
linked. No caller's primitive is in it. -/
theorem ofRules_spelled {lines : List Text} (P : Primitive → Prop)
    (h : ofRules lines = .ok d) :
    d.Built P ∧ d.state = .linked ∧ d.Spelled (ruleLines lines) := by
  obtain ⟨loose, n, himport, hlink⟩ := ofRules_eq_ok_iff.1 h
  obtain ⟨-, hregisters⟩ := (importFrom_succeeds_iff lines 1 0).1 ⟨n, himport⟩
  have hspelled := hregisters.spelled spelled_empty
  refine ⟨?_, ?_, ?_⟩
  · have hlinked := (registers_built P hregisters).link
    rw [hlink] at hlinked
    exact hlinked
  · have hlinked := state_link.2 (.inr (congrArg Prod.snd hlink))
    rw [hlink] at hlinked
    exact hlinked
  · have hlinked := hspelled.link
    rw [hlink] at hlinked
    exact hlinked

/-- Which rule files make a dictionary. -/
theorem ofRules_succeeds_iff {lines : List Text} :
    (∃ d, ofRules lines = .ok d) ↔ Accepted lines := by
  constructor
  · rintro ⟨d, h⟩
    obtain ⟨loose, n, himport, hlink⟩ := ofRules_eq_ok_iff.1 h
    obtain ⟨hreadable, hregisters⟩ :=
      (importFrom_succeeds_iff lines 1 0).1 ⟨n, himport⟩
    have hdefinitions :=
      (registers_iff spelled_empty acceptable_nil _).1 ⟨loose, hregisters⟩
    have hspelled := hregisters.spelled spelled_empty
    have hloose := (registers_built (fun _ => True) hregisters).coherent
    exact ⟨hreadable, hdefinitions,
      (hspelled.link_succeeds_iff hloose).1 (congrArg Prod.snd hlink)⟩
  · rintro ⟨hreadable, hdefinitions, hreferences⟩
    obtain ⟨loose, hregisters⟩ :=
      (registers_iff spelled_empty acceptable_nil _).2 hdefinitions
    obtain ⟨n, himport⟩ :=
      (importFrom_succeeds_iff lines 1 0).2 ⟨hreadable, hregisters⟩
    have hspelled := hregisters.spelled spelled_empty
    have hloose := (registers_built (fun _ => True) hregisters).coherent
    have hlink := (hspelled.link_succeeds_iff hloose).2 hreferences
    exact ⟨loose.link.1, ofRules_eq_ok_iff.2 ⟨loose, n, himport,
      Prod.ext rfl hlink⟩⟩

end Dictionary

end Munch
