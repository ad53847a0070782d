/-
The registry of a dictionary, and what its links have made of the
references in its rules.

`Dictionary.Coherent` ties the parts of a dictionary together: the index
of keys to the tokens, the tokens to their expressions and the other way
around, and every target in an expression to what the dictionary itself
gives for the key (`Dictionary.Gives`). The dictionary may be in the
middle of its life: references may still wait for a link, and a link may
have stopped half-way.

Every operation preserves it, so all dictionaries are coherent
(`Built.coherent`). That a new token takes no target away from a
reference rests on its key: no token has it yet, and it is no built-in's,
so the dictionary gave nothing for it before
(`Admits.ne_of_lookup`).
-/
import Munch.Proofs.Dictionary.Built
import Munch.Proofs.Expr.Relink

namespace Munch

namespace Dictionary

variable {P : Primitive → Prop} {d : Dictionary}

-- ============================================================ registration

/-- A definition is accepted, and this is what it is compiled to. -/
structure Admits (d : Dictionary) (t : TokenDef) (matcher : Matcher)
    (expression : Option Expression) : Prop where
  fresh : d.indices[t.key]? = none
  ordinary : Builtin.ofKey? t.key = none
  room : d.size ≤ Error.largestCode
  compiled : d.compile t.key t.body = .ok (matcher, expression)

/-- A definition is accepted exactly if it is admitted. -/
private theorem accept_eq_ok_iff {t : TokenDef} {m : Matcher}
    {x : Option Expression} : d.accept t = .ok (m, x) ↔ d.Admits t m x := by
  unfold accept
  rw [Std.HashMap.contains_eq_isSome_getElem?]
  constructor
  · intro h
    split at h
    · cases h
    · rename_i hkey
      split at h
      · cases h
      · rename_i hroom
        simp only [Option.not_isSome_iff_eq_none, not_or] at hkey
        exact ⟨hkey.1, hkey.2, Nat.not_lt.1 hroom, h⟩
  · intro h
    rw [h.fresh, h.ordinary, if_neg (by simp), if_neg (Nat.not_lt.2 h.room)]
    exact h.compiled

/-- A rule whose key no expression has is compiled to the next one, if it
can be read. -/
theorem compile_rule {key : String} (h : d.expressions.indices[key]? = none)
    (text : Text) :
    d.compile key (.rule text)
      = match Rule.parse ⟨key, d.expressions.size⟩ text with
        | .error fault => .error (.rule key fault)
        | .ok root =>
            .ok (.expression d.expressions.size, some ⟨key, root⟩) := by
  have hname : d.expressions.indices.contains key = false := by
    rw [Std.HashMap.contains_eq_isSome_getElem?, h]
    rfl
  unfold compile ExpressionSet.compile
  simp only [hname]
  cases Rule.parse ⟨key, d.expressions.size⟩ text with
  | error fault => rfl
  | ok root => rfl

/-- A registration that fails changes nothing, and one that succeeds adds
what the definition is compiled to. -/
theorem register_cases (d : Dictionary) (t : TokenDef) :
    (∃ e, d.register t = (d, .error e))
      ∨ ∃ m x, d.Admits t m x ∧ d.register t = (d.push t m x, .ok d.size) := by
  unfold register
  cases h : d.accept t with
  | error e => exact .inl ⟨e, rfl⟩
  | ok compiled =>
      obtain ⟨m, x⟩ := compiled
      exact .inr ⟨m, x, accept_eq_ok_iff.1 h, rfl⟩

/-- A registration that succeeds has added its definition. -/
theorem exists_admits_of_register {t : TokenDef} {next : Dictionary}
    {index : Nat} (h : d.register t = (next, .ok index)) :
    ∃ m x, d.Admits t m x ∧ next = d.push t m x := by
  rcases register_cases d t with ⟨e, herror⟩ | ⟨m, x, ht, hok⟩
  · rw [herror] at h
    cases h
  · rw [hok] at h
    obtain ⟨rfl, -⟩ := Prod.mk.inj h
    exact ⟨m, x, ht, rfl⟩

/-- A definition that is admitted is registered. -/
theorem Admits.register {t : TokenDef} {m : Matcher} {x : Option Expression}
    (h : d.Admits t m x) : d.register t = (d.push t m x, .ok d.size) := by
  unfold Dictionary.register
  rw [accept_eq_ok_iff.2 h]

/-- A definition that is not accepted leaves the dictionary as it is. -/
theorem register_of_error {t : TokenDef} {e : Error}
    (h : d.accept t = .error e) : d.register t = (d, .error e) := by
  unfold register
  rw [h]

/-- Only a rule makes an expression: the next one, its root read from the
rule. -/
theorem compile_cases {key : String} {body : TokenBody} {m : Matcher}
    {x : Option Expression} (h : d.compile key body = .ok (m, x)) :
    ((body = .empty ∧ m = .none
        ∨ ∃ scan, body = .primitive scan ∧ m = .primitive scan) ∧ x = none)
      ∨ ∃ text root, body = .rule text ∧ m = .expression d.expressions.size
        ∧ x = some ⟨key, root⟩
        ∧ Rule.parse ⟨key, d.expressions.size⟩ text = .ok root := by
  match body with
  | .empty =>
      obtain ⟨rfl, rfl⟩ := Prod.mk.inj (Except.ok.inj h)
      exact .inl ⟨.inl ⟨rfl, rfl⟩, rfl⟩
  | .primitive scan =>
      obtain ⟨rfl, rfl⟩ := Prod.mk.inj (Except.ok.inj h)
      exact .inl ⟨.inr ⟨scan, rfl, rfl⟩, rfl⟩
  | .rule text =>
      unfold compile ExpressionSet.compile at h
      by_cases hkey : d.expressions.indices.contains key = true
      · simp [hkey] at h
      · cases hroot : Rule.parse ⟨key, d.expressions.size⟩ text with
        | error fault => simp [hkey, hroot] at h
        | ok root =>
            simp only [hkey, hroot] at h
            obtain ⟨rfl, rfl⟩ := Prod.mk.inj (Except.ok.inj h)
            exact .inr ⟨text, root, rfl, rfl, rfl, hroot⟩

-- ============================================================ the invariant

/-- What a dictionary gives for a key: what matches the registered token
of that key, or the character class, if no token has the key. -/
inductive Gives (d : Dictionary) : String → Target → Prop
  | expression {t : Token} {index : Nat} (registered : t ∈ d.tokens)
      (matcher : t.matcher = .expression index) :
      d.Gives t.key (.expression index)
  | primitive {t : Token} {scan : Primitive} (registered : t ∈ d.tokens)
      (matcher : t.matcher = .primitive scan) :
      d.Gives t.key (.primitive scan)
  | charClass {b : Builtin} {k : CharClass}
      (unregistered : ∀ t ∈ d.tokens, t.key ≠ b.key)
      (classed : b.charClass? = some k) :
      d.Gives b.key (.primitive k.scan)

/-- The parts of a dictionary agree with each other. -/
structure Coherent (d : Dictionary) : Prop where
  /-- The index of a key is that of the token with the key. -/
  indices : ∀ key index, d.indices[key]? = some index
    ↔ ∃ t : Token, d.tokens[index]? = some t ∧ t.key = key
  /-- No registered token has the key of a built-in one. -/
  ordinary : ∀ t ∈ d.tokens, Builtin.ofKey? t.key = none
  /-- A token that has an expression has the one of its key. -/
  matchers : ∀ t ∈ d.tokens, ∀ index, t.matcher = .expression index →
    ∃ e, d.expressions.get? index = some e ∧ e.key = t.key
  /-- Every expression is some token's. -/
  owners : ∀ index e, d.expressions.get? index = some e →
    ∃ t ∈ d.tokens, t.key = e.key ∧ t.matcher = .expression index
  /-- References of an expression to itself are linked, and any other
  that is linked has the target that a lookup finds. -/
  targets : ∀ index e, d.expressions.get? index = some e →
    e.root.References fun key target =>
      (key = e.key → target = some (.expression index))
        ∧ ∀ t, target = some t → d.lookup key = .found t
  /-- In a linked dictionary every reference is linked. -/
  linked : d.state = .linked → ∀ index e, d.expressions.get? index = some e →
    e.root.References fun _ target => target.isSome = true

/-- A key that is not registered is looked up among the built-ins. -/
theorem lookup_eq_builtin {key : String} (h : d.indices[key]? = none) :
    d.lookup key = .builtin key := by
  unfold lookup
  rw [h]

/-- A key that is registered is looked up in its token. -/
private theorem lookup_eq_matcher {key : String} {index : Nat} {t : Token}
    (h : d.indices[key]? = some index) (ht : d.tokens[index]? = some t) :
    d.lookup key = t.matcher.lookup := by
  unfold lookup
  simp only [h, ht]

/-- The dictionary gives nothing yet for the key of a definition that it
accepts. -/
theorem Admits.ne_of_lookup {t : TokenDef} {m : Matcher} {x : Option Expression}
    (ht : d.Admits t m x) {key : String} {target : Target}
    (h : d.lookup key = .found target) : key ≠ t.key := by
  rintro rfl
  rw [lookup_eq_builtin ht.fresh, Lookup.builtin_of_none ht.ordinary] at h
  cases h

namespace Coherent

variable (hd : d.Coherent)

include hd

/-- The lookup of a token's key leads to what matches the token. -/
theorem lookup_key {t : Token} (ht : t ∈ d.tokens) :
    d.lookup t.key = t.matcher.lookup := by
  obtain ⟨index, hsome⟩ := Array.getElem?_of_mem ht
  exact lookup_eq_matcher ((hd.indices _ _).2 ⟨t, hsome, rfl⟩) hsome

/-- A key has no index exactly where no token has that key. -/
theorem getElem?_eq_none_iff {key : String} :
    d.indices[key]? = none ↔ ∀ t ∈ d.tokens, t.key ≠ key := by
  constructor
  · rintro h t ht rfl
    obtain ⟨index, hsome⟩ := Array.getElem?_of_mem ht
    rw [(hd.indices _ _).2 ⟨t, hsome, rfl⟩] at h
    cases h
  · intro h
    cases hkey : d.indices[key]? with
    | none => rfl
    | some index =>
        obtain ⟨t, ht, rfl⟩ := (hd.indices key index).1 hkey
        exact absurd rfl (h t (Array.mem_of_getElem? ht))

/-- A key is unregistered, or the key of some token. -/
theorem key_cases (key : String) :
    d.indices[key]? = none ∨ ∃ t ∈ d.tokens, t.key = key := by
  cases hkey : d.indices[key]? with
  | none => exact .inl rfl
  | some index =>
      obtain ⟨t, ht, hkey⟩ := (hd.indices key index).1 hkey
      exact .inr ⟨t, Array.mem_of_getElem? ht, hkey⟩

/-- A lookup finds just what the dictionary gives for the key. -/
theorem lookup_eq_found_iff {key : String} {target : Target} :
    d.lookup key = .found target ↔ d.Gives key target := by
  constructor
  · intro h
    rcases hd.key_cases key with hnone | ⟨t, ht, rfl⟩
    · rw [lookup_eq_builtin hnone] at h
      obtain ⟨b, k, rfl, hk, rfl⟩ := Lookup.builtin_eq_found.1 h
      exact .charClass (hd.getElem?_eq_none_iff.1 hnone) hk
    · rw [hd.lookup_key ht] at h
      cases hm : t.matcher with
      | expression index =>
          rw [hm] at h
          obtain rfl := Lookup.found.inj h
          exact .expression ht hm
      | primitive scan =>
          rw [hm] at h
          obtain rfl := Lookup.found.inj h
          exact .primitive ht hm
      | none =>
          rw [hm] at h
          cases h
  · intro h
    cases h with
    | expression ht hm => rw [hd.lookup_key ht, hm, Matcher.lookup]
    | primitive ht hm => rw [hd.lookup_key ht, hm, Matcher.lookup]
    | charClass hnone hk =>
        rw [lookup_eq_builtin (hd.getElem?_eq_none_iff.2 hnone)]
        exact Lookup.builtin_eq_found.2 ⟨_, _, rfl, hk, rfl⟩

/-- A reference that is linked has the target that a lookup finds. -/
theorem lookup_target {e : Expression} (he : e ∈ d.expressions.expressions)
    {key : String} {target : Target}
    (hmem : .reference key (some target) ∈ e.root.postorder) :
    d.lookup key = .found target := by
  obtain ⟨index, hget⟩ := ExpressionSet.exists_get?_of_mem he
  exact (hd.targets index e hget key _ hmem).2 target rfl

/-- In a linked dictionary, a lookup finds something for every reference,
and that is what the reference leads to. -/
theorem exists_target (hlinked : d.state = .linked) {e : Expression}
    (he : e ∈ d.expressions.expressions) {key : String} {target : Option Target}
    (hmem : .reference key target ∈ e.root.postorder) :
    ∃ t, target = some t ∧ d.lookup key = .found t := by
  obtain ⟨index, hget⟩ := ExpressionSet.exists_get?_of_mem he
  have hsome := hd.linked hlinked index e hget key target hmem
  obtain ⟨t, rfl⟩ := Option.isSome_iff_exists.1 hsome
  exact ⟨t, rfl, hd.lookup_target he hmem⟩

/-- Every reference of a linked dictionary leads to an expression that
exists, or to a primitive. -/
theorem resolved (hlinked : d.state = .linked) : d.expressions.Resolved := by
  intro e he key target hmem
  obtain ⟨t, rfl, hfound⟩ := hd.exists_target hlinked he hmem
  refine ⟨t, rfl, ?_⟩
  cases hd.lookup_eq_found_iff.1 hfound with
  | expression ht hm =>
      obtain ⟨e, he, -⟩ := hd.matchers _ ht _ hm
      exact ExpressionSet.lt_size_of_get? he
  | primitive ht hm => trivial
  | charClass hnone hk => trivial

/-- The trees of a linked dictionary are their rules, with the targets
that the dictionary gives for the keys. -/
theorem root_eq (hlinked : d.state = .linked) {e : Expression}
    (he : e ∈ d.expressions.expressions) :
    e.root.erase.retarget (fun key _ => (d.lookup key).target?) = e.root := by
  refine Node.retarget_erase fun key target hmem => ?_
  obtain ⟨t, rfl, hfound⟩ := hd.exists_target hlinked he hmem
  rw [hfound]
  rfl

end Coherent

-- ============================================================ preservation

private theorem Coherent.empty : Coherent .empty where
  indices key index := by simp [Dictionary.empty]
  ordinary t ht := absurd ht (Array.not_mem_empty t)
  matchers t ht := absurd ht (Array.not_mem_empty t)
  owners index e he := by simp [Dictionary.empty, ExpressionSet.get?,
    ExpressionSet.empty] at he
  targets index e he := by
    simp [Dictionary.empty, ExpressionSet.get?, ExpressionSet.empty] at he
  linked h := by simp [Dictionary.empty] at h

section Push

variable {t : TokenDef} {m : Matcher} {x : Option Expression}

/-- A token that is added is found by its key. -/
theorem indices_push (key : String) :
    (d.push t m x).indices[key]?
      = if t.key = key then some d.size else d.indices[key]? := by
  simp only [push, Std.HashMap.getElem?_insert, beq_iff_eq]

/-- An expression that is added is found by its key. -/
theorem indices_expressions_push (e : Expression) (key : String) :
    (d.push t m (some e)).expressions.indices[key]?
      = if e.key = key then some d.expressions.size
        else d.expressions.indices[key]? :=
  d.expressions.find?_push e key

/-- A token that is added stands behind all others. -/
theorem tokens_push (index : Nat) :
    (d.push t m x).tokens[index]?
      = if index = d.size then some ⟨t.key, d.size, m, t.keepText⟩
        else d.tokens[index]? := by
  simp only [push, Array.getElem?_push]
  rfl

/-- The tokens behind an addition are those before it and the new one. -/
private theorem mem_tokens_push {t' : Token} :
    t' ∈ (d.push t m x).tokens
      ↔ t' ∈ d.tokens ∨ t' = ⟨t.key, d.size, m, t.keepText⟩ := by
  simp only [push, Array.mem_push]

/-- A new token changes no lookup but that of its key. -/
theorem Coherent.lookup_push (hd : d.Coherent) {key : String}
    (hkey : key ≠ t.key) : (d.push t m x).lookup key = d.lookup key := by
  have hindices : (d.push t m x).indices[key]? = d.indices[key]? := by
    rw [indices_push, if_neg (Ne.symm hkey)]
  cases hindex : d.indices[key]? with
  | none =>
      rw [lookup_eq_builtin hindex, lookup_eq_builtin (hindices.trans hindex)]
  | some index =>
      obtain ⟨t', ht', -⟩ := (hd.indices key index).1 hindex
      have hne : index ≠ d.size := by
        have := (Array.getElem?_eq_some_iff.1 ht').1
        exact Nat.ne_of_lt this
      have htokens : (d.push t m x).tokens[index]? = some t' := by
        rw [tokens_push, if_neg hne, ht']
      rw [lookup_eq_matcher hindex ht',
        lookup_eq_matcher (hindices.trans hindex) htokens]

/-- What is compiled stays in its place. -/
theorem get?_push {index : Nat} {e : Expression}
    (he : d.expressions.get? index = some e) :
    (d.push t m x).expressions.get? index = some e := by
  have hindex := ExpressionSet.lt_size_of_get? he
  cases x with
  | none => exact he
  | some new =>
      exact (d.expressions.get?_push new index).trans
        ((if_neg (Nat.ne_of_lt hindex)).trans he)

/-- What is compiled anew has the next place. -/
theorem get?_push_new (e : Expression) :
    (d.push t m (some e)).expressions.get? d.expressions.size = some e :=
  (d.expressions.get?_push e _).trans (if_pos rfl)

/-- An expression after a registration was there before, or is the one
that was compiled. -/
theorem of_get?_push {index : Nat} {e : Expression}
    (he : (d.push t m x).expressions.get? index = some e) :
    d.expressions.get? index = some e
      ∨ (index = d.expressions.size ∧ x = some e) := by
  cases x with
  | none => exact .inl he
  | some new =>
      have he := (d.expressions.get?_push new index).symm.trans he
      split at he
      · rename_i hindex
        exact .inr ⟨hindex, he⟩
      · exact .inl he

/-- Adding a token that is admitted keeps a dictionary coherent. -/
theorem Coherent.push (hd : d.Coherent) (ht : d.Admits t m x) :
    (d.push t m x).Coherent where
  indices key index := by
    rw [indices_push, tokens_push]
    by_cases hkey : t.key = key
    · rw [if_pos hkey]
      constructor
      · intro h
        obtain rfl := Option.some.inj h
        exact ⟨_, if_pos rfl, hkey⟩
      · rintro ⟨t', ht', hkey'⟩
        by_cases hindex : index = d.size
        · rw [hindex]
        · rw [if_neg hindex] at ht'
          have hnone :=
            hd.getElem?_eq_none_iff.1 ht.fresh t' (Array.mem_of_getElem? ht')
          exact absurd (hkey'.trans hkey.symm) hnone
    · rw [if_neg hkey, hd.indices]
      by_cases hindex : index = d.size
      · have hnone : d.tokens[index]? = none := by
          rw [Array.getElem?_eq_none_iff, hindex]
          exact Nat.le_refl _
        simp [hindex, hkey]
        simp [← hindex, hnone]
      · rw [if_neg hindex]
  ordinary t' ht' := by
    rcases mem_tokens_push.1 ht' with ht' | rfl
    · exact hd.ordinary t' ht'
    · exact ht.ordinary
  matchers t' ht' index hm := by
    rcases mem_tokens_push.1 ht' with ht' | rfl
    · obtain ⟨e, he, hkey⟩ := hd.matchers t' ht' index hm
      exact ⟨e, get?_push he, hkey⟩
    · rcases compile_cases ht.compiled with ⟨⟨-, rfl⟩ | ⟨scan, -, rfl⟩, -⟩
        | ⟨text, root, -, rfl, rfl, -⟩
      · cases hm
      · cases hm
      · obtain rfl := Matcher.expression.inj hm
        exact ⟨⟨t.key, root⟩, get?_push_new _, rfl⟩
  owners index e he := by
    rcases of_get?_push he with he | ⟨rfl, rfl⟩
    · obtain ⟨t', ht', hkey, hm⟩ := hd.owners index e he
      exact ⟨t', mem_tokens_push.2 (.inl ht'), hkey, hm⟩
    · rcases compile_cases ht.compiled
        with ⟨-, hx⟩ | ⟨text, root, -, rfl, hx, -⟩
      · cases hx
      · obtain rfl := Option.some.inj hx
        exact ⟨_, mem_tokens_push.2 (.inr rfl), rfl, rfl⟩
  targets index e he := by
    rcases of_get?_push he with he | ⟨rfl, rfl⟩
    · refine (hd.targets index e he).mono fun key target h =>
        ⟨h.1, fun t' ht' => ?_⟩
      have hfound := h.2 t' ht'
      rw [hd.lookup_push (ht.ne_of_lookup hfound)]
      exact hfound
    · rcases compile_cases ht.compiled
        with ⟨-, hx⟩ | ⟨text, root, -, rfl, hx, hroot⟩
      · cases hx
      · obtain rfl := Option.some.inj hx
        -- the rule's references to its own key find the new token
        have hown : ∀ x,
          (d.push t (.expression d.expressions.size) x).lookup t.key
            = .found (.expression d.expressions.size) := fun x =>
          lookup_eq_matcher ((indices_push _).trans (if_pos rfl))
            ((tokens_push _).trans (if_pos rfl))
        refine Rule.parse_references (fun word => ?_) hroot
        refine Node.references_reference.2 ⟨fun hkey => if_pos hkey,
          fun t' ht' => ?_⟩
        split at ht'
        · rename_i hkey
          obtain rfl := Option.some.inj ht'
          rw [hkey]
          exact hown _
        · cases ht'
  linked h := by cases h

end Push

/-- A registration keeps a dictionary coherent, also one that fails. -/
private theorem Coherent.register (hd : d.Coherent) (t : TokenDef) :
    (d.register t).1.Coherent := by
  rcases register_cases d t with ⟨e, h⟩ | ⟨m, x, ht, h⟩
  · rw [h]
    exact hd
  · rw [h]
    exact hd.push ht

/-- So does an import. -/
private theorem Coherent.importFrom (hd : d.Coherent) (lines : List Text)
    (number count : Nat) : (d.importFrom number count lines).1.Coherent := by
  induction lines generalizing d number count with
  | nil => exact hd
  | cons line rest ih =>
      unfold Dictionary.importFrom
      split
      · exact hd
      · exact ih hd _ _
      · rename_i l _
        have hnext := hd.register ⟨l.key, .rule l.rule, l.keepText⟩
        split
        · rename_i d' e hd'
          rw [hd'] at hnext
          exact hnext
        · rename_i d' index hd'
          rw [hd'] at hnext
          exact ih hnext _ _

-- ============================================================== linking

section Link

/-- A link changes no token. -/
@[simp] theorem tokens_link : d.link.1.tokens = d.tokens := by
  unfold link
  simp only
  split <;> rfl

/-- A link changes no key. -/
@[simp] theorem indices_link : d.link.1.indices = d.indices := by
  unfold link
  simp only
  split <;> rfl

/-- The expressions behind a link are those of its pass. -/
@[simp] theorem expressions_link : d.link.1.expressions = d.linkPass.set := by
  unfold link
  simp only
  split <;> rfl

/-- A link does not change what is found. -/
@[simp] theorem lookup_link (key : String) :
    d.link.1.lookup key = d.lookup key := by
  simp only [lookup, indices_link, tokens_link]

/-- A link succeeds where its pass does not stop. -/
theorem link_eq_ok_iff : d.link.2 = .ok () ↔ d.linkPass.failure = none := by
  unfold link
  simp only
  split
  · rename_i e he
    simp [he]
  · rename_i hnone
    simp [hnone]

/-- A link fails with what its pass stops at. -/
theorem link_eq_error_iff {e : Error} :
    d.link.2 = .error e ↔ d.linkPass.failure = some e := by
  unfold link
  simp only
  split
  · rename_i e' he
    simp [he]
  · rename_i hnone
    simp [hnone]

/-- Linking succeeds exactly if every reference is to the rule's own key,
or the dictionary gives something for its key. -/
theorem link_succeeds_iff : d.link.2 = .ok () ↔ ∀ e ∈ d.expressions.expressions,
    e.root.References fun key _ => Resolvable d.lookup e.key key :=
  link_eq_ok_iff.trans ExpressionSet.link_failure_eq_none_iff

/-- A dictionary is linked behind a link if it was before, or if the link
succeeds. -/
theorem state_link :
    d.link.1.state = .linked ↔ d.state = .linked ∨ d.link.2 = .ok () := by
  unfold link
  simp only
  split
  · simp
  · simp

/-- What holds of the references of an expression before a pass, and of
those that the lookup gives a target, holds of them behind the pass,
however far it has come. -/
theorem references_link {P : String → String → Option Target → Prop}
    {index : Nat}
    (hbefore : ∀ e, d.expressions.get? index = some e →
      e.root.References (P e.key))
    (hfound : ∀ owner key new, key ≠ owner → d.lookup key = .found new →
      P owner key (some new)) {e : Expression}
    (he : d.link.1.expressions.get? index = some e) :
    e.root.References (P e.key) := by
  rw [expressions_link] at he
  obtain ⟨before, l, hget, rfl⟩ := ExpressionSet.of_get?_link he
  refine Node.link_references (fun key target l h => ?_) before.root l
    (hbefore before hget)
  exact linkReference_references h fun new howner hnew =>
    hfound before.key key new howner hnew

/-- Behind a pass that succeeded, every expression has just the targets
that the lookup finds. -/
theorem get?_link_of_ok (h : d.link.2 = .ok ()) (index : Nat) :
    d.link.1.expressions.get? index = (d.expressions.get? index).map fun e =>
      ⟨e.key, e.root.retarget (relinked d.lookup e.key)⟩ := by
  rw [expressions_link]
  exact ExpressionSet.get?_link_of_ok (link_eq_ok_iff.1 h) index

/-- A link keeps a dictionary coherent, also one that fails. -/
theorem Coherent.link (hd : d.Coherent) : d.link.1.Coherent where
  indices key index := by
    rw [indices_link, tokens_link]
    exact hd.indices key index
  ordinary t ht := by
    rw [tokens_link] at ht
    exact hd.ordinary t ht
  matchers t ht index hm := by
    rw [tokens_link] at ht
    obtain ⟨e, he, hkey⟩ := hd.matchers t ht index hm
    obtain ⟨l, hl⟩ := ExpressionSet.get?_link d.lookup he
    rw [expressions_link]
    exact ⟨_, hl, hkey⟩
  owners index e he := by
    rw [expressions_link] at he
    obtain ⟨before, l, hget, rfl⟩ := ExpressionSet.of_get?_link he
    rw [tokens_link]
    exact hd.owners index before hget
  targets index e he := by
    refine references_link (P := fun owner key target =>
      (key = owner → target = some (.expression index))
        ∧ ∀ t, target = some t → d.link.1.lookup key = .found t) ?_ ?_ he
    · intro before hbefore
      simp only [lookup_link]
      exact hd.targets index before hbefore
    · intro owner key new howner hnew
      refine ⟨fun h => absurd h howner, fun t ht => ?_⟩
      obtain rfl := Option.some.inj ht
      rw [lookup_link, hnew]
  linked hstate index e he := by
    rcases state_link.1 hstate with hbefore | hok
    · refine references_link (P :=
        fun _ _ target => target.isSome = true) ?_ ?_ he
      · exact hd.linked hbefore index
      · exact fun _ _ _ _ _ => rfl
    · rw [get?_link_of_ok hok] at he
      obtain ⟨before, hget, rfl⟩ := Option.map_eq_some_iff.1 he
      have hresolvable :=
        link_succeeds_iff.1 hok before (ExpressionSet.mem_of_get? hget)
      have htargets := hd.targets index before hget
      refine Node.references_retarget.2 fun key target hmem => ?_
      refine relinked_isSome (hresolvable key target hmem) fun howner => ?_
      rw [(htargets key target hmem).1 howner]
      rfl

end Link

/-- All dictionaries are coherent. -/
theorem Built.coherent (h : d.Built P) : d.Coherent := by
  induction h with
  | empty => exact .empty
  | register _ t _ ih => exact ih.register t
  | importLines _ lines ih => exact ih.importFrom lines 1 0
  | link _ ih => exact ih.link
  | withRetention _ r ih =>
      exact ⟨ih.indices, ih.ordinary, ih.matchers, ih.owners, ih.targets,
        ih.linked⟩

end Dictionary

end Munch
