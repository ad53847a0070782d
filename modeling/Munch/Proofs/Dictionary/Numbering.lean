/-
Codes, keys and expressions of a dictionary, and that its look-ups agree.

A dictionary keeps three lists that have to run in step: the tokens,
whose places are their codes, the index of their keys, and the
expressions of those that were registered with a rule, which have an
index of their own. `Coherent` ties the keys to the tokens; here
`Numbered` ties the rest to the order of registration, up to the last
code there is.

A registration preserves it (`Numbered.push`), and so does a whole list
of them (`Registers.numbered`). Links and failures change nothing that it
speaks of, so it is carried over to every dictionary from the one that
the successful registrations alone would have made (`Alike.numbered`),
and with it what token each of them has made (`Alike.made`).

The main result is `run_registry`.
-/
import Mathlib.Data.List.Nodup
import Mathlib.Tactic.IntervalCases
import Munch.Proofs.Dictionary.Replay

namespace Munch

namespace ExpressionSet

/-- The keys of a set's expressions, in order. -/
def keys (s : ExpressionSet) : List String := s.expressions.toList.map (·.key)

/-- There is one key for each expression. -/
@[simp] theorem length_keys (s : ExpressionSet) : s.keys.length = s.size := by
  simp [keys, size]

/-- An expression that is added has its key at the end. -/
@[simp] theorem keys_push (s : ExpressionSet) (e : Expression) :
    (s.push e).keys = s.keys ++ [e.key] := by
  simp [keys, push]

/-- Targets play no part in the keys. -/
@[simp] theorem keys_erase (s : ExpressionSet) : s.erase.keys = s.keys := by
  simp [keys, erase, retarget, Expression.retarget]

end ExpressionSet

/-- The key of a token that matches by an expression, and the index of
the expression. -/
def Token.rule? (t : Token) : Option (String × Nat) :=
  match t.matcher with
  | .expression index => some (t.key, index)
  | _ => none

-- ============================================================ built-in codes

/-- A code is that of a built-in or of none. -/
private theorem Builtin.ofCode?_eq_some_iff {code : Int} {b : Builtin} :
    Builtin.ofCode? code = some b ↔ b.code = code := by
  constructor
  · intro h
    have hcode := List.find?_some h
    simpa using hcode
  · rintro rfl
    exact Builtin.ofCode?_code b

/-- The built-in codes are the eight below zero. -/
theorem Builtin.exists_code_iff {code : Int} :
    (∃ b : Builtin, b.code = code) ↔ -8 ≤ code ∧ code < 0 := by
  constructor
  · rintro ⟨b, rfl⟩
    cases b <;> decide
  · rintro ⟨hlow, hneg⟩
    have hfound : (Builtin.ofCode? code).isSome = true := by
      interval_cases code <;> decide
    obtain ⟨b, hb⟩ := Option.isSome_iff_exists.1 hfound
    exact ⟨b, Builtin.ofCode?_eq_some_iff.1 hb⟩

namespace Dictionary

variable {d d' : Dictionary} {t : TokenDef} {m : Matcher}
  {x : Option Expression}

-- ============================================================ the invariant

/-- Tokens and expressions are numbered in the order of registration. -/
structure Numbered (d : Dictionary) : Prop where
  /-- There is a code for each token. -/
  room : d.size ≤ Error.largestCode + 1
  codes : ∀ (index : Nat) (t : Token), d.tokens[index]? = some t →
    t.code = index
  /-- The expressions are those of the tokens that have one, in order. -/
  rules : d.tokens.toList.filterMap Token.rule? = d.expressions.keys.zipIdx
  /-- The index of a rule's key is that of the expression with the key. -/
  names : ∀ key index, d.expressions.indices[key]? = some index
    ↔ ∃ e, d.expressions.get? index = some e ∧ e.key = key

private theorem numbered_empty : empty.Numbered where
  room := Nat.zero_le _
  codes index t ht := by simp [empty] at ht
  rules := rfl
  names key index := by simp [empty, ExpressionSet.empty, ExpressionSet.get?]

/-- A rule is compiled only under a key that no expression has. -/
theorem fresh_of_compile {key : String} {text : Text}
    (h : d.compile key (.rule text) = .ok (m, x)) :
    d.expressions.indices[key]? = none := by
  cases hkey : d.expressions.indices[key]? with
  | none => rfl
  | some index =>
      have hcontains : d.expressions.indices.contains key = true := by
        rw [Std.HashMap.contains_eq_isSome_getElem?, hkey]
        rfl
      simp [compile, ExpressionSet.compile, hcontains] at h

/-- A token that is added has the next number. -/
theorem Numbered.push (hd : d.Numbered) (ht : d.Admits t m x) :
    (d.push t m x).Numbered where
  room := by
    have hroom := ht.room
    unfold Dictionary.push Dictionary.size at *
    simp only [Array.size_push]
    omega
  codes index t' ht' := by
    rw [tokens_push] at ht'
    by_cases hindex : index = d.size
    · rw [if_pos hindex] at ht'
      obtain rfl := Option.some.inj ht'
      rw [hindex]
    · rw [if_neg hindex] at ht'
      exact hd.codes index t' ht'
  rules := by
    have hrules := hd.rules
    rcases compile_cases ht.compiled
      with ⟨hm, rfl⟩ | ⟨text, root, -, rfl, rfl, -⟩
    · have hnone : Token.rule? ⟨t.key, d.size, m, t.keepText⟩ = none := by
        rcases hm with ⟨-, rfl⟩ | ⟨scan, -, rfl⟩
        · rfl
        · rfl
      simp [Dictionary.push, List.filterMap_append, hrules, hnone]
    · simp [Dictionary.push, List.filterMap_append, hrules, Token.rule?,
        List.zipIdx_append]
  names key index := by
    rcases compile_cases ht.compiled
      with ⟨-, rfl⟩ | ⟨text, root, hbody, rfl, rfl, -⟩
    · exact hd.names key index
    · have hcompiled := ht.compiled
      rw [hbody] at hcompiled
      have hfresh := fresh_of_compile hcompiled
      rw [indices_expressions_push]
      constructor
      · intro h
        split at h
        · rename_i hkey
          obtain rfl := Option.some.inj h
          exact ⟨⟨t.key, root⟩, get?_push_new _, hkey⟩
        · obtain ⟨e, he, hkey⟩ := (hd.names key index).1 h
          exact ⟨e, get?_push he, hkey⟩
      · rintro ⟨e, he, rfl⟩
        rcases of_get?_push he with hbefore | ⟨rfl, hnew⟩
        · have hindex := (hd.names e.key index).2 ⟨e, hbefore, rfl⟩
          have hne : t.key ≠ e.key := by
            intro hkey
            rw [← hkey, hfresh] at hindex
            cases hindex
          rw [if_neg hne, hindex]
        · obtain rfl := Option.some.inj hnew
          exact if_pos rfl

/-- Registrations number their tokens in order. -/
theorem Registers.numbered {last : Dictionary} {ts : List TokenDef}
    (h : Registers d ts last) (hd : d.Numbered) : last.Numbered := by
  induction h with
  | nil => exact hd
  | cons first _ ih =>
      obtain ⟨m, x, ht, rfl⟩ := exists_admits_of_register first
      exact ih (hd.push ht)

/-- Targets play no part in the numbering. -/
theorem Alike.numbered (h : Alike d d') (hd : d'.Numbered) : d.Numbered where
  room := by
    have hroom := hd.room
    unfold Dictionary.size at *
    rw [h.tokens]
    exact hroom
  codes index t ht := by
    rw [h.tokens] at ht
    exact hd.codes index t ht
  rules := by
    have hkeys := congrArg ExpressionSet.keys h.expressions
    rw [ExpressionSet.keys_erase, ExpressionSet.keys_erase] at hkeys
    rw [h.tokens, hkeys]
    exact hd.rules
  names key index := by
    rw [h.keys, hd.names]
    constructor
    · rintro ⟨e, he, rfl⟩
      obtain ⟨e', he', hkey, -⟩ := h.symm.exists_expression he
      exact ⟨e', he', hkey⟩
    · rintro ⟨e, he, rfl⟩
      obtain ⟨e', he', hkey, -⟩ := h.exists_expression he
      exact ⟨e', he', hkey⟩

-- =============================================== what tokens are made of

/-- A token is what a definition was registered as. If that has a rule,
the token's expression is what is read from the rule, perhaps with other
references linked. -/
inductive Made (d : Dictionary) : TokenDef → Token → Prop
  | rule {key : String} {text : Text} {keepText : Bool} {code : Int}
      {index : Nat} {root tree : Node}
      (parsed : Rule.parse ⟨key, index⟩ text = .ok root)
      (compiled : d.expressions.get? index = some ⟨key, tree⟩)
      (same : tree.erase = root.erase) :
      d.Made ⟨key, .rule text, keepText⟩
        ⟨key, code, .expression index, keepText⟩
  | primitive {key : String} {scan : Primitive} {keepText : Bool} {code : Int} :
      d.Made ⟨key, .primitive scan, keepText⟩
        ⟨key, code, .primitive scan, keepText⟩
  | empty {key : String} {keepText : Bool} {code : Int} :
      d.Made ⟨key, .empty, keepText⟩ ⟨key, code, .none, keepText⟩

/-- A token stays made of its definition when others are added. -/
theorem Made.push {t' : TokenDef} {token : Token} (h : d.Made t' token) :
    (d.push t m x).Made t' token := by
  cases h with
  | rule parsed compiled same => exact .rule parsed (get?_push compiled) same
  | primitive => exact .primitive
  | empty => exact .empty

/-- A definition makes the token that is added for it. -/
theorem Admits.made (ht : d.Admits t m x) :
    (d.push t m x).Made t ⟨t.key, d.size, m, t.keepText⟩ := by
  obtain ⟨key, body, keepText⟩ := t
  rcases compile_cases ht.compiled with ⟨⟨rfl, rfl⟩ | ⟨scan, rfl, rfl⟩, rfl⟩
    | ⟨text, root, rfl, rfl, rfl, hroot⟩
  · exact .empty
  · exact .primitive
  · exact .rule hroot (get?_push_new _) rfl

/-- Registrations make a token of each definition, in order. -/
theorem Registers.made {last : Dictionary} {ts before : List TokenDef}
    (h : Registers d ts last)
    (hd : List.Forall₂ d.Made before d.tokens.toList) :
    List.Forall₂ last.Made (before ++ ts) last.tokens.toList := by
  induction h generalizing before with
  | nil =>
      rw [List.append_nil]
      exact hd
  | @cons d next last t ts index first _ ih =>
      obtain ⟨m, x, ht, rfl⟩ := exists_admits_of_register first
      have hpush : List.Forall₂ (d.push t m x).Made (before ++ [t])
          (d.tokens.toList ++ [⟨t.key, d.size, m, t.keepText⟩]) :=
        List.rel_append (hd.imp fun _ _ h => h.push) (.cons ht.made .nil)
      have hnext : List.Forall₂ (d.push t m x).Made (before ++ [t])
          (d.push t m x).tokens.toList := by
        simpa [Dictionary.push] using hpush
      have hlast := ih hnext
      rw [List.append_assoc] at hlast
      exact hlast

/-- Dictionaries that are alike have tokens made of the same definitions. -/
theorem Alike.made (h : Alike d d') {token : Token} (ht : d'.Made t token) :
    d.Made t token := by
  cases ht with
  | rule parsed compiled same =>
      obtain ⟨⟨_, tree⟩, he, rfl, htree⟩ := h.symm.exists_expression compiled
      exact .rule parsed he (htree.trans same)
  | primitive => exact .primitive
  | empty => exact .empty

-- ================================================================ look-ups

section LookUp

variable {key : String} {code : Int} {token : Token}

/-- A key has one index, so no two tokens share it. -/
theorem Coherent.keys_nodup (hd : d.Coherent) :
    (d.tokens.toList.map (·.key)).Nodup := by
  refine List.nodup_iff_getElem?_ne_getElem?.2 fun i j hij hj hsame => ?_
  rw [List.length_map, Array.length_toList] at hj
  have hi := Nat.lt_trans hij hj
  have hkey : d.tokens[i].key = d.tokens[j].key := by
    simpa [hi, hj] using hsame
  have hindex := (hd.indices _ i).2 ⟨_, Array.getElem?_eq_getElem hi, hkey⟩
  have hindex' := (hd.indices _ j).2 ⟨_, Array.getElem?_eq_getElem hj, rfl⟩
  rw [hindex] at hindex'
  have := Option.some.inj hindex'
  omega

/-- A look-up by key finds the registered token of that key, or else the
built-in one. -/
theorem Coherent.byKey_eq_ok_iff (hd : d.Coherent) : d.byKey key = .ok token
    ↔ (token ∈ d.tokens ∧ token.key = key) ∨ ∃ b,
      Builtin.key b = key ∧ token = b.token := by
  unfold byKey
  cases hkey : d.indices[key]? with
  | none =>
      have hunregistered := hd.getElem?_eq_none_iff.1 hkey
      simp only
      constructor
      · intro h
        split at h
        · rename_i b hb
          exact .inr ⟨b, Builtin.ofKey?_eq_some_iff.1 hb,
            (Except.ok.inj h).symm⟩
        · cases h
      · rintro (⟨htoken, hsame⟩ | ⟨b, rfl, rfl⟩)
        · exact absurd hsame (hunregistered token htoken)
        · simp
  | some index =>
      obtain ⟨t, ht, rfl⟩ := (hd.indices key index).1 hkey
      have hfound : d.token index = .ok t := by
        unfold Dictionary.token
        rw [ht]
      simp only [hfound, Except.ok.injEq]
      constructor
      · rintro rfl
        exact .inl ⟨Array.mem_of_getElem? ht, rfl⟩
      · rintro (⟨htoken, hsame⟩ | ⟨b, hb, -⟩)
        · -- a key has one index, so one token
          obtain ⟨other, hother⟩ := Array.getElem?_of_mem htoken
          have hindex := (hd.indices t.key other).2 ⟨token, hother, hsame⟩
          rw [hkey] at hindex
          obtain rfl := Option.some.inj hindex
          rw [ht] at hother
          exact Option.some.inj hother
        · have hordinary := hd.ordinary t (Array.mem_of_getElem? ht)
          rw [← hb, Builtin.ofKey?_key] at hordinary
          cases hordinary

/-- A look-up by code finds the token with that code. -/
theorem Numbered.byCode_eq_ok_iff (hd : d.Numbered) : d.byCode code = .ok token
    ↔ (token ∈ d.tokens ∧ token.code = code) ∨ ∃ b,
      Builtin.code b = code ∧ token = b.token := by
  unfold byCode
  by_cases hneg : code < 0
  · simp only [if_pos hneg]
    constructor
    · intro h
      split at h
      · rename_i t hfound
        obtain ⟨b, hb, rfl⟩ := Option.map_eq_some_iff.1 hfound
        exact .inr ⟨b, Builtin.ofCode?_eq_some_iff.1 hb, (Except.ok.inj h).symm⟩
      · cases h
    · rintro (⟨htoken, hcode⟩ | ⟨b, rfl, rfl⟩)
      · obtain ⟨index, ht⟩ := Array.getElem?_of_mem htoken
        have := hd.codes index token ht
        omega
      · simp
  · simp only [if_neg hneg]
    constructor
    · intro h
      split at h
      · rename_i t ht
        obtain rfl := Except.ok.inj h
        refine .inl ⟨Array.mem_of_getElem? ht, ?_⟩
        rw [hd.codes _ _ ht]
        omega
      · cases h
    · rintro (⟨htoken, rfl⟩ | ⟨b, rfl, -⟩)
      · obtain ⟨index, ht⟩ := Array.getElem?_of_mem htoken
        rw [hd.codes index token ht, Int.toNat_natCast, ht]
      · exact absurd b.code_neg hneg

/-- The codes that name a token are the built-in ones and those of the
registered tokens. -/
theorem Numbered.exists_byCode_iff (hd : d.Numbered) :
    (∃ token, d.byCode code = .ok token) ↔ -8 ≤ code ∧ code < d.size := by
  simp only [hd.byCode_eq_ok_iff]
  constructor
  · rintro ⟨token, ⟨htoken, rfl⟩ | ⟨b, hb, -⟩⟩
    · obtain ⟨index, ht⟩ := Array.getElem?_of_mem htoken
      have hlt : index < d.size := (Array.getElem?_eq_some_iff.1 ht).1
      have := hd.codes index token ht
      omega
    · have := Builtin.exists_code_iff.1 ⟨b, hb⟩
      omega
  · rintro ⟨hlow, hhigh⟩
    by_cases hneg : code < 0
    · obtain ⟨b, hb⟩ := Builtin.exists_code_iff.2 ⟨hlow, hneg⟩
      exact ⟨b.token, .inr ⟨b, hb, rfl⟩⟩
    · have hlt : code.toNat < d.tokens.size := by
        unfold Dictionary.size at hhigh
        omega
      refine ⟨d.tokens[code.toNat], .inl ⟨Array.getElem_mem hlt, ?_⟩⟩
      rw [hd.codes _ _ (Array.getElem?_eq_getElem hlt)]
      omega

end LookUp

-- ============================================================ at any time

/-- The registry of the dictionary that a run of operations has made. -/
structure Registry (ops : List Operation) : Prop where
  /-- Every successful registration has made a token, and nothing else
  has. -/
  made : List.Forall₂ (empty.run ops).Made (empty.history ops)
    (empty.run ops).tokens.toList
  room : (empty.run ops).size ≤ 32768
  /-- The code of a token is its place. -/
  codes : ∀ (index : Nat) (t : Token), (empty.run ops).tokens[index]? = some t →
    t.code = index
  /-- No two tokens have one key, and none has a built-in's. -/
  distinct : ((empty.run ops).tokens.toList.map (·.key)).Nodup
  ordinary : ∀ t ∈ (empty.run ops).tokens, ∀ b, t.key ≠ Builtin.key b
  /-- The index of a key is the place of the token with the key. -/
  indices : ∀ key index, (empty.run ops).indices[key]? = some index
    ↔ ∃ t : Token, (empty.run ops).tokens[index]? = some t ∧ t.key = key
  /-- The expressions are those of the tokens that match by one: in their
  order, under their keys, each at the index that the token has for it. -/
  rules : (empty.run ops).tokens.toList.filterMap Token.rule?
    = (empty.run ops).expressions.keys.zipIdx
  names : ∀ key index, (empty.run ops).expressions.indices[key]? = some index
    ↔ ∃ e, (empty.run ops).expressions.get? index = some e ∧ e.key = key
  /-- No registered token passes for a built-in one. -/
  registered : ∀ t ∈ (empty.run ops).tokens, t.builtin? = none
  /-- The keys that are known are those of the registered tokens and of
  the built-ins. -/
  known : ∀ key, (∃ t, (empty.run ops).byKey key = .ok t)
    ↔ (∃ t ∈ (empty.run ops).tokens, t.key = key) ∨ ∃ b, Builtin.key b = key
  /-- What is found by a key is found by its code. -/
  byKey : ∀ key t, (empty.run ops).byKey key = .ok t →
    t.key = key ∧ (empty.run ops).byCode t.code = .ok t
  /-- The codes that are known are those from the last built-in's to that
  of the last token. -/
  range : ∀ code, (∃ t, (empty.run ops).byCode code = .ok t)
    ↔ -8 ≤ code ∧ code < (empty.run ops).size
  /-- What is found by a code is found by its key. -/
  byCode : ∀ code t, (empty.run ops).byCode code = .ok t →
    t.code = code ∧ (empty.run ops).byKey t.key = .ok t

/-- So is every dictionary registered. -/
theorem run_registry (ops : List Operation) : Registry ops := by
  have hd : (empty.run ops).Coherent := coherent_run ops
  obtain ⟨fresh, hfresh, halike⟩ := alike_run ops (.refl empty)
  have hn : (empty.run ops).Numbered :=
    halike.numbered (hfresh.numbered numbered_empty)
  have hempty : List.Forall₂ empty.Made [] empty.tokens.toList := .nil
  have hmade : List.Forall₂ fresh.Made (empty.history ops)
      fresh.tokens.toList :=
    hfresh.made hempty
  have hsound : (empty.run ops).Sound fun _ => True :=
    (Built.empty.run ops).sound fun _ => trivial
  refine ⟨?_, hn.room, hn.codes, ?_, ?_, hd.indices, hn.rules, hn.names, ?_, ?_,
    ?_, ?_, ?_⟩
  · rw [halike.tokens]
    exact hmade.imp fun _ _ h => halike.made h
  · exact hd.keys_nodup
  · intro t ht b hb
    have hordinary := hd.ordinary t ht
    rw [hb, Builtin.ofKey?_key] at hordinary
    cases hordinary
  · exact fun t ht => if_neg (Int.not_lt.2 (hsound.codes t ht))
  · intro key
    simp only [hd.byKey_eq_ok_iff]
    constructor
    · rintro ⟨t, ⟨ht, hkey⟩ | ⟨b, hb, -⟩⟩
      · exact .inl ⟨t, ht, hkey⟩
      · exact .inr ⟨b, hb⟩
    · rintro (⟨t, ht, hkey⟩ | ⟨b, hb⟩)
      · exact ⟨t, .inl ⟨ht, hkey⟩⟩
      · exact ⟨b.token, .inr ⟨b, hb, rfl⟩⟩
  · intro key t h
    rw [hn.byCode_eq_ok_iff]
    rcases hd.byKey_eq_ok_iff.1 h with ⟨ht, hkey⟩ | ⟨b, hb, rfl⟩
    · exact ⟨hkey, .inl ⟨ht, rfl⟩⟩
    · exact ⟨hb, .inr ⟨b, rfl, rfl⟩⟩
  · exact fun code => hn.exists_byCode_iff
  · intro code t h
    rw [hd.byKey_eq_ok_iff]
    rcases hn.byCode_eq_ok_iff.1 h with ⟨ht, hcode⟩ | ⟨b, hb, rfl⟩
    · exact ⟨hcode, .inl ⟨ht, rfl⟩⟩
    · exact ⟨hb, .inr ⟨b, rfl, rfl⟩⟩

end Dictionary

end Munch
