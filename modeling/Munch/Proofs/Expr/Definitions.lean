/-
Sets made from a list of definitions and linked against themselves.

Which lists make one, and what it is, is told by the texts alone.
A list does exactly if its keys are distinct, its rules are rules, and
every word in them is a key of the list or names a character class
(`exists_ofDefinitions_iff`). The set then has the definitions in their
order, each with the tree of its rule, in which every reference has the
target that its key has for the whole list (`Compiled`).

That holds of a rule's own key, too, though its references have their
target from the beginning, and the pass leaves them alone: it is the one
that the pass would find (`Defined.retarget_relinked`).
-/
import Mathlib.Data.List.Nodup
import Munch.Proofs.Expr.Range
import Munch.Proofs.Expr.Relink
import Munch.Proofs.Rule.Owner

namespace Munch

open Rule (Spells)

-- ============================================================ vocabulary

/-- Keys with their rules, in the order in which they are defined. -/
abbrev Definitions := List (String × Text)

namespace ExpressionSet

/-- Definitions made one after another, as long as they succeed. -/
def defineAll (s : ExpressionSet) : Definitions → Except Error ExpressionSet
  | [] => .ok s
  | (key, rule) :: rest =>
      match s.define key rule with
      | (_, .error e) => .error e
      | (next, .ok _) => next.defineAll rest

/-- A set of nothing but these definitions, linked against itself. -/
def ofDefinitions (definitions : Definitions) : Except Error ExpressionSet :=
  match empty.defineAll definitions with
  | .error e => .error e
  | .ok s =>
      match s.linkLocal.outcome with
      | .error e => .error e
      | .ok _ => .ok s.linkLocal.set

end ExpressionSet

open ExpressionSet (empty ofDefinitions)

/-- A reference to this key can be linked: it is one of the definitions'
keys, or names a character class. -/
def Definitions.Known (definitions : Definitions) (key : String) : Prop :=
  (∃ rule, (key, rule) ∈ definitions) ∨ ∃ b k,
    Builtin.key b = key ∧ b.charClass? = some k

/-- The keys of the definitions lead to their places in the list. -/
structure Indexed (definitions : Definitions) (s : ExpressionSet) : Prop where
  size : s.size = definitions.length
  keys : ∀ key index, s.find? key = some index
    ↔ ∃ rule, definitions[index]? = some (key, rule)

/-- The set has the definitions, as they were read. -/
structure Defined (definitions : Definitions) (s : ExpressionSet) : Prop
    extends Indexed definitions s where
  roots : ∀ index key rule, definitions[index]? = some (key, rule) →
    ∃ root, Spells ⟨key, index⟩ rule root ∧ s.get? index = some ⟨key, root⟩

/-- The target that a lookup finds for a reference, whatever target it
had. -/
def resolving (lookup : String → Lookup) (key : String) (_ : Option Target) :
    Option Target := (lookup key).target?

/-- The set has the definitions, all their words are known, and each
reference has the target that its key has. -/
structure Compiled (definitions : Definitions) (s : ExpressionSet) : Prop
    extends Indexed definitions s where
  roots : ∀ index key rule, definitions[index]? = some (key, rule) →
    ∃ root, Spells ⟨key, index⟩ rule root
      ∧ root.References (fun key _ => definitions.Known key)
      ∧ s.get? index = some ⟨key, root.retarget (resolving s.lookupLocal)⟩

-- =========================================================== definitions

variable {definitions more : Definitions} {s s' : ExpressionSet}
  {key : String} {rule : Text}

/-- A definition succeeds exactly if its key is new and its rule is one;
then the expression is the next one. -/
theorem define_eq_ok_iff {index : Nat} :
    s.define key rule = (s', .ok index) ↔ s.find? key = none ∧ index = s.size
      ∧ ∃ root, Spells ⟨key, s.size⟩ rule root ∧ s' = s.push ⟨key, root⟩ := by
  have hkey : s.indices.contains key = false ↔ s.find? key = none := by
    unfold ExpressionSet.find?
    rw [Std.HashMap.contains_eq_isSome_getElem?, Option.isSome_eq_false_iff,
      Option.isNone_iff_eq_none]
  unfold ExpressionSet.define ExpressionSet.compile
  simp only [← Rule.parse_eq_ok_iff]
  cases hcontains : s.indices.contains key with
  | true =>
      rw [hcontains] at hkey
      simp [← hkey]
  | false =>
      cases Rule.parse ⟨key, s.size⟩ rule with
      | error fault => simp
      | ok root => simp [hkey.1 hcontains, and_comm, eq_comm]

private theorem Defined.empty : Defined [] .empty where
  size := rfl
  keys key index := by simp [ExpressionSet.empty, ExpressionSet.find?]
  roots index key rule h := by simp at h

/-- The entries of a list with one more at its end. -/
theorem getElem?_concat_iff {α : Type} {l : List α} {a b : α} {index : Nat} :
    (l ++ [a])[index]? = some b ↔ l[index]? = some b ∨ index = l.length
      ∧ a = b := by
  rw [List.getElem?_append]
  split
  · rename_i hlt
    simp [Nat.ne_of_lt hlt]
  · rename_i hle
    have hnone : l[index]? = none := List.getElem?_eq_none (Nat.not_lt.1 hle)
    rw [hnone, List.getElem?_singleton]
    split
    · simp only [reduceCtorEq, Option.some.injEq, false_or, iff_and_self]
      omega
    · simp only [reduceCtorEq, false_or, false_iff]
      omega

/-- A definition with a new key adds its tree to the set. -/
theorem Defined.push (hs : Defined definitions s) {root : Node}
    (hkey : s.find? key = none) (hroot : Spells ⟨key, s.size⟩ rule root) :
    Defined (definitions ++ [(key, rule)]) (s.push ⟨key, root⟩) where
  size := by
    rw [ExpressionSet.push, ExpressionSet.size, Array.size_push,
      List.length_append, ← hs.size]
    rfl
  keys key' index := by
    simp only [getElem?_concat_iff, exists_or, ← hs.keys, ← hs.size,
      ExpressionSet.find?_push]
    by_cases hsame : key = key'
    · subst hsame
      simp [hkey, eq_comm]
    · simp [hsame]
  roots index key' rule' h := by
    rcases getElem?_concat_iff.1 h with hbefore | ⟨rfl, hnew⟩
    · obtain ⟨root', hroot', he⟩ := hs.roots index key' rule' hbefore
      have hindex := ExpressionSet.lt_size_of_get? he
      rw [ExpressionSet.get?_push, if_neg (Nat.ne_of_lt hindex)]
      exact ⟨root', hroot', he⟩
    · cases hnew
      rw [← hs.size, ExpressionSet.get?_push, if_pos rfl]
      exact ⟨root, hroot, rfl⟩

/-- What a list of definitions comes to, if all of them succeed. -/
theorem Defined.defineAll (hs : Defined definitions s)
    (h : s.defineAll more = .ok s') : Defined (definitions ++ more) s' := by
  induction more generalizing definitions s with
  | nil =>
      obtain rfl := Except.ok.inj h
      rwa [List.append_nil]
  | cons definition more ih =>
      obtain ⟨key, rule⟩ := definition
      unfold ExpressionSet.defineAll at h
      split at h
      · cases h
      · rename_i next index hnext
        obtain ⟨hkey, -, root, hroot, rfl⟩ := define_eq_ok_iff.1 hnext
        have hmore := ih (hs.push hkey hroot) h
        rwa [List.append_assoc] at hmore

/-- They do succeed if their keys are distinct and their rules can be
read. -/
theorem Defined.exists_defineAll (hs : Defined definitions s)
    (hkeys : ((definitions ++ more).map Prod.fst).Nodup)
    (hrules : ∀ key rule, (key, rule) ∈ more → ∃ owner root,
      Spells owner rule root) : ∃ s', s.defineAll more = .ok s' := by
  induction more generalizing definitions s with
  | nil => exact ⟨s, rfl⟩
  | cons definition more ih =>
      obtain ⟨key, rule⟩ := definition
      have hkey : s.find? key = none := by
        rw [Option.eq_none_iff_forall_ne_some]
        intro index hindex
        obtain ⟨rule', hrule'⟩ := (hs.keys key index).1 hindex
        rw [List.map_append, List.map_cons] at hkeys
        have hapart := (List.nodup_append.1 hkeys).2.2 key
          (List.mem_map.2 ⟨_, List.mem_of_getElem? hrule', rfl⟩) key
            List.mem_cons_self
        exact hapart rfl
      obtain ⟨owner, root, hroot⟩ := hrules key rule List.mem_cons_self
      have hread := hroot.of_owner ⟨key, s.size⟩
      have hdefine := define_eq_ok_iff.2 ⟨hkey, rfl, _, hread, rfl⟩
      obtain ⟨s', hs'⟩ := ih (hs.push hkey hread)
        (by rwa [List.append_assoc])
        (fun key rule hmem => hrules key rule (List.mem_cons_of_mem _ hmem))
      refine ⟨s', ?_⟩
      unfold ExpressionSet.defineAll
      rw [hdefine]
      exact hs'

namespace Indexed

variable (hs : Indexed definitions s)

include hs

/-- Keys are not defined twice. -/
theorem nodup : (definitions.map Prod.fst).Nodup := by
  rw [List.nodup_iff_getElem?_ne_getElem?]
  intro i j hij hj hsame
  obtain ⟨⟨key, rule⟩, hrule⟩ : ∃ definition,
      definitions[j]? = some definition :=
    ⟨_, List.getElem?_eq_getElem (by simpa using hj)⟩
  rw [List.getElem?_map, List.getElem?_map, hrule] at hsame
  obtain ⟨⟨key', rule'⟩, hrule', hkey⟩ := Option.map_eq_some_iff.1 hsame
  cases hkey
  have hi := (hs.keys key i).2 ⟨rule', hrule'⟩
  rw [(hs.keys key j).2 ⟨rule, hrule⟩] at hi
  exact absurd (Option.some.inj hi).symm (Nat.ne_of_lt hij)

/-- The pass finds exactly the keys that are known. -/
theorem exists_found_iff :
    (∃ target, s.lookupLocal key = .found target) ↔ definitions.Known key := by
  unfold ExpressionSet.lookupLocal Definitions.Known
  cases hkey : s.find? key with
  | none =>
      have hnone : ¬ ∃ rule, (key, rule) ∈ definitions := by
        intro ⟨rule, hmem⟩
        obtain ⟨index, hindex⟩ := List.getElem?_of_mem hmem
        rw [(hs.keys key index).2 ⟨rule, hindex⟩] at hkey
        cases hkey
      simp [hnone, Lookup.builtin_eq_found]
  | some index =>
      obtain ⟨rule, hrule⟩ := (hs.keys key index).1 hkey
      have hmem : ∃ rule, (key, rule) ∈ definitions :=
        ⟨rule, List.mem_of_getElem? hrule⟩
      simp [hmem]

end Indexed

-- ================================================================ linking

/-- The pass leaves a rule with the targets that it would find, its own
key's included. -/
theorem Defined.retarget_relinked (hs : Defined definitions s) {index : Nat}
    {root : Node} (hrule : definitions[index]? = some (key, rule))
    (hroot : Spells ⟨key, index⟩ rule root) :
    root.retarget (relinked s.lookupLocal key)
      = root.retarget (resolving s.lookupLocal) := by
  apply Node.retarget_congr
  refine Rule.parse_references (fun word => ?_)
    (Rule.parse_eq_ok_iff _ _ _ |>.2 hroot)
  refine Node.references_reference.2 ?_
  unfold relinked resolving
  by_cases hown : String.ofList word = key
  · have hfound : s.lookupLocal key = .found (.expression index) := by
      unfold ExpressionSet.lookupLocal
      rw [(hs.keys key index).2 ⟨rule, hrule⟩]
    rw [if_pos hown, if_pos hown, hown, hfound]
    rfl
  · rw [if_neg hown]

/-- The pass gets past a reference exactly if its key is known. -/
theorem Defined.resolvable_iff (hs : Defined definitions s) {owner : String}
    {index : Nat} (hrule : definitions[index]? = some (owner, rule)) :
    Resolvable s.lookupLocal owner key ↔ definitions.Known key := by
  rw [← hs.exists_found_iff]
  unfold Resolvable
  refine or_iff_right_of_imp fun hown => ?_
  subst hown
  exact hs.exists_found_iff.2 (.inl ⟨rule, List.mem_of_getElem? hrule⟩)

/-- It does not stop exactly if all words are known. -/
theorem Defined.linkLocal_failure_iff (hs : Defined definitions s) :
    s.linkLocal.failure = none ↔ ∀ index key rule root,
      definitions[index]? = some (key, rule) → Spells ⟨key, index⟩ rule root →
      root.References fun key _ => definitions.Known key := by
  refine ExpressionSet.link_failure_eq_none_iff.trans ⟨fun h => ?_, fun h => ?_⟩
  · intro index key rule root hrule hroot
    obtain ⟨root', hroot', he⟩ := hs.roots index key rule hrule
    obtain rfl := hroot.unique hroot'
    exact (h _ (ExpressionSet.mem_of_get? he)).mono fun _ _ =>
      (hs.resolvable_iff hrule).1
  · intro e he
    obtain ⟨index, hget⟩ := ExpressionSet.exists_get?_of_mem he
    have hindex : index < definitions.length := by
      rw [← hs.size]
      exact ExpressionSet.lt_size_of_get? hget
    obtain ⟨⟨key, rule⟩, hrule⟩ : ∃ definition,
        definitions[index]? = some definition :=
      ⟨_, List.getElem?_eq_getElem hindex⟩
    obtain ⟨root, hroot, hget'⟩ := hs.roots index key rule hrule
    rw [hget] at hget'
    obtain rfl := Option.some.inj hget'
    exact (h index key rule root hrule hroot).mono fun _ _ =>
      (hs.resolvable_iff hrule).2

/-- What a pass leaves that does not stop. -/
theorem Defined.compiled (hs : Defined definitions s)
    (h : s.linkLocal.failure = none) :
    Compiled definitions s.linkLocal.set where
  size := ExpressionSet.size_link.trans hs.size
  keys := hs.keys
  roots index key rule hrule := by
    obtain ⟨root, hroot, he⟩ := hs.roots index key rule hrule
    refine ⟨root, hroot, hs.linkLocal_failure_iff.1 h index key rule root hrule
      hroot, ?_⟩
    have hget := ExpressionSet.get?_link_of_ok h index
    rw [he, Option.map_some, hs.retarget_relinked hrule hroot] at hget
    exact hget

-- =============================================================== all of it

/-- Definitions make a set if each can be read and their references can be
linked. -/
private theorem ofDefinitions_eq_ok_iff :
    ofDefinitions definitions = .ok s' ↔ ∃ s,
      ExpressionSet.empty.defineAll definitions = .ok s
      ∧ s.linkLocal.failure = none ∧ s' = s.linkLocal.set := by
  unfold ofDefinitions Linked.outcome
  cases ExpressionSet.empty.defineAll definitions with
  | error e => simp
  | ok s =>
      cases hfailure : s.linkLocal.failure with
      | some e => simp [hfailure]
      | none => simp [hfailure, eq_comm]

/-- The set that a list of definitions makes. -/
theorem compiled_of_ofDefinitions (h : ofDefinitions definitions = .ok s) :
    Compiled definitions s := by
  obtain ⟨s, hdefine, hlink, rfl⟩ := ofDefinitions_eq_ok_iff.1 h
  exact (Defined.empty.defineAll hdefine).compiled hlink

/-- A list of definitions makes a set exactly if its keys are distinct,
its rules can be read, and their words are known. -/
theorem exists_ofDefinitions_iff :
    (∃ s, ofDefinitions definitions = .ok s) ↔ (definitions.map Prod.fst).Nodup
      ∧ ∀ key rule, (key, rule) ∈ definitions → ∃ owner root,
        Spells owner rule root
          ∧ root.References fun key _ => definitions.Known key := by
  refine ⟨fun ⟨s, h⟩ => ?_, fun ⟨hkeys, hrules⟩ => ?_⟩
  · have hs := compiled_of_ofDefinitions h
    refine ⟨hs.nodup, fun key rule hmem => ?_⟩
    obtain ⟨index, hrule⟩ := List.getElem?_of_mem hmem
    obtain ⟨root, hroot, hknown, -⟩ := hs.roots index key rule hrule
    exact ⟨_, root, hroot, hknown⟩
  · obtain ⟨s, hdefine⟩ :=
        Defined.empty.exists_defineAll hkeys fun key rule hmem => by
      obtain ⟨owner, root, hroot, -⟩ := hrules key rule hmem
      exact ⟨owner, root, hroot⟩
    have hs := Defined.empty.defineAll hdefine
    have hlink : s.linkLocal.failure = none := by
      refine hs.linkLocal_failure_iff.2
        fun index key rule root hrule hroot => ?_
      obtain ⟨owner, root', hroot', hknown⟩ :=
        hrules key rule (List.mem_of_getElem? hrule)
      obtain rfl := (hroot'.of_owner ⟨key, index⟩).unique hroot
      exact Node.references_retarget.2 hknown
    exact ⟨_, ofDefinitions_eq_ok_iff.2 ⟨s, hdefine, hlink, rfl⟩⟩

-- ============================================================ its references

namespace Compiled

variable (hs : Compiled definitions s)

include hs

/-- The definition behind an expression. -/
theorem exists_definition {index : Nat} (hindex : index < s.size) :
    ∃ key rule, definitions[index]? = some (key, rule) := by
  rw [hs.size] at hindex
  exact ⟨_, _, List.getElem?_eq_getElem hindex⟩

/-- Every reference leads where the set leads its key. -/
theorem references {e : Expression} (he : e ∈ s.expressions) :
    e.root.References fun key target => ∃ t,
      target = some t ∧ s.lookupLocal key = .found t := by
  obtain ⟨index, hget⟩ := ExpressionSet.exists_get?_of_mem he
  obtain ⟨key, rule, hrule⟩ :=
    hs.exists_definition (ExpressionSet.lt_size_of_get? hget)
  obtain ⟨root, -, hknown, hroot⟩ := hs.roots index key rule hrule
  rw [hget] at hroot
  obtain rfl := Option.some.inj hroot
  refine Node.references_retarget.2 (hknown.mono fun key _ hkey => ?_)
  obtain ⟨target, hfound⟩ := hs.exists_found_iff.2 hkey
  refine ⟨target, ?_, hfound⟩
  unfold resolving
  rw [hfound]
  rfl

/-- Compiled definitions leave no reference without its expression. -/
theorem resolved : s.Resolved := by
  intro e he
  refine (hs.references he).mono fun key target ⟨t, ht, hfound⟩ => ⟨t, ht, ?_⟩
  unfold ExpressionSet.lookupLocal at hfound
  split at hfound
  · rename_i index hindex
    obtain rfl := Lookup.found.inj hfound
    obtain ⟨rule, hrule⟩ := (hs.keys key index).1 hindex
    show index < s.size
    rw [hs.size]
    exact (List.getElem?_eq_some_iff.1 hrule).1
  · obtain ⟨b, k, -, -, rfl⟩ := Lookup.builtin_eq_found.1 hfound
    trivial

/-- Compiled definitions bring in no primitives but the character classes. -/
theorem primitives : s.Primitives Primitive.IsClass := by
  intro e he
  refine (hs.references he).mono fun key target ⟨t, ht, hfound⟩ scan hscan => ?_
  obtain rfl := Option.some.inj (ht.symm.trans hscan)
  unfold ExpressionSet.lookupLocal at hfound
  split at hfound
  · cases hfound
  · obtain ⟨b, k, -, -, hk⟩ := Lookup.builtin_eq_found.1 hfound
    exact ⟨k, Target.primitive.inj hk⟩

end Compiled

end Munch
