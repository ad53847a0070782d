/-
Dictionaries to which tokens were added.

When more tokens are registered with a linked dictionary, and the result
is linked again, then the tokens that were there keep their places, and
so do the expressions, with every target they had: a link finds for each
reference what was found before (`Registers.extends`). Matching calls
nothing else, so under each bound on the depth of calls a token is
answered as it was (`Extends.captureWithin_eq`).
-/
import Munch.Proofs.Dictionary.Linkage
import Munch.Proofs.Expr.Extension
import Munch.Scan.Step

namespace Munch

namespace Dictionary

variable {d d' mid : Dictionary}

/-- A linked dictionary is part of another, in which every token and
every expression has its place. -/
structure Extends (d d' : Dictionary) : Prop where
  linked : d.state = .linked
  linked' : d'.state = .linked
  retention : d'.retention = d.retention
  tokens : ∀ (index : Nat) (t : Token), d.tokens[index]? = some t →
    d'.tokens[index]? = some t
  expressions : d.expressions.Included d'.expressions
  resolved : d.expressions.Resolved
  /-- The expressions of tokens exist. -/
  matchers : ∀ t ∈ d.tokens, ∀ index, t.matcher = .expression index →
    index < d.expressions.size
  /-- Tokens cannot be taken for built-in ones. -/
  registered : ∀ t ∈ d.tokens, t.builtin? = none

/-- A token of a larger dictionary that is not one of the smaller. -/
def Added (d d' : Dictionary) (t : Token) : Prop :=
  ∃ index, d.size ≤ index ∧ d'.tokens[index]? = some t

-- ======================================================== registering more

/-- A token keeps its place when another is added. -/
private theorem tokens_push_of_some {t : TokenDef} {m : Matcher}
    {x : Option Expression} {index : Nat} {token : Token}
    (h : d.tokens[index]? = some token) :
    (d.push t m x).tokens[index]? = some token := by
  have hindex : index < d.size := (Array.getElem?_eq_some_iff.1 h).1
  rw [tokens_push, if_neg (Nat.ne_of_lt hindex), h]

/-- Tokens keep their places when others are registered. -/
private theorem Registers.tokens {ts : List TokenDef} (h : Registers d ts mid)
    {index : Nat} {t : Token} (ht : d.tokens[index]? = some t) :
    mid.tokens[index]? = some t := by
  induction h with
  | nil => exact ht
  | cons first _ ih =>
      obtain ⟨m, x, -, rfl⟩ := exists_admits_of_register first
      exact ih (tokens_push_of_some ht)

/-- Expressions keep their places when tokens are registered. -/
private theorem Registers.included {ts : List TokenDef}
    (h : Registers d ts mid) : d.expressions.Included mid.expressions := by
  induction h with
  | nil => exact fun _ _ he => he
  | cons first _ ih =>
      obtain ⟨m, x, -, rfl⟩ := exists_admits_of_register first
      exact fun index e he => ih index e (get?_push he)

private theorem Registers.retention {ts : List TokenDef}
    (h : Registers d ts mid) : mid.retention = d.retention := by
  induction h with
  | nil => rfl
  | cons first _ ih =>
      obtain ⟨m, x, -, rfl⟩ := exists_admits_of_register first
      exact ih

private theorem retention_link : d.link.1.retention = d.retention := by
  unfold link
  simp only
  split <;> rfl

/-- An expression whose references have the targets that a lookup finds
is left as it is by a link that succeeds. -/
theorem get?_link_of_targets (hok : d.link.2 = .ok ()) {index : Nat}
    {e : Expression} (he : d.expressions.get? index = some e)
    (htargets : ∀ key target, .reference key target ∈ e.root.postorder →
      ∃ t, target = some t ∧ d.lookup key = .found t) :
    d.link.1.expressions.get? index = some e := by
  have hroot : e.root.retarget (relinked d.lookup e.key) = e.root := by
    refine Node.retarget_eq_self fun key target hmem => ?_
    obtain ⟨t, rfl, hfound⟩ := htargets key target hmem
    exact relinked_eq_self hfound
  rw [get?_link_of_ok hok, he, Option.map_some, hroot]

/-- A linked dictionary is part of what becomes of it by registrations
and a link. -/
theorem Registers.extends {ts : List TokenDef} (hd : d.Built fun _ => True)
    (hlinked : d.state = .linked) (hts : Registers d ts mid)
    (hlink : mid.link = (d', .ok ())) : d.Extends d' := by
  obtain rfl : mid.link.1 = d' := by rw [hlink]
  have hok : mid.link.2 = .ok () := by rw [hlink]
  have hmid : mid.Coherent := (hts.built hd fun _ _ _ _ => trivial).coherent
  refine ⟨hlinked, state_link.2 (.inr hok),
    retention_link.trans hts.retention, ?_, ?_,
    hd.coherent.resolved hlinked, ?_, ?_⟩
  · intro index t ht
    rw [tokens_link]
    exact hts.tokens ht
  · intro index e he
    have hmem : e ∈ mid.expressions.expressions :=
      ExpressionSet.mem_of_get? (hts.included _ _ he)
    refine get?_link_of_targets hok (hts.included index e he)
      fun key target href => ?_
    -- the target that it had is what the larger dictionary gives as well
    obtain ⟨t, rfl, -⟩ :=
      hd.coherent.exists_target hlinked (ExpressionSet.mem_of_get? he) href
    exact ⟨t, rfl, hmid.lookup_target hmem href⟩
  · intro t ht index hm
    obtain ⟨e, he, -⟩ := hd.coherent.matchers t ht index hm
    exact ExpressionSet.lt_size_of_get? he
  · intro t ht
    exact if_neg (Int.not_lt.2 ((hd.sound fun _ => trivial).codes t ht))

-- ================================================================ matching

namespace Extends

variable (h : d.Extends d')

include h

/-- The tokens of the smaller dictionary are in the larger one. -/
theorem mem {t : Token} (ht : t ∈ d.tokens) : t ∈ d'.tokens := by
  obtain ⟨index, hget⟩ := Array.getElem?_of_mem ht
  exact Array.mem_of_getElem? (h.tokens index t hget)

/-- The tokens of the larger dictionary are those of the smaller and
those that were added. -/
theorem mem_cases {t : Token} (ht : t ∈ d'.tokens) :
    t ∈ d.tokens ∨ d.Added d' t := by
  obtain ⟨index, hget⟩ := Array.getElem?_of_mem ht
  by_cases hindex : index < d.size
  · obtain ⟨t', hget'⟩ : ∃ t', d.tokens[index]? = some t' :=
      ⟨_, Array.getElem?_eq_getElem hindex⟩
    have hsame := h.tokens index t' hget'
    rw [hget] at hsame
    obtain rfl := Option.some.inj hsame
    exact .inl (Array.mem_of_getElem? hget')
  · exact .inr ⟨index, Nat.not_lt.1 hindex, hget⟩

/-- A token matches in the larger dictionary as in the smaller, under
each bound on the depth of calls. -/
theorem captureWithin_eq {t : Token} (ht : t ∈ d.tokens) (bound : Nat)
    (text : Text) (start stop : Nat) :
    t.matcher.captureWithin d'.expressions bound text start stop
      = t.matcher.captureWithin d.expressions bound text start stop := by
  cases hm : t.matcher with
  | expression index =>
      exact h.expressions.captureWithin_eq h.resolved text _ bound
        (h.matchers t ht index hm) start
  | primitive scan => rfl
  | none => rfl

/-- The settings make no difference. -/
theorem withRetention (r : Retention) :
    (d.withRetention r).Extends (d'.withRetention r) :=
  ⟨h.linked, h.linked', rfl, h.tokens, h.expressions, h.resolved, h.matchers,
    h.registered⟩

end Extends

end Dictionary

end Munch
