/-
Runs of operations, and what of them leaves a trace.

An operation is a registration, an import, a link or a change of the
settings, and a dictionary goes through a run of them whether they
succeed or not (`Dictionary.run`). What a run adds to the dictionary is
its `history`: the definitions that were registered successfully, by
themselves or line by line in an import, in order. An import does nothing
but add what it is said to add (`registers_imported`).

Whether a dictionary is linked can be read off the run: some link has
succeeded, and nothing was added since (`state_run_iff`).
-/
import Munch.Proofs.Dictionary.Registry

namespace Munch

/-- What can be done to a dictionary. -/
inductive Operation where
  | register (t : TokenDef)
  | importLines (lines : List Text)
  | link
  | configure (r : Retention)

/-- The token that a line of a rule file defines. -/
def RuleLine.definition (l : RuleLine) : TokenDef :=
  ⟨l.key, .rule l.rule, l.keepText⟩

namespace Dictionary

-- ============================================================== operations

/-- The dictionary behind an operation, whether it succeeded or not. -/
def apply (d : Dictionary) : Operation → Dictionary
  | .register t => (d.register t).1
  | .importLines lines => (d.importLines lines).1
  | .link => d.link.1
  | .configure r => d.withRetention r

/-- The dictionary behind operations one after another. -/
def run (d : Dictionary) (ops : List Operation) : Dictionary :=
  ops.foldl apply d

/-- The definitions that an import adds: those before the first line or
rule that cannot be read. -/
def imported (d : Dictionary) : List Text → List TokenDef
  | [] => []
  | line :: rest =>
      match RuleLine.parse line with
      | .error _ => []
      | .ok none => d.imported rest
      | .ok (some l) =>
          match d.register l.definition with
          | (_, .error _) => []
          | (d, .ok _) => l.definition :: d.imported rest

/-- The definitions that an operation adds. -/
def added (d : Dictionary) : Operation → List TokenDef
  | .register t =>
      match (d.register t).2 with
      | .error _ => []
      | .ok _ => [t]
  | .importLines lines => d.imported lines
  | .link => []
  | .configure _ => []

/-- The definitions that a run adds, in order. -/
def history (d : Dictionary) : List Operation → List TokenDef
  | [] => []
  | op :: ops => d.added op ++ (d.apply op).history ops

/-- Definitions are registered one after another, each of them
successfully, which leads from a dictionary to another. -/
inductive Registers : Dictionary → List TokenDef → Dictionary → Prop
  | nil {d : Dictionary} : Registers d [] d
  | cons {d next last : Dictionary} {t : TokenDef} {ts : List TokenDef}
      {index : Nat} (first : d.register t = (next, .ok index))
      (others : Registers next ts last) :
      Registers d (t :: ts) last

variable {d : Dictionary}

@[simp] theorem run_nil (d : Dictionary) : d.run [] = d := rfl

/-- A run begins with its first operation. -/
@[simp] theorem run_cons (d : Dictionary) (op : Operation)
    (ops : List Operation) : d.run (op :: ops) = (d.apply op).run ops :=
  rfl

/-- A run leads from a dictionary that there is to another. -/
theorem Built.run (h : d.Built fun _ => True) (ops : List Operation) :
    (d.run ops).Built fun _ => True := by
  induction ops generalizing d with
  | nil => exact h
  | cons op ops ih =>
      rw [run_cons]
      apply ih
      cases op with
      | register t => exact .register h t fun _ _ => trivial
      | importLines lines => exact .importLines h lines
      | link => exact .link h
      | configure r => exact .withRetention h r

/-- Whatever is done to the empty dictionary, it stays coherent. -/
theorem coherent_run (ops : List Operation) : (empty.run ops).Coherent :=
  (Built.empty.run ops).coherent

-- =========================================================== what is added

/-- Registrations go on where others ended. -/
theorem Registers.append {next last : Dictionary} {ts more : List TokenDef}
    (h : Registers d ts next) (hmore : Registers next more last) :
    Registers d (ts ++ more) last := by
  induction h with
  | nil => exact hmore
  | cons first _ ih => exact .cons first (ih hmore)

/-- What is made by registrations can be made. -/
theorem Registers.built {P : Primitive → Prop} {last : Dictionary}
    {ts : List TokenDef} (h : Registers d ts last) (hd : d.Built P)
    (hts : ∀ t ∈ ts, ∀ scan, t.body = .primitive scan → P scan) :
    last.Built P := by
  induction h with
  | nil => exact hd
  | @cons d next last t ts index first others ih =>
      obtain ⟨ht, hts⟩ := List.forall_mem_cons.1 hts
      have hnext := hd.register t ht
      rw [first] at hnext
      exact ih hnext hts

section Import

variable {line : Text} {l : RuleLine}
  (hline : RuleLine.parse line = .ok (some l))

include hline

/-- An import goes on behind a line whose token is added. -/
theorem importFrom_of_ok {next : Dictionary} {index : Nat}
    (h : d.register l.definition = (next, .ok index)) (number count : Nat)
    (rest : List Text) :
    d.importFrom number count (line :: rest)
      = next.importFrom (number + 1) (count + 1) rest := by
  unfold RuleLine.definition at h
  rw [importFrom, hline]
  simp only [h]

/-- An import ends at a line whose token is rejected. -/
theorem importFrom_of_error {next : Dictionary} {e : Error}
    (h : d.register l.definition = (next, .error e)) (number count : Nat)
    (rest : List Text) :
    d.importFrom number count (line :: rest) = (next, .error e) := by
  unfold RuleLine.definition at h
  rw [importFrom, hline]
  simp only [h]

end Import

/-- An import registers what it adds, and does nothing else. -/
theorem registers_imported (lines : List Text) (number count : Nat) :
    Registers d (d.imported lines) (d.importFrom number count lines).1 := by
  induction lines generalizing d number count with
  | nil => exact .nil
  | cons line rest ih =>
      cases hline : RuleLine.parse line with
      | error fault =>
          rw [imported, importFrom, hline]
          exact .nil
      | ok parsed =>
          cases parsed with
          | none =>
              rw [imported, importFrom, hline]
              exact ih _ _
          | some l =>
              rcases register_cases d l.definition with ⟨e, h⟩ | ⟨m, x, -, h⟩
              · rw [imported, importFrom_of_error hline h, hline]
                simp only [h]
                exact .nil
              · rw [imported, importFrom_of_ok hline h, hline]
                simp only [h]
                exact .cons h (ih _ _)

/-- A registration adds its definition, or changes nothing. -/
theorem registers_added (t : TokenDef) :
    Registers d (d.added (.register t)) (d.register t).1 := by
  rcases register_cases d t with ⟨e, h⟩ | ⟨m, x, -, h⟩
  · simp only [added, h]
    exact .nil
  · simp only [added, h]
    exact .cons h .nil

-- ============================================================ being linked

/-- A token that was added waits for the next link. -/
theorem state_of_register {next : Dictionary} {t : TokenDef} {index : Nat}
    (h : d.register t = (next, .ok index)) : next.state = .building := by
  obtain ⟨m, x, -, rfl⟩ := exists_admits_of_register h
  rfl

/-- Only without registrations does a dictionary stay linked. -/
private theorem Registers.state_eq {last : Dictionary} {ts : List TokenDef}
    (h : Registers d ts last) :
    last.state = .linked ↔ d.state = .linked ∧ ts = [] := by
  induction h with
  | nil => simp
  | cons first _ ih =>
      rw [ih, state_of_register first]
      simp

/-- Behind an operation a dictionary is linked if it was and nothing was
added, or if the operation has linked it. -/
theorem state_apply {op : Operation} :
    (d.apply op).state = .linked
      ↔ (d.state = .linked ∧ d.added op = [])
        ∨ (op = .link ∧ d.link.2 = .ok ()) := by
  cases op with
  | register t =>
      have h := (registers_added (d := d) t).state_eq
      simpa [apply] using h
  | importLines lines =>
      have h := (registers_imported (d := d) lines 1 0).state_eq
      simpa [apply, added, importLines] using h
  | link => simpa [apply, added] using state_link
  | configure r => simp [apply, added, withRetention]

/-- A dictionary is linked if it was before a run that has added nothing,
or if some link of the run has succeeded and nothing was added since. -/
theorem state_run_iff (ops : List Operation) :
    (d.run ops).state = .linked
      ↔ (d.state = .linked ∧ d.history ops = [])
        ∨ ∃ before after, ops = before ++ .link :: after
          ∧ (d.run before).link.2 = .ok ()
          ∧ (d.run before).link.1.history after = [] := by
  induction ops generalizing d with
  | nil => simp [history]
  | cons op ops ih =>
      rw [run_cons, ih, state_apply, history, List.append_eq_nil_iff]
      constructor
      · rintro (⟨⟨hd, hadded⟩ | ⟨rfl, hok⟩, hhistory⟩
          | ⟨before, after, rfl, hrest⟩)
        · exact .inl ⟨hd, hadded, hhistory⟩
        · exact .inr ⟨[], ops, rfl, hok, hhistory⟩
        · exact .inr ⟨op :: before, after, rfl, hrest⟩
      · rintro (⟨hd, hadded, hhistory⟩ | ⟨before, after, hops, hok, hhistory⟩)
        · exact .inl ⟨.inl ⟨hd, hadded⟩, hhistory⟩
        · cases before with
          | nil =>
              obtain ⟨rfl, rfl⟩ := List.cons.inj hops
              exact .inl ⟨.inr ⟨rfl, hok⟩, hhistory⟩
          | cons op' before =>
              obtain ⟨rfl, rfl⟩ := List.cons.inj hops
              exact .inr ⟨before, after, rfl, hok, hhistory⟩

end Dictionary

end Munch
