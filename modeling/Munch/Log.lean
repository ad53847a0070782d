/-
What the operations of the library report while they run. An operation
emits its records in order; they are functions of what the operation
was given and what it answered, so the operations themselves stay free
of them.
-/
import Munch.Scan.Sequence

namespace Munch

/-- How much a record matters, the weightiest level first. -/
inductive Level where
  | error
  | warn
  | info
  | debug
  | trace
deriving DecidableEq

namespace Level

def name : Level → String
  | error => "ERROR"
  | warn => "WARN"
  | info => "INFO"
  | debug => "DEBUG"
  | trace => "TRACE"

/-- The place of a level, the weightiest first. -/
def rank : Level → Nat
  | error => 1
  | warn => 2
  | info => 3
  | debug => 4
  | trace => 5

end Level

/-- A record of a log. -/
structure Record where
  level : Level
  message : String

/-- A record as shown: its level and its message. -/
def Record.render (r : Record) : String := r.level.name ++ " " ++ r.message

-- ============================================================ building

/-- The record of a token's registration. -/
def Token.record (t : Token) : Record :=
  ⟨.debug, s!"Registered token `{t.key}` with code {t.code}"⟩

/-- The records of the registrations after the first so many. -/
def Dictionary.recordsSince (d : Dictionary) (size : Nat) : List Record :=
  (d.tokens.toList.drop size).map Token.record

/-- The records of an import into a dictionary that had so many tokens,
given what came of it. -/
def importRecords (size : Nat) :
    Dictionary × Except Error Nat → List Record
  | (d, .error _) => d.recordsSince size
  | (d, .ok count) =>
      d.recordsSince size ++ [⟨.debug, s!"Imported {count} tokens"⟩]

/-- What a reference was linked to, as shown. -/
def Target.render : Target → String
  | .expression index => s!"Expression(ExprHandle({index}))"
  | .primitive _ => "Primitive(fn)"

/-- The record of one linked reference. -/
def Resolution.record (r : Resolution) : Record :=
  ⟨.trace,
    s!"{r.expression}: resolved `{r.reference}` to {r.target.render}"⟩

/-- The records of a pass over a set. -/
def Linked.records {σ : Type} (l : Linked σ) : List Record :=
  let resolved := l.resolutions.map Resolution.record
  match l.failure with
  | some _ => resolved
  | none =>
      resolved ++
        [⟨.debug, s!"Linked {l.set.size} expressions, " ++
          s!"{l.resolutions.length} references"⟩]

/-- The records of the linking of a dictionary. -/
def Dictionary.linkRecords (d : Dictionary) : List Record := d.linkPass.records

/-- The records of the making of a dictionary from a rule file. -/
def ofRulesRecords (lines : List Text) : List Record :=
  let imported := Dictionary.empty.importLines lines
  match imported with
  | (_, .error _) => importRecords 0 imported
  | (d, .ok _) => importRecords 0 imported ++ d.linkRecords

-- ============================================================ scanning

/-- The record of a step in which tokens were tried. -/
def Step.record? (s : Step) : Option Record :=
  let next :=
    match s.next with
    | some next => s!"Some({next})"
    | none => "None"
  match s.token.builtin? with
  | none | some .reserved =>
      some ⟨.trace, s!"Scanned `{s.token.key}` at {s.start}..{next}"⟩
  | some _ => none

/-- The records of a scan of one token. -/
def stepRecords : Except Error Step → List Record
  | .ok s => s.record?.toList
  | .error _ => []

/-- The records of the analysis of a text. -/
def Dictionary.analyzeRecords (d : Dictionary) (text : Text) : List Record :=
  let scanned := (d.scanAll text 0).flatMap stepRecords
  match d.analyze text with
  | .ok tokens =>
      scanned ++
        [⟨.debug, s!"Analyzed {text.size} bytes into {tokens.length} tokens"⟩]
  | .error _ => scanned

end Munch
