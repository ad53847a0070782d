/-
A run of the command line: settings, dictionary, dump, sources, tokens,
report, in this order. A run that fails has printed what came before the
failure, and reports the failure with its cause.
-/
import Munch.CommandLine.Arguments
import Munch.CommandLine.FileSystem
import Munch.CommandLine.Report
import Munch.Dictionary.Settings
import Munch.Expr.Outline
import Munch.Log

namespace Munch

/-- What a run has printed, and its exit code. -/
structure Outcome where
  exit : Nat
  out : String
  err : String
deriving DecidableEq

namespace Program

-- ============================================================ failures

/-- What failed, and why. -/
structure Failure where
  context : String
  cause : String

/-- Every line of a text four spaces further in. -/
def indented (t : Text) : Text :=
  "    ".toList ++ t.flatMap fun c =>
    if c = '\n' then c :: "    ".toList else [c]

/-- A failure as shown: what failed, and below it the cause. -/
def Failure.render (f : Failure) : String :=
  f.context ++ "\n\nCaused by:\n" ++
    String.ofList (indented f.cause.toList) ++ "\n"

/-- What a run has printed so far. -/
structure Printed where
  out : String := ""
  err : String := ""

/-- The effect of a run: it prints, and it may fail. -/
abbrev Run (m : Type → Type) := ExceptT Failure (StateT Printed m)

section Steps

variable {m : Type → Type} [Monad m]

def print (text : String) : Run m Unit :=
  modify fun p => { p with out := p.out ++ text }

def report (text : String) : Run m Unit :=
  modify fun p => { p with err := p.err ++ text }

/-- A failure in the wording of its cause. -/
def failing {ε α : Type} (context : String) (message : ε → String) :
    Except ε α → Run m α
  | .ok a => pure a
  | .error e => throw ⟨context, message e⟩

-- ================================================================= log

/-- How weighty records have to be for a run to report them, by the name
of a level in any case. -/
def threshold? (name : String) : Option Nat :=
  let levels := [Level.error, .warn, .info, .debug, .trace]
  if name.toLower = "off" then some 0
  else (levels.find? (·.name = name.toUpper)).map Level.rank

/-- The level in force when none is named. -/
def defaultLevel : String := "warn"

/-- Reports a record that is weighty enough. -/
def log (threshold : Nat) (r : Record) : Run m Unit :=
  if r.level.rank ≤ threshold then
    report s!" [{r.level.name}] {r.message}\n"
  else pure ()

-- =============================================================== input

variable (fs : FileSystem m)

/-- The text of a file. -/
def readText (what path : String) : Run m Text := do
  let bytes ← (fs.read path : m _)
  failing s!"Failed to read {what}`{path}`" FileError.message
    (bytes >>= decodeText)

/-- The layout settings: those of the file, and those that are asked for
besides. -/
def retention (a : Arguments) : Run m Retention := do
  let r ←
    match a.config with
    | none => pure {}
    | some path =>
        let text ← readText fs "config " path
        match Retention.parse? text with
        | some r => pure r
        | none =>
            throw ⟨s!"Failed to parse config `{path}`", "not layout settings"⟩
  return ⟨r.whitespace || a.keepWhitespace, r.tabs || a.keepTabs,
    r.newlines || a.keepNewlines⟩

/-- The lines of the dictionary that stands in for a file of rules. -/
def demoRules : List Text :=
  [ "!Number -> Digit Digit*",
    "Digit -> \"0\" | \"1\" | \"2\" | \"3\" | \"4\" | \"5\" | " ++
      "\"6\" | \"7\" | \"8\" | \"9\"",
    "KW_IF -> \"if\"",
    "KW_DO -> \"do\"" ].map String.toList

/-- The text that stands in for sources. -/
def demoText : Text := "if 1 do 1 2 3 if 4 do 3 2 1 if 5 do 0".toList

/-- The linked dictionary of a run. -/
def dictionary (a : Arguments) (r : Retention) : Run m Dictionary := do
  let (context, lines) ←
    match a.rules with
    | none => pure ("Invalid demo rules", demoRules)
    | some path =>
        let text ← readText fs "rules " path
        pure (s!"Invalid rules in `{path}`", text.lines)
  let (d, imported) := (Dictionary.empty.withRetention r).importLines lines
  let _ ← failing context Error.message imported
  let (d, linked) := d.link
  failing "Failed to link rules" Error.message linked
  return d

/-- The files that walks find, walk after walk. -/
def walk (recursive : Bool) (walks : List (String × String)) :
    Run m (List String) := do
  let found ← walks.mapM fun (pattern, path) => do
    let files ← (fs.find pattern path recursive : m _)
    failing s!"Failed to walk `{path}`" WalkError.message files
  return found.flatten

/-- The texts of a run by name: those among the arguments, then those of
the files named, then those of the files found. -/
def sources (a : Arguments) : Run m (List (String × Text)) := do
  let given := a.scan.mapIdx fun i text => (s!"*scanArgs[{i}]", text.toList)
  let deep ← walk fs true a.recursive
  let flat ← walk fs false a.top
  let read ← (a.files ++ deep ++ flat).mapM fun path => do
    return (path, ← readText fs "" path)
  return given ++ read

-- ================================================================ runs

/-- A run once its arguments are known. -/
def execute (threshold : Nat) (a : Arguments) : Run m Unit := do
  let r ← retention fs a
  let d ← dictionary fs a r
  log threshold ⟨.info, s!"Dictionary holds {d.size} tokens"⟩
  if a.dump then print (String.ofList d.expressions.render)
  let given ← sources fs a
  let given :=
    if a.rules.isNone && given.isEmpty then [("*demo", demoText)] else given
  let scanned ← given.mapM fun (name, text) => do
    let tokens ← failing s!"Failed to scan `{name}`" Error.message
      (d.analyze text)
    return (⟨name, tokens⟩ : ScannedSource)
  print (if a.json then Report.json scanned else Report.lines scanned)

end Steps

/-- What `--version` prints. -/
def versionText : String := "lexicon 0.1.0\n"

def usageText : String := "Usage: lexicon [OPTIONS] [FILES]...\n"

/-- What `--help` prints. -/
def helpText : String :=
  "Scans text into tokens declared in a rule file\n\n" ++ usageText ++
  "\nArguments:\n" ++
  "  [FILES]...  Files to scan\n" ++
  "\nOptions:\n" ++
  "  -t, --rules <FILE>               File with one `[!]KEY -> RULE` line " ++
  "per token, without it a small demo dictionary is used\n" ++
  "  -f, --recursive <PATTERN> <DIR>  Scan every file under DIR whose name " ++
  "matches PATTERN (`*.ext`)\n" ++
  "  -F, --top <PATTERN> <DIR>        Like `--recursive`, but only the top " ++
  "directory\n" ++
  "  -s, --scan <TEXT>                Additional text to scan\n" ++
  "      --config <FILE>              JSON file with the layout retention " ++
  "flags\n" ++
  "      --keep-whitespace            \n" ++
  "      --keep-tabs                  \n" ++
  "      --keep-newlines              \n" ++
  "      --json                       Print the scanned tokens as JSON\n" ++
  "      --dump                       Print the compiled expressions before " ++
  "scanning\n" ++
  "  -h, --help                       Print help\n" ++
  "  -V, --version                    Print version\n"

/-- A run, given the level of its log, if one is named, and its
arguments. -/
def run {m : Type → Type} [Monad m] (fs : FileSystem m)
    (level : Option String) (arguments : List String) : m Outcome := do
  let level := level.getD defaultLevel
  match threshold? level with
  | none =>
      let failure : Failure :=
        { context := s!"Invalid RUST_LOG level `{level}`"
          cause := "attempted to convert a string that doesn't match an " ++
            "existing log level" }
      return ⟨1, "", failure.render⟩
  | some threshold =>
      match Arguments.parse arguments with
      | none =>
          return ⟨2, "", "error: arguments cannot be read\n\n" ++ usageText⟩
      | some .help => return ⟨0, helpText, ""⟩
      | some .version => return ⟨0, versionText, ""⟩
      | some (.run a) =>
          let (result, printed) ← ((execute fs threshold a).run).run {}
          match result with
          | .ok () => return ⟨0, printed.out, printed.err⟩
          | .error f => return ⟨1, printed.out, printed.err ++ f.render⟩

end Program

end Munch
