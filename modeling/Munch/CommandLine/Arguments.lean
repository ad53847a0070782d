/-
The arguments of the command line.

Options with values take them from the arguments after them, or, if they
take one value only, from behind a `=` or, with a short name, from the
rest of the argument. What begins with a dash and is longer than that is
never taken as a value from the arguments after. After `--` everything
is a file.

Nothing may be given twice but the lists of texts, files and walks, no
value may be missing, and the name of a file is never empty.
-/

namespace Munch

/-- What a run is asked to do. -/
structure Arguments where
  /-- The file with the rules. -/
  rules : Option String := none
  /-- Patterns and the directories to walk for files that match them. -/
  recursive : List (String × String) := []
  /-- The same for directories that are not to be descended into. -/
  top : List (String × String) := []
  /-- Texts to scan. -/
  scan : List String := []
  /-- Files to scan. -/
  files : List String := []
  /-- The file with the layout settings. -/
  config : Option String := none
  keepWhitespace : Bool := false
  keepTabs : Bool := false
  keepNewlines : Bool := false
  json : Bool := false
  dump : Bool := false
deriving DecidableEq

/-- What arguments ask for. -/
inductive Request where
  | help
  | version
  | run (arguments : Arguments)
deriving DecidableEq

namespace Arguments

-- ============================================================= options

/-- An option that takes values. -/
inductive Valued where
  | rules
  | recursive
  | top
  | scan
  | config
deriving DecidableEq

/-- An option that takes none. -/
inductive Flag where
  | keepWhitespace
  | keepTabs
  | keepNewlines
  | json
  | dump
  | help
  | version
deriving DecidableEq

/-- What the name of an option stands for. -/
inductive Meaning where
  | valued (v : Valued)
  | flag (f : Flag)
deriving DecidableEq

/-- How many values an option takes each time it is given. -/
def Valued.arity : Valued → Nat
  | recursive | top => 2
  | rules | scan | config => 1

/-- The option with a long name. -/
def long? (name : String) : Option Meaning :=
  match name with
  | "rules" => some (.valued .rules)
  | "recursive" => some (.valued .recursive)
  | "top" => some (.valued .top)
  | "scan" => some (.valued .scan)
  | "config" => some (.valued .config)
  | "keep-whitespace" => some (.flag .keepWhitespace)
  | "keep-tabs" => some (.flag .keepTabs)
  | "keep-newlines" => some (.flag .keepNewlines)
  | "json" => some (.flag .json)
  | "dump" => some (.flag .dump)
  | "help" => some (.flag .help)
  | "version" => some (.flag .version)
  | _ => none

/-- The option with a short name. -/
def short? (name : Char) : Option Meaning :=
  match name with
  | 't' => some (.valued .rules)
  | 'f' => some (.valued .recursive)
  | 'F' => some (.valued .top)
  | 's' => some (.valued .scan)
  | 'h' => some (.flag .help)
  | 'V' => some (.flag .version)
  | _ => none

-- ============================================================== values

/-- One more file. -/
def addFile (a : Arguments) (name : String) : Option Arguments :=
  if name = "" then none else some { a with files := a.files ++ [name] }

/-- An option with its values, if it takes as many. -/
def addValues (a : Arguments) : Valued → List String → Option Arguments
  | .rules, [name] =>
      if name = "" ∨ a.rules.isSome then none
      else some { a with rules := some name }
  | .config, [name] =>
      if name = "" ∨ a.config.isSome then none
      else some { a with config := some name }
  | .scan, [text] => some { a with scan := a.scan ++ [text] }
  | .recursive, [pattern, directory] =>
      some { a with recursive := a.recursive ++ [(pattern, directory)] }
  | .top, [pattern, directory] =>
      some { a with top := a.top ++ [(pattern, directory)] }
  | _, _ => none

/-- An option without values; `help` and `version` are not among the
arguments of a run. -/
def addFlag (a : Arguments) : Flag → Option Arguments
  | .keepWhitespace =>
      if a.keepWhitespace then none else some { a with keepWhitespace := true }
  | .keepTabs => if a.keepTabs then none else some { a with keepTabs := true }
  | .keepNewlines =>
      if a.keepNewlines then none else some { a with keepNewlines := true }
  | .json => if a.json then none else some { a with json := true }
  | .dump => if a.dump then none else some { a with dump := true }
  | .help | .version => none

-- ============================================================= reading

/-- An argument by its form. -/
inductive Form where
  /-- The end of the options. -/
  | stop
  /-- A long name, and the value behind a `=` if there is one. -/
  | long (name : String) (value : Option String)
  /-- A short name, and the value behind it if there is one. -/
  | short (name : Char) (value : Option String)
  /-- A value or a file. -/
  | plain
deriving DecidableEq

/-- What stands before the first `=`, and behind it if there is one. -/
def splitEquals (t : List Char) : String × Option String :=
  let name := String.ofList (t.takeWhile (· ≠ '='))
  match t.dropWhile (· ≠ '=') with
  | [] => (name, none)
  | _ :: value => (name, some (String.ofList value))

/-- What an argument holds behind a short name: a value, perhaps with a
`=` before it, if the name takes any. -/
def shortValue? (name : Char) (t : List Char) : Option String :=
  match short? name, t with
  | some (.flag _), _ => none
  | _, [] => none
  | _, '=' :: value => some (String.ofList value)
  | _, value => some (String.ofList value)

/-- The form of an argument. -/
def formOf (argument : String) : Form :=
  match argument.toList with
  | ['-', '-'] => .stop
  | '-' :: '-' :: t =>
      let (name, value) := splitEquals t
      .long name value
  | '-' :: name :: t => .short name (shortValue? name t)
  | _ => .plain

/-- All arguments after the end of the options. -/
def addFiles (a : Arguments) : List String → Option Arguments
  | [] => some a
  | name :: rest =>
      match a.addFile name with
      | some a => a.addFiles rest
      | none => none

/-- Reads arguments one after another. An option that waits for values
is `pending`, with those it has. -/
def read (a : Arguments) (pending : Option (Valued × List String)) :
    List String → Option Request
  | [] => if pending.isSome then none else some (.run a)
  | argument :: rest =>
      let option (found : Option Meaning) (value : Option String) :=
        match found, value with
        | some (.valued v), none => a.read (some (v, [])) rest
        | some (.valued v), some value =>
            match a.addValues v [value] with
            | some a => a.read none rest
            | none => none
        | some (.flag .help), none => some .help
        | some (.flag .version), none => some .version
        | some (.flag f), none =>
            match a.addFlag f with
            | some a => a.read none rest
            | none => none
        | _, _ => none
      match formOf argument, pending with
      | .stop, none => (a.addFiles rest).map .run
      | .long name value, none => option (long? name) value
      | .short name value, none => option (short? name) value
      | .plain, none =>
          match a.addFile argument with
          | some a => a.read none rest
          | none => none
      | .plain, some (v, values) =>
          let values := values ++ [argument]
          if values.length < v.arity then a.read (some (v, values)) rest
          else
            match a.addValues v values with
            | some a => a.read none rest
            | none => none
      | _, some _ => none

/-- What the arguments of a run ask for, if they can be read. -/
def parse (arguments : List String) : Option Request :=
  read {} none arguments

end Arguments

end Munch
