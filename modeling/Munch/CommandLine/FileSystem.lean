/-
The files of a run, as far as a run uses them: texts are read whole, and
directories are walked for the files whose names match a pattern.

The effect is a parameter. On a disk it is input and output; on a tree
of files that is given as a value there is none.
-/
import Munch.Text.Basic

namespace Munch

/-- Why a file cannot be used. -/
inductive FileError where
  | missing
  /-- A file stands where the path needs a directory. -/
  | notDirectory
  | isDirectory
  /-- The bytes are not UTF-8. -/
  | notText
  | other (message : String)
deriving DecidableEq

/-- The wording of the cause. -/
def FileError.message : FileError → String
  | missing => "No such file or directory (os error 2)"
  | notDirectory => "Not a directory (os error 20)"
  | isDirectory => "Is a directory (os error 21)"
  | notText => "stream did not contain valid UTF-8"
  | other message => message

/-- What a path leads to. -/
inductive FileKind where
  | file
  | directory
  | other
deriving DecidableEq

/-- The operations on files. -/
structure FileSystem (m : Type → Type) where
  /-- The bytes of a file. -/
  read : String → m (Except FileError ByteArray)
  kind : String → m (Except FileError FileKind)
  /-- The names in a directory. -/
  names : String → m (Except FileError (List String))

/-- The text that bytes are the UTF-8 form of. -/
def decodeText (bytes : ByteArray) : Except FileError Text :=
  match String.fromUTF8? bytes with
  | some s => .ok s.toList
  | none => .error .notText

-- =========================================================== patterns

/-- Whether a name matches a pattern. A star at the beginning stands for
any text; otherwise pattern and name are the same. -/
def matchesPattern (pattern name : String) : Bool :=
  match pattern.toList with
  | '*' :: ending => ending.isSuffixOf name.toList
  | _ => pattern = name

/-- The last part of a path. -/
def lastName (path : String) : String :=
  String.ofList ((path.toList.reverse.takeWhile (· ≠ '/')).reverse)

/-- The path of a name in a directory. -/
def joinPath (directory name : String) : String :=
  if directory.toList.getLast? = some '/' then directory ++ name
  else directory ++ "/" ++ name

-- =============================================================== walks

/-- A walk fails at a path. -/
structure WalkError where
  path : String
  cause : FileError

/-- The wording of the failure of a walk. -/
def WalkError.message (e : WalkError) : String :=
  s!"{e.path}: IO error for operation on {e.path}: {e.cause.message}"

/-- How deep a walk goes at most. A path on a disk has no more than 4096
bytes, and each level takes one at least. -/
def walkDepth : Nat := 4096

section Walk

variable {m : Type → Type} [Monad m] (fs : FileSystem m)

/-- The files at a path and, so many levels deep, below it. The names in
a directory are taken in their order as texts, and what is below a name
comes before the next name. -/
def FileSystem.filesWithin : Nat → String → m (Except WalkError (List String))
  | depth, path => do
      match ← fs.kind path with
      | .error cause => return .error ⟨path, cause⟩
      | .ok .file => return .ok [path]
      | .ok .other => return .ok []
      | .ok .directory =>
          match depth with
          | 0 => return .ok []
          | depth + 1 =>
              match ← fs.names path with
              | .error cause => return .error ⟨path, cause⟩
              | .ok names =>
                  let sorted := names.mergeSort fun a b => decide (a ≤ b)
                  let parts ← (sorted.mapM fun name =>
                    (ExceptT.mk (filesWithin depth (joinPath path name)) :
                      ExceptT WalkError m (List String))).run
                  return parts.map List.flatten

/-- The files at a path or below it whose names match a pattern. A lone
dash stands for the standard input, which is no file. -/
def FileSystem.find (pattern path : String) (recursive : Bool) :
    m (Except WalkError (List String)) := do
  if path = "-" then return .ok []
  else
    let depth := if recursive then walkDepth else 1
    let found ← fs.filesWithin depth path
    return found.map fun paths =>
      paths.filter fun p => matchesPattern pattern (lastName p)

end Walk

end Munch
