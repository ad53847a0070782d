/-
The command line on a disk: it reads files and directories, prints what
the run has printed, and ends with its exit code.
-/
import Munch.CommandLine.Program

namespace Munch

/-- The cause that a failed operation on a disk names. -/
def FileError.ofDisk (e : IO.Error) : FileError :=
  match e with
  | .noFileOrDirectory .. => .missing
  | .inappropriateType _ code _ =>
      if code = 20 then .notDirectory else .isDirectory
  | e => .other (toString e)

/-- The result of an operation on a disk, failure included. -/
def onDisk {α : Type} (operation : IO α) : IO (Except FileError α) := do
  match ← operation.toBaseIO with
  | .ok a => return .ok a
  | .error e => return .error (.ofDisk e)

/-- The files on a disk. -/
def diskFiles : FileSystem IO where
  read := fun path => onDisk (IO.FS.readBinFile path)
  kind := fun path => onDisk do
    let found ← (← IO.FS.realPath path).metadata
    match found.type with
    | .file => return .file
    | .dir => return .directory
    | _ => return .other
  names := fun path => onDisk do
    let entries ← (← IO.FS.realPath path).readDir
    return entries.toList.map (·.fileName)

end Munch

/-- The command line. -/
def main (arguments : List String) : IO UInt32 := do
  let level ← IO.getEnv "RUST_LOG"
  let outcome ← Munch.Program.run Munch.diskFiles level arguments
  IO.print outcome.out
  IO.eprint outcome.err
  return outcome.exit.toUInt32
