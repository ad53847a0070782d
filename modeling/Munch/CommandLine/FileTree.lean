/-
Files as a value: a tree of named directories with files at its leaves.
Paths are relative to the root of the tree.
-/
import Munch.CommandLine.FileSystem

namespace Munch

/-- A file or a directory. -/
inductive FileTree where
  | file (bytes : ByteArray)
  | directory (entries : List (String × FileTree))

namespace FileTree

/-- No files. -/
def empty : FileTree := directory []

/-- The entry of a directory with a name. -/
def child? (entries : List (String × FileTree)) (name : String) :
    Option FileTree :=
  (entries.find? (·.1 = name)).map (·.2)

/-- The parts of a path. -/
def parts (path : String) : List String := path.splitOn "/"

/-- Follows the parts of a path. `above` are the directories passed, the
last one first. A part that is empty or a dot stays where it is, and two
dots lead back, but never out of the tree. -/
def follow : List FileTree → FileTree → List String → Except FileError FileTree
  | _, here, [] => .ok here
  | above, here, part :: rest =>
      match here with
      | file _ => .error .notDirectory
      | directory entries =>
          if part = "" ∨ part = "." then follow above here rest
          else if part = ".." then
            match above with
            | up :: above => follow above up rest
            | [] => .error .missing
          else
            match child? entries part with
            | some next => follow (here :: above) next rest
            | none => .error .missing

/-- What a path leads to. -/
def find (t : FileTree) (path : String) : Except FileError FileTree :=
  if path = "" ∨ path.toList.head? = some '/' then .error .missing
  else follow [] t (parts path)

/-- A tree with a file or a directory put at the end of a path. The
directories on the way are made where they are missing, and a directory
that is there already keeps its entries. -/
def insert (t node : FileTree) : List String → FileTree
  | [] =>
      match t, node with
      | directory entries, directory [] => directory entries
      | _, _ => node
  | part :: rest =>
      let entries :=
        match t with
        | directory entries => entries
        | file _ => []
      let below := ((child? entries part).getD empty).insert node rest
      if entries.any (·.1 = part) then
        directory (entries.map fun e => if e.1 = part then (part, below) else e)
      else directory (entries ++ [(part, below)])

/-- The tree with files and empty directories at the given paths. -/
def ofList (nodes : List (String × FileTree)) : FileTree :=
  nodes.foldl
    (fun t (path, node) =>
      t.insert node ((parts path).filter fun part => part ≠ "" && part ≠ "."))
    empty

/-- The operations on a tree of files, which have no effect. -/
def fileSystem (t : FileTree) : FileSystem Id where
  read := fun path =>
    match t.find path with
    | .error e => .error e
    | .ok (file bytes) => .ok bytes
    | .ok (directory _) => .error .isDirectory
  kind := fun path =>
    match t.find path with
    | .error e => .error e
    | .ok (file _) => .ok .file
    | .ok (directory _) => .ok .directory
  names := fun path =>
    match t.find path with
    | .error e => .error e
    | .ok (file _) => .error .notDirectory
    | .ok (directory entries) => .ok (entries.map (·.1))

end FileTree

end Munch
