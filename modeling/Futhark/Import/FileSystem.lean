import Futhark.Import.Path
import Futhark.Text.Bytes

/-!
# File systems

What imports use of a file system is how files are read by their paths, and how paths are put
together and taken apart (`FileSystem`). Nothing else is known of paths.

File trees are file systems held in memory, whose paths have `/` between components. A path is
followed component by component, so every directory on the way has to exist, also one that `..`
leaves again.
-/

namespace Futhark

/-- **A file system**, as far as imports use it. A file that cannot be read gives the text of the
error. Not every path lies in a directory. -/
structure FileSystem where
  read : String → Except String String
  join : String → String → String
  parent : String → Option String

namespace FileSystem

/-- The file that an import stands for, seen from a directory. -/
def importedFile (disk : FileSystem) (directory path : String) : String :=
  disk.join directory (path ++ ".fut")

/-- Where the imports of that file are seen from: the directory that it lies in, or else the one
that it is seen from itself. -/
def importedDirectory (disk : FileSystem) (directory path : String) : String :=
  (disk.parent (disk.importedFile directory path)).getD directory

end FileSystem

/-! ### File trees -/

/-- **A file or a directory of named entries.** -/
inductive FileTree where
  | file (contents : String)
  | directory (entries : List (String × FileTree))
deriving Inhabited

/-- **Why a file cannot be read.** -/
inductive FileError where
  | notFound
  | notADirectory
  | isADirectory
  | nameTooLong
  | zeroByte
deriving DecidableEq, Repr, Inhabited

/-- The message for a file error. -/
def FileError.message : FileError → String
  | notFound => "No such file or directory (os error 2)"
  | notADirectory => "Not a directory (os error 20)"
  | isADirectory => "Is a directory (os error 21)"
  | nameTooLong => "File name too long (os error 36)"
  | zeroByte => "file name contained an unexpected NUL byte"

namespace FileTree

/-- A directory with nothing in it. -/
def empty : FileTree := .directory []

/-- The entries of a directory; a file has none. -/
def entries : FileTree → List (String × FileTree)
  | file _ => []
  | directory entries => entries

/-- **Places a file** at the end of a list of names, with the directories it needs. -/
def insert : List String → String → FileTree → FileTree
  | [], contents, _ => .file contents
  | name :: names, contents, tree =>
    let child := (tree.entries.lookup name).getD empty
    .directory ((name, insert names contents child) :: tree.entries.filter (·.1 != name))

/-- The names that lead to a path, leaving out those that change nothing. -/
def names (path : String) : List String :=
  (Text.split '/' path).filter (!Path.isTrivial ·)

/-- **Tree of a table** that gives each file by its path. -/
def ofTable (table : List (String × String)) : FileTree :=
  table.foldl (fun tree (path, contents) => insert (names path) contents tree) empty

/-- The longest name of an entry, in bytes. -/
def maxNameLength : Nat := 255

/-- The longest path, in bytes. -/
def maxPathLength : Nat := 4095

/-- **Follows names** from a directory, which is given with the directories it lies in, innermost
first. Outside all of them there is nothing. -/
def follow : List FileTree → List String → Except FileError FileTree
  | inside, [] => .ok (inside.headD empty)
  | inside, name :: names =>
    match inside.headD empty with
    | .file _ => .error .notADirectory
    | .directory entries =>
      if name = ".." then follow inside.tail names
      else if maxNameLength < Text.byteLength name.toList then .error .nameTooLong
      else
        match entries.lookup name with
        | none => .error .notFound
        | some tree => follow (tree :: inside) names

/-- **Reads a file** by its path from the working directory `tree`. -/
def read (tree : FileTree) (path : String) : Except FileError String :=
  if path.toList.contains '\x00' then .error .zeroByte
  else if maxPathLength < Text.byteLength path.toList then .error .nameTooLong
  else
    match follow (if Path.isAbsolute path then [] else [tree]) (names path) with
    | .error e => .error e
    | .ok (.directory _) => .error .isADirectory
    | .ok (.file contents) => .ok contents

end FileTree

/-- **Files read by paths with slashes**, as a file system. -/
def FileSystem.ofRead (read : String → Except FileError String) : FileSystem where
  read path := (read path).mapError FileError.message
  join := Path.join
  parent := Path.parent

instance : Coe (String → Except FileError String) FileSystem := ⟨.ofRead⟩

end Futhark
