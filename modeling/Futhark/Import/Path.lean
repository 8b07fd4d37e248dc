import Futhark.Text.Split

/-!
# File paths

Paths are text, with `/` between components. Nothing is simplified: `..`, `.` and repeated slashes
stay in the text, since error messages show it.
-/

namespace Futhark.Path

/-- Whether a path starts at the root of all files. -/
def isAbsolute (path : String) : Bool := path.toList.head? == some '/'

/-- **Path inside a directory.** An absolute path replaces the directory. -/
def join (directory path : String) : String :=
  if isAbsolute path then path
  else if directory = "" ∨ directory.toList.getLast? = some '/' then directory ++ path
  else directory ++ "/" ++ path

/-- Whether a component changes nothing where it stands. -/
def isTrivial (component : String) : Bool := component = "" || component = "."

/-- Components without the trivial ones at their end. The first one stays, since it tells whether
the path is absolute. -/
def trimmed : List String → List String
  | [] => []
  | first :: others => first :: (others.reverse.dropWhile isTrivial).reverse

/-- **Directory of a path**: the path without its last component, and without what is trivial at the
end of the rest. The empty path and the root lie in no directory. -/
def parent (path : String) : Option String :=
  let components := trimmed (Text.split '/' path)
  if components = [""] then none
  else
    let others := trimmed components.dropLast
    some (if others = [""] then "/" else String.intercalate "/" others)

end Futhark.Path
