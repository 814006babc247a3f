import TypeReveal.Text.Basic

/-!
# Paths

A path names a file or a directory by the names on the way to it, separated by slashes.  Empty names
and `.` do not count.  `ancestors` walks from a directory to the outermost directory of its path.
-/

set_option autoImplicit false
namespace TypeReveal

/-- A path, as written. -/
structure Path where
  text : String
deriving DecidableEq, Repr

namespace Path

/-- Whether a path starts at the root of the file system. -/
def isAbsolute (path : Path) : Bool := path.text.toList.head? == some '/'

/-- The names of a path. -/
def parts (path : Path) : List String :=
  ((splitOn '/' path.text.toList).map String.ofList).filter fun part => part != "" && part != "."

/-- The path with given names. -/
def ofParts (absolute : Bool) (parts : List String) : Path :=
  ⟨(if absolute then "/" else "") ++ "/".intercalate parts⟩

/-- The file `name` in a directory. -/
def file (directory : Path) (name : String) : Path :=
  ofParts directory.isAbsolute (directory.parts ++ [name])

/-- The directory that a file is in.  The root of the file system is in none, and the directory of
the command stands for it. -/
def directory (path : Path) : Path :=
  ofParts (path.isAbsolute && !path.parts.isEmpty) path.parts.dropLast

/-- Whether only a directory can be at a path, since it ends in a slash or a dot. -/
def isOfDirectory (path : Path) : Bool :=
  match (splitOn '/' path.text.toList).getLast? with
  | some part => part == [] || part == ['.']
  | none => false

/-- A directory and the directories around it, the innermost first. -/
def ancestors (directory : Path) : List Path :=
  (List.range (directory.parts.length + 1)).reverse.map fun n =>
    ofParts directory.isAbsolute (directory.parts.take n)

end Path
end TypeReveal
