import PlanGraph.Text.Basic

set_option autoImplicit false

/-! # Paths of files

A path is a text of parts between slashes. Empty parts and single dots say nothing; two dots go up.
The name of a file is the last part, its extension what follows the last dot of the name. -/

namespace PlanGraph

namespace Path

/-- The parts of a path that say something. -/
def parts (path : Text) : List Text :=
  (Text.splitOn '/' path).filter fun part => !part.isEmpty && part != ['.']

/-- Whether a path starts at the root of all files. -/
def isAbsolute (path : Text) : Bool := path.startsWith "/"

/-- The file's name in a path, unless its last part goes up. -/
def fileName? (path : Text) : Option Text := (parts path).getLast?.filter (· != ['.', '.'])

/-- A file's name before and behind its last dot; a dot at the very front does not count. -/
def splitName (name : Text) : Text × Option Text :=
  match name.reverse.dropWhile (· != '.') with
  | _ :: c :: front => ((c :: front).reverse, some (name.reverse.takeWhile (· != '.')).reverse)
  | _ => (name, none)

/-- The extension of the file in a path. -/
def extension? (path : Text) : Option Text := (fileName? path).bind fun name => (splitName name).2

/-- The file's name in a path without its extension. -/
def stem? (path : Text) : Option Text := (fileName? path).map fun name => (splitName name).1

/-- A path, last character first, without the slashes and single dots at its end. -/
def trimTail : Text → Text
  | ['/'] => ['/']
  | '/' :: rest => trimTail rest
  | '.' :: '/' :: rest => trimTail ('/' :: rest)
  | t => t

/-- The directory of the file in a path, as it is written there. -/
def directory (path : Text) : Text :=
  (trimTail ((trimTail path.reverse).dropWhile (· != '/'))).reverse

/-- A directory and the name of a file in it. -/
def join (dir name : Text) : Text :=
  if dir.isEmpty || dir.endsWith "/" then dir ++ name else dir ++ '/' :: name

/-- The path of a file beside the one in a path. Nothing stands beside the root of all files, so
    there it is the file at the present place. -/
def beside (path name : Text) : Text :=
  if (parts path).isEmpty then name else join (directory path) name

/-- The path with an ending put to the file's name, if it has a file's name. -/
def extended? (path ending : Text) : Option Text :=
  (fileName? path).map fun name => beside path (name ++ ending)

/-- The path with another name for the file, and otherwise as it is written. -/
def withFileName (path name : Text) : Text :=
  if (fileName? path).isSome then join (directory path) name else join path name

end Path

end PlanGraph
