import PlanGraph.Path

set_option autoImplicit false

/-! # References to files

An operation in words that names an input file refers to it by a sign `%{norm}ID(path)`. The norm
tells what the file is, by its extension; the ID is a running number that keeps signs apart. -/

namespace PlanGraph

namespace Reference

/-- The extensions of scripts. -/
def scriptExtensions : List Text := ["py", "rs", "js", "ts", "sh", "rb"]

/-- What a file is, by its extension. -/
def norm (path : Text) : Text :=
  match (Path.extension? path.trim).map Text.lower with
  | some extension =>
    if extension = "md".toList then "prompt_location"
    else if scriptExtensions.contains extension then "script_location"
    else "file_location"
  | none => "file_location"

/-- A running number, in hexadecimal with at least three digits. -/
def idText (id : UInt32) : Text :=
  let digits := Nat.toDigits 16 id.toNat
  List.replicate (3 - digits.length) '0' ++ digits

/-- The sign of an input file. -/
def sign (path : Text) (id : UInt32) : Text :=
  ['%', '{'] ++ norm path ++ ['}'] ++ idText id ++ ['('] ++ path.trim ++ [')']

/-- The value of a concept that a file gives. -/
def fileLocation (path : Text) : Text :=
  "%{file_location}(".toList ++ path.trim ++ [')']

end Reference

end PlanGraph
