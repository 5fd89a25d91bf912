import PlanGraph.File.Utf8

set_option autoImplicit false

/-! # Access to files

What the program needs of a file system: to tell whether there is a file, to read one and to write
one. The program itself is written against this, so that it runs on real files and on a tree of
files in memory alike. -/

namespace PlanGraph

/-- Why a file cannot be read or written. -/
inductive FileError where
  | notFound
  | notDirectory
  | isDirectory
  | denied
  /-- The path, or the name of a file in it, is too long. -/
  | nameTooLong
  /-- A device has no room left. -/
  | noSpace
  /-- The path holds the character of code zero. -/
  | nullInPath
  /-- The bytes of the file are no text. -/
  | notText
  /-- Any other cause, in the words of the system. -/
  | other (cause : Text)
deriving DecidableEq, Repr, Inhabited

/-- The wording of a cause. -/
def FileError.message : FileError → Text
  | notFound => "No such file or directory (os error 2)"
  | notDirectory => "Not a directory (os error 20)"
  | isDirectory => "Is a directory (os error 21)"
  | denied => "Permission denied (os error 13)"
  | nameTooLong => "File name too long (os error 36)"
  | noSpace => "No space left on device (os error 28)"
  | nullInPath => "file name contained an unexpected NUL byte"
  | notText => "stream did not contain valid UTF-8"
  | other cause => cause

/-- Access to files in a monad. -/
structure FileSystem (m : Type → Type) where
  /-- Whether a path is that of a file, and not of a directory or a device. -/
  isFile : Text → m Bool
  read : Text → m (Except FileError (List UInt8))
  write : Text → List UInt8 → m (Except FileError Unit)

namespace FileSystem

variable {m : Type → Type} [Monad m]

/-- The text of a file. -/
def readText (fs : FileSystem m) (path : Text) : m (Except FileError Text) := do
  if '\x00' ∈ path then return .error .nullInPath
  match ← fs.read path with
  | .error e => return .error e
  | .ok bytes =>
    match Utf8.decode? bytes with
    | some t => return .ok t
    | none => return .error .notText

/-- Writes a text to a file. -/
def writeText (fs : FileSystem m) (path t : Text) : m (Except FileError Unit) := do
  if '\x00' ∈ path then return .error .nullInPath
  fs.write path (Utf8.encode t)

end FileSystem

end PlanGraph
