import PlanGraph.File.System
import PlanGraph.Path

set_option autoImplicit false

/-! # Trees of files in memory

A directory with all that is in it, as a list of places. Every directory on the way to a place is a
place itself. Paths are followed part by part: each part but the last must lead into a directory.

A path can leave the directory, upwards or from the root of all files. What is written there is kept
as well, but does not belong to the tree. -/

namespace PlanGraph

/-- What stands at a place. -/
inductive FileEntry where
  | file (bytes : List UInt8)
  | directory
  /-- A device that is always empty and takes all that is written. -/
  | sink
  /-- A device that gives without end and takes nothing. -/
  | full
  /-- The standard output. -/
  | output
deriving DecidableEq, Repr, Inhabited

/-- All that is in a directory: the parts of each path, with what stands there. The parts of a path
    that leaves the directory start with two dots for each step up, or with a slash for the root. -/
structure FileTree where
  places : List (List Text × FileEntry)
  /-- What was written to the standard output by its path. -/
  printed : List UInt8 := []
deriving DecidableEq, Repr, Inhabited

namespace FileTree

/-- An empty directory. -/
def empty : FileTree := { places := [] }

/-- The part that stands for a step up. -/
def upward : Text := ['.', '.']

/-- The part that stands for the root of all files. -/
def rootPart : Text := ['/']

/-- The directories at the root of all files. -/
def rootDirectories : List Text :=
  ["bin", "boot", "dev", "etc", "home", "lib", "media", "mnt", "opt", "proc", "root", "run", "sbin",
    "srv", "sys", "tmp", "usr", "var"]

/-- The devices that every system has. No input is given, and messages are not kept. -/
def devices : List (Text × FileEntry) :=
  [("null", .sink), ("full", .full), ("stdin", .sink), ("stdout", .output), ("stderr", .sink)]

/-- What every system has outside of the tree. -/
def common : List (List Text × FileEntry) :=
  ([rootPart], .directory) :: rootDirectories.map (fun name => ([rootPart, name], .directory)) ++
    devices.map (fun (name, entry) => ([rootPart, "dev", name], entry))

/-- Whether a place is outside of the tree. -/
def isOutside (place : List Text) : Bool :=
  place.head? == some upward || place.head? == some rootPart

/-- What stands at a place; the tree itself and all that is above it are directories. -/
def get? (tree : FileTree) (place : List Text) : Option FileEntry :=
  if place.all (· == upward) then some .directory
  else (common ++ tree.places).lookup place

/-- Puts an entry at a place, instead of what was there. -/
def put (tree : FileTree) (place : List Text) (entry : FileEntry) : FileTree :=
  if (tree.get? place).isSome then
    { tree with places := tree.places.map fun p => if p.1 == place then (place, entry) else p }
  else { tree with places := tree.places ++ [(place, entry)] }

/-- The files of a tree, by their paths. -/
def files (tree : FileTree) : List (Text × List UInt8) :=
  tree.places.filterMap fun (place, entry) =>
    match entry with
    | .file bytes => if isOutside place then none else some (Text.joinWith '/' place, bytes)
    | _ => none

/-! ## Steps of a path -/

/-- The steps of a path. A single dot is one, since it asks for a directory. -/
def steps (path : Text) : List Text := (Text.splitOn '/' path).filter (!·.isEmpty)

/-- The place at which a path starts. -/
def start (path : Text) : List Text := if Path.isAbsolute path then [rootPart] else []

/-- One step up from a directory; above the root there is only the root. -/
def parent (place : List Text) : List Text :=
  if place.all (· == upward) then place ++ [upward]
  else if place == [rootPart] then place
  else place.dropLast

/-- One step from a directory. -/
def step (place : List Text) (part : Text) : List Text :=
  if part = ['.'] then place else if part = upward then parent place else place ++ [part]

/-! ## Building -/

/-- Goes one step from a directory, to one that is made if nothing is there. -/
def enter (reached : FileTree × List Text) (part : Text) : FileTree × List Text :=
  let place := step reached.2 part
  let tree := reached.1
  (if (tree.get? place).isSome then tree else tree.put place .directory, place)

/-- Adds an entry at a path, with all the directories that the path passes through. -/
def add (tree : FileTree) (path : Text) (entry : FileEntry) : FileTree :=
  match (steps path).getLast? with
  | none => tree
  | some name =>
    let (tree, place) := (steps path).dropLast.foldl enter (tree, start path)
    tree.put (step place name) entry

/-! ## Following a path -/

/-- The greatest number of bytes in the name of a file. -/
def maxName : Nat := 255

/-- The greatest number of bytes in a path. -/
def maxPath : Nat := 4095

/-- Follows parts from a place. -/
def follow (tree : FileTree) : List Text → List Text → Except FileError (List Text)
  | place, [] => .ok place
  | place, part :: ps =>
    match tree.get? place with
    | none => .error .notFound
    | some .directory =>
      if maxName < part.byteSize then .error .nameTooLong else follow tree (step place part) ps
    | some _ => .error .notDirectory

/-- The steps of a path to write at. A slash at the end asks for a directory before the last name is
    looked at. -/
def writeSteps (path : Text) : List Text :=
  if path.endsWith "/" then (steps path).dropLast ++ [['.']] else steps path

/-- The place that a path leads to by some steps. -/
def locate (tree : FileTree) (path : Text) (ps : List Text) : Except FileError (List Text) :=
  if maxPath < path.byteSize then .error .nameTooLong
  else if path.isEmpty then .error .notFound
  else tree.follow (start path) ps

/-! ## Access -/

/-- What a path leads to. A path with a slash at its end is that of a directory. -/
def entry (tree : FileTree) (path : Text) : Except FileError FileEntry := do
  match tree.get? (← tree.locate path (steps path)) with
  | none => .error .notFound
  | some .directory => .ok .directory
  | some entry => if path.endsWith "/" then .error .notDirectory else .ok entry

/-- Whether a path is that of a file. -/
def isFile (tree : FileTree) (path : Text) : Bool :=
  match tree.entry path with
  | .ok (.file _) => true
  | _ => false

/-- The bytes of the file at a path. -/
def read (tree : FileTree) (path : Text) : Except FileError (List UInt8) := do
  match ← tree.entry path with
  | .file bytes => .ok bytes
  | .directory => .error .isDirectory
  | .sink | .output => .ok []
  | .full => .error .noSpace

/-- Writes a file at a path. -/
def write (tree : FileTree) (path : Text) (bytes : List UInt8) : Except FileError FileTree := do
  let place ← tree.locate path (writeSteps path)
  match tree.get? place with
  | some .directory => .error .isDirectory
  | some .sink => .ok tree
  | some .output => .ok { tree with printed := tree.printed ++ bytes }
  | some .full => if bytes.isEmpty then .ok tree else .error .noSpace
  | _ => .ok (tree.put place (.file bytes))

/-- Access to a tree of files that is passed along. -/
def system : FileSystem (StateM FileTree) where
  isFile path := return (← get).isFile path
  read path := return (← get).read path
  write path bytes := do
    match (← get).write path bytes with
    | .ok tree =>
      set tree
      return .ok ()
    | .error e => return .error e

end FileTree

end PlanGraph
