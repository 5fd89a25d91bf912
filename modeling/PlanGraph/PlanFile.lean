import PlanGraph.Cluster.Json
import PlanGraph.Compilation
import PlanGraph.File.System
import PlanGraph.Json.Printer
import PlanGraph.Settings.Layers

set_option autoImplicit false

/-! # Plans in files

A plan is read from a file, with the settings beside it, and its tables are written to files. What
goes wrong is about a path, or about the settings; the content of a plan is never wrong. -/

namespace PlanGraph

/-- The wording of what is wrong with settings. -/
def SettingsError.message : SettingsError → Text
  | badKey => "the key of a setting is no path"
  | unreadable => "a settings file cannot be read"
  | badSyntax => "a settings file is no TOML document"
  | wrongType => "a setting has a value of another type"
  | wrongShape => "a section is no table, or a choice is not offered"

/-- Why work on the files of a plan fails. -/
inductive PlanFileError where
  /-- The plan is not there. -/
  | notFound (path : Text)
  /-- The plan is there and cannot be read. -/
  | reading (path : Text) (cause : FileError)
  | writing (path : Text) (cause : FileError)
  | settings (cause : SettingsError)
deriving DecidableEq, Repr, Inhabited

/-- The wording of a failure. -/
def PlanFileError.message : PlanFileError → Text
  | notFound path => "File not found: ".toList ++ path
  | reading path cause => "Failed reading ".toList ++ path ++ ": ".toList ++ cause.message
  | writing path cause => "Failed writing ".toList ++ path ++ ": ".toList ++ cause.message
  | settings cause => "Configuration error: ".toList ++ cause.message

namespace PlanFile

variable {m : Type → Type} [Monad m]

/-! ## Plans -/

/-- The failure to read a plan; a plan that is not there is a case of its own. -/
def readFailure (path : Text) : FileError → PlanFileError
  | .notFound => .notFound path
  | cause => .reading path cause

/-- The text of a plan. -/
def read (fs : FileSystem m) (path : Text) : ExceptT PlanFileError m Text :=
  .mk do return (← fs.readText path).mapError (readFailure path)

/-- Writes a text to a file. -/
def write (fs : FileSystem m) (path t : Text) : ExceptT PlanFileError m Unit :=
  .mk do return (← fs.writeText path t).mapError (.writing path)

/-- The plan in a file, compiled by itself. -/
def compile (fs : FileSystem m) (settings : Settings) (path : Text) :
    ExceptT PlanFileError m CompiledPlan :=
  return .ofText settings (← read fs path)

/-! ## Tables -/

/-- Writes JSON to a file, with a line feed at the end. -/
def writeJson (fs : FileSystem m) (isPretty : Bool) (path : Text) (rows : List Json) :
    ExceptT PlanFileError m Unit :=
  write fs path (Json.print isPretty (.array rows) ++ ['\n'])

/-- Writes the two tables of a plan, the concepts first. -/
def writeTables (fs : FileSystem m) (isPretty : Bool) (concepts inferences : Text)
    (plan : CompiledPlan) : ExceptT PlanFileError m Unit := do
  writeJson fs isPretty concepts (plan.concepts.map ConceptRow.toJson)
  writeJson fs isPretty inferences (plan.inferences.map InferenceRow.toJson)

/-- Writes the clusters of a plan. -/
def writeClusters (fs : FileSystem m) (isPretty : Bool) (path : Text) (plan : CompiledPlan) :
    ExceptT PlanFileError m Unit :=
  writeJson fs isPretty path (plan.clusters.map Cluster.toJson)

/-! ## Settings -/

/-- The name of the settings file beside a plan. -/
def settingsName : Text := "normcode.toml"

/-- The path of a settings file, which may be asked for without its extension. -/
def settingsPath? (fs : FileSystem m) (path : Text) : m (Option Text) := do
  if ← fs.isFile path then return some path
  match Path.extended? path ".toml" with
  | none => return none
  | some longer => if ← fs.isFile longer then return some longer else return none

/-- A settings file as a layer; `missing` is the layer when there is none that can be read. -/
def settingsLayer (fs : FileSystem m) (missing : Settings.Layer) (path : Text) :
    m Settings.Layer := do
  match ← settingsPath? fs path with
  | none => return missing
  | some found =>
    match ← fs.readText found with
    | .ok t => return .content t
    | .error _ => return missing

/-- The settings for a plan: the file beside it, a file that was asked for, and single keys. -/
def settings (fs : FileSystem m) (path : Text) (further : Option Text)
    (overrides : List (Text × SettingValue)) : ExceptT PlanFileError m Settings :=
  .mk do
    let beside ← settingsLayer fs .absent (Path.beside path settingsName)
    let asked ← further.toList.mapM (settingsLayer fs .unreadable)
    return (Settings.load (beside :: asked) overrides).mapError .settings

end PlanFile

end PlanGraph
