import PlanGraph.Command.Help
import PlanGraph.PlanFile
import PlanGraph.Reindex

set_option autoImplicit false

/-! # Running commands

A command reads and writes files and ends with a line of output or with a failure. The settings are
loaded before the plan is read, and what is written before a failure stays. -/

namespace PlanGraph

/-- Why a run ends without doing all that was asked. -/
inductive CommandFailure where
  | arguments (cause : ArgumentError)
  | plan (cause : PlanFileError)
deriving DecidableEq, Repr, Inhabited

namespace Command

/-- The name and version of the program. -/
def versionText : Text := "normcode 0.1.0\n"

/-- The path of a table that was not given one: beside the plan, with its name. -/
def defaultOutput (path ending : Text) : Text :=
  Path.withFileName path ((Path.stem? path).getD "plan" ++ '.' :: ending)

variable {m : Type → Type} [Monad m]

/-- Compiles a plan and writes its tables. -/
def runCompile (fs : FileSystem m) (r : CompileRequest) : ExceptT PlanFileError m Text := do
  let overrides : List (Text × SettingValue) :=
    if r.compact then [("output.pretty", .bool false)] else []
  let settings ← PlanFile.settings fs r.path r.settings overrides
  let plan ← PlanFile.compile fs settings r.path
  let concepts := r.concepts.getD (defaultOutput r.path "concepts.json")
  let inferences := r.inferences.getD (defaultOutput r.path "inferences.json")
  PlanFile.writeTables fs settings.pretty concepts inferences plan
  if let some clusters := r.clusters then
    PlanFile.writeClusters fs settings.pretty clusters plan
  return "Wrote ".toList ++ Numeral.decimal plan.concepts.length ++ " concepts to ".toList ++
    concepts ++ " and ".toList ++ Numeral.decimal plan.inferences.length ++
    " inferences to ".toList ++ inferences ++ ['\n']

/-- Writes the positions into a plan. A plan that has them all is not written. -/
def runReindex (fs : FileSystem m) (r : ReindexRequest) : ExceptT PlanFileError m Text := do
  let settings ← PlanFile.settings fs r.path r.settings []
  let outcome := Reindex.run settings.indentWidth (← PlanFile.read fs r.path)
  if r.dryRun then
    return Numeral.decimal outcome.updated ++ " line(s) would be updated\n".toList
  if 0 < outcome.updated then
    PlanFile.write fs r.path outcome.text
  return "Updated ".toList ++ Numeral.decimal outcome.updated ++ " line(s)\n".toList

/-- Runs a command; the result is what it prints. -/
def run (fs : FileSystem m) : Command → ExceptT PlanFileError m Text
  | version => return versionText
  | help topic => return topic.text
  | compile r => runCompile fs r
  | reindex r => runReindex fs r

/-- Runs a command line. -/
def runLine (fs : FileSystem m) (arguments : List Text) : m (Except CommandFailure Text) := do
  match ofArguments arguments with
  | .error e => return .error (.arguments e)
  | .ok command => return (← (command.run fs).run).mapError .plan

end Command

end PlanGraph
