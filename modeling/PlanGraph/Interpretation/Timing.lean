import PlanGraph.Bracket.Argument
import PlanGraph.Cluster.Basic
import PlanGraph.Concept.Token
import PlanGraph.Json.Basic

set_option autoImplicit false

/-! # Timings

A timing holds its inference back until a condition is met, or until another concept is there. A
condition is a proposition; what is waited for is an object. -/

namespace PlanGraph

/-- What a timing does with its condition. -/
inductive TimingMarker where
  | ifTrue
  | ifNot
  | after
deriving DecidableEq, Repr, Inhabited

/-- How a timing is carried out. -/
structure Timing where
  marker : Option TimingMarker
  condition : Option Text
deriving DecidableEq, Repr, Inhabited

namespace TimingMarker

/-- The name of a marker in the tables. -/
def name : TimingMarker → Text
  | ifTrue => "if"
  | ifNot => "if!"
  | after => "after"

/-- The marker that stands in a text. -/
def ofText? (t : Text) : Option TimingMarker :=
  if t.contains Operator.timingIfNot.symbol then some ifNot
  else if t.contains Operator.timingIf.symbol then some ifTrue
  else if t.contains Operator.timingAfter.symbol then some after
  else none

end TimingMarker

namespace Timing

/-- The symbols behind which an argument may stand directly. -/
def symbols : List Text :=
  [Operator.timingIfNot, .timingIf, .timingAfter, .timingBy].map Operator.symbol

/-- The argument of a timing: the one behind `%>`, else the one behind the symbol that opens the
    text. -/
def argument? (t : Text) : Option Text :=
  ((Argument.find? "%>" t).orElse fun _ =>
    (symbols.find? t.startsWith).bind fun symbol => Argument.findIn? [.round] symbol t).map
      (·.content)

/-- An argument as a proposition, whatever brackets it has. -/
def proposition (arg : Text) : Text :=
  if ConceptKind.ofToken? arg = some .proposition then arg.trim
  else ConceptKind.proposition.wrap (bareName arg)

/-- A cluster read as a timing. -/
def ofCluster (c : Cluster) : Timing :=
  let t := c.function.stripped
  let marker := TimingMarker.ofText? t
  { marker
    condition := (argument? t).map fun arg =>
      if marker = some .ifTrue ∨ marker = some .ifNot then proposition arg
      else ConceptKind.object.reference arg }

end Timing

/-! ## JSON -/

/-- A timing as JSON; what is not given is left out. -/
def Timing.toJson (t : Timing) : Json :=
  .object (Json.optionalField "marker" (fun m => .string m.name) t.marker ++
    Json.optionalField "condition" .string t.condition)

end PlanGraph
