import PlanGraph.Axes
import PlanGraph.Bracket.Argument
import PlanGraph.Cluster.Basic
import PlanGraph.Concept.Token
import PlanGraph.Json.Basic

set_option autoImplicit false

/-! # Groupings

A grouping puts its values together in a shared structure or across an axis. It says which values,
and which axes of each are collapsed: there is exactly one list of axes for each value. -/

namespace PlanGraph

/-- How a grouping puts values together. -/
inductive GroupMarker where
  | within
  | across
deriving DecidableEq, Repr, Inhabited

/-- How a grouping is carried out. -/
structure Grouping where
  marker : GroupMarker
  sources : List Text
  /-- The axes to collapse, for each value. -/
  byAxes : List (List Text)
deriving DecidableEq, Repr, Inhabited

/-- The name of a marker in the tables. -/
def GroupMarker.name : GroupMarker → Text
  | within => "in"
  | across => "across"

namespace Grouping

/-- The marker of a grouping: the one that stands in its text, else that of its operator. -/
def markerOf (c : Cluster) : GroupMarker :=
  let t := c.function.stripped
  if t.contains Operator.groupAcross.symbol then .across
  else if t.contains Operator.groupIn.symbol then .within
  else if c.function.classification.operator = some .groupAcross then .across
  else .within

/-- The sources in the text of a grouping: the items of a list, or a single concept. -/
def inlineSources (t : Text) : List Text :=
  match Argument.findIn? [.square, .round] "%>" t with
  | some arg =>
    if arg.bracket = .square then Items.split ',' arg.content
    else [ConceptKind.object.reference arg.content]
  | none => []

/-- The sources of a grouping: those in its text, else its values. -/
def sourcesOf (c : Cluster) : List Text :=
  let items := inlineSources c.function.stripped
  if items.isEmpty then c.values.map (·.reference) else items

/-! ## Axes -/

/-- The axes that the `collapse` notes give, if every value has one. -/
def collapseAxes? (noneAxis : Text) (c : Cluster) : Option (List (List Text)) :=
  if c.values.isEmpty then none
  else c.values.mapM fun v =>
    (v.notes.get? "collapse").map fun note => (Axes.ofText noneAxis note).flatten

/-- The axes that the `by_axes` note of the operation gives. -/
def notedAxes? (noneAxis : Text) (c : Cluster) : Option (List (List Text)) :=
  (c.function.notes.get? "by_axes").map fun note =>
    (Axes.ofText noneAxis note).perTarget c.values.length noneAxis

/-- The axes that `%-[…]` in the text of the operation gives. -/
def inlineAxes? (noneAxis : Text) (c : Cluster) : Option (List (List Text)) :=
  (Argument.findIn? [.square] "%-" c.function.stripped).map fun arg =>
    (Axes.ofText noneAxis ('[' :: (arg.content ++ [']']))).perTarget c.values.length noneAxis

/-- The axes of each value itself. -/
def valueAxes (noneAxis : Text) (c : Cluster) : List (List Text) :=
  c.values.map fun v =>
    (((v.notes.get? "axis").map (Axes.ofText noneAxis)).getD (.absent noneAxis)).flatten

/-- The axes to collapse: the first of the four that applies. -/
def axesOf (noneAxis : Text) (c : Cluster) : List (List Text) :=
  (((collapseAxes? noneAxis c).orElse fun _ => notedAxes? noneAxis c).orElse fun _ =>
    inlineAxes? noneAxis c).getD (valueAxes noneAxis c)

/-- A cluster read as a grouping. -/
def ofCluster (noneAxis : Text) (c : Cluster) : Grouping where
  marker := markerOf c
  sources := sourcesOf c
  byAxes := axesOf noneAxis c

end Grouping

/-! ## JSON -/

/-- A grouping as JSON. -/
def Grouping.toJson (g : Grouping) : Json :=
  .object [("marker", .string g.marker.name), ("sources", .ofTexts g.sources),
    ("by_axes", .array (g.byAxes.map .ofTexts))]

end PlanGraph
