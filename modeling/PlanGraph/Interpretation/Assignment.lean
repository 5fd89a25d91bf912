import PlanGraph.Axes
import PlanGraph.Bracket.Argument
import PlanGraph.Cluster.Basic
import PlanGraph.Concept.Token
import PlanGraph.Json.Reader
import PlanGraph.Literal

set_option autoImplicit false

/-! # Assignments

The operator gives an assignment its marker, and the marker says what is read besides: a
specification has one or more sources, a continuation has a source, a destination and an axis, an
abstraction has a face value and axes, and the others have a single source. -/

namespace PlanGraph

/-- Where an assignment takes its value from. -/
inductive AssignSource where
  /-- A source is needed and none was given. -/
  | unknown
  | one (reference : Text)
  | many (references : List Text)
deriving DecidableEq, Repr, Inhabited

/-- How an assignment is carried out. -/
structure Assignment where
  marker : Text
  source : Option AssignSource := none
  destination : Option Text := none
  byAxis : Option Text := none
  faceValue : Option Literal := none
  axisNames : Option (List Text) := none
deriving DecidableEq, Repr, Inhabited

namespace Assignment

/-! ## Sources -/

/-- The concept in `%>(…)`; a bare name stands for an object. -/
def singleSource? (t : Text) : Option Text :=
  (Argument.findIn? [.round] "%>" t).map fun arg => ConceptKind.object.reference arg.content

/-- The items of a note that is not JSON, without brackets, quotes and empty ones. -/
def plainItems (note : Text) : List Text :=
  let inner := (Bracket.square.strip? note).getD note
  ((Items.split ',' inner).map fun item => (Note.unquote item).trim).filter (!·.isEmpty)

/-- The sources that a note lists, in JSON or plainly; none if it lists none. -/
def listedSources? (note : Text) : Option (List Text) :=
  let items := ((Json.read? note).bind Json.texts?).getD (plainItems note)
  if items.isEmpty then none else some items

/-- The sources in `%>[…]`; none if there are none. -/
def inlineSources? (t : Text) : Option (List Text) := do
  let arg ← Argument.findIn? [.square] "%>" t
  let items := Items.split ',' arg.content
  if items.isEmpty then none else some items

/-- The sources of a specification: its note, else its list, else its single source. -/
def specificationSource (c : Cluster) : AssignSource :=
  let t := c.function.stripped
  if let some items := (c.function.notes.get? "assign_sources").bind listedSources? then .many items
  else if let some items := inlineSources? t then .many items
  else if let some source := singleSource? t then .one source
  else .unknown

/-! ## Face values -/

/-- The first literal note of a line for an abstraction. -/
def literalNote? (l : Line) : Option Literal :=
  ((LiteralNote.withMarker "%" (LiteralNote.ofComments l.comments)).head?).map (·.value)

/-- The value of an abstraction: a literal note of the operation, one of its parent, or the argument
    in its text. -/
def faceValue? (c : Cluster) : Option Literal :=
  ((literalNote? c.function).orElse fun _ => c.parent.bind literalNote?).orElse fun _ =>
    let t := c.function.stripped
    ((Argument.findIn? [.round] "%>" t).orElse fun _ =>
      Argument.findIn? [.round] "$%" t).map fun arg => Literal.ofText arg.content

/-- The axes of the line that is inferred. -/
def parentAxes (noneAxis : Text) (c : Cluster) : List Text :=
  ((c.parent.bind fun p => p.notes.get? "axis").map fun axis =>
    (Axes.ofText noneAxis axis).flatten).getD [noneAxis]

/-! ## The whole assignment -/

/-- The operator of an assignment: the one it was classified as, else the one that opens its
    text. -/
def operator? (c : Cluster) : Option Operator :=
  c.function.classification.operator.orElse fun _ => Operator.opening? c.function.stripped

/-- The marker that the operator of a cluster gives. -/
def marker? (c : Cluster) : Option Text := (operator? c).bind Operator.assigningMarker?

/-- A cluster read as an assignment. Without a marker of its own it is an identity. -/
def ofCluster (noneAxis : Text) (c : Cluster) : Assignment :=
  let t := c.function.stripped
  let marker := (marker? c).getD "="
  match operator? c with
  | some .specification => { marker, source := some (specificationSource c) }
  | some .continuation =>
    { marker
      source := (singleSource? t).map .one
      destination := (Argument.find? "%<" t).map fun arg => ConceptKind.object.reference arg.content
      byAxis := (Argument.find? "%:" t).map fun arg => Note.unquote arg.content }
  | some .abstraction =>
    { marker, faceValue := faceValue? c, axisNames := some (parentAxes noneAxis c) }
  | _ => { marker, source := (singleSource? t).map .one }

/-- Whether a cluster, read as an assignment, lacks the source that it needs. -/
def lacksSource (c : Cluster) : Bool :=
  operator? c == some .specification && specificationSource c == .unknown

end Assignment

/-! ## JSON -/

/-- The source of an assignment as JSON. -/
def AssignSource.toJson : AssignSource → Json
  | unknown => .null
  | one reference => .string reference
  | many references => .ofTexts references

/-- An assignment as JSON; what is not given is left out. -/
def Assignment.toJson (a : Assignment) : Json :=
  .object ([("marker".toList, .string a.marker)] ++
    Json.optionalField "assign_source" AssignSource.toJson a.source ++
    Json.optionalField "assign_destination" .string a.destination ++
    Json.optionalField "by_axis" .string a.byAxis ++
    Json.optionalField "face_value" Literal.toJson a.faceValue ++
    Json.optionalField "axis_names" .ofTexts a.axisNames)

end PlanGraph
