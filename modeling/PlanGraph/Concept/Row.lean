import PlanGraph.Literal
import PlanGraph.Position.Basic

set_option autoImplicit false

/-! # Rows of the concept table -/

namespace PlanGraph

/-- One concept of the plan. -/
structure ConceptRow where
  /-- The name in the brackets of its kind; the text of an operation. -/
  name : Text
  /-- The mark of its kind. -/
  kind : Text
  /-- Where the concept is mentioned, in ascending order. -/
  positions : List Position
  /-- Whether it is given rather than inferred. -/
  isGround : Bool
  isFinal : Bool
  isInvariant : Bool
  /-- The value that it has from the start. -/
  referenceData : Option Literal
  axisName : Text
  referenceAxisNames : List Text
  elementType : Option Text
  /-- The name without brackets. -/
  naturalName : Text
deriving DecidableEq, Repr, Inhabited

namespace ConceptRow

/-- The key that a row is sorted by. -/
def sortKey (r : ConceptRow) : SortKey := .ofPosition? r.positions.head?

/-- A row as JSON. -/
def toJson (r : ConceptRow) : Json :=
  .object [("concept_name", .string r.name), ("kind", .string r.kind),
    ("positions", .ofTexts (r.positions.map (·.text))), ("is_ground", .bool r.isGround),
    ("is_final", .bool r.isFinal), ("is_invariant", .bool r.isInvariant),
    ("reference_data", .ofOption Literal.toJson r.referenceData),
    ("axis_name", .string r.axisName), ("reference_axis_names", .ofTexts r.referenceAxisNames),
    ("element_type", .ofOption .string r.elementType), ("natural_name", .string r.naturalName)]

end ConceptRow

end PlanGraph
