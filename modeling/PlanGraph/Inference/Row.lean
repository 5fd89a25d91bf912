import PlanGraph.Interpretation.Basic

set_option autoImplicit false

/-! # Rows of the inference table -/

namespace PlanGraph

/-- One inference of the plan. -/
structure InferenceRow where
  position : Position
  sequence : Sequence
  /-- The concept that is inferred. -/
  infers : Text
  function : Text
  values : List Text
  contexts : List Text
  interpretation : Interpretation
deriving DecidableEq, Repr, Inhabited

namespace InferenceRow

/-- A row as JSON. -/
def toJson (r : InferenceRow) : Json :=
  .object [("position", .string r.position.text), ("sequence", .string r.sequence.name),
    ("concept_to_infer", .string r.infers), ("function_concept", .string r.function),
    ("value_concepts", .ofTexts r.values), ("context_concepts", .ofTexts r.contexts),
    ("working_interpretation", r.interpretation.toJson)]

end InferenceRow

end PlanGraph
