import PlanGraph.Bracket.Basic
import PlanGraph.Concept.Kind

set_option autoImplicit false

/-! # Tokens that name concepts

An argument names a concept either with its brackets, `[items]`, or by its bare name, `items`. -/

namespace PlanGraph

namespace ConceptKind

/-- The kind that the first bracket of a token implies. -/
def ofToken? (token : Text) : Option ConceptKind :=
  match token.trim with
  | '{' :: _ => some object
  | '[' :: _ => some relation
  | '<' :: _ => some proposition
  | _ => none

/-- A token as the name of a concept: kept if it opens with a bracket, else wrapped in the brackets
    of the given kind. -/
def reference (kind : ConceptKind) (token : Text) : Text :=
  match ofToken? token.trim with
  | some _ => token.trim
  | none => kind.wrap token.trim

end ConceptKind

/-- A token without the brackets around it. -/
def bareName (token : Text) : Text :=
  match Bracket.enclosed? token.trim with
  | some (_, inner, []) => inner.trim
  | _ => token.trim

end PlanGraph
