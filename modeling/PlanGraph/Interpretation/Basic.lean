import PlanGraph.Interpretation.Assignment
import PlanGraph.Interpretation.Grouping
import PlanGraph.Interpretation.Loop
import PlanGraph.Interpretation.Operation
import PlanGraph.Interpretation.Timing
import PlanGraph.Sequence

set_option autoImplicit false

/-! # Interpretations

How an inference is carried out, read off its cluster according to the sequence that it runs. -/

namespace PlanGraph

/-- How an inference is carried out. -/
inductive Interpretation where
  | operation (o : Operation)
  | assignment (a : Assignment)
  | grouping (g : Grouping)
  | timing (t : Timing)
  | loop (l : Loop)
deriving DecidableEq, Repr, Inhabited

namespace Interpretation

/-- A cluster read as the given sequence, whatever its operation looks like. -/
def ofCluster (sequence : Sequence) (noneAxis : Text) (c : Cluster) : Interpretation :=
  match sequence with
  | .imperative => operation (.ofCluster false c)
  | .judgement => operation (.ofCluster true c)
  | .assigning => assignment (.ofCluster noneAxis c)
  | .grouping => grouping (.ofCluster noneAxis c)
  | .timing => timing (.ofCluster c)
  | .looping => loop (.ofCluster noneAxis c)

/-- An interpretation as JSON, without a name for its form. -/
def toJson : Interpretation → Json
  | operation o => o.toJson
  | assignment a => a.toJson
  | grouping g => g.toJson
  | timing t => t.toJson
  | loop l => l.toJson

end Interpretation

end PlanGraph
