import PlanGraph.Concept.Row
import PlanGraph.Event
import PlanGraph.Inference.Row
import PlanGraph.StableSort

set_option autoImplicit false

/-! # The inference table

One row for each cluster whose sequence can be told, and one for each further operation in it, which
stands for itself. Rows are sorted by position. -/

namespace PlanGraph

namespace InferenceTable

/-! ## What is inferred -/

/-- Whether the name of a concept opens with the bracket of a thing. -/
def isBracketed (name : Text) : Bool :=
  name.startsWith ['{'] || name.startsWith "[" || name.startsWith "<"

/-- Whether a reference names a row of the concept table: in brackets by its bare name, else by the
    whole text. -/
def resolves (concepts : List ConceptRow) (reference : Text) : Bool :=
  match ConceptKind.ofToken? reference with
  | some _ => concepts.any fun c => c.naturalName == bareName reference && isBracketed c.name
  | none => concepts.any fun c => c.name == reference

/-- The name of what a cluster infers when nothing else is known. -/
def placeholder (c : Cluster) : Text := '{' :: "_inferred_".toList ++ c.position.text ++ ['}']

/-- The source that a cluster without a parent names. -/
def ownSource? (c : Cluster) : Option Text :=
  if c.parent.isSome then none else Assignment.singleSource? c.function.stripped

/-- The concept that a cluster infers: its parent, else the source of its operation if that is a
    concept of the table, else a placeholder. -/
def infers (concepts : List ConceptRow) (c : Cluster) : Text :=
  match c.parent with
  | some parent => parent.reference
  | none => ((ownSource? c).filter (resolves concepts)).getD (placeholder c)

/-! ## Rows -/

/-- The row of a cluster that runs the given sequence. -/
def rowOf (settings : Settings) (concepts : List ConceptRow) (c : Cluster) (sequence : Sequence) :
    InferenceRow where
  position := c.position
  sequence := sequence
  infers := infers concepts c
  function := c.function.stripped
  values := c.values.map (·.reference)
  contexts := c.contexts.map (·.reference)
  interpretation := .ofCluster sequence settings.noneAxis c

/-- The row of a cluster, if its sequence can be told. -/
def row? (settings : Settings) (concepts : List ConceptRow) (c : Cluster) : Option InferenceRow :=
  (Sequence.resolve? c.function).map fun (sequence, _) => rowOf settings concepts c sequence

/-- A cluster and its further operations, each of which gives a row. -/
def withNested (c : Cluster) : List Cluster := c :: c.nested.map Cluster.promoted

/-- The rows of the clusters in order. -/
def rows (settings : Settings) (concepts : List ConceptRow) (clusters : List Cluster) :
    List InferenceRow :=
  (clusters.flatMap withNested).filterMap (row? settings concepts)

/-- Rows sorted by position. -/
def sorted (rs : List InferenceRow) : List InferenceRow :=
  stableSort (fun a b => a.position.le b.position) rs

/-- The inference table of the clusters. -/
def build (settings : Settings) (concepts : List ConceptRow) (clusters : List Cluster) :
    List InferenceRow :=
  sorted (rows settings concepts clusters)

/-! ## Events -/

/-- What the choice of the inferred concept reports. -/
def inferredEvents (concepts : List ConceptRow) (c : Cluster) : List Event :=
  match ownSource? c with
  | some source => if resolves concepts source then [] else [.placeholderUsed c.position source]
  | none => []

/-- What reading a cluster as a sequence reports. -/
def readingEvents (sequence : Sequence) (c : Cluster) : List Event :=
  match sequence with
  | .imperative | .judgement =>
    if Operation.excluded c = 0 then [] else [.unboundValues c.position (Operation.excluded c)]
  | .assigning =>
    (if (Assignment.marker? c).isNone then [.noMarker c.position c.function.stripped] else []) ++
      (if Assignment.lacksSource c then [.missingSource c.position c.function.stripped] else [])
  | .looping => (Loop.strayContexts c).map fun l => .noLoopReference l.position
  | .grouping | .timing => []

/-- What compiling one cluster reports. -/
def clusterEvents (settings : Settings) (concepts : List ConceptRow) (c : Cluster) : List Event :=
  (Sequence.unknownTag? c.function).toList.map (.unknownTag c.function.position ·) ++
    match Sequence.resolve? c.function with
    | none => [.unresolved settings.unresolved c.position c.function.stripped]
    | some (sequence, tier) =>
      .resolved c.position sequence tier ::
        (inferredEvents concepts c ++ readingEvents sequence c)

/-- What building the inference table reports. -/
def events (settings : Settings) (concepts : List ConceptRow) (clusters : List Cluster) :
    List Event :=
  (clusters.flatMap withNested).flatMap (clusterEvents settings concepts)

end InferenceTable

end PlanGraph
