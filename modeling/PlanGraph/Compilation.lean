import PlanGraph.Cluster.Tree
import PlanGraph.Concept.Table
import PlanGraph.Inference.Table

set_option autoImplicit false

/-! # Compilation

A plan text becomes lines, the lines become clusters, and the clusters become the two tables: its
concepts and its inferences. Every text compiles. The only thing that one compilation leaves for
the next is the number of the next reference to a file. -/

namespace PlanGraph

/-- The result of a compilation. -/
structure CompiledPlan where
  clusters : List Cluster
  concepts : List ConceptRow
  inferences : List InferenceRow
deriving DecidableEq, Repr, Inhabited

namespace CompiledPlan

/-- The tables of some clusters, and the number for the next reference to a file. -/
def ofClusters (settings : Settings) (nextId : UInt32) (clusters : List Cluster) :
    CompiledPlan × UInt32 :=
  let (concepts, nextId) := ConceptTable.build settings nextId clusters
  (⟨clusters, concepts, InferenceTable.build settings concepts clusters⟩, nextId)

/-- A plan text compiled, and the number for the next reference to a file. -/
def next (settings : Settings) (nextId : UInt32) (source : Text) : CompiledPlan × UInt32 :=
  ofClusters settings nextId (Tree.clusters (Line.parse settings.indentWidth source))

/-- A plan text compiled by itself. -/
def ofText (settings : Settings) (source : Text) : CompiledPlan :=
  (next settings settings.firstId source).1

/-! ## Events -/

/-- What reading the lines of a plan text reports. -/
def lineEvents (settings : Settings) (source : Text) : List Event :=
  let (dropped, lines) := Line.group (Entry.scan settings.indentWidth source)
  dropped.map (fun e => .droppedComment e.lineNumber) ++
    (lines.filter (!·.classification.warnings.isEmpty)).map fun l =>
      .classifiedWithWarnings l.lineNumber l.classification.warnings

/-- What compiling a plan text by itself reports, in order. -/
def events (settings : Settings) (source : Text) : List Event :=
  let lines := Line.parse settings.indentWidth source
  let plan := ofText settings source
  lineEvents settings source ++
    (Tree.withoutFunction lines).map (fun l => .noFunction l.position) ++
    [.builtClusters lines.length plan.clusters.length] ++
    ConceptTable.events plan.clusters ++
    InferenceTable.events settings plan.concepts plan.clusters ++
    [.compiled plan.concepts.length plan.inferences.length]

end CompiledPlan

end PlanGraph
