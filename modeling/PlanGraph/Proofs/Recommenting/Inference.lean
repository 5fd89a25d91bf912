import PlanGraph.Compilation
import PlanGraph.Proofs.Text
import PlanGraph.Proofs.Tree.Families

set_option autoImplicit false

/-! # Plans with other comments

A recommenting gives the lines of a plan other comments that carry the same keyed notes and the same
sequence tag, and perhaps other line numbers. Nothing that is read off a cluster can tell the
difference: the tree and the clusters are the same up to the comments and numbers
(`clusters_map_line`), and so is every row of the inference table (`rows_map_cluster`). -/

namespace PlanGraph

/-- Other comments for lines, with the keyed notes and the sequence tag that each line had. -/
structure Recommenting where
  comments : Line → List Text
  lineNumber : Line → Nat := (·.lineNumber)
  keyedEntries_comments : ∀ l,
    (comments l).flatMap Note.keyedEntries = l.comments.flatMap Note.keyedEntries
  sequence_comments : ∀ l,
    (Notes.ofComments (comments l)).tag? "sequence" = l.notes.tag? "sequence"

namespace Recommenting

variable (r : Recommenting)

/-! ## Lines -/

/-- A line with its other comments. -/
def line (l : Line) : Line := { l with comments := r.comments l, lineNumber := r.lineNumber l }

/-- A cluster with the other comments of its lines. -/
def cluster (c : Cluster) : Cluster where
  position := c.position
  parent := c.parent.map r.line
  function := r.line c.function
  values := c.values.map r.line
  others := c.others.map r.line

section Line

variable (l : Line)

@[simp]
theorem depth_line : (r.line l).depth = l.depth := rfl

@[simp]
theorem classification_line : (r.line l).classification = l.classification := rfl

@[simp]
theorem hasRole_line (role : Role) : (r.line l).hasRole role = l.hasRole role := rfl

@[simp]
theorem stripped_line : (r.line l).stripped = l.stripped := rfl

@[simp]
theorem reference_line : (r.line l).reference = l.reference := rfl

@[simp]
theorem binding?_line : (r.line l).binding? = l.binding? := rfl

@[simp]
theorem get?_notes_line (key : Text) : (r.line l).notes.get? key = l.notes.get? key := by
  unfold Line.notes Notes.get? Notes.ofComments line
  rw [r.keyedEntries_comments]

@[simp]
theorem flag_notes_line (key : Text) : (r.line l).notes.flag key = l.notes.flag key := by
  unfold Notes.flag
  rw [get?_notes_line]

@[simp]
theorem literalNote?_line : Assignment.literalNote? (r.line l) = Assignment.literalNote? l := by
  unfold Assignment.literalNote? LiteralNote.ofComments line
  rw [r.keyedEntries_comments]

@[simp]
theorem resolve?_line : Sequence.resolve? (r.line l) = Sequence.resolve? l := by
  have htier : Sequence.ofTier? (r.line l) = Sequence.ofTier? l := by
    funext tier
    cases tier with
    | inlineTag =>
        show ((Notes.ofComments (r.comments l)).tag? "sequence").bind _ = _
        rw [r.sequence_comments]
        rfl
    | textHeuristic => rfl
    | operatorKind => rfl
    | doubleColon => rfl
  rw [Sequence.resolve?, htier, Sequence.resolve?]

end Line

/-! ## The tree -/

theorem ofChildren?_map_line (parent : Line) (kids : List Line) :
    Cluster.ofChildren? (r.line parent) (kids.map r.line) =
      (Cluster.ofChildren? parent kids).map r.cluster := by
  unfold Cluster.ofChildren?
  simp only [List.find?_map, List.filter_map, List.eraseP_map, Function.comp_def, hasRole_line]
  cases kids.find? (·.hasRole .operator) <;> rfl

theorem clusters_map_line (lines : List Line) :
    Tree.clusters (lines.map r.line) = (Tree.clusters lines).map r.cluster :=
  Tree.clusters_map r.depth_line r.ofChildren?_map_line lines

/-! ## The readings of a cluster -/

section Cluster

variable (c : Cluster)

theorem contexts_cluster : (r.cluster c).contexts = c.contexts.map r.line := by
  unfold Cluster.contexts cluster
  rw [List.filter_map]
  rfl

theorem nested_cluster : (r.cluster c).nested = c.nested.map r.line := by
  unfold Cluster.nested cluster
  rw [List.filter_map]
  rfl

theorem operation_cluster (isJudgement : Bool) :
    Operation.ofCluster isJudgement (r.cluster c) = Operation.ofCluster isJudgement c := by
  have hbound : Operation.boundValues (c.values.map r.line) = Operation.boundValues c.values := by
    simp [Operation.boundValues, List.filterMap_map, Function.comp_def]
  have horder : Operation.orderOf (r.cluster c) = Operation.orderOf c := by
    unfold Operation.orderOf
    simp only [cluster, get?_notes_line, hbound, List.map_map, Function.comp_def, reference_line]
  have hselector : ∀ v : Line,
      ValueSelector.ofNotes? (r.line v).notes = ValueSelector.ofNotes? v.notes := by
    intro v
    simp only [ValueSelector.ofNotes?, get?_notes_line, flag_notes_line]
  have hselectors : Operation.selectorsOf (r.cluster c) = Operation.selectorsOf c := by
    unfold Operation.selectorsOf
    simp only [cluster, List.filterMap_map, Function.comp_def, hselector, reference_line]
  unfold Operation.ofCluster
  rw [horder, hselectors]
  rfl

theorem assignment_cluster (noneAxis : Text) :
    Assignment.ofCluster noneAxis (r.cluster c) = Assignment.ofCluster noneAxis c := by
  have hspecification :
      Assignment.specificationSource (r.cluster c) = Assignment.specificationSource c := by
    simp only [Assignment.specificationSource, cluster, get?_notes_line, stripped_line]
  have hface : Assignment.faceValue? (r.cluster c) = Assignment.faceValue? c := by
    simp only [Assignment.faceValue?, cluster, literalNote?_line, stripped_line]
    cases c.parent <;> simp
  have haxes : Assignment.parentAxes noneAxis (r.cluster c) = Assignment.parentAxes noneAxis c := by
    unfold Assignment.parentAxes cluster
    cases c.parent <;> simp
  unfold Assignment.ofCluster
  rw [hspecification, hface, haxes]
  rfl

theorem grouping_cluster (noneAxis : Text) :
    Grouping.ofCluster noneAxis (r.cluster c) = Grouping.ofCluster noneAxis c := by
  have hmarker : Grouping.markerOf (r.cluster c) = Grouping.markerOf c := rfl
  have hsources : Grouping.sourcesOf (r.cluster c) = Grouping.sourcesOf c := by
    simp [Grouping.sourcesOf, cluster, Function.comp_def]
  have hcollapse :
      Grouping.collapseAxes? noneAxis (r.cluster c) = Grouping.collapseAxes? noneAxis c := by
    unfold Grouping.collapseAxes? cluster
    simp only [List.isEmpty_map, List.mapM_map, Function.comp_def, get?_notes_line]
  have hnoted : Grouping.notedAxes? noneAxis (r.cluster c) = Grouping.notedAxes? noneAxis c := by
    unfold Grouping.notedAxes? cluster
    simp only [get?_notes_line, List.length_map]
  have hinline : Grouping.inlineAxes? noneAxis (r.cluster c) = Grouping.inlineAxes? noneAxis c := by
    unfold Grouping.inlineAxes? cluster
    simp only [stripped_line, List.length_map]
  have hvalues : Grouping.valueAxes noneAxis (r.cluster c) = Grouping.valueAxes noneAxis c := by
    unfold Grouping.valueAxes cluster
    simp only [List.map_map, Function.comp_def, get?_notes_line]
  have haxes : Grouping.axesOf noneAxis (r.cluster c) = Grouping.axesOf noneAxis c := by
    unfold Grouping.axesOf
    rw [hcollapse, hnoted, hinline, hvalues]
  unfold Grouping.ofCluster
  rw [hmarker, hsources, haxes]

theorem loop_cluster (noneAxis : Text) :
    Loop.ofCluster noneAxis (r.cluster c) = Loop.ofCluster noneAxis c := by
  have hcontext : ∀ role, Loop.context? role (r.cluster c) = (Loop.context? role c).map r.line := by
    intro role
    unfold Loop.context?
    rw [contexts_cluster, List.find?_map]
    rfl
  have hbase : Loop.groupBaseAxis? noneAxis (r.cluster c) = Loop.groupBaseAxis? noneAxis c := by
    unfold Loop.groupBaseAxis?
    rw [hcontext]
    simp only [cluster, get?_notes_line, stripped_line]
    cases Loop.context? .currentElement c <;> simp
  have hreference : ∀ o : Option Line,
      (o.map r.line).map (·.reference) = o.map (·.reference) := by
    intro o
    cases o <;> rfl
  unfold Loop.ofCluster
  rw [hbase, hcontext, hcontext, hreference, hreference]
  rfl

theorem interpretation_cluster (sequence : Sequence) (noneAxis : Text) :
    Interpretation.ofCluster sequence noneAxis (r.cluster c) =
      Interpretation.ofCluster sequence noneAxis c := by
  cases sequence with
  | imperative => exact congrArg Interpretation.operation (r.operation_cluster c false)
  | judgement => exact congrArg Interpretation.operation (r.operation_cluster c true)
  | assigning => exact congrArg Interpretation.assignment (r.assignment_cluster c noneAxis)
  | grouping => exact congrArg Interpretation.grouping (r.grouping_cluster c noneAxis)
  | timing => rfl
  | looping => exact congrArg Interpretation.loop (r.loop_cluster c noneAxis)

end Cluster

/-! ## The inference table -/

theorem infers_cluster (concepts : List ConceptRow) (c : Cluster) :
    InferenceTable.infers concepts (r.cluster c) = InferenceTable.infers concepts c := by
  unfold InferenceTable.infers InferenceTable.ownSource? InferenceTable.placeholder cluster
  cases c.parent <;> rfl

theorem row?_cluster (settings : Settings) (concepts : List ConceptRow) (c : Cluster) :
    InferenceTable.row? settings concepts (r.cluster c) =
      InferenceTable.row? settings concepts c := by
  have hrow : ∀ sequence, InferenceTable.rowOf settings concepts (r.cluster c) sequence =
      InferenceTable.rowOf settings concepts c sequence := by
    intro sequence
    unfold InferenceTable.rowOf
    rw [infers_cluster, contexts_cluster, interpretation_cluster]
    simp [cluster, Function.comp_def]
  unfold InferenceTable.row?
  simp only [hrow]
  simp [cluster]

theorem withNested_cluster (c : Cluster) :
    InferenceTable.withNested (r.cluster c) = (InferenceTable.withNested c).map r.cluster := by
  unfold InferenceTable.withNested
  rw [nested_cluster]
  simp [Cluster.promoted, cluster, Function.comp_def, line]

theorem rows_map_cluster (settings : Settings) (concepts : List ConceptRow)
    (clusters : List Cluster) :
    InferenceTable.rows settings concepts (clusters.map r.cluster) =
      InferenceTable.rows settings concepts clusters := by
  have hnested : (clusters.map r.cluster).flatMap InferenceTable.withNested =
      (clusters.flatMap InferenceTable.withNested).map r.cluster := by
    rw [List.flatMap_map, List.map_flatMap]
    simp only [withNested_cluster]
  unfold InferenceTable.rows
  rw [hnested, List.filterMap_map]
  congr 1
  funext c
  exact r.row?_cluster settings concepts c

end Recommenting

end PlanGraph
