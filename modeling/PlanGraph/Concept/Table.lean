import PlanGraph.Axes
import PlanGraph.Concept.Mention
import PlanGraph.Concept.Naming
import PlanGraph.Concept.Row
import PlanGraph.Event
import PlanGraph.Reference
import PlanGraph.StableSort

set_option autoImplicit false

/-! # The concept table

One row for each concept that the clusters mention, sorted by first position. A concept is given
exactly if no cluster infers it, whatever its notes say. -/

namespace PlanGraph

namespace ConceptTable

/-! ## Rows -/

/-- The value that notes or the concept's own text give: a file, a literal note for it, or the value
    in its text. -/
def givenValue? (m : Mention) : Option Literal :=
  (((Notes.ofComments m.comments).get? "file_location").map fun path =>
    Literal.one (Reference.fileLocation path)).orElse fun _ =>
  (((LiteralNote.ofComments m.comments).find? fun note =>
    note.name.isEmpty || note.name == m.line.name).map (·.value)).orElse fun _ =>
  (Naming.value? m.line.stripped).map fun v => Literal.one (Literal.sign v)

/-- Whether notes, the role or the concept's own text say that the concept is given. -/
def saysGround (m : Mention) : Bool :=
  let notes := Notes.ofComments m.comments
  m.isExternal || notes.flag "ground" || notes.isGround || (notes.get? "file_location").isSome ||
    (Naming.value? m.line.stripped).isSome

/-- The row of a concept that is no operation. -/
def thingRow (settings : Settings) (isProduced : Bool) (m : Mention) : ConceptRow :=
  let notes := Notes.ofComments m.comments
  let axes := (((notes.get? "axis").map (Axes.ofText settings.noneAxis)).getD
    (.absent settings.noneAxis)).flatten
  { name := m.line.classification.formattedName
    kind := m.line.classification.kindMarker
    positions := m.positions
    isGround := !isProduced
    isFinal := m.isFinal
    isInvariant := notes.flag "invariant"
    referenceData := givenValue? m
    axisName := axes.head?.getD []
    referenceAxisNames := axes
    elementType := notes.get? "element_type"
    naturalName := m.line.name }

/-- Whether an operation is written in words. -/
def isParadigm (m : Mention) : Bool := m.line.kind == .imperative || m.line.kind == .judgement

/-- The input file of an operation in words. -/
def inputFile? (m : Mention) : Option Text :=
  if isParadigm m then
    ((Notes.ofComments m.comments).get? "v_input_provision").filter (!·.isEmpty)
  else none

/-- The row of an operation with the given value. -/
def operationRow (settings : Settings) (isProduced : Bool) (value : Text) (m : Mention) :
    ConceptRow where
  name := m.line.stripped
  kind := m.line.classification.kindMarker
  positions := m.positions
  isGround := !isProduced
  isFinal := m.isFinal
  isInvariant := true
  referenceData := some (.one value)
  axisName := settings.noneAxis
  referenceAxisNames := [settings.noneAxis]
  elementType := some (if isParadigm m then "paradigm" else "operator")
  naturalName := Naming.operation m.line.stripped

/-- The row of a concept, and the number for the next reference to a file. -/
def row (settings : Settings) (produced : List Text) (nextId : UInt32) (m : Mention) :
    ConceptRow × UInt32 :=
  let isProduced := produced.contains m.key
  if m.line.kind.isFunctionLike then
    match inputFile? m with
    | some path => (operationRow settings isProduced (Reference.sign path nextId) m, nextId + 1)
    | none => (operationRow settings isProduced settings.dummyReference m, nextId)
  else (thingRow settings isProduced m, nextId)

/-- The rows of the concepts in order, and the number for the next reference to a file. -/
def rows (settings : Settings) (produced : List Text) :
    UInt32 → List Mention → List ConceptRow × UInt32
  | nextId, [] => ([], nextId)
  | nextId, m :: ms =>
    let (r, nextId) := row settings produced nextId m
    let (rs, nextId) := rows settings produced nextId ms
    (r :: rs, nextId)

/-! ## The table -/

/-- Rows sorted by first position. -/
def sorted (rs : List ConceptRow) : List ConceptRow :=
  stableSort (fun a b => a.sortKey.le b.sortKey) rs

/-- The concept table of the clusters, and the number for the next reference to a file. -/
def build (settings : Settings) (nextId : UInt32) (clusters : List Cluster) :
    List ConceptRow × UInt32 :=
  let (rs, nextId) := rows settings (Mention.produced clusters) nextId (Mention.collect clusters)
  (sorted rs, nextId)

/-- What a concept's row gives cause to report. -/
def rowEvents (produced : List Text) (m : Mention) : List Event :=
  if !produced.contains m.key then []
  else if m.line.kind.isFunctionLike then [.operatorProduced m.line.stripped]
  else if saysGround m then [.groundIgnored m.line.name]
  else []

/-- What building the concept table reports. -/
def events (clusters : List Cluster) : List Event :=
  (Mention.skipped clusters).map (fun l => .skippedComment l.position) ++
    (Mention.collect clusters).flatMap (rowEvents (Mention.produced clusters))

end ConceptTable

end PlanGraph
