import PlanGraph.Cluster.Basic
import PlanGraph.Json.Basic

set_option autoImplicit false

/-! # Clusters as JSON

The clusters of a plan can be written out and read back. Reading is lenient about fields that are
not known and strict about those that are: each must be there with its type, and only what is
optional may be missing or `null`. A record may also be written as the array of its fields. -/

namespace PlanGraph

/-! ## Writing -/

/-- A classification as JSON. -/
def Classification.toJson (c : Classification) : Json :=
  .object [("role_marker", .ofOption (fun r => .string r.name) c.role),
    ("concept_kind", .string c.kind.name),
    ("operator_kind", .ofOption (fun o => .string o.name) c.operator), ("name", .string c.name),
    ("suffix", .string c.suffix), ("warnings", .ofTexts c.warnings)]

/-- A line as JSON. -/
def Line.toJson (l : Line) : Json :=
  .object ([("position".toList, .string l.position.text), ("depth".toList, .ofNat l.depth),
    ("content".toList, .string l.content), ("classification".toList, l.classification.toJson),
    ("comments".toList, .ofTexts l.comments)] ++
    Json.optionalField "source_text" .string l.sourceText ++
    [("line_number".toList, .ofNat l.lineNumber)])

/-- A cluster as JSON. -/
def Cluster.toJson (c : Cluster) : Json :=
  .object [("position", .string c.position.text),
    ("concept_to_infer", .ofOption Line.toJson c.parent),
    ("function_concept", c.function.toJson), ("value_concepts", .array (c.values.map Line.toJson)),
    ("other_concepts", .array (c.others.map Line.toJson))]

/-! ## Reading -/

namespace Json

/-- The values of the named fields of a record, of which some may be missing. An array stands for
    the record with exactly these fields. -/
def record? (names : List Text) : Json → Option (List (Option Json))
  | object fields => some (names.map fun name => (object fields).field? name)
  | array items => if items.length = names.length then some (items.map some) else none
  | _ => none

/-- An optional value: none if it is missing or `null`. -/
def optional? {α : Type} (decode : Json → Option α) : Option Json → Option (Option α)
  | none | some null => some none
  | some j => (decode j).map some

/-- One of the values of an enumeration, by its name; also as an object with that one name and no
    value. -/
def named? {α : Type} (values : List α) (name : α → Text) : Json → Option α
  | string s => values.find? (name · == s)
  | object [(s, null)] => values.find? (name · == s)
  | _ => none

end Json

/-- Reads a classification. -/
def Classification.ofJson? (j : Json) : Option Classification := do
  let [role, kind, operator, name, suffix, warnings] ← j.record? ["role_marker", "concept_kind",
    "operator_kind", "name", "suffix", "warnings"] | none
  return {
    role := ← Json.optional? (Json.named? Role.all Role.name) role
    kind := ← kind.bind (Json.named? ConceptKind.all ConceptKind.name)
    operator := ← Json.optional? (Json.named? Operator.all Operator.name) operator
    name := ← name.bind Json.text?
    suffix := ← suffix.bind Json.text?
    warnings := ← warnings.bind Json.texts? }

/-- Reads a line. -/
def Line.ofJson? (j : Json) : Option Line := do
  let [position, depth, content, classification, comments, sourceText, lineNumber] ←
    j.record? ["position", "depth", "content", "classification", "comments", "source_text",
      "line_number"] | none
  return {
    position := ⟨← position.bind Json.text?⟩
    depth := ← depth.bind Json.nat?
    content := ← content.bind Json.text?
    classification := ← classification.bind Classification.ofJson?
    comments := ← comments.bind Json.texts?
    sourceText := ← Json.optional? Json.text? sourceText
    lineNumber := ← lineNumber.bind Json.nat? }

/-- Reads a list of lines. -/
def Line.listOfJson? (j : Json) : Option (List Line) := j.items?.bind (·.mapM Line.ofJson?)

/-- Reads a cluster. -/
def Cluster.ofJson? (j : Json) : Option Cluster := do
  let [position, parent, function, values, others] ← j.record? ["position", "concept_to_infer",
    "function_concept", "value_concepts", "other_concepts"] | none
  return {
    position := ⟨← position.bind Json.text?⟩
    parent := ← Json.optional? Line.ofJson? parent
    function := ← function.bind Line.ofJson?
    values := ← values.bind Line.listOfJson?
    others := ← others.bind Line.listOfJson? }

/-- Reads a list of clusters. -/
def Cluster.listOfJson? (j : Json) : Option (List Cluster) := j.items?.bind (·.mapM Cluster.ofJson?)

end PlanGraph
