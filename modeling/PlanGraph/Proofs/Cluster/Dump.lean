import PlanGraph.Cluster.Json
import PlanGraph.Proofs.Inference.References
import PlanGraph.Proofs.Json.Reading

set_option autoImplicit false

/-! # Clusters from their dump

Each record of a cluster is read back from its JSON: a classification always
(`Classification.ofJson?_toJson`), a line and a cluster if their counts are numbers of 64 bits
(`Line.ofJson?_toJson`, `Cluster.ofJson?_toJson`). In the clusters of a text they are, since depth and
line number are bounded by the length of the text (`fits_of_mem_parse`). With the text of a dump read
back by `Json.read?_print`, a dump can be compiled in place of the plan (`ofClusters_dump`). -/

namespace PlanGraph

/-! ## Encoded values -/

namespace Json

section Codec

variable {α : Type} {decode : Json → Option α} {encode : α → Json}

theorem optional?_ofOption {o : Option α} (hnull : ∀ a, encode a ≠ null)
    (h : ∀ a ∈ o, decode (encode a) = some a) :
    optional? decode (some (ofOption encode o)) = some o := by
  cases o with
  | none => rfl
  | some a =>
      rw [ofOption, optional?]
      · rw [h a rfl, Option.map_some]
      · exact hnull a

theorem mapM_items?_array {as : List α} (h : ∀ a ∈ as, decode (encode a) = some a) :
    (array (as.map encode)).items?.bind (·.mapM decode) = some as :=
  mapM_map_of_read h

end Codec

theorem nat?_ofNat {n : Nat} (h : n ≤ Numeral.max64) : (ofNat n).nat? = some n := if_pos h

end Json

/-! ## Encoded records -/

theorem Classification.ofJson?_toJson (c : Classification) : ofJson? c.toJson = some c := by
  have hrole : Json.optional? (Json.named? Role.all Role.name)
      (some (.ofOption (fun r => .string r.name) c.role)) = some c.role := by
    refine Json.optional?_ofOption (fun _ => Json.noConfusion) ?_
    intro r _
    cases r <;> rfl
  have hkind : Json.named? ConceptKind.all ConceptKind.name (.string c.kind.name) =
      some c.kind := by
    cases c.kind <;> rfl
  have hoperator : Json.optional? (Json.named? Operator.all Operator.name)
      (some (.ofOption (fun o => .string o.name) c.operator)) = some c.operator := by
    refine Json.optional?_ofOption (fun _ => Json.noConfusion) ?_
    intro o _
    cases o <;> rfl
  have hrecord : c.toJson.record? ["role_marker", "concept_kind", "operator_kind", "name", "suffix",
      "warnings"] = some [some (.ofOption (fun r => .string r.name) c.role),
        some (.string c.kind.name), some (.ofOption (fun o => .string o.name) c.operator),
        some (.string c.name), some (.string c.suffix), some (.ofTexts c.warnings)] := rfl
  rw [ofJson?, hrecord]
  simp only [Option.bind_eq_bind, Option.bind_some, hrole, hkind, hoperator, Json.text?,
    Json.texts?_ofTexts, Option.pure_def]

namespace Line

/-- The counts of a line are numbers of 64 bits. -/
def Fits (l : Line) : Prop := l.depth ≤ Numeral.max64 ∧ l.lineNumber ≤ Numeral.max64

theorem ofJson?_toJson {l : Line} (h : l.Fits) : ofJson? l.toJson = some l := by
  -- a wording that is missing has no field, and is read as none
  have hrecord : ∃ wording, Json.optional? Json.text? wording = some l.sourceText ∧
      l.toJson.record? ["position", "depth", "content", "classification", "comments",
        "source_text", "line_number"] = some [some (.string l.position.text), some (.ofNat l.depth),
          some (.string l.content), some l.classification.toJson, some (.ofTexts l.comments),
          wording, some (.ofNat l.lineNumber)] := by
    unfold toJson
    cases l.sourceText with
    | none => exact ⟨none, rfl, rfl⟩
    | some t => exact ⟨some (.string t), rfl, rfl⟩
  obtain ⟨wording, hwording, hrecord⟩ := hrecord
  rw [ofJson?, hrecord]
  simp only [Option.bind_eq_bind, Option.bind_some, hwording, Json.text?, Json.nat?_ofNat h.1,
    Json.nat?_ofNat h.2, Classification.ofJson?_toJson, Json.texts?_ofTexts, Option.pure_def]

theorem fits_of_mem_parse {width : Nat} {source : Text} (h : source.length < Numeral.max64)
    {l : Line} (hl : l ∈ parse width source) : l.Fits := by
  obtain ⟨hdepth, hnumber⟩ := size_of_mem_parse hl
  exact ⟨by omega, by omega⟩

end Line

theorem Cluster.ofJson?_toJson {c : Cluster} (h : ∀ l ∈ c.mentions, l.Fits) :
    ofJson? c.toJson = some c := by
  simp only [mentions, List.mem_append, Option.mem_toList, List.mem_singleton] at h
  have hparent : Json.optional? Line.ofJson? (some (.ofOption Line.toJson c.parent)) =
      some c.parent := by
    refine Json.optional?_ofOption (fun _ => Json.noConfusion) ?_
    intro l hl
    exact Line.ofJson?_toJson (h l (Or.inl (Or.inl (Or.inl hl))))
  have hfunction : Line.ofJson? c.function.toJson = some c.function :=
    Line.ofJson?_toJson (h _ (Or.inr rfl))
  have hvalues : Line.listOfJson? (.array (c.values.map Line.toJson)) = some c.values :=
    Json.mapM_items?_array fun l hl => Line.ofJson?_toJson (h l (Or.inl (Or.inl (Or.inr hl))))
  have hothers : Line.listOfJson? (.array (c.others.map Line.toJson)) = some c.others :=
    Json.mapM_items?_array fun l hl => Line.ofJson?_toJson (h l (Or.inl (Or.inr hl)))
  have hrecord : c.toJson.record? ["position", "concept_to_infer", "function_concept",
      "value_concepts", "other_concepts"] = some [some (.string c.position.text),
        some (.ofOption Line.toJson c.parent), some c.function.toJson,
        some (.array (c.values.map Line.toJson)), some (.array (c.others.map Line.toJson))] := rfl
  rw [ofJson?, hrecord]
  simp only [Option.bind_eq_bind, Option.bind_some, hparent, hfunction, hvalues, hothers, Json.text?,
    Option.pure_def]

/-! ## Dumps -/

namespace CompiledPlan

/-- **A dump stands for the plan.** The clusters of a text, printed as JSON in either layout and
    followed by any gaps such as the line feed at the end of a file, are read back as they were. The
    tables that are made from them, with the same number for the first reference to a file, are the
    tables of the text. -/
theorem ofClusters_dump (settings : Settings) (id : UInt32) (isPretty : Bool) {source gaps : Text}
    (hsource : source.length < Numeral.max64)
    (hgaps : ∀ c ∈ gaps, Json.Token.isGap c = true) :
    let plan := next settings id source
    let dump := Json.print isPretty (.array (plan.1.clusters.map Cluster.toJson)) ++ gaps
    (Json.read? dump).bind Cluster.listOfJson? = some plan.1.clusters ∧
      ((Json.read? dump).bind Cluster.listOfJson?).map (ofClusters settings id) = some plan := by
  intro plan dump
  have hfits : ∀ c ∈ plan.1.clusters, ∀ l ∈ c.mentions, l.Fits := fun c hc l hl =>
    Line.fits_of_mem_parse hsource (Tree.mem_of_mem_mentions hc hl)
  have hclusters : (Json.read? dump).bind Cluster.listOfJson? = some plan.1.clusters := by
    rw [Json.read?_print isPretty _ hgaps, Option.bind_some]
    exact Json.mapM_items?_array fun c hc => Cluster.ofJson?_toJson (hfits c hc)
  refine ⟨hclusters, ?_⟩
  rw [hclusters]
  rfl

/-- A plan with a quote, a backslash, a tab and a control character in its texts. -/
def quotedPlan : Text :=
  r#":<: {the "r"}"# ++ "\n    ...: a \\ b\tc \x01\n    <= ::(f)\n    <- {a} | α\n    <* <c>\n"

theorem ofClusters_dump_quotedPlan :
    quotedPlan.length < Numeral.max64 ∧ (∀ c ∈ ['\n'], Json.Token.isGap c = true) ∧
    (next { } 7 quotedPlan).1.clusters.length = 1 ∧
    (Json.read? (Json.print true (.array ((next { } 7 quotedPlan).1.clusters.map Cluster.toJson)) ++
      ['\n'])).bind Cluster.listOfJson? = some (next { } 7 quotedPlan).1.clusters ∧
    ((Json.read? (Json.print true (.array ((next { } 7 quotedPlan).1.clusters.map Cluster.toJson)) ++
      ['\n'])).bind Cluster.listOfJson?).map (ofClusters { } 7) = some (next { } 7 quotedPlan) := by
  have hsource : quotedPlan.length < Numeral.max64 := by decide
  have hgaps : ∀ c ∈ ['\n'], Json.Token.isGap c = true := by simp [Json.Token.isGap]
  exact ⟨hsource, hgaps, by decide +kernel, ofClusters_dump { } 7 true hsource hgaps⟩

end CompiledPlan

end PlanGraph
