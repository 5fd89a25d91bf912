import Mathlib.Data.List.Pairwise
import PlanGraph.Proofs.Inference.References

set_option autoImplicit false

/-! # What identifies a concept

The concept table has one row for each key, and the key is not what the row shows. A thing is keyed
by its bare name, so among things neither the natural name nor the reference of a row is shared by
another key. An operation is keyed by its whole content, role symbol and spacing included, while its
reference drops the role symbol and its natural name the brackets as well. So what holds of keys
holds of names except where operations are concerned: a concept that is inferred can appear as given
only if it is an operation with a second key (`ground_inferred_iff`), and natural names are unique
exactly if no operation is named like another concept (`naturalNames_nodup_iff`). -/

namespace PlanGraph

namespace Line

theorem conceptKey_of_thing {l : Line} (h : l.kind.isFunctionLike = false) :
    l.conceptKey = l.name := by
  rw [conceptKey, h]
  rfl

theorem conceptKey_of_operation {l : Line} (h : l.kind.isFunctionLike = true) :
    l.conceptKey = l.content := by
  rw [conceptKey, if_pos h]

theorem reference_of_operation {l : Line} (h : l.kind.isFunctionLike = true) :
    l.reference = l.stripped := by
  rw [reference, if_pos h]

/-- Lines that are called the same are operations or mention one concept. -/
theorem WellRead.conceptKey_eq_of_reference_eq {f l : Line} (hf : f.WellRead) (hl : l.WellRead)
    (h : f.reference = l.reference) :
    f.kind.isFunctionLike = l.kind.isFunctionLike ∧
      (l.kind.isFunctionLike = false → f.conceptKey = l.conceptKey) := by
  obtain ⟨hform, hname⟩ := hl.eq_of_reference_eq hf h
  have hkind : f.kind.isFunctionLike = l.kind.isFunctionLike := by
    rw [Bool.eq_iff_iff, ConceptKind.isFunctionLike_iff, ConceptKind.isFunctionLike_iff, hform]
  refine ⟨hkind, ?_⟩
  intro hthing
  rw [conceptKey_of_thing hthing, conceptKey_of_thing (hkind.trans hthing), hname]

end Line

namespace ConceptTable

variable {settings : Settings} {nextId : UInt32} {clusters : List Cluster}

/-! ## Given concepts -/

/-- A given row that is called like a line whose concept is inferred belongs to an operation of the
    same text with another key. -/
theorem exists_ground_reference_iff (hclusters : ∀ f ∈ Mention.lines clusters, f.WellRead)
    {l : Line} (hl : l.WellRead) (hproduced : l.conceptKey ∈ Mention.produced clusters) :
    (∃ row ∈ (build settings nextId clusters).1, row.isGround = true ∧ row.name = l.reference) ↔
      l.kind.isFunctionLike = true ∧ ∃ f, Mention.IsFirst clusters f ∧
        f.kind.isFunctionLike = true ∧ f.stripped = l.stripped ∧
        f.content ∉ Mention.produced clusters := by
  constructor
  · rintro ⟨row, hrow, hground, hname⟩
    obtain ⟨f, hfirst, hof⟩ := exists_isFirst_of_mem hrow
    have hreference : f.reference = l.reference := by rw [← (names_of_rowOf hfirst hof).name, hname]
    have hgiven : f.conceptKey ∉ Mention.produced clusters := by
      rw [mem_produced_iff]
      exact hof.isGround_iff.1 hground
    obtain ⟨hkind, hkey⟩ :=
      (hclusters f hfirst.mem).conceptKey_eq_of_reference_eq hl hreference
    have hoperation : l.kind.isFunctionLike = true := by
      by_contra hthing
      rw [hkey (Bool.of_not_eq_true hthing)] at hgiven
      exact hgiven hproduced
    have hfoperation := hkind.trans hoperation
    rw [Line.conceptKey_of_operation hfoperation] at hgiven
    rw [Line.reference_of_operation hfoperation, Line.reference_of_operation hoperation] at hreference
    exact ⟨hoperation, f, hfirst, hfoperation, hreference, hgiven⟩
  · rintro ⟨hoperation, f, hfirst, hfoperation, hstripped, hgiven⟩
    obtain ⟨row, hrow, hof⟩ := exists_row_of_isFirst hfirst
    rw [← Line.conceptKey_of_operation hfoperation, mem_produced_iff] at hgiven
    refine ⟨row, hrow, hof.isGround_iff.2 hgiven, ?_⟩
    rw [(names_of_rowOf hfirst hof).name, Line.reference_of_operation hfoperation, hstripped,
      Line.reference_of_operation hoperation]

/-! ## Natural names -/

/-- The natural name of the concept that a line mentions first. -/
def naturalNameOf (first : Line) : Text :=
  if first.kind.isFunctionLike then Naming.operation first.stripped else first.name

theorem naturalName_of_rowOf {weight : Line → Nat} {f : Line} {row : ConceptRow}
    (hfirst : Mention.IsFirst clusters f) (h : RowOf settings clusters weight f.conceptKey row) :
    row.naturalName = naturalNameOf f ∧ row.kind = f.classification.kindMarker := by
  obtain ⟨first, -, hhead, -, -, hkind, hnatural, -⟩ := h.columns
  obtain rfl : first = f := Option.some.inj (hhead.symm.trans hfirst)
  exact ⟨hnatural, hkind⟩

/-- The first mentions of two concepts have different natural names. -/
def NamedApart (clusters : List Cluster) (key key' : Text) : Prop :=
  ∀ f, Mention.IsFirst clusters f → f.conceptKey = key →
    ∀ g, Mention.IsFirst clusters g → g.conceptKey = key' → naturalNameOf f ≠ naturalNameOf g

instance : Std.Symm (NamedApart clusters) where
  symm _ _ h g hg hgkey f hf hfkey := (h f hf hfkey g hg hgkey).symm

/-- Natural names are unique exactly if first mentions of different concepts have different ones. -/
theorem nodup_naturalName_iff :
    ((build settings nextId clusters).1.map (·.naturalName)).Nodup ↔
      ∀ f, Mention.IsFirst clusters f → ∀ g, Mention.IsFirst clusters g →
        g.conceptKey ≠ f.conceptKey → naturalNameOf f ≠ naturalNameOf g := by
  rw [List.Nodup, List.pairwise_map]
  constructor
  · intro hnames f hf g hg hne
    obtain ⟨keys, hkeys, hrows⟩ :=
      forall₂_rowOf_buildBy (·.comments.length) settings nextId clusters
    -- two concepts may have rows that are equal as data, so the names are compared by key
    have hapart : keys.Pairwise (NamedApart clusters) := by
      rw [build_eq_buildBy] at hnames
      refine pairwise_of_forall₂ hrows.flip hnames ?_
      rintro a b _ _ hab ha hb f hf rfl g hg rfl
      rw [← (naturalName_of_rowOf hf ha).1, ← (naturalName_of_rowOf hg hb).1]
      exact hab
    exact hapart.forall (hkeys.mem_iff.2 hf.key_mem) (hkeys.mem_iff.2 hg.key_mem) hne.symm
      f hf rfl g hg rfl
  · intro hapart
    refine pairwise_build ?_
    intro f g hf hg hne a b ha hb
    rw [(naturalName_of_rowOf hf ha).1, (naturalName_of_rowOf hg hb).1]
    exact hapart f hf g hg hne.symm

/-- Different things have different natural names. -/
theorem naturalNameOf_ne_of_thing {f g : Line} (hf : f.kind.isFunctionLike = false)
    (hg : g.kind.isFunctionLike = false) (hne : g.conceptKey ≠ f.conceptKey) :
    naturalNameOf f ≠ naturalNameOf g := by
  rw [Line.conceptKey_of_thing hf, Line.conceptKey_of_thing hg] at hne
  rw [naturalNameOf, naturalNameOf, hf, hg]
  exact hne.symm

/-- The marks of the kinds that are no operations. -/
def thingMarks : List Text := [":S:", "<>", "[]", "{}", "?"]

theorem isFunctionLike_of_mark {kind : ConceptKind} {op : Option Operator}
    (h : kind.marker op ∈ thingMarks) : kind.isFunctionLike = false := by
  cases kind with
  | operator =>
      cases op with
      | none => exact absurd h (by decide)
      | some op => exact absurd h (by cases op <;> decide)
  | judgement => exact absurd (show ("::(){}" : Text) ∈ thingMarks from h) (by decide)
  | imperative => exact absurd (show ("::({})" : Text) ∈ thingMarks from h) (by decide)
  | _ => rfl

/-- Rows of things have different natural names. -/
theorem pairwise_naturalName_of_things :
    (build settings nextId clusters).1.Pairwise fun a b =>
      a.kind ∈ thingMarks → b.kind ∈ thingMarks → a.naturalName ≠ b.naturalName := by
  refine pairwise_build ?_
  intro f g hf hg hne a b ha hb hthing hthing'
  obtain ⟨hname, hkind⟩ := naturalName_of_rowOf hf ha
  obtain ⟨hname', hkind'⟩ := naturalName_of_rowOf hg hb
  rw [hkind] at hthing
  rw [hkind'] at hthing'
  rw [hname, hname']
  exact naturalNameOf_ne_of_thing (isFunctionLike_of_mark hthing) (isFunctionLike_of_mark hthing')
    hne.symm

end ConceptTable

namespace InferenceTable

theorem mem_build_of_row? {settings : Settings} {concepts : List ConceptRow}
    {clusters : List Cluster} {c : Cluster} (hc : c ∈ clusters) {row : InferenceRow}
    (h : row? settings concepts c = some row) : row ∈ build settings concepts clusters := by
  have hwith : c ∈ clusters.flatMap withNested := List.mem_flatMap.2 ⟨c, hc, List.mem_cons_self⟩
  rw [build, sorted, (stableSort_perm _ _).mem_iff, rows]
  exact List.mem_filterMap.2 ⟨c, hwith, h⟩

end InferenceTable

namespace CompiledPlan

/-- **Inferred concepts that appear as given.** Whatever a cluster infers for a derived line, its
    row is in the inference table, and the concept table has a given row of the inferred name exactly
    if the line is an operation and its text is also that of an operation whose whole content, role
    symbol and spacing included, no cluster infers. For all that is no operation there is no such
    row. -/
theorem ground_inferred_iff (settings : Settings) (source : Text) :
    let plan := ofText settings source
    ∀ c ∈ plan.clusters, ∀ parent role, c.parent = some parent → parent.role = some role →
      role.isDerived = true →
      ∀ row, InferenceTable.row? settings plan.concepts c = some row →
        row ∈ plan.inferences ∧
        ((∃ concept ∈ plan.concepts, concept.isGround = true ∧ concept.name = row.infers) ↔
          parent.kind.isFunctionLike = true ∧ ∃ f, Mention.IsFirst plan.clusters f ∧
            f.kind.isFunctionLike = true ∧ f.stripped = parent.stripped ∧
            f.content ∉ Mention.produced plan.clusters) := by
  intro plan c hc parent role hparent hrole hderived row hrow
  have hmention : parent ∈ c.mentions := by simp [Cluster.mentions, hparent]
  have hproduced : parent.conceptKey ∈ Mention.produced plan.clusters :=
    ConceptTable.mem_produced_iff.2 ⟨c, hc, parent, hparent, rfl, role, hrole, hderived⟩
  have hinfers : row.infers = parent.reference := by
    obtain ⟨told, -, rfl⟩ := Option.map_eq_some_iff.1 hrow
    simp only [InferenceTable.rowOf, InferenceTable.infers, hparent]
  refine ⟨InferenceTable.mem_build_of_row? hc hrow, ?_⟩
  rw [hinfers]
  exact ConceptTable.exists_ground_reference_iff
    (fun f hf => Line.wellRead_of_mem_parse (mem_parse_of_mem_lines hf))
    (wellRead_of_mem_mentions hc hmention) hproduced

/-- A plan that infers a concept which its notes call given, and mentions it in other brackets. -/
def notedGround : Text :=
  ":<: {r}\n    <= ::(f)\n    <- {a} | %{ground}: true\n        <= ::(g)\n" ++
    "    <* <a>\n"

theorem ground_inferred_iff_notedGround :
    let plan := ofText { } notedGround
    ∃ row ∈ plan.inferences, row.infers = "{a}".toList ∧
      ¬ ∃ concept ∈ plan.concepts, concept.isGround = true ∧ concept.name = row.infers := by
  intro plan
  have hcluster : ∃ c ∈ plan.clusters, ∃ parent ∈ c.parent, parent.kind.isFunctionLike = false ∧
      (∃ role ∈ parent.role, role.isDerived = true) ∧
      ∃ row ∈ InferenceTable.row? { } plan.concepts c, row.infers = "{a}".toList := by
    decide +kernel
  obtain ⟨c, hc, parent, hparent, hthing, ⟨role, hrole, hderived⟩, row, hrow, hinfers⟩ := hcluster
  obtain ⟨hmem, hiff⟩ :=
    ground_inferred_iff { } notedGround c hc parent role hparent hrole hderived row hrow
  refine ⟨row, hmem, hinfers, ?_⟩
  intro hground
  have hoperation := (hiff.1 hground).1
  rw [hthing] at hoperation
  cases hoperation

/-- A plan with one operation under two role symbols. -/
def twoRoles : Text :=
  ":<: {r}\n    <= ::(f)\n    <- ::(f)\n        <= ::(g)\n"

theorem ground_inferred_twoRoles :
    let plan := ofText { } twoRoles
    ∃ c ∈ plan.clusters, ∃ parent ∈ c.parent, (∃ role ∈ parent.role, role.isDerived = true) ∧
      ∃ row ∈ InferenceTable.row? { } plan.concepts c, row.infers = "::(f)".toList ∧
        ∃ concept ∈ plan.concepts, concept.isGround = true ∧ concept.name = row.infers := by
  decide +kernel

/-- **When natural names identify concepts.** Rows of things, told by the mark of their kind, never
    share a natural name. All natural names of a concept table are different exactly if the name that
    an operation is given is neither that of a thing nor that given to another operation. -/
theorem naturalNames_nodup_iff (settings : Settings) (source : Text) :
    let plan := ofText settings source
    (plan.concepts.Pairwise fun a b => a.kind ∈ ConceptTable.thingMarks →
      b.kind ∈ ConceptTable.thingMarks → a.naturalName ≠ b.naturalName) ∧
    ((plan.concepts.map (·.naturalName)).Nodup ↔
      ∀ f, Mention.IsFirst plan.clusters f → f.kind.isFunctionLike = true →
        ∀ g, Mention.IsFirst plan.clusters g → g.conceptKey ≠ f.conceptKey →
          Naming.operation f.stripped ≠
            if g.kind.isFunctionLike then Naming.operation g.stripped else g.name) := by
  intro plan
  refine ⟨ConceptTable.pairwise_naturalName_of_things, ?_⟩
  have hname : ∀ f : Line, f.kind.isFunctionLike = true →
      ConceptTable.naturalNameOf f = Naming.operation f.stripped := by
    intro f hf
    rw [ConceptTable.naturalNameOf, if_pos hf]
  have hnodup : (plan.concepts.map (·.naturalName)).Nodup ↔ _ :=
    ConceptTable.nodup_naturalName_iff
  rw [hnodup]
  constructor
  · intro hapart f hf hoperation g hg hne
    rw [← hname f hoperation]
    exact hapart f hf g hg hne
  · intro hapart f hf g hg hne
    by_cases hoperation : f.kind.isFunctionLike = true
    · rw [hname f hoperation]
      exact hapart f hf hoperation g hg hne
    · by_cases hoperation' : g.kind.isFunctionLike = true
      · rw [hname g hoperation']
        exact (hapart g hg hoperation' f hf hne.symm).symm
      · exact ConceptTable.naturalNameOf_ne_of_thing (Bool.of_not_eq_true hoperation)
          (Bool.of_not_eq_true hoperation') hne

theorem naturalNames_nodup_iff_notedGround :
    ((ofText { } notedGround).concepts.map (·.naturalName)).Nodup := by
  have hapart : ∀ f ∈ Mention.lines (ofText { } notedGround).clusters,
      f.kind.isFunctionLike = true → ∀ g ∈ Mention.lines (ofText { } notedGround).clusters,
        g.conceptKey ≠ f.conceptKey → Naming.operation f.stripped ≠
          if g.kind.isFunctionLike then Naming.operation g.stripped else g.name := by
    decide +kernel
  refine (naturalNames_nodup_iff { } notedGround).2.2 ?_
  intro f hf hoperation g hg hne
  exact hapart f hf.mem hoperation g hg.mem hne

/-- A plan whose operation is worded like its output. -/
def sharedWording : Text := ":<: {f}\n    <= ::(f)\n"

theorem naturalNames_sharedWording :
    (ofText { } sharedWording).concepts.map (fun row => (row.name, row.naturalName)) =
      [("{f}".toList, "f".toList), ("::(f)".toList, "f".toList)] ∧
    ¬ ((ofText { } sharedWording).concepts.map (·.naturalName)).Nodup := by
  decide +kernel

end CompiledPlan

end PlanGraph
