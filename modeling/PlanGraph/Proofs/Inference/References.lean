import PlanGraph.Compilation
import PlanGraph.Proofs.Concept.Table
import PlanGraph.Proofs.Line.Concept
import PlanGraph.Proofs.List

set_option autoImplicit false

/-! # References of the inference table

A row of the inference table refers to concepts by what their lines are called. The concept table
has one row for each concept, and its names are those of the line that mentions the concept first.
So a reference is found exactly if some first mention is written in the same form and names what the
reference names (`resolves_reference_iff`). A line is itself a mention of its concept; its reference
can only be lost if it is a comment, if its bracket is not closed, or if its concept was first
mentioned in another form (`resolves_of_first`). -/

namespace PlanGraph

namespace Tree

theorem mem_of_mem_families {lines kids : List Line} {parent : Line}
    (h : (parent, kids) ∈ families lines) : parent ∈ lines ∧ ∀ kid ∈ kids, kid ∈ lines := by
  obtain ⟨hparent, hkids⟩ := List.of_mem_zip h
  refine ⟨hparent, ?_⟩
  intro kid hkid
  obtain ⟨indices, -, rfl⟩ := List.mem_map.1 hkids
  obtain ⟨i, -, hi⟩ := List.mem_filterMap.1 hkid
  exact List.mem_of_getElem? hi

/-- The lines of a cluster are lines of the plan. -/
theorem mem_of_mem_mentions {lines : List Line} {c : Cluster} (hc : c ∈ clusters lines) {l : Line}
    (hl : l ∈ c.mentions) : l ∈ lines := by
  obtain ⟨⟨parent, kids⟩, hfamily, hcluster⟩ := List.mem_filterMap.1 hc
  obtain ⟨hparent, hkids⟩ := mem_of_mem_families hfamily
  obtain ⟨function, hfind, rfl⟩ := Cluster.ofChildren?_eq_some_iff.1 hcluster
  simp only [Cluster.mentions, List.mem_append, Option.mem_toList, Option.some.injEq,
    List.mem_singleton] at hl
  rcases hl with ((rfl | hl) | hl) | rfl
  · exact hparent
  · exact hkids l (List.mem_of_mem_filter hl)
  · exact hkids l (List.mem_of_mem_filter (List.mem_of_mem_eraseP hl))
  · exact hkids _ (List.mem_of_find?_eq_some hfind)

end Tree

namespace Mention

/-- A line that mentions its concept first. -/
def IsFirst (clusters : List Cluster) (f : Line) : Prop :=
  (linesOf f.conceptKey (lines clusters)).head? = some f

theorem IsFirst.mem {clusters : List Cluster} {f : Line} (h : IsFirst clusters f) :
    f ∈ lines clusters :=
  (mem_linesOf.1 (List.mem_of_mem_head? h)).1

theorem IsFirst.key_mem {clusters : List Cluster} {f : Line} (h : IsFirst clusters f) :
    f.conceptKey ∈ (collect clusters).map (·.key) :=
  (gathered_collect clusters).mem_keys.2 ⟨f, h.mem, rfl⟩

theorem isFirst_of_head? {clusters : List Cluster} {key : Text} {f : Line}
    (h : (linesOf key (lines clusters)).head? = some f) :
    IsFirst clusters f ∧ f.conceptKey = key := by
  have hkey : f.conceptKey = key := (mem_linesOf.1 (List.mem_of_mem_head? h)).2
  refine ⟨?_, hkey⟩
  rw [IsFirst, hkey]
  exact h

/-- Every concept that is mentioned is mentioned first somewhere. -/
theorem exists_isFirst {clusters : List Cluster} {l : Line} (h : l ∈ lines clusters) :
    ∃ f, IsFirst clusters f ∧ f.conceptKey = l.conceptKey := by
  have hmem : l ∈ linesOf l.conceptKey (lines clusters) := mem_linesOf.2 ⟨h, rfl⟩
  cases hhead : (linesOf l.conceptKey (lines clusters)).head? with
  | none =>
      rw [List.head?_eq_none_iff] at hhead
      rw [hhead] at hmem
      cases hmem
  | some f => exact ⟨f, isFirst_of_head? hhead⟩

end Mention

namespace ConceptTable

/-- A row has the names of a line. -/
structure Names (f : Line) (row : ConceptRow) : Prop where
  name : row.name = f.reference
  naturalName : f.kind.isFunctionLike = false → row.naturalName = f.name

theorem names_of_rowOf {settings : Settings} {clusters : List Cluster} {weight : Line → Nat}
    {f : Line} {row : ConceptRow} (hfirst : Mention.IsFirst clusters f)
    (h : RowOf settings clusters weight f.conceptKey row) : Names f row := by
  obtain ⟨first, -, hhead, -, hname, -, hnatural, -⟩ := h.columns
  obtain rfl : first = f := Option.some.inj (hhead.symm.trans hfirst)
  refine ⟨hname, ?_⟩
  intro hthing
  rw [hnatural, hthing]
  rfl

theorem RowOf.exists_isFirst {settings : Settings} {clusters : List Cluster} {weight : Line → Nat}
    {key : Text} {row : ConceptRow} (h : RowOf settings clusters weight key row) :
    ∃ f, Mention.IsFirst clusters f ∧ f.conceptKey = key := by
  obtain ⟨f, -, hhead, -⟩ := h.columns
  exact ⟨f, Mention.isFirst_of_head? hhead⟩

section Rows

variable {settings : Settings} {nextId : UInt32} {clusters : List Cluster}

theorem exists_isFirst_of_mem {row : ConceptRow} (h : row ∈ (build settings nextId clusters).1) :
    ∃ f, Mention.IsFirst clusters f ∧
      RowOf settings clusters (·.comments.length) f.conceptKey row := by
  obtain ⟨keys, -, hrows⟩ := forall₂_rowOf_buildBy (·.comments.length) settings nextId clusters
  rw [build_eq_buildBy] at h
  obtain ⟨key, -, hrow⟩ := exists_of_mem_forall₂ hrows.flip h
  obtain ⟨f, hfirst, rfl⟩ := hrow.exists_isFirst
  exact ⟨f, hfirst, hrow⟩

theorem exists_row_of_isFirst {f : Line} (h : Mention.IsFirst clusters f) :
    ∃ row ∈ (build settings nextId clusters).1,
      RowOf settings clusters (·.comments.length) f.conceptKey row := by
  obtain ⟨keys, hkeys, hrows⟩ :=
    forall₂_rowOf_buildBy (·.comments.length) settings nextId clusters
  rw [build_eq_buildBy]
  exact exists_of_mem_forall₂ hrows (hkeys.mem_iff.2 h.key_mem)

/-- What relates the rows of different concepts relates all rows of the table. -/
theorem pairwise_build {T : ConceptRow → ConceptRow → Prop}
    (h : ∀ f g, Mention.IsFirst clusters f → Mention.IsFirst clusters g →
      f.conceptKey ≠ g.conceptKey → ∀ a b,
        RowOf settings clusters (·.comments.length) f.conceptKey a →
        RowOf settings clusters (·.comments.length) g.conceptKey b → T a b) :
    (build settings nextId clusters).1.Pairwise T := by
  obtain ⟨keys, hkeys, hrows⟩ :=
    forall₂_rowOf_buildBy (·.comments.length) settings nextId clusters
  have hnodup : keys.Nodup := hkeys.nodup_iff.2 (Mention.gathered_collect clusters).nodup
  rw [build_eq_buildBy]
  refine pairwise_of_forall₂ hrows hnodup ?_
  intro key key' a b hne ha hb
  obtain ⟨f, hf, rfl⟩ := ha.exists_isFirst
  obtain ⟨g, hg, rfl⟩ := hb.exists_isFirst
  exact h f g hf hg hne a b ha hb

end Rows

end ConceptTable

namespace InferenceTable

/-! ## Resolving references -/

open Classification (opensBracket)

theorem isBracketed_eq (name : Text) : isBracketed name = opensBracket name := by
  cases name with
  | nil => rfl
  | cons c rest =>
      have hstart : ∀ d : Char, Text.startsWith (c :: rest) [d] = (c == d) := by
        intro d
        rw [Text.startsWith, List.isPrefixOf_cons_cons, List.isPrefixOf_nil_left, Bool.and_true,
          Bool.beq_comm]
      rw [Classification.opensBracket_cons, ← hstart, ← hstart, ← hstart]
      rfl

theorem isSome_ofToken? {r : Text} (hr : Text.Tight r) :
    (ConceptKind.ofToken? r).isSome = opensBracket r := by
  rw [ConceptKind.ofToken?, Text.trim_of_tight hr]
  split
  · rfl
  · rfl
  · rfl
  · next hcurly hsquare hangle =>
      cases r with
      | nil => rfl
      | cons c rest =>
          have hne : c ≠ '{' ∧ c ≠ '[' ∧ c ≠ '<' :=
            ⟨fun h => hcurly rest (by rw [h]), fun h => hsquare rest (by rw [h]),
              fun h => hangle rest (by rw [h])⟩
          simp [Classification.opensBracket_cons, hne]

theorem resolves_iff_of_bracket {concepts : List ConceptRow} {r : Text} (hr : Text.Tight r)
    (h : opensBracket r = true) :
    resolves concepts r = true ↔
      ∃ row ∈ concepts, row.naturalName = bareName r ∧ opensBracket row.name = true := by
  rw [← isSome_ofToken? hr, Option.isSome_iff_exists] at h
  obtain ⟨kind, hkind⟩ := h
  simp only [resolves, hkind, List.any_eq_true, Bool.and_eq_true, beq_iff_eq, isBracketed_eq]

theorem resolves_iff_of_no_bracket {concepts : List ConceptRow} {r : Text} (hr : Text.Tight r)
    (h : opensBracket r = false) :
    resolves concepts r = true ↔ ∃ row ∈ concepts, row.name = r := by
  rw [← isSome_ofToken? hr, Option.isSome_eq_false_iff, Option.isNone_iff_eq_none] at h
  simp only [resolves, h, List.any_eq_true, beq_iff_eq]

/-- The name by which a line refers to its concept: in brackets the one that is read from its
    reference. -/
def called (l : Line) : Text := if l.kind.form = .bracketed then bareName l.reference else l.name

section First

variable {settings : Settings} {nextId : UInt32} {clusters : List Cluster}
  (hclusters : ∀ f ∈ Mention.lines clusters, f.WellRead)
include hclusters

/-- A reference is resolved exactly if a first mention has its form and names what it names. -/
theorem resolves_reference_iff {l : Line} (hl : l.WellRead) :
    resolves (ConceptTable.build settings nextId clusters).1 l.reference = true ↔
      ∃ f, Mention.IsFirst clusters f ∧ f.kind.form = l.kind.form ∧ f.name = called l := by
  rw [called]
  by_cases hform : l.kind.form = .bracketed
  · rw [resolves_iff_of_bracket hl.tight_reference (hl.opensBracket_reference.2 hform), if_pos hform]
    constructor
    · rintro ⟨row, hrow, hnatural, hopens⟩
      obtain ⟨f, hfirst, hof⟩ := ConceptTable.exists_isFirst_of_mem hrow
      have hnames := ConceptTable.names_of_rowOf hfirst hof
      rw [hnames.name, (hclusters f hfirst.mem).opensBracket_reference] at hopens
      have hthing : f.kind.isFunctionLike = false := by
        rw [← Bool.not_eq_true, ConceptKind.isFunctionLike_iff, hopens]
        decide
      exact ⟨f, hfirst, by rw [hopens, hform], by rw [← hnames.naturalName hthing, hnatural]⟩
    · rintro ⟨f, hfirst, hsame, hname⟩
      rw [hform] at hsame
      have hthing : f.kind.isFunctionLike = false := by
        rw [← Bool.not_eq_true, ConceptKind.isFunctionLike_iff, hsame]
        decide
      obtain ⟨row, hrow, hof⟩ := ConceptTable.exists_row_of_isFirst hfirst
      have hnames := ConceptTable.names_of_rowOf hfirst hof
      refine ⟨row, hrow, by rw [hnames.naturalName hthing, hname], ?_⟩
      rw [hnames.name, (hclusters f hfirst.mem).opensBracket_reference]
      exact hsame
  · have hplain : opensBracket l.reference = false := by
      rw [← Bool.not_eq_true, hl.opensBracket_reference]
      exact hform
    rw [resolves_iff_of_no_bracket hl.tight_reference hplain, if_neg hform]
    constructor
    · rintro ⟨row, hrow, hname⟩
      obtain ⟨f, hfirst, hof⟩ := ConceptTable.exists_isFirst_of_mem hrow
      have hsame : f.reference = l.reference := by
        rw [← (ConceptTable.names_of_rowOf hfirst hof).name, hname]
      exact ⟨f, hfirst, hl.eq_of_reference_eq (hclusters f hfirst.mem) hsame⟩
    · rintro ⟨f, hfirst, hsame, hname⟩
      obtain ⟨row, hrow, hof⟩ := ConceptTable.exists_row_of_isFirst hfirst
      have hnames := ConceptTable.names_of_rowOf hfirst hof
      refine ⟨row, hrow, ?_⟩
      rw [hnames.name, (hclusters f hfirst.mem).reference_eq, hl.reference_eq,
        ConceptKind.wrap_eq hform, ConceptKind.wrap_eq (by rw [hsame]; exact hform), hsame, hname]

/-- The reference of a line that names a concept resolves if its brackets are closed and the
    concept is first mentioned in the same form. -/
theorem resolves_of_first {l : Line} (hl : l ∈ Mention.lines clusters)
    (hclosed : Classification.unclosedBracket ∉ l.classification.warnings)
    (hfirst : ∀ f, Mention.IsFirst clusters f → f.conceptKey = l.conceptKey →
      f.kind.form = l.kind.form) :
    resolves (ConceptTable.build settings nextId clusters).1 l.reference = true := by
  have hread := hclusters l hl
  obtain ⟨f, hf, hkey⟩ := Mention.exists_isFirst hl
  have hsame := hfirst f hf hkey
  have hcalled : called l = l.name := by
    rw [called]
    split
    · next hform => exact hread.bareName_reference hform hclosed
    · rfl
  rw [resolves_reference_iff hclusters hread, hcalled]
  refine ⟨f, hf, hsame, ?_⟩
  by_cases hoperation : l.kind.form = .operation
  · -- operations share their whole content, and so their text
    have hwritten := hread.written
    have hfwritten := (hclusters f hf.mem).written
    rw [hsame, hoperation] at hfwritten
    rw [hoperation] at hwritten
    rw [Line.conceptKey, Line.conceptKey, if_pos (ConceptKind.isFunctionLike_iff.2 hoperation),
      if_pos (ConceptKind.isFunctionLike_iff.2 (hsame.trans hoperation))] at hkey
    rw [hwritten.eq_of_operation, hfwritten.eq_of_operation, Line.stripped, hkey, Line.stripped]
  · have hthing : ∀ g : Line, g.kind.form = l.kind.form → ¬ g.kind.isFunctionLike = true := by
      intro g hg
      rw [ConceptKind.isFunctionLike_iff, hg]
      exact hoperation
    rw [Line.conceptKey, Line.conceptKey, if_neg (hthing f hsame), if_neg (hthing l rfl)] at hkey
    exact hkey

end First

/-! ## Rows -/

/-- The lines that the row of a cluster refers to. -/
def referents (c : Cluster) : List Line := c.parent.toList ++ c.values ++ c.contexts

/-- A further operation refers to no lines, and a cluster to lines that it has. -/
theorem mem_mentions_of_mem_referents {clusters : List Cluster} {c : Cluster}
    (hc : c ∈ clusters.flatMap withNested) {l : Line} (hl : l ∈ referents c) :
    ∃ c' ∈ clusters, l ∈ c'.mentions := by
  obtain ⟨c', hc', hwith⟩ := List.mem_flatMap.1 hc
  rcases List.mem_cons.1 hwith with rfl | hnested
  · refine ⟨c, hc', ?_⟩
    simp only [referents, Cluster.contexts, List.mem_append] at hl
    simp only [Cluster.mentions, List.mem_append]
    rcases hl with (hl | hl) | hl
    · exact Or.inl (Or.inl (Or.inl hl))
    · exact Or.inl (Or.inl (Or.inr hl))
    · exact Or.inl (Or.inr (List.mem_of_mem_filter hl))
  · obtain ⟨operation, -, rfl⟩ := List.mem_map.1 hnested
    simp [referents, Cluster.promoted, Cluster.contexts] at hl

theorem exists_of_mem_build {settings : Settings} {concepts : List ConceptRow}
    {clusters : List Cluster} {row : InferenceRow} (h : row ∈ build settings concepts clusters) :
    ∃ c ∈ clusters.flatMap withNested, row? settings concepts c = some row := by
  rw [build, sorted, (stableSort_perm _ _).mem_iff, rows] at h
  exact List.mem_filterMap.1 h

/-- Without a parent, a row infers a concept of the table or its placeholder. -/
theorem infers_of_no_parent (concepts : List ConceptRow) {c : Cluster} (h : c.parent = none) :
    infers concepts c = placeholder c ∨ resolves concepts (infers concepts c) = true := by
  simp only [infers, h]
  cases hsource : (ownSource? c).filter (resolves concepts) with
  | none => exact Or.inl rfl
  | some source => exact Or.inr (Option.filter_eq_some_iff.1 hsource).2

end InferenceTable

namespace CompiledPlan

theorem wellRead_of_mem_mentions {settings : Settings} {source : Text} {c : Cluster}
    (hc : c ∈ (ofText settings source).clusters) {l : Line} (hl : l ∈ c.mentions) : l.WellRead :=
  Line.wellRead_of_mem_parse (Tree.mem_of_mem_mentions hc hl)

theorem mem_parse_of_mem_lines {settings : Settings} {source : Text} {l : Line}
    (h : l ∈ Mention.lines (ofText settings source).clusters) :
    l ∈ Line.parse settings.indentWidth source := by
  obtain ⟨c, hc, hmention⟩ := List.mem_flatMap.1 (List.mem_of_mem_filter h)
  exact Tree.mem_of_mem_mentions hc hmention

/-- **What the rows of the inference table refer to.** A row infers its parent, a concept of the
    table or its own placeholder, and uses its values and contexts. The reference of such a line is
    found in the concept table exactly if some first mention has its form and names what it names;
    it is so if the line names a concept in closed brackets, or in none, that was first mentioned in
    the same form. -/
theorem references_of_inferences (settings : Settings) (source : Text) :
    let plan := ofText settings source
    ∀ row ∈ plan.inferences, ∃ c ∈ plan.clusters.flatMap InferenceTable.withNested,
      row.position = c.position ∧
      (∀ parent, c.parent = some parent → row.infers = parent.reference) ∧
      (c.parent = none → row.infers = '{' :: "_inferred_".toList ++ row.position.text ++ ['}'] ∨
        InferenceTable.resolves plan.concepts row.infers = true) ∧
      row.values = c.values.map (·.reference) ∧ row.contexts = c.contexts.map (·.reference) ∧
      ∀ l ∈ c.parent.toList ++ c.values ++ c.contexts,
        (InferenceTable.resolves plan.concepts l.reference = true ↔
          ∃ f, Mention.IsFirst plan.clusters f ∧ f.kind.form = l.kind.form ∧
            f.name = InferenceTable.called l) ∧
        (l.kind ≠ .comment → Classification.unclosedBracket ∉ l.classification.warnings →
          (∀ f, Mention.IsFirst plan.clusters f → f.conceptKey = l.conceptKey →
            f.kind.form = l.kind.form) →
          InferenceTable.resolves plan.concepts l.reference = true) := by
  intro plan row hrow
  have hread : ∀ f ∈ Mention.lines plan.clusters, f.WellRead := by
    intro f hf
    obtain ⟨c, hc, hmention⟩ := List.mem_flatMap.1 (List.mem_of_mem_filter hf)
    exact wellRead_of_mem_mentions hc hmention
  have hconcepts : plan.concepts =
      (ConceptTable.build settings settings.firstId plan.clusters).1 := rfl
  obtain ⟨c, hc, hof⟩ := InferenceTable.exists_of_mem_build hrow
  obtain ⟨told, -, rfl⟩ := Option.map_eq_some_iff.1 hof
  refine ⟨c, hc, rfl, ?_, ?_, rfl, rfl, ?_⟩
  · intro parent hparent
    simp only [InferenceTable.rowOf, InferenceTable.infers, hparent]
  · intro hparent
    exact InferenceTable.infers_of_no_parent plan.concepts hparent
  · intro l hl
    obtain ⟨c', hc', hmention⟩ := InferenceTable.mem_mentions_of_mem_referents hc hl
    have hwell := wellRead_of_mem_mentions hc' hmention
    rw [hconcepts]
    refine ⟨InferenceTable.resolves_reference_iff hread hwell, ?_⟩
    intro hcomment hclosed hfirst
    have hmem : l ∈ Mention.lines plan.clusters :=
      List.mem_filter.2 ⟨List.mem_flatMap.2 ⟨c', hc', hmention⟩, by simpa using hcomment⟩
    exact InferenceTable.resolves_of_first hread hmem hclosed hfirst

/-- A plan with a comparison among its values and an operation of its own that names a context. -/
def promotedPlan : Text :=
  ":<: {r}\n    <= ::(f)\n    <= $= %>({a})\n    <- < a > b >\n    <* {a}\n"

theorem references_of_inferences_promotedPlan :
    let plan := ofText { } promotedPlan
    ∃ row ∈ plan.inferences, row.infers = "{r}".toList ∧ row.values = ["<a > b>".toList] ∧
      row.contexts = ["{a}".toList] ∧
      ∀ r ∈ row.values ++ row.contexts, InferenceTable.resolves plan.concepts r = true := by
  intro plan
  have hrow : ∃ row ∈ plan.inferences, row.infers = "{r}".toList ∧
      row.values = ["<a > b>".toList] ∧ row.contexts = ["{a}".toList] := by
    decide +kernel
  have hplain : ∀ c ∈ plan.clusters.flatMap InferenceTable.withNested,
      ∀ l ∈ c.parent.toList ++ c.values ++ c.contexts, l.kind ≠ .comment ∧
        Classification.unclosedBracket ∉ l.classification.warnings ∧
        ∀ f ∈ Mention.lines plan.clusters, f.conceptKey = l.conceptKey →
          f.kind.form = l.kind.form := by
    decide +kernel
  obtain ⟨row, hmem, hinfers, hvalues, hcontexts⟩ := hrow
  obtain ⟨c, hc, -, -, -, hv, hx, hlines⟩ := references_of_inferences { } promotedPlan row hmem
  refine ⟨row, hmem, hinfers, hvalues, hcontexts, ?_⟩
  intro r hr
  obtain ⟨l, hl, rfl⟩ : ∃ l ∈ c.parent.toList ++ c.values ++ c.contexts, l.reference = r := by
    rw [hv, hx, ← List.map_append] at hr
    obtain ⟨l, hl, heq⟩ := List.mem_map.1 hr
    exact ⟨l, by rw [List.append_assoc]; exact List.mem_append_right _ hl, heq⟩
  obtain ⟨hcomment, hclosed, hsame⟩ := hplain c hc l hl
  exact (hlines l hl).2 hcomment hclosed fun f hf => hsame f hf.mem

/-- A plan that names its values in ways that get lost: a concept that was first mentioned in
    another form, a comment, and a bracket that is not closed. -/
def driftingNames : Text :=
  ":<: {r}\n    <= ::(f)\n    <- {a}\n    <- a: x\n    <- # note\n    <- ".toList ++
    ['{', 'b', '{', 'c', '\n']

theorem resolves_driftingNames :
    let plan := ofText { } driftingNames
    (plan.inferences.map (·.values) =
      [["{a}".toList, "a:".toList, "# note".toList, ['{', 'b', '{', 'c', '}']]]) ∧
    (plan.inferences.map fun row => row.values.map (InferenceTable.resolves plan.concepts)) =
      [[true, false, false, false]] := by
  decide +kernel

end CompiledPlan

end PlanGraph
