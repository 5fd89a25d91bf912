import PlanGraph.Proofs.Concept.Table
import PlanGraph.Proofs.Recommenting.Inference
import PlanGraph.Proofs.StableSort

set_option autoImplicit false

/-! # The concept table of a plan with other comments

A row of the concept table takes its annotations from one mention of its concept, the one with the
most comments. Other comments carry the same notes but may be more or fewer, and so another mention
may be chosen. That is all that changes: the table of a plan with other comments is the table of the
plan itself in which mentions weigh as much as they have other comments (`build_map_cluster`).
Whatever the weights are, two such tables agree row by row in all that does not come from notes
(`forall₂_alike_buildBy`), and wholly if the chosen mentions have the same notes
(`buildBy_congr`). -/

namespace PlanGraph

/-! ## Rows that differ in annotations only -/

/-- Two rows that agree in all that does not come from notes. -/
structure ConceptRow.Alike (a b : ConceptRow) : Prop where
  name : a.name = b.name
  kind : a.kind = b.kind
  positions : a.positions = b.positions
  isGround : a.isGround = b.isGround
  isFinal : a.isFinal = b.isFinal
  naturalName : a.naturalName = b.naturalName

/-- Two rows that agree in all that comes from notes. Only the running number of a reference to a
    file may differ. -/
structure ConceptRow.SameNotes (a b : ConceptRow) : Prop where
  isInvariant : a.isInvariant = b.isInvariant
  referenceData : a.referenceData = b.referenceData ∨ ∃ path id id',
    a.referenceData = some (.one (Reference.sign path id)) ∧
      b.referenceData = some (.one (Reference.sign path id'))
  axisName : a.axisName = b.axisName
  referenceAxisNames : a.referenceAxisNames = b.referenceAxisNames
  elementType : a.elementType = b.elementType

namespace ConceptTable

variable (settings : Settings)

theorem forall₂_rows_map {R : ConceptRow → ConceptRow → Prop} {produced : List Text}
    {f g : Mention → Mention} {ms : List Mention}
    (h : ∀ m ∈ ms, ∀ id id',
      R (row settings produced id (f m)).1 (row settings produced id' (g m)).1)
    (nextId nextId' : UInt32) :
    List.Forall₂ R (rows settings produced nextId (ms.map f)).1
      (rows settings produced nextId' (ms.map g)).1 := by
  induction ms generalizing nextId nextId' with
  | nil => exact List.Forall₂.nil
  | cons m ms ih =>
      rw [List.forall_mem_cons] at h
      exact List.Forall₂.cons (h.1 nextId nextId') (ih h.2 _ _)

/-- Records that differ in their comments only give rows that differ in annotations only. -/
theorem alike_row (produced : List Text) (m : Mention) (cs cs' : List Text) (id id' : UInt32) :
    ((row settings produced id { m with comments := cs }).1).Alike
      (row settings produced id' { m with comments := cs' }).1 := by
  obtain ⟨hpositions, hfinal, hground, hname, hkind, hnatural⟩ :=
    row_fields settings produced id { m with comments := cs }
  obtain ⟨hpositions', hfinal', hground', hname', hkind', hnatural'⟩ :=
    row_fields settings produced id' { m with comments := cs' }
  exact ⟨hname.trans hname'.symm, hkind.trans hkind'.symm, hpositions.trans hpositions'.symm,
    hground.trans hground'.symm, hfinal.trans hfinal'.symm, hnatural.trans hnatural'.symm⟩

/-- **Weights touch annotations only.** Under any two weights the rows of the two tables correspond
    one by one: they belong to the same concept and agree in all that does not come from notes. -/
theorem forall₂_alike_buildBy (nextId nextId' : UInt32) (clusters : List Cluster)
    (w w' : Line → Nat) :
    List.Forall₂ (fun a b => a.Alike b ∧
        ∃ key, RowOf settings clusters w key a ∧ RowOf settings clusters w' key b)
      (buildBy w settings nextId clusters) (buildBy w' settings nextId' clusters) := by
  -- Rows are sorted by their positions, in which the two tables agree.
  refine forall₂_stableSort ?_ (forall₂_rows_map settings ?_ nextId nextId')
  · rintro a b c d ⟨hab, -⟩ ⟨hcd, -⟩
    unfold ConceptRow.sortKey
    rw [hab.positions, hcd.positions]
  · intro m hm id id'
    refine ⟨alike_row settings _ m _ _ id id', m.key, ?_, ?_⟩
    · exact rowOf_row settings clusters w id (List.mem_map_of_mem hm)
    · exact rowOf_row settings clusters w' id' (List.mem_map_of_mem hm)

/-! ## Rows that read the same notes -/

theorem get?_ofComments_congr {cs cs' : List Text}
    (h : cs.flatMap Note.keyedEntries = cs'.flatMap Note.keyedEntries) (key : Text) :
    (Notes.ofComments cs).get? key = (Notes.ofComments cs').get? key := by
  unfold Notes.get? Notes.ofComments
  rw [h]

/-- A record without any comments, not even those of its line, and without a line number. -/
def bare (m : Mention) : Mention :=
  { m with line := { m.line with comments := [], lineNumber := 0 }, comments := [] }

theorem row_congr {m m' : Mention} (hbare : bare m = bare m')
    (hkeyed : m.comments.flatMap Note.keyedEntries = m'.comments.flatMap Note.keyedEntries)
    (produced : List Text) (id : UInt32) :
    row settings produced id m = row settings produced id m' := by
  have hkey : m.key = m'.key := congrArg (·.key) hbare
  have hclassification : m.line.classification = m'.line.classification :=
    congrArg (·.line.classification) hbare
  have hstripped : m.line.stripped = m'.line.stripped := congrArg (·.line.stripped) hbare
  have hpositions : m.positions = m'.positions := congrArg (·.positions) hbare
  have hfinal : m.isFinal = m'.isFinal := congrArg (·.isFinal) hbare
  have hget := get?_ofComments_congr hkeyed
  have hvalue : givenValue? m = givenValue? m' := by
    unfold givenValue? LiteralNote.ofComments Line.name
    rw [hget, hkeyed, hclassification, hstripped]
  have hinput : inputFile? m = inputFile? m' := by
    unfold inputFile? isParadigm Line.kind
    rw [hget, hclassification]
  have hthing : ∀ isProduced,
      thingRow settings isProduced m = thingRow settings isProduced m' := by
    intro isProduced
    unfold thingRow Notes.flag Line.name
    simp only [hget, hvalue, hclassification, hpositions, hfinal]
  have hoperation : ∀ isProduced value,
      operationRow settings isProduced value m = operationRow settings isProduced value m' := by
    intro isProduced value
    unfold operationRow isParadigm Line.kind
    simp only [hclassification, hstripped, hpositions, hfinal]
  unfold row Line.kind
  simp only [hkey, hclassification, hinput, hthing, hoperation]

theorem rows_map_congr {produced : List Text} {f g : Mention → Mention} {ms ms' : List Mention}
    (hbare : ms.map bare = ms'.map bare)
    (h : ∀ m ∈ ms, ∀ m', bare m = bare m' → ∀ id,
      row settings produced id (f m) = row settings produced id (g m')) (nextId : UInt32) :
    rows settings produced nextId (ms.map f) = rows settings produced nextId (ms'.map g) := by
  induction ms generalizing ms' nextId with
  | nil =>
      rw [List.map_nil, eq_comm, List.map_eq_nil_iff] at hbare
      rw [hbare]
      rfl
  | cons m ms ih =>
      cases ms' with
      | nil => simp at hbare
      | cons m' ms' =>
          rw [List.forall_mem_cons] at h
          rw [List.map_cons, List.map_cons, List.cons.injEq] at hbare
          rw [List.map_cons, List.map_cons, rows, rows, h.1 m' hbare.1 nextId]
          simp only [ih hbare.2 h.2]

/-- Whether two weights choose mentions of a concept that have the same keyed notes. -/
def SameChoice (clusters : List Cluster) (w w' : Line → Nat) (key : Text) : Prop :=
  ∀ l ∈ (Mention.linesOf key (Mention.lines clusters)).argmax w,
    ∀ l' ∈ (Mention.linesOf key (Mention.lines clusters)).argmax w',
      l.comments.flatMap Note.keyedEntries = l'.comments.flatMap Note.keyedEntries

instance (clusters : List Cluster) (w w' : Line → Nat) (key : Text) :
    Decidable (SameChoice clusters w w' key) := by
  unfold SameChoice
  infer_instance

/-- A row keeps its annotations if the chosen mentions have the same notes. -/
theorem sameNotes_of_rowOf {clusters : List Cluster} {w w' : Line → Nat} {key : Text}
    {a b : ConceptRow} (ha : RowOf settings clusters w key a)
    (hb : RowOf settings clusters w' key b) (h : SameChoice clusters w w' key) :
    a.SameNotes b := by
  obtain ⟨first, l, hfirst, hl, -, -, -, hthing, hoperation⟩ := ha.columns
  obtain ⟨first', l', hfirst', hl', -, -, -, hthing', hoperation'⟩ := hb.columns
  -- the first mention decides on the kind of row, and it does not depend on the weights
  obtain rfl : first = first' := Option.some.inj (hfirst.symm.trans hfirst')
  have hkeyed := h l hl l' hl'
  have hget := get?_ofComments_congr hkeyed
  have haxes : axesOf settings l.comments = axesOf settings l'.comments := by
    unfold axesOf
    rw [hget]
  cases hkind : first.kind.isFunctionLike with
  | false =>
      have hn := hthing hkind
      have hn' := hthing' hkind
      refine ⟨?_, Or.inl ?_, ?_, ?_, ?_⟩
      · rw [hn.isInvariant, hn'.isInvariant, Notes.flag, hget, Notes.flag]
      · rw [hn.referenceData, hn'.referenceData]
        unfold valueOf LiteralNote.ofComments
        rw [hget, hkeyed]
      · rw [hn.axisName, hn'.axisName, haxes]
      · rw [hn.referenceAxisNames, hn'.referenceAxisNames, haxes]
      · rw [hn.elementType, hn'.elementType, hget]
  | true =>
      have hn := hoperation hkind
      have hn' := hoperation' hkind
      have hinput : inputOf first l.comments = inputOf first l'.comments := by
        unfold inputOf
        rw [hget]
      obtain ⟨id, hdata⟩ := hn.referenceData
      obtain ⟨id', hdata'⟩ := hn'.referenceData
      refine ⟨?_, ?_, ?_, ?_, ?_⟩
      · rw [hn.isInvariant, hn'.isInvariant]
      · rw [hinput] at hdata
        cases hpath : inputOf first l'.comments with
        | none =>
            rw [hpath] at hdata hdata'
            exact Or.inl (hdata.trans hdata'.symm)
        | some path =>
            rw [hpath] at hdata hdata'
            exact Or.inr ⟨path, id, id', hdata, hdata'⟩
      · rw [hn.axisName, hn'.axisName]
      · rw [hn.referenceAxisNames, hn'.referenceAxisNames]
      · rw [hn.elementType, hn'.elementType]

theorem SameChoice.keyedEntries_heaviestComments {clusters : List Cluster} {w w' : Line → Nat}
    {key : Text} (h : SameChoice clusters w w' key) :
    (Mention.heaviestComments w (Mention.linesOf key (Mention.lines clusters))).flatMap
        Note.keyedEntries =
      (Mention.heaviestComments w' (Mention.linesOf key (Mention.lines clusters))).flatMap
        Note.keyedEntries := by
  unfold SameChoice at h
  unfold Mention.heaviestComments
  generalize Mention.linesOf key (Mention.lines clusters) = ls at h
  cases hl : ls.argmax w with
  | none =>
      rw [List.argmax_eq_none.1 hl]
      rfl
  | some l =>
      cases hl' : ls.argmax w' with
      | none =>
          rw [List.argmax_eq_none.1 hl'] at hl
          exact absurd hl (by simp)
      | some l' => exact h l hl l' hl'

/-- Tables in which the chosen mentions have the same notes are the same. -/
theorem buildBy_congr (nextId : UInt32) (clusters : List Cluster) {w w' : Line → Nat}
    (h : ∀ key ∈ (Mention.collect clusters).map (·.key), SameChoice clusters w w' key) :
    buildBy w settings nextId clusters = buildBy w' settings nextId clusters := by
  unfold buildBy Mention.collectBy
  rw [rows_map_congr settings rfl ?_]
  intro m hm m' hbare id
  have hkey : m.key = m'.key := congrArg (·.key) hbare
  refine row_congr settings ?_ ?_ _ _
  · exact hbare
  · rw [← hkey]
    exact (h m.key (List.mem_map_of_mem hm)).keyedEntries_heaviestComments

end ConceptTable

/-! ## The table of the plan with other comments -/

theorem argmax_map {α β : Type} (f : α → β) (w : β → Nat) (xs : List α) :
    (xs.map f).argmax w = (xs.argmax (w ∘ f)).map f := by
  induction xs using List.reverseRecOn with
  | nil => rfl
  | append_singleton xs x ih =>
      rw [List.map_append, List.map_singleton, List.argmax_concat, List.argmax_concat, ih]
      cases xs.argmax (w ∘ f) with
      | none => rfl
      | some y =>
          show (if w (f y) < w (f x) then some (f x) else some (f y)) =
            (if w (f y) < w (f x) then some x else some y).map f
          split <;> rfl

namespace Recommenting

variable (r : Recommenting)

theorem lines_map_cluster (clusters : List Cluster) :
    Mention.lines (clusters.map r.cluster) = (Mention.lines clusters).map r.line := by
  have hmentions : ∀ c : Cluster, (r.cluster c).mentions = c.mentions.map r.line := by
    intro c
    unfold Cluster.mentions cluster
    cases c.parent <;> simp
  unfold Mention.lines
  rw [List.flatMap_map]
  simp only [hmentions]
  rw [← List.map_flatMap, List.filter_map]
  rfl

theorem produced_map_cluster (clusters : List Cluster) :
    Mention.produced (clusters.map r.cluster) = Mention.produced clusters := by
  have hparents : (clusters.map r.cluster).filterMap (·.parent) =
      (clusters.filterMap (·.parent)).map r.line := by
    rw [List.filterMap_map, List.map_filterMap]
    rfl
  unfold Mention.produced
  rw [hparents, List.filterMap_map]
  rfl

theorem linesOf_map_line (key : Text) (lines : List Line) :
    Mention.linesOf key (lines.map r.line) = (Mention.linesOf key lines).map r.line := by
  unfold Mention.linesOf
  rw [List.filter_map]
  rfl

/-- Without comments the same concepts are gathered. -/
theorem map_bare_foldl_add (lines : List Line) (ms : List Mention) :
    (lines.foldl Mention.add ms).map ConceptTable.bare =
      (lines.map fun l => { l with comments := [], lineNumber := 0 }).foldl Mention.add
        (ms.map ConceptTable.bare) := by
  have hadd : ∀ (ms : List Mention) (l : Line), (Mention.add ms l).map ConceptTable.bare =
      Mention.add (ms.map ConceptTable.bare) { l with comments := [], lineNumber := 0 } := by
    intro ms l
    induction ms with
    | nil => rfl
    | cons m ms ih =>
        rw [Mention.add, List.map_cons, Mention.add]
        have hkey : ((ConceptTable.bare m).key =
            Line.conceptKey { l with comments := [], lineNumber := 0 }) =
              (m.key = l.conceptKey) := rfl
        simp only [hkey]
        split
        · rfl
        · rw [List.map_cons, ih]
  induction lines generalizing ms with
  | nil => rfl
  | cons l lines ih => rw [List.foldl_cons, ih, hadd, List.map_cons, List.foldl_cons]

theorem map_bare_collect (clusters : List Cluster) :
    (Mention.collect (clusters.map r.cluster)).map ConceptTable.bare =
      (Mention.collect clusters).map ConceptTable.bare := by
  unfold Mention.collect
  rw [map_bare_foldl_add, map_bare_foldl_add, lines_map_cluster, List.map_map]
  rfl

/-- **Other comments count, and only by their number.** The concept table of a plan with other
    comments is the plan's own table with mentions that weigh as much as they have other
    comments. -/
theorem build_map_cluster (settings : Settings) (nextId : UInt32) (clusters : List Cluster) :
    (ConceptTable.build settings nextId (clusters.map r.cluster)).1 =
      ConceptTable.buildBy (fun l => (r.comments l).length) settings nextId clusters := by
  have hchosen : ∀ lines : List Line,
      (Mention.heaviestComments (·.comments.length) (lines.map r.line)).flatMap
          Note.keyedEntries =
        (Mention.heaviestComments (fun l => (r.comments l).length) lines).flatMap
          Note.keyedEntries := by
    intro lines
    have hweight : (fun l => (r.comments l).length) =
        (fun l : Line => l.comments.length) ∘ r.line := rfl
    unfold Mention.heaviestComments
    rw [argmax_map, hweight]
    cases lines.argmax ((fun l : Line => l.comments.length) ∘ r.line) with
    | none => rfl
    | some l => exact r.keyedEntries_comments l
  rw [ConceptTable.build_eq_buildBy]
  unfold ConceptTable.buildBy Mention.collectBy
  rw [produced_map_cluster, lines_map_cluster,
    ConceptTable.rows_map_congr settings (r.map_bare_collect clusters) ?_]
  intro m _ m' hbare id
  have hkey : m.key = m'.key := congrArg (·.key) hbare
  refine ConceptTable.row_congr settings ?_ ?_ _ _
  · exact hbare
  · rw [linesOf_map_line, hchosen, hkey]

/-- A table looks concepts up by their names only. -/
theorem resolves_congr {concepts concepts' : List ConceptRow}
    (h : List.Forall₂ ConceptRow.Alike concepts concepts') :
    InferenceTable.resolves concepts = InferenceTable.resolves concepts' := by
  have hany : ∀ test : Text → Text → Bool,
      (concepts.any fun row => test row.name row.naturalName) =
        concepts'.any fun row => test row.name row.naturalName := by
    intro test
    induction h with
    | nil => rfl
    | cons hrow _ ih => rw [List.any_cons, List.any_cons, ih, hrow.name, hrow.naturalName]
  funext reference
  unfold InferenceTable.resolves
  split
  · exact hany fun name naturalName =>
      naturalName == bareName reference && InferenceTable.isBracketed name
  · exact hany fun name _ => name == reference

theorem build_congr (settings : Settings) {concepts concepts' : List ConceptRow}
    (h : List.Forall₂ ConceptRow.Alike concepts concepts') (clusters : List Cluster) :
    InferenceTable.build settings concepts clusters =
      InferenceTable.build settings concepts' clusters := by
  unfold InferenceTable.build InferenceTable.rows InferenceTable.row? InferenceTable.rowOf
    InferenceTable.infers
  rw [resolves_congr h]

/-- **Other comments do not change the inferences.** Nor do they change which concepts there are, in
    all that does not come from notes. -/
theorem ofClusters_map_cluster (settings : Settings) (id id' : UInt32) (clusters : List Cluster) :
    (CompiledPlan.ofClusters settings id' (clusters.map r.cluster)).1.inferences =
        (CompiledPlan.ofClusters settings id clusters).1.inferences ∧
      List.Forall₂ ConceptRow.Alike
        (CompiledPlan.ofClusters settings id' (clusters.map r.cluster)).1.concepts
        (CompiledPlan.ofClusters settings id clusters).1.concepts := by
  have hconcepts : List.Forall₂ ConceptRow.Alike
      (ConceptTable.build settings id' (clusters.map r.cluster)).1
      (ConceptTable.build settings id clusters).1 := by
    rw [build_map_cluster, ConceptTable.build_eq_buildBy]
    exact (ConceptTable.forall₂_alike_buildBy settings id' id clusters _ _).imp fun _ _ h => h.1
  refine ⟨?_, hconcepts⟩
  show InferenceTable.build settings (ConceptTable.build settings id' (clusters.map r.cluster)).1
      (clusters.map r.cluster) =
    InferenceTable.build settings (ConceptTable.build settings id clusters).1 clusters
  rw [← build_congr settings hconcepts clusters]
  unfold InferenceTable.build
  rw [rows_map_cluster]

end Recommenting

end PlanGraph
