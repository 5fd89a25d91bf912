import PlanGraph.Proofs.Line.Relocation
import PlanGraph.Proofs.Recommenting.Concept

set_option autoImplicit false

/-! # Plans with the same layout

The layout of a plan text is what remains of it without its blank lines, its line endings and the way
its indentation is written: the depth and the trimmed text of each line that is left. A compilation
sees nothing but the layout. Two texts of the same layout have the same entries up to line numbers
(`map_entry_scan_of_layout`), hence the same lines and clusters up to line numbers, and the tables
do not show these (`tables_unnumbered`). So the tables of the two are the same, whatever width of
indentation each is read with (`tables_of_layout`). -/

namespace PlanGraph

open Relocation (unnumbered)

/-! ## Entries of a layout -/

namespace Physical

/-- The lines that are not blank, each by its depth and its trimmed text. -/
def layoutOf (width : Nat) (lines : List Text) : List (Nat × Text) :=
  (lines.filter (!·.trim.isEmpty)).map fun raw => (depth width raw, raw.trim)

/-- The layout of a text. -/
def layout (width : Nat) (source : Text) : List (Nat × Text) :=
  layoutOf width (Text.splitOn '\n' source)

end Physical

namespace Entry

/-- Depth and trimmed text are all that an entry has of its line, besides its number. -/
theorem ofLine_congr {width width' : Nat} (cursor : Cursor) (n n' : Nat) {raw raw' : Text}
    (hdepth : Physical.depth width raw = Physical.depth width' raw') (htrim : raw.trim = raw'.trim) :
    (ofLine width cursor n raw).1 = (ofLine width' cursor n' raw').1 ∧
      (ofLine width cursor n raw).2.map unnumbered.entry =
        (ofLine width' cursor n' raw').2.map unnumbered.entry := by
  have hcursor : (ofLine width cursor n raw).1 = (ofLine width' cursor n' raw').1 := by
    unfold ofLine
    rw [hdepth, htrim]
    split <;> rfl
  exact ⟨hcursor, map_entry_ofLine hdepth htrim (congrArg Cursor.position hcursor) rfl⟩

/-- Blank lines have no entry, and only line numbers tell that they are there. -/
theorem map_entry_ofLines_filter (width : Nat) (cursor : Cursor) (n n' : Nat) (lines : List Text) :
    (ofLines width cursor n lines).map unnumbered.entry =
      (ofLines width cursor n' (lines.filter (!·.trim.isEmpty))).map unnumbered.entry := by
  induction lines generalizing cursor n n' with
  | nil => rfl
  | cons raw lines ih =>
      by_cases hblank : raw.trim.isEmpty = true
      · rw [ofLines, if_pos hblank, List.filter_cons_of_neg (by simp [hblank])]
        exact ih cursor (n + 1) n'
      · have hdepth : Physical.depth width raw = Physical.depth width raw := rfl
        obtain ⟨hcursor, hentries⟩ := ofLine_congr cursor n n' hdepth rfl
        rw [List.filter_cons_of_pos (by simpa using hblank), ofLines_cons hblank,
          ofLines_cons hblank, List.map_append, List.map_append, hentries, hcursor,
          ih _ (n + 1) (n' + 1)]

theorem map_entry_ofLines_congr {width width' : Nat} {lines lines' : List Text}
    (h : lines.map (fun raw => (Physical.depth width raw, raw.trim)) =
      lines'.map fun raw => (Physical.depth width' raw, raw.trim)) (cursor : Cursor) (n n' : Nat) :
    (ofLines width cursor n lines).map unnumbered.entry =
      (ofLines width' cursor n' lines').map unnumbered.entry := by
  induction lines generalizing lines' cursor n n' with
  | nil =>
      rw [List.map_nil, eq_comm, List.map_eq_nil_iff] at h
      rw [h]
      rfl
  | cons raw lines ih =>
      cases lines' with
      | nil => simp at h
      | cons raw' lines' =>
          simp only [List.map_cons, List.cons.injEq, Prod.mk.injEq] at h
          obtain ⟨⟨hdepth, htrim⟩, hmore⟩ := h
          by_cases hblank : raw.trim.isEmpty = true
          · rw [ofLines, if_pos hblank, ofLines, if_pos (htrim ▸ hblank)]
            exact ih hmore cursor _ _
          · obtain ⟨hcursor, hentries⟩ := ofLine_congr cursor n n' hdepth htrim
            rw [ofLines_cons hblank, ofLines_cons (htrim ▸ hblank), List.map_append,
              List.map_append, hentries, hcursor, ih hmore _ _ (n' + 1)]

/-- Texts of the same layout have the same entries up to line numbers. -/
theorem map_entry_scan_of_layout {width width' : Nat} {source source' : Text}
    (h : Physical.layout width source = Physical.layout width' source') :
    (scan width source).map unnumbered.entry = (scan width' source').map unnumbered.entry := by
  unfold scan
  rw [map_entry_ofLines_filter width .start 1 1, map_entry_ofLines_filter width' .start 1 1]
  exact map_entry_ofLines_congr h .start 1 1

end Entry

theorem Line.map_line_parse_of_layout {width width' : Nat} {source source' : Text}
    (h : Physical.layout width source = Physical.layout width' source') :
    (parse width source).map unnumbered.line = (parse width' source').map unnumbered.line := by
  have hgroup := congrArg group (Entry.map_entry_scan_of_layout h)
  rw [Relocation.group_map_entry, Relocation.group_map_entry] at hgroup
  exact congrArg Prod.snd hgroup

/-! ## Tables without line numbers -/

/-- Lines as they are, without their numbers. -/
def Recommenting.unnumbering : Recommenting where
  comments l := l.comments
  lineNumber _ := 0
  keyedEntries_comments _ := rfl
  sequence_comments _ := rfl

namespace CompiledPlan

/-- No table shows a line number. -/
theorem tables_unnumbered (settings : Settings) (id : UInt32) (clusters : List Cluster) :
    (ofClusters settings id (clusters.map unnumbered.cluster)).1.concepts =
        (ofClusters settings id clusters).1.concepts ∧
      (ofClusters settings id (clusters.map unnumbered.cluster)).1.inferences =
        (ofClusters settings id clusters).1.inferences := by
  have hcluster : unnumbered.cluster = Recommenting.unnumbering.cluster := rfl
  have hconcepts : (ConceptTable.build settings id (clusters.map unnumbered.cluster)).1 =
      (ConceptTable.build settings id clusters).1 := by
    rw [hcluster, Recommenting.build_map_cluster, ConceptTable.build_eq_buildBy]
    rfl
  refine ⟨hconcepts, ?_⟩
  show InferenceTable.build settings
      (ConceptTable.build settings id (clusters.map unnumbered.cluster)).1
      (clusters.map unnumbered.cluster) =
    InferenceTable.build settings (ConceptTable.build settings id clusters).1 clusters
  rw [hconcepts, hcluster]
  unfold InferenceTable.build
  rw [Recommenting.rows_map_cluster]

/-- The width of an indentation is used to read lines, and nowhere else. -/
theorem ofClusters_withWidth (settings : Settings) (width : Nat) (id : UInt32)
    (clusters : List Cluster) :
    ofClusters { settings with indentWidth := width } id clusters =
      ofClusters settings id clusters := by
  have hrows : ∀ (produced : List Text) (id : UInt32) (ms : List Mention),
      ConceptTable.rows { settings with indentWidth := width } produced id ms =
        ConceptTable.rows settings produced id ms := by
    intro produced id ms
    induction ms generalizing id with
    | nil => rfl
    | cons m ms ih =>
        rw [ConceptTable.rows, ConceptTable.rows]
        simp only [ih]
        rfl
  unfold ofClusters ConceptTable.build
  simp only [hrows]
  rfl

/-- **Only depth and trimmed text matter.** Two texts of the same layout, each read with its own
    width of indentation, are compiled to the same concepts and the same inferences, and to clusters
    that are the same up to the numbers of their lines. -/
theorem tables_of_layout (settings : Settings) (id : UInt32) {width width' : Nat}
    {source source' : Text}
    (h : Physical.layout width source = Physical.layout width' source') :
    let plan := (next { settings with indentWidth := width } id source).1
    let plan' := (next { settings with indentWidth := width' } id source').1
    plan.concepts = plan'.concepts ∧ plan.inferences = plan'.inferences ∧
      plan.clusters.map unnumbered.cluster = plan'.clusters.map unnumbered.cluster := by
  intro plan plan'
  have hclusters : plan.clusters.map unnumbered.cluster =
      plan'.clusters.map unnumbered.cluster := by
    show (Tree.clusters (Line.parse width source)).map unnumbered.cluster =
      (Tree.clusters (Line.parse width' source')).map unnumbered.cluster
    rw [← Relocation.clusters_map_line, Line.map_line_parse_of_layout h,
      Relocation.clusters_map_line]
  have hplan : plan = (ofClusters settings id plan.clusters).1 := by
    rw [← ofClusters_withWidth settings width]
    rfl
  have hplan' : plan' = (ofClusters settings id plan'.clusters).1 := by
    rw [← ofClusters_withWidth settings width']
    rfl
  obtain ⟨hconcepts, hinferences⟩ := tables_unnumbered settings id plan.clusters
  obtain ⟨hconcepts', hinferences'⟩ := tables_unnumbered settings id plan'.clusters
  refine ⟨?_, ?_, hclusters⟩
  · rw [hplan, hplan', ← hconcepts, ← hconcepts', hclusters]
  · rw [hplan, hplan', ← hinferences, ← hinferences', hclusters]

/-- A plan with line feeds only, indented by four spaces. -/
def spacedPlan : Text :=
  ":<: {r} | %{axis}: x\n...: the result\n    <= ::(f)\n    <- {a}\n    # given\n"

/-- The same plan with blank lines, both line endings, tabs, blanks at the ends of lines and more
    spaces than its indentation by three takes. -/
def tabbedPlan : Text :=
  "\r\n:<: {r} | %{axis}: x \t\r\n\n  ...: the result\n\t <= ::(f)\xa0\r\n \n" ++
    "     <- {a}\n\t# given"

theorem tables_of_layout_tabbedPlan :
    Physical.layout 4 spacedPlan = Physical.layout 3 tabbedPlan ∧
    (next { indentWidth := 4 } 7 spacedPlan).1.concepts.length = 3 ∧
    (next { indentWidth := 4 } 7 spacedPlan).1.concepts =
      (next { indentWidth := 3 } 7 tabbedPlan).1.concepts ∧
    (next { indentWidth := 4 } 7 spacedPlan).1.inferences =
      (next { indentWidth := 3 } 7 tabbedPlan).1.inferences ∧
    (next { indentWidth := 4 } 7 spacedPlan).1.clusters.map unnumbered.cluster =
      (next { indentWidth := 3 } 7 tabbedPlan).1.clusters.map unnumbered.cluster := by
  have hlayout : Physical.layout 4 spacedPlan = Physical.layout 3 tabbedPlan := by decide +kernel
  exact ⟨hlayout, by decide +kernel, tables_of_layout { } 7 hlayout⟩

end CompiledPlan

end PlanGraph
