import PlanGraph.Proofs.Recommenting.Concept
import PlanGraph.Proofs.Reindex.Reading

set_option autoImplicit false

/-! # The compiled graph of a reindexed plan

Reindexing a plan without position tags keeps its inferences and its concepts
(`inferences_and_concepts_run`). It does not keep all annotations: a tag is one comment more on a
line that had no comment of its own, and so it can make another mention of a concept the one with
the most comments (`axes_run_bareMention`). A row keeps its annotations if the mention that is then
chosen has the same notes (`annotations_run`). -/

namespace PlanGraph

namespace Reindex

theorem clusters_run (settings : Settings) {source : Text}
    (h : Untagged (Text.splitOn '\n' source)) :
    Tree.clusters (Line.parse settings.indentWidth (run settings.indentWidth source).text) =
      (Tree.clusters (Line.parse settings.indentWidth source)).map
        (retagging 1 (Text.splitOn '\n' source)).cluster := by
  rw [parse_run settings.indentWidth h, Recommenting.clusters_map_line]

/-- **Reindexing preserves the compiled graph.** A plan without position tags has the same
    inferences after reindexing, and the same concepts in the same order, each with the same names,
    kind, positions and flags, whatever numbers the two compilations start from. -/
theorem inferences_and_concepts_run (settings : Settings) (id id' : UInt32) {source : Text}
    (h : Untagged (Text.splitOn '\n' source)) :
    let plan := (CompiledPlan.next settings id source).1
    let again := (CompiledPlan.next settings id' (run settings.indentWidth source).text).1
    again.inferences = plan.inferences ∧
      List.Forall₂ ConceptRow.Alike again.concepts plan.concepts := by
  unfold CompiledPlan.next
  rw [clusters_run settings h]
  exact Recommenting.ofClusters_map_cluster _ settings id id' _

/-- A plan with both kinds of line endings, an escaped pipe, a pipe alone and no last line break. -/
def mixedPlan : Text :=
  ":<: {r} |\r\n    <= ::(f \\| g)\n    <- {a} | %{axis}: x\r\n    <- {a}"

theorem inferences_and_concepts_run_mixedPlan :
    Untagged (Text.splitOn '\n' mixedPlan) ∧
    (CompiledPlan.next { } 0 mixedPlan).1.inferences.length = 1 ∧
    (CompiledPlan.next { } 7 (run 4 mixedPlan).text).1.inferences =
      (CompiledPlan.next { } 0 mixedPlan).1.inferences ∧
    List.Forall₂ ConceptRow.Alike (CompiledPlan.next { } 7 (run 4 mixedPlan).text).1.concepts
      (CompiledPlan.next { } 0 mixedPlan).1.concepts := by
  have huntagged : Untagged (Text.splitOn '\n' mixedPlan) := by decide +kernel
  exact ⟨huntagged, by decide +kernel, inferences_and_concepts_run { } 0 7 huntagged⟩

/-! ## Annotations -/

/-- Whether the line of the text that a parsed line comes from has an inline comment. -/
def hasInlineComment (source : Text) (l : Line) : Bool :=
  (Physical.splitComment (sourceLine 1 (Text.splitOn '\n' source) l)).2.isSome

/-- How many comments a line has once it carries a tag: one more, unless the tag is put behind an
    inline comment. -/
def weightAfter (source : Text) (l : Line) : Nat :=
  l.comments.length + if hasInlineComment source l then 0 else 1

theorem length_comments_retagging (source : Text) (l : Line) :
    ((retagging 1 (Text.splitOn '\n' source)).comments l).length = weightAfter source l := by
  have htight : Text.Tight (sourceLine 1 (Text.splitOn '\n' source) l) := Text.tight_trim _
  show (retagComments _ (sourceLine 1 (Text.splitOn '\n' source) l) _).length = _
  rw [weightAfter, hasInlineComment, retagComments]
  split
  · next hpipe => rw [Physical.splitComment_eq htight, hpipe]; rfl
  · next hpipe => rw [Physical.splitComment_eq htight, hpipe]; rfl -- a pipe alone is no comment
  · next comment hmore hpipe =>
      rw [Physical.splitComment_of_fromPipe? htight hpipe hmore]
      simp

/-- **Annotations after reindexing.** The rows of the two concept tables correspond one by one. A
    row of the reindexed plan takes its annotations from the earliest mention of greatest
    `weightAfter`, and keeps them, but for the running number of a file, if that mention has the
    same notes as the one with the most comments. If this is so for every concept, the tables are
    the same. -/
theorem annotations_run (settings : Settings) {source : Text}
    (h : Untagged (Text.splitOn '\n' source)) :
    let plan := CompiledPlan.ofText settings source
    let again := CompiledPlan.ofText settings (run settings.indentWidth source).text
    let kept := ConceptTable.SameChoice plan.clusters (weightAfter source) (·.comments.length)
    List.Forall₂ (fun row old => ∃ key,
        ConceptTable.RowOf settings plan.clusters (weightAfter source) key row ∧
        ConceptTable.RowOf settings plan.clusters (·.comments.length) key old ∧
        (kept key → row.SameNotes old))
      again.concepts plan.concepts ∧
    ((∀ key ∈ (Mention.lines plan.clusters).map (·.conceptKey), kept key) →
      again.concepts = plan.concepts) := by
  intro plan again kept
  have hweight : (fun l => ((retagging 1 (Text.splitOn '\n' source)).comments l).length) =
      weightAfter source := funext fun l => length_comments_retagging source l
  have hold : plan.concepts = ConceptTable.buildBy (·.comments.length) settings settings.firstId
      plan.clusters := ConceptTable.build_eq_buildBy _ _ _
  have hnew : again.concepts = ConceptTable.buildBy (weightAfter source) settings settings.firstId
      plan.clusters := by
    show (ConceptTable.build settings settings.firstId (Tree.clusters _)).1 = _
    rw [clusters_run settings h, Recommenting.build_map_cluster, hweight]
    rfl
  constructor
  · rw [hold, hnew]
    refine (ConceptTable.forall₂_alike_buildBy settings _ _ plan.clusters _ _).imp ?_
    rintro row old ⟨-, key, hrow, hrow'⟩
    exact ⟨key, hrow, hrow', ConceptTable.sameNotes_of_rowOf settings hrow hrow'⟩
  · intro hkept
    rw [hold, hnew]
    refine ConceptTable.buildBy_congr settings _ _ ?_
    intro key hkey
    exact hkept key (List.mem_map.2 ((Mention.gathered_collect _).mem_keys.1 hkey))

/-- A plan with two mentions of a concept that carry the same note, one inline and one on a line of
    its own, so that reindexing makes the second the one with the most comments. -/
def notedTwice : Text :=
  ":<: {r}\n    <= ::(f)\n    <- {a} | %{axis}: x\n    <- {a}\n    | %{axis}: x\n"

theorem annotations_run_notedTwice :
    Untagged (Text.splitOn '\n' notedTwice) ∧
    (∀ key ∈ (Mention.lines (CompiledPlan.ofText { } notedTwice).clusters).map (·.conceptKey),
      ConceptTable.SameChoice (CompiledPlan.ofText { } notedTwice).clusters
        (weightAfter notedTwice) (·.comments.length) key) ∧
    (CompiledPlan.ofText { } (run 4 notedTwice).text).concepts =
      (CompiledPlan.ofText { } notedTwice).concepts := by
  have huntagged : Untagged (Text.splitOn '\n' notedTwice) := by decide +kernel
  have hkept : ∀ key ∈
      (Mention.lines (CompiledPlan.ofText { } notedTwice).clusters).map (·.conceptKey),
      ConceptTable.SameChoice (CompiledPlan.ofText { } notedTwice).clusters
        (weightAfter notedTwice) (·.comments.length) key := by decide +kernel
  exact ⟨huntagged, hkept, (annotations_run { } huntagged).2 hkept⟩

/-- A plan that mentions a concept first with a note on its axis, then bare. -/
def bareMention : Text :=
  ":<: {r}\n    <= ::(f)\n    <- {a} | %{axis}: x\n    <- {a}\n    # note\n"

/-- Reindexing can lose an annotation: the bare mention gets one comment more than the one with the
    note, and its row no longer has the axis. -/
theorem axes_run_bareMention :
    Untagged (Text.splitOn '\n' bareMention) ∧
    (CompiledPlan.ofText { } bareMention).concepts.map (fun row => (row.name, row.axisName)) =
      [("{r}".toList, "_none_axis".toList), ("::(f)".toList, "_none_axis".toList),
        ("{a}".toList, "x".toList)] ∧
    (CompiledPlan.ofText { } (run 4 bareMention).text).concepts.map
        (fun row => (row.name, row.axisName)) =
      [("{r}".toList, "_none_axis".toList), ("::(f)".toList, "_none_axis".toList),
        ("{a}".toList, "_none_axis".toList)] := by
  decide +kernel

end Reindex

end PlanGraph
