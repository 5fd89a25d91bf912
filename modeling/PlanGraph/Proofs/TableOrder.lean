import PlanGraph.Proofs.Inference.References
import PlanGraph.Proofs.Line.Freshness
import PlanGraph.Proofs.StableSort
import PlanGraph.Proofs.Tree.Numbering

set_option autoImplicit false

/-! # The order of the tables

The concept table is the stable sort of its rows by the numbers of their first positions. The
inference table is sorted by whole positions, so rows whose numbers are the same are ordered by the
texts of their positions; it is the stable sort by numbers exactly if such rows were built in that
order (`tables_sorted_iff`). Texts can differ where numbers do not only if some line asks for its
position. Where none does, every line has numbers of its own, and so has every row of the concept
table (`positions_fresh`). -/

namespace PlanGraph

/-! ## Positions and their keys -/

namespace Position

theorem sortKey_rank_le {p q : Position} (h : p.rank ≤ q.rank) :
    p.sortKey.rank ≤ q.sortKey.rank := by
  rw [rank, rank, Prod.Lex.toLex_le_toLex] at h
  rcases h with hlt | ⟨heq, -⟩
  · exact le_of_lt hlt
  · exact le_of_eq heq

/-- Positions of one key are ordered by their texts. -/
theorem rank_le_iff_of_sortKey_eq {p q : Position} (h : p.sortKey = q.sortKey) :
    p.rank ≤ q.rank ↔ p.text.le q.text = true := by
  simp [rank, Prod.Lex.toLex_le_toLex, h, Text.le_iff]

theorem sortKey_cases (p : Position) :
    p.sortKey = .missing ∧ p.components = [] ∨ p.sortKey = .path p.components := by
  by_cases h : p.isAbsent = true
  · exact Or.inl ⟨by rw [sortKey, if_pos h], by rw [components, if_pos h]⟩
  · exact Or.inr (by rw [sortKey, if_neg h])

theorem components_eq_of_sortKey_eq {p q : Position} (h : p.sortKey = q.sortKey) :
    p.components = q.components := by
  rcases p.sortKey_cases with ⟨hp, hnone⟩ | hp
  · rcases q.sortKey_cases with ⟨-, hnone'⟩ | hq
    · rw [hnone, hnone']
    · rw [hp, hq] at h
      cases h
  · rcases q.sortKey_cases with ⟨hq, -⟩ | hq
    · rw [hp, hq] at h
      cases h
    · rw [hp, hq] at h
      exact SortKey.path.inj h

end Position

namespace Line

/-- Where no line asks for a position, the numbers of a position determine it. -/
theorem position_eq_of_sortKey_eq {width : Nat} {source : Text} (hplain : Physical.Plain source)
    {l l' : Line} (hl : l ∈ parse width source) (hl' : l' ∈ parse width source)
    (h : l.position.sortKey = l'.position.sortKey) : l.position = l'.position := by
  have hspelled : ∀ k ∈ parse width source, k.position = .ofComponents k.position.components := by
    intro k hk
    obtain ⟨i, hi⟩ := List.getElem?_of_mem hk
    obtain ⟨s, -, -, hposition, hcomponents⟩ := Tree.position_of_parse hplain hi
    rw [hcomponents, hposition]
  rw [hspelled l hl, hspelled l' hl', Position.components_eq_of_sortKey_eq h]

end Line

/-! ## Tables as sorted lists -/

namespace ConceptTable

/-- The concept table is the stable sort of one row for each concept, in the order of the first
    mentions. -/
theorem sortedStably_build (settings : Settings) (nextId : UInt32) (clusters : List Cluster) :
    ∃ built, List.Forall₂ (RowOf settings clusters (·.comments.length))
        ((Mention.lines clusters).map (·.conceptKey)).eraseDups built ∧
      SortedStably (fun row : ConceptRow => row.sortKey.rank) built
        (build settings nextId clusters).1 := by
  have hrows := forall₂_rowOf_rows (·.comments.length) settings nextId clusters
  rw [(Mention.gathered_collect clusters).keys, Mention.collectBy_length] at hrows
  have hle : ∀ a b : ConceptRow,
      a.sortKey.le b.sortKey = true ↔ a.sortKey.rank ≤ b.sortKey.rank :=
    fun _ _ => SortKey.le_iff_rank
  exact ⟨_, hrows, sortedStably_stableSort hle _⟩

end ConceptTable

namespace InferenceTable

/-- The row of each cluster is followed by the rows of its further operations. -/
theorem rows_eq (settings : Settings) (concepts : List ConceptRow) (clusters : List Cluster) :
    rows settings concepts clusters = clusters.flatMap fun c =>
      (row? settings concepts c).toList ++
        c.nested.filterMap fun l => row? settings concepts (.promoted l) := by
  rw [rows, List.filterMap_flatMap]
  refine List.flatMap_congr fun c _ => ?_
  rw [withNested, List.filterMap_cons, List.filterMap_map]
  cases row? settings concepts c <;> rfl

theorem sortedStably_build (settings : Settings) (concepts : List ConceptRow)
    (clusters : List Cluster) :
    SortedStably (fun row : InferenceRow => row.position.rank) (rows settings concepts clusters)
      (build settings concepts clusters) := by
  have hle : ∀ a b : InferenceRow,
      a.position.le b.position = true ↔ a.position.rank ≤ b.position.rank :=
    fun _ _ => Position.le_iff_rank
  exact sortedStably_stableSort hle _

/-- A row stands at the position of a line. -/
theorem exists_line_of_mem_rows {settings : Settings} {concepts : List ConceptRow}
    {lines : List Line} {row : InferenceRow} (h : row ∈ rows settings concepts (Tree.clusters lines)) :
    ∃ l ∈ lines, l.position = row.position := by
  obtain ⟨c, hc, hrow⟩ := List.mem_filterMap.1 h
  obtain ⟨told, -, rfl⟩ := Option.map_eq_some_iff.1 hrow
  obtain ⟨c', hc', hwith⟩ := List.mem_flatMap.1 hc
  rcases List.mem_cons.1 hwith with rfl | hnested
  · obtain ⟨⟨parent, kids⟩, hfamily, hcluster⟩ := List.mem_filterMap.1 hc'
    obtain ⟨function, -, rfl⟩ := Cluster.ofChildren?_eq_some_iff.1 hcluster
    exact ⟨parent, (Tree.mem_of_mem_families hfamily).1, rfl⟩
  · obtain ⟨operation, hoperation, rfl⟩ := List.mem_map.1 hnested
    have hmention : operation ∈ c'.mentions := by
      simp [Cluster.mentions, List.mem_of_mem_filter hoperation]
    exact ⟨operation, Tree.mem_of_mem_mentions hc' hmention, rfl⟩

/-- Sorting by positions is sorting by numbers exactly if rows of the same numbers were built in the
    order of their texts. -/
theorem sortedStably_sortKey_iff (settings : Settings) (concepts : List ConceptRow)
    (clusters : List Cluster) :
    SortedStably (fun row : InferenceRow => row.position.sortKey.rank)
        (rows settings concepts clusters) (build settings concepts clusters) ↔
      (rows settings concepts clusters).Pairwise fun a b =>
        a.position.sortKey = b.position.sortKey → a.position.text.le b.position.text = true := by
  rw [(sortedStably_build settings concepts clusters).coarser_iff
    fun _ _ hab => Position.sortKey_rank_le hab]
  refine List.Pairwise.iff ?_
  intro a b
  constructor
  · intro h hkey
    exact (Position.rank_le_iff_of_sortKey_eq hkey).1 (h (congrArg _ hkey))
  · intro h hrank
    have hkey := SortKey.rank_injective hrank
    exact (Position.rank_le_iff_of_sortKey_eq hkey).2 (h hkey)

end InferenceTable

/-! ## Tables over lines of different numbers -/

namespace ConceptTable

/-- A row is sorted by one of the lines that mention its concept. -/
theorem RowOf.exists_sortKey {settings : Settings} {clusters : List Cluster} {weight : Line → Nat}
    {key : Text} {row : ConceptRow} (h : RowOf settings clusters weight key row) :
    ∃ l ∈ Mention.linesOf key (Mention.lines clusters), row.sortKey = l.position.sortKey := by
  obtain ⟨first, -, hhead, -⟩ := h.columns
  have hmem : first.position ∈ row.positions :=
    (h.mem_positions _).2 ⟨first, List.mem_of_mem_head? hhead, rfl⟩
  cases hpositions : row.positions with
  | nil =>
      rw [hpositions] at hmem
      cases hmem
  | cons p rest =>
      obtain ⟨l, hl, hp⟩ := (h.mem_positions p).1 (by rw [hpositions]; exact List.mem_cons_self)
      refine ⟨l, hl, ?_⟩
      rw [ConceptRow.sortKey, hpositions, hp]
      rfl

section Fresh

variable {settings : Settings} {nextId : UInt32} {clusters : List Cluster}
  (hfresh : ∀ l ∈ Mention.lines clusters, ∀ l' ∈ Mention.lines clusters,
    l.position.sortKey = l'.position.sortKey → l = l')
include hfresh

/-- Lines of one key mention one concept. -/
theorem key_eq_of_sortKey_eq {key key' : Text} {l l' : Line}
    (hl : l ∈ Mention.linesOf key (Mention.lines clusters))
    (hl' : l' ∈ Mention.linesOf key' (Mention.lines clusters))
    (h : l.position.sortKey = l'.position.sortKey) : key = key' := by
  obtain ⟨hmem, rfl⟩ := Mention.mem_linesOf.1 hl
  obtain ⟨hmem', rfl⟩ := Mention.mem_linesOf.1 hl'
  rw [hfresh l hmem l' hmem' h]

theorem disjoint_positions_build :
    (build settings nextId clusters).1.Pairwise fun a b => a.positions.Disjoint b.positions := by
  refine pairwise_build ?_
  intro f g _ _ hne a b ha hb p hp hp'
  obtain ⟨l, hl, rfl⟩ := (ha.mem_positions p).1 hp
  obtain ⟨l', hl', heq⟩ := (hb.mem_positions _).1 hp'
  exact hne (key_eq_of_sortKey_eq hfresh hl hl' (by rw [heq]))

theorem rank_lt_build :
    (build settings nextId clusters).1.Pairwise fun a b => a.sortKey.rank < b.sortKey.rank := by
  obtain ⟨built, -, hsorted⟩ := sortedStably_build settings nextId clusters
  have hne : (build settings nextId clusters).1.Pairwise fun a b =>
      a.sortKey.rank ≠ b.sortKey.rank := by
    refine pairwise_build ?_
    intro f g _ _ hne a b ha hb hrank
    obtain ⟨l, hl, hkey⟩ := ha.exists_sortKey
    obtain ⟨l', hl', hkey'⟩ := hb.exists_sortKey
    have hsame := SortKey.rank_injective hrank
    rw [hkey, hkey'] at hsame
    exact hne (key_eq_of_sortKey_eq hfresh hl hl' hsame)
  exact (hsorted.ascending.and hne).imp fun h => lt_of_le_of_ne h.1 h.2

end Fresh

end ConceptTable

namespace CompiledPlan

theorem sortedStably_inferences_iff {settings : Settings} {source : Text} {plan : CompiledPlan}
    (hplan : ofText settings source = plan) :
    SortedStably (fun row : InferenceRow => row.position.sortKey.rank)
        (InferenceTable.rows settings plan.concepts plan.clusters) plan.inferences ↔
      (InferenceTable.rows settings plan.concepts plan.clusters).Pairwise fun a b =>
        a.position.sortKey = b.position.sortKey → a.position.text.le b.position.text = true := by
  subst hplan
  exact InferenceTable.sortedStably_sortKey_iff settings _ _

/-- **How the tables are sorted.** The concept table is the stable sort, by the numbers of its first
    position, of one row for each concept in the order of first mentions. The inference table is the
    sort by whole positions of each cluster's row followed by the rows of its further operations. It
    is the stable sort by numbers exactly if, of rows whose numbers are the same, none was built
    before one whose position has a smaller text; that is so wherever no line asks for a
    position. -/
theorem tables_sorted_iff (settings : Settings) (source : Text) :
    let plan := ofText settings source
    let built := plan.clusters.flatMap fun c =>
      (InferenceTable.row? settings plan.concepts c).toList ++
        c.nested.filterMap fun l => InferenceTable.row? settings plan.concepts (.promoted l)
    (∃ rows, List.Forall₂ (ConceptTable.RowOf settings plan.clusters (·.comments.length))
        ((Mention.lines plan.clusters).map (·.conceptKey)).eraseDups rows ∧
      SortedStably (fun row : ConceptRow => row.sortKey.rank) rows plan.concepts) ∧
    SortedStably (fun row : InferenceRow => row.position.rank) built plan.inferences ∧
    (SortedStably (fun row : InferenceRow => row.position.sortKey.rank) built plan.inferences ↔
      built.Pairwise fun a b => a.position.sortKey = b.position.sortKey →
        a.position.text.le b.position.text = true) ∧
    (Physical.Plain source →
      SortedStably (fun row : InferenceRow => row.position.sortKey.rank) built plan.inferences) := by
  intro plan built
  have hbuilt : InferenceTable.rows settings plan.concepts plan.clusters = built :=
    InferenceTable.rows_eq settings plan.concepts plan.clusters
  have hiff := sortedStably_inferences_iff (show ofText settings source = plan from rfl)
  rw [hbuilt] at hiff
  refine ⟨ConceptTable.sortedStably_build settings settings.firstId plan.clusters, ?_, hiff, ?_⟩
  · rw [← hbuilt]
    exact InferenceTable.sortedStably_build settings plan.concepts plan.clusters
  · intro hplain
    -- without tags the numbers spell the text, so there is no tie that the texts would break
    refine hiff.2 (List.pairwise_of_forall_mem_list ?_)
    intro a ha b hb hkey
    rw [← hbuilt] at ha hb
    obtain ⟨l, hl, hla⟩ := InferenceTable.exists_line_of_mem_rows ha
    obtain ⟨l', hl', hlb⟩ := InferenceTable.exists_line_of_mem_rows hb
    rw [← hla, ← hlb] at hkey ⊢
    rw [Line.position_eq_of_sortKey_eq hplain hl hl' hkey, Text.le_iff]

/-- A plan whose further operation shares its position with the cluster that it opens. -/
def sharedPosition : Text :=
  ":<: {r}\n    <= ::(f)\n    <= ::(g)\n        <= ::(h)\n"

theorem tables_sorted_iff_sharedPosition :
    let plan := ofText { } sharedPosition
    (plan.inferences.map fun row => (row.position.text, row.function)) =
      [("1".toList, "::(f)".toList), ("1.2".toList, "::(g)".toList),
        ("1.2".toList, "::(h)".toList)] ∧
    SortedStably (fun row : InferenceRow => row.position.sortKey.rank)
      (InferenceTable.rows { } plan.concepts plan.clusters) plan.inferences := by
  intro plan
  have hfacts : Physical.Plain sharedPosition ∧
      (plan.inferences.map fun row => (row.position.text, row.function)) =
        [("1".toList, "::(f)".toList), ("1.2".toList, "::(g)".toList),
          ("1.2".toList, "::(h)".toList)] := by
    decide +kernel
  refine ⟨hfacts.2, ?_⟩
  rw [InferenceTable.rows_eq]
  exact (tables_sorted_iff { } sharedPosition).2.2.2 hfacts.1

/-- A plan that asks twice for the same number, with and without a leading zero. -/
def twoSpellings : Text :=
  ":<: {a} | ?{position}: 2\n    <= ::(f)\n" ++
    ":<: {b} | ?{position}: 02\n    <= ::(g)\n"

theorem inferences_twoSpellings :
    let plan := ofText { } twoSpellings
    let built := InferenceTable.rows { } plan.concepts plan.clusters
    (built.map fun row => (row.infers, row.position.sortKey)) =
      [("{a}".toList, .path [2]), ("{b}".toList, .path [2])] ∧
    plan.inferences.map (·.infers) = ["{b}".toList, "{a}".toList] ∧
    ¬ SortedStably (fun row : InferenceRow => row.position.sortKey.rank) built
      plan.inferences := by
  intro plan built
  rw [sortedStably_inferences_iff (show ofText { } twoSpellings = plan from rfl)]
  decide +kernel

/-- **Positions are fresh.** A line that asks for no position lies behind the line before it,
    whatever position that one has, as long as no count starts over. So where no line asks for a
    position, no two lines share one, no two concepts share one, and the rows of the concept table
    stand at strictly increasing numbers. -/
theorem positions_fresh (settings : Settings) (source : Text) :
    let lines := Line.parse settings.indentWidth source
    let plan := ofText settings source
    (lines.IsChain fun prev l => l.asked? source = none → Line.CountsUp prev l →
      prev.position.sortKey.rank < l.position.sortKey.rank) ∧
    (Physical.Plain source → lines.IsChain Line.CountsUp →
      (lines.map (·.position)).Nodup ∧
      (plan.concepts.Pairwise fun a b => a.positions.Disjoint b.positions) ∧
      plan.concepts.Pairwise fun a b => a.sortKey.rank < b.sortKey.rank) := by
  intro lines plan
  constructor
  · exact (Line.isChain_readAt settings.indentWidth source).imp
      fun _ _ hread hasked hcount => hread.rank_lt hasked hcount
  · intro hplain hcounts
    have hascending := Line.ascending_parse hplain hcounts
    have hnodup : (lines.map (·.position.sortKey.rank)).Nodup :=
      List.pairwise_map.2 (hascending.imp fun h => ne_of_lt h)
    have hfresh : ∀ l ∈ Mention.lines plan.clusters, ∀ l' ∈ Mention.lines plan.clusters,
        l.position.sortKey = l'.position.sortKey → l = l' := by
      intro l hl l' hl' hkey
      exact List.inj_on_of_nodup_map hnodup (mem_parse_of_mem_lines hl)
        (mem_parse_of_mem_lines hl') (congrArg SortKey.rank hkey)
    refine ⟨?_, ConceptTable.disjoint_positions_build hfresh, ConceptTable.rank_lt_build hfresh⟩
    exact List.pairwise_map.2 (hascending.imp fun h heq => absurd h (by rw [heq]; exact lt_irrefl _))

/-- A plan with two lines that ask for positions, each before one that does not. -/
def askedPositions : Text :=
  ":<: {r} | ?{position}: 4.x\n    <= ::(f)\n" ++
    "    <- {a} | ?{position}: 1\n    <- {b}\n"

theorem positions_fresh_askedPositions :
    let lines := Line.parse 4 askedPositions
    let plan := ofText { } sharedPosition
    lines.map (·.position.text) = ["4.x".toList, "4.1".toList, "1".toList, "1.1".toList] ∧
    (∀ i ∈ [0, 2], ∃ h : i + 1 < lines.length,
      lines[i].position.sortKey.rank < lines[i + 1].position.sortKey.rank) ∧
    (plan.concepts.map fun row => row.positions.map (·.text)) =
      [["1".toList], ["1.1".toList], ["1.2".toList], ["1.2.1".toList]] ∧
    plan.concepts.Pairwise fun a b => a.sortKey.rank < b.sortKey.rank := by
  intro lines plan
  have hasked : lines.map (·.position.text) =
        ["4.x".toList, "4.1".toList, "1".toList, "1.1".toList] ∧
      ∀ i ∈ [0, 2], ∃ h : i + 1 < lines.length,
        lines[i + 1].asked? askedPositions = none ∧ Line.CountsUp lines[i] lines[i + 1] := by
    decide +kernel
  have hshared : Physical.Plain sharedPosition ∧
      (Line.parse 4 sharedPosition).IsChain Line.CountsUp ∧
      (plan.concepts.map fun row => row.positions.map (·.text)) =
        [["1".toList], ["1.1".toList], ["1.2".toList], ["1.2.1".toList]] := by
    decide +kernel
  obtain ⟨hplain, hcounts, hpositions⟩ := hshared
  refine ⟨hasked.1, ?_, hpositions, ((positions_fresh { } sharedPosition).2 hplain hcounts).2.2⟩
  intro i hi
  obtain ⟨hlt, hnone, hcount⟩ := hasked.2 i hi
  have hchain := List.isChain_iff_getElem.1 (positions_fresh { } askedPositions).1
  exact ⟨hlt, hchain i hlt hnone hcount⟩

end CompiledPlan

end PlanGraph
