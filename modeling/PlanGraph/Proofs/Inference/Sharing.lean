import PlanGraph.Proofs.TableOrder
import PlanGraph.Proofs.Tree.Clusters

set_option autoImplicit false

/-! # Rows at one position

A row stands at the position of a line: the row of a cluster at that of its parent, and the row of a
further operation at its own. Where no line asks for a position, every line has a position of its own
(`Line.nodup_positions_parse`), so two rows share one only if a further operation is itself the parent
of a cluster. Its own row is then built first, since the line above it comes earlier
(`Tree.pairwise_sharing`), and sorting keeps that order (`inferences_at_one_position`). -/

namespace PlanGraph

/-! ## Positions of a text -/

namespace Counter

/-- A count is no larger than the number of lines that were counted. -/
theorem le_of_mem_trace {c c' : Counter} {m i : Nat} {ds : List Nat} (hc : ∀ n ∈ c.counts, n ≤ m)
    (hi : (c.trace ds)[i]? = some c') : ∀ n ∈ c'.counts, n ≤ m + i + 1 := by
  induction ds generalizing c m i with
  | nil => simp [trace] at hi
  | cons d ds ih =>
      have hstep : ∀ n ∈ (c.advance d).counts, n ≤ m + 1 := by
        intro n hn
        simp only [advance, List.mem_append, List.mem_replicate, List.mem_singleton] at hn
        rcases hn with (hn | ⟨-, rfl⟩) | rfl
        · exact Nat.le_succ_of_le (hc n (List.mem_of_mem_take hn))
        · exact Nat.zero_le _
        · have hcount : c.counts.getD d 0 ≤ m := by
            rw [List.getD_eq_getElem?_getD]
            cases hd : c.counts[d]? with
            | none => exact Nat.zero_le _
            | some n => exact hc n (List.mem_of_getElem? hd)
          have hraise : raise (c.counts.getD d 0) ≤ c.counts.getD d 0 + 1 := Nat.mod_le _ _
          omega
      cases i with
      | zero =>
          obtain rfl : c.advance d = c' := by simpa [trace] using hi
          exact hstep
      | succ i =>
          intro n hn
          have hle := ih hstep hi n hn
          omega

end Counter

namespace Line

theorem length_parse_le (width : Nat) (source : Text) :
    (parse width source).length ≤ source.length + 1 := by
  have hdepths := congrArg List.length
    (map_depth_readFrom width .start 1 (Text.splitOn '\n' source))
  rw [← parse_eq_readFrom, List.length_map, roleDepths, List.length_map] at hdepths
  have hfilter : ((Text.splitOn '\n' source).filter fun raw => Role.opens raw.trim).length ≤
      (Text.splitOn '\n' source).length := List.length_filter_le _ _
  have hcount : source.count '\n' ≤ source.length := List.count_le_length
  rw [Text.length_splitOn] at hfilter
  omega

/-- Where no line asks for a position, the numbers of a position are counts of lines. -/
theorem le_of_mem_components {width : Nat} {source : Text} (hplain : Physical.Plain source) {i : Nat}
    {l : Line} (hl : (parse width source)[i]? = some l) : ∀ n ∈ l.position.components, n ≤ i + 1 := by
  obtain ⟨s, hs, -, -, hcomponents⟩ := Tree.position_of_parse hplain hl
  have htrace := congrArg (·[i]?)
    (Tree.map_path_placeFrom .start [] 0 ((parse width source).map (·.depth)))
  simp only [List.getElem?_map] at htrace
  rw [show (Tree.placeFrom .start [] 0 ((parse width source).map (·.depth)))[i]? = some s from hs,
    Option.map_some] at htrace
  obtain ⟨c, hc, hpath⟩ := Option.map_eq_some_iff.1 htrace.symm
  have hle := Counter.le_of_mem_trace (by simp [Counter.start] : ∀ n ∈ Counter.start.counts, n ≤ 0) hc
  rw [Nat.zero_add] at hle
  rw [hcomponents, ← hpath]
  exact hle

/-- A text has too few lines for a count to start over. -/
theorem isChain_countsUp_parse {width : Nat} {source : Text} (hplain : Physical.Plain source)
    (hsize : source.length < Numeral.max64) : (parse width source).IsChain CountsUp := by
  rw [List.isChain_iff_getElem]
  intro i hi
  have hlength := length_parse_le width source
  have hcounts := le_of_mem_components hplain (List.getElem?_eq_getElem (Nat.lt_of_succ_lt hi))
  rw [CountsUp, List.getD_eq_getElem?_getD]
  cases hcount : (parse width source)[i].position.components[(parse width source)[i + 1].depth]? with
  | none => exact Nat.lt_of_le_of_lt (Nat.zero_le _) hsize
  | some n =>
      have hn := hcounts n (List.mem_of_getElem? hcount)
      rw [Option.getD_some]
      omega

/-- Where no line asks for a position, no two lines share one. -/
theorem nodup_positions_parse {width : Nat} {source : Text} (hplain : Physical.Plain source)
    (hsize : source.length < Numeral.max64) : ((parse width source).map (·.position)).Nodup := by
  have hcounts : (parse width source).IsChain CountsUp := isChain_countsUp_parse hplain hsize
  refine List.pairwise_map.2 ((ascending_parse hplain hcounts).imp ?_)
  intro a b hlt heq
  rw [heq] at hlt
  exact lt_irrefl _ hlt

end Line

/-! ## Clusters at one position -/

namespace Tree

theorem index_eq_of_position_eq {lines : List Line} (hfresh : (lines.map (·.position)).Nodup)
    {i j : Nat} {l l' : Line} (hl : lines[i]? = some l) (hl' : lines[j]? = some l')
    (h : l.position = l'.position) : i = j := by
  have hi : i < (lines.map (·.position)).length := by
    rw [List.length_map]
    exact (List.getElem?_eq_some_iff.1 hl).1
  refine (List.getElem?_inj hi hfresh).1 ?_
  rw [List.getElem?_map, List.getElem?_map, hl, hl', Option.map_some, Option.map_some, h]

/-- One operation comes before another if its parent does. -/
def Before (lines : List Line) (i j : Nat) : Prop :=
  i ≠ j ∧ ∀ p q, i ∈ operationsBelow lines p → j ∈ operationsBelow lines q → p ≤ q

/-- Operations are gone through parent by parent. -/
theorem pairwise_before (lines : List Line) :
    ((List.range lines.length).flatMap (operationsBelow lines)).Pairwise (Before lines) := by
  rw [List.pairwise_flatMap]
  constructor
  · intro p _
    refine List.Pairwise.imp_of_mem ?_ ((nodup_childrenOf lines p).filter _)
    intro i j hi hj hne
    refine ⟨hne, ?_⟩
    intro q r hq hr
    rw [operationsBelow_unique hq hi, operationsBelow_unique hr hj]
  · refine List.pairwise_lt_range.imp ?_
    intro p q hpq i hi j hj
    constructor
    · rintro rfl
      exact absurd (operationsBelow_unique hi hj) (Nat.ne_of_lt hpq)
    · intro p' q' hp' hq'
      rw [operationsBelow_unique hp' hi, operationsBelow_unique hq' hj]
      exact Nat.le_of_lt hpq

/-- The cluster of the operation at index `k`, which is not the first one below its parent. -/
def PromotedAt (lines : List Line) (k : Nat) (c : Cluster) : Prop :=
  ∃ p operation, k ∈ (operationsBelow lines p).tail ∧ lines[k]? = some operation ∧
    c = .promoted operation

theorem PromotedAt.parent {lines : List Line} {k : Nat} {c : Cluster} (h : PromotedAt lines k c) :
    c.parent = none := by
  obtain ⟨-, -, -, -, rfl⟩ := h
  rfl

theorem ClusterOf.isSome_parent {lines : List Line} {p : Nat} {c : Cluster}
    (h : ClusterOf lines p c) : c.parent.isSome = true := by
  obtain ⟨l, -, hparent, -⟩ := h.parent
  rw [hparent]
  rfl

/-- Two clusters in order share a position only if the second one is that of a line that is itself a
    further operation, and makes the first one. -/
def Sharing (lines : List Line) (c c' : Cluster) : Prop :=
  c.position = c'.position → ∃ k, PromotedAt lines k c ∧ ClusterOf lines k c'

theorem sharing_of_before {lines : List Line} (hfresh : (lines.map (·.position)).Nodup) {i j : Nat}
    {c c' : Cluster} (hbefore : Before lines i j) (hc : CompiledIn lines i c)
    (hc' : CompiledIn lines j c') : Sharing lines c c' := by
  intro hposition
  obtain ⟨hne, horder⟩ := hbefore
  cases hc with
  | @first p parent c hparent hfirst hcluster =>
      obtain ⟨l, hl, -, hl_position⟩ := (clusterOf_of_ofChildren? hparent hcluster).parent
      cases hc' with
      | @first q parent' c' hparent' hfirst' hcluster' =>
          -- the same parent has one first operation
          obtain ⟨l', hl', -, hl'_position⟩ := (clusterOf_of_ofChildren? hparent' hcluster').parent
          obtain rfl : p = q :=
            index_eq_of_position_eq hfresh hl hl' (by rw [← hl_position, ← hl'_position, hposition])
          rw [hfirst] at hfirst'
          exact absurd (Option.some.inj hfirst') hne
      | @further q operation hoperation hfurther =>
          -- the operation stands below its parent and would be the parent of an earlier one
          obtain rfl : p = j :=
            index_eq_of_position_eq hfresh hl hoperation (by rw [← hl_position, hposition]; rfl)
          have hbelow := List.mem_of_mem_tail hfurther
          have hle := horder p q (List.mem_of_mem_head? hfirst) hbelow
          have hlt := lt_of_mem_childrenOf (List.mem_of_mem_filter hbelow)
          omega
  | @further p operation hoperation hfurther =>
      cases hc' with
      | @first q parent' c' hparent' hfirst' hcluster' =>
          have hcluster := clusterOf_of_ofChildren? hparent' hcluster'
          obtain ⟨l', hl', -, hl'_position⟩ := hcluster.parent
          obtain rfl : i = q :=
            index_eq_of_position_eq hfresh hoperation hl' (by rw [← hl'_position, ← hposition]; rfl)
          exact ⟨i, ⟨p, operation, hfurther, hoperation, rfl⟩, hcluster⟩
      | @further q operation' hoperation' hfurther' =>
          exact absurd (index_eq_of_position_eq hfresh hoperation hoperation' hposition) hne

theorem pairwise_sharing {lines : List Line} (hfresh : (lines.map (·.position)).Nodup) :
    ((clusters lines).flatMap InferenceTable.withNested).Pairwise (Sharing lines) :=
  pairwise_of_forall₂ (forall₂_compiledIn lines) (pairwise_before lines)
    fun _ _ _ _ hbefore hc hc' => sharing_of_before hfresh hbefore hc hc'

/-- No three clusters share a position. -/
theorem count_position_le {lines : List Line} {cs : List Cluster}
    (h : cs.Pairwise (Sharing lines)) (position : Position) :
    (cs.map (·.position)).count position ≤ 2 := by
  have hpair : (cs.filter (·.position == position)).Pairwise fun c c' =>
      c.parent = none ∧ c'.parent.isSome = true := by
    rw [List.pairwise_filter]
    refine h.imp ?_
    intro c c' hsharing hc hc'
    rw [beq_iff_eq] at hc hc'
    obtain ⟨k, hpromoted, hcluster⟩ := hsharing (by rw [hc, hc'])
    exact ⟨hpromoted.parent, hcluster.isSome_parent⟩
  rw [List.count_eq_countP, List.countP_map, List.countP_eq_length_filter]
  show (cs.filter (·.position == position)).length ≤ 2
  refine length_le_two_of_pairwise ?_ hpair
  intro c hnone hsome
  rw [hnone] at hsome
  cases hsome

theorem position_eq_of_placeholder_eq {c c' : Cluster}
    (h : InferenceTable.placeholder c = InferenceTable.placeholder c') : c.position = c'.position := by
  unfold InferenceTable.placeholder at h
  rw [List.append_assoc, List.append_assoc] at h
  have htail := List.append_cancel_left h
  have htext := List.append_cancel_right htail
  cases hp : c.position
  cases hp' : c'.position
  rw [hp, hp'] at htext
  exact congrArg Position.mk htext

/-- A further operation has another placeholder than what is built before it. -/
theorem Sharing.placeholder_ne {lines : List Line} {c c' : Cluster} (h : Sharing lines c c')
    (hnone : c'.parent = none) : InferenceTable.placeholder c ≠ InferenceTable.placeholder c' := by
  intro hsame
  obtain ⟨k, -, hcluster⟩ := h (position_eq_of_placeholder_eq hsame)
  have hsome := hcluster.isSome_parent
  rw [hnone] at hsome
  cases hsome

/-- Further operations have placeholders of their own. -/
theorem nodup_placeholders {lines : List Line} {cs : List Cluster}
    (h : cs.Pairwise (Sharing lines)) :
    ((cs.filter (·.parent.isNone)).map InferenceTable.placeholder).Nodup := by
  rw [List.Nodup, List.pairwise_map, List.pairwise_filter]
  refine h.imp ?_
  intro c c' hsharing _ hc'
  exact hsharing.placeholder_ne (Option.isNone_iff_eq_none.1 hc')

end Tree

/-! ## Rows at one position -/

namespace InferenceTable

theorem position_of_row? {settings : Settings} {concepts : List ConceptRow} {c : Cluster}
    {row : InferenceRow} (h : row? settings concepts c = some row) : row.position = c.position := by
  obtain ⟨told, -, rfl⟩ := Option.map_eq_some_iff.1 h
  rfl

/-- The clusters that give a row, in the order of their rows in the table. -/
def sources (cs : List Cluster) : List Cluster :=
  stableSort (fun c c' => c.position.le c'.position)
    ((cs.flatMap withNested).filter fun c => (Sequence.resolve? c.function).isSome)

theorem forall₂_sources (settings : Settings) (concepts : List ConceptRow) (cs : List Cluster) :
    List.Forall₂ (fun c row => row? settings concepts c = some row) (sources cs)
      (build settings concepts cs) := by
  refine forall₂_stableSort ?_ ?_
  · intro c row c' row' hrow hrow'
    rw [position_of_row? hrow, position_of_row? hrow']
  · have hself : List.Forall₂ Eq (cs.flatMap withNested) (cs.flatMap withNested) :=
      List.forall₂_same.2 fun _ _ => rfl
    refine (forall₂_filter_filterMap hself ?_).imp ?_
    · rintro c _ rfl
      rw [row?, Option.isSome_map]
    · rintro c row ⟨_, rfl, hrow⟩
      exact hrow

theorem map_position_of_forall₂ {settings : Settings} {concepts : List ConceptRow}
    {cs : List Cluster} {rows : List InferenceRow}
    (h : List.Forall₂ (fun c row => row? settings concepts c = some row) cs rows) :
    rows.map (·.position) = cs.map (·.position) := by
  rw [← List.forall₂_eq_eq_eq, List.forall₂_map_left_iff, List.forall₂_map_right_iff]
  exact h.flip.imp fun _ _ => position_of_row?

/-- The row is that of a further operation and infers its placeholder. -/
def InfersPlaceholder (c : Cluster) (row : InferenceRow) : Prop :=
  c.parent = none ∧ row.infers = placeholder c

/-- Rows that infer placeholders infer different texts. -/
theorem pairwise_infers_ne {lines : List Line} {cs : List Cluster} {rows : List InferenceRow}
    (hlength : cs.length = rows.length) (h : cs.Pairwise (Tree.Sharing lines)) :
    (cs.zip rows).Pairwise fun e e' => InfersPlaceholder e.1 e.2 → InfersPlaceholder e'.1 e'.2 →
      e.2.infers ≠ e'.2.infers := by
  have hzip : (cs.zip rows).Pairwise fun e e' => Tree.Sharing lines e.1 e'.1 := by
    refine List.pairwise_map.1 ?_
    rw [List.map_fst_zip (Nat.le_of_eq hlength)]
    exact h
  refine hzip.imp ?_
  rintro e e' hsharing ⟨-, hinfers⟩ ⟨hnone, hinfers'⟩
  rw [hinfers, hinfers']
  exact hsharing.placeholder_ne hnone

theorem pairwise_sources {lines : List Line} (hfresh : (lines.map (·.position)).Nodup) :
    (sources (Tree.clusters lines)).Pairwise (Tree.Sharing lines) := by
  have hle : ∀ c c' : Cluster,
      c.position.le c'.position = true ↔ c.position.rank ≤ c'.position.rank :=
    fun _ _ => Position.le_iff_rank
  have hbuilt := (Tree.pairwise_sharing hfresh).filter fun c => (Sequence.resolve? c.function).isSome
  have hkey : ∀ c c' : Cluster, c.position.rank = c'.position.rank ↔ c.position = c'.position :=
    fun _ _ => Position.rank_injective.eq_iff
  have hsorted := (sortedStably_stableSort hle ((Tree.clusters lines).flatMap withNested |>.filter
    fun c => (Sequence.resolve? c.function).isSome)).pairwise_iff
      fun c c' => ∃ k, Tree.PromotedAt lines k c ∧ Tree.ClusterOf lines k c'
  simp only [hkey] at hsorted
  exact hsorted.2 hbuilt

end InferenceTable

namespace CompiledPlan

/-- **Rows that share a position.** Where no line asks for a position, each row of the inference table
    comes from a cluster, and two rows share a position only if the first one is that of an operation
    which is not the first below its parent, and the second one is that of the cluster whose parent is
    this same line. So no three rows share a position, each further operation has a placeholder of
    its own, and no two rows of further operations that infer their placeholders infer the same text.
    No count of a text that fits into memory reaches its largest value, which `hsize` says. -/
theorem inferences_at_one_position (settings : Settings) (source : Text)
    (hplain : Physical.Plain source) (hsize : source.length < Numeral.max64) :
    let lines := Line.parse settings.indentWidth source
    let plan := ofText settings source
    ∃ sources : List Cluster,
      sources.Perm ((plan.clusters.flatMap InferenceTable.withNested).filter fun c =>
        (Sequence.resolve? c.function).isSome) ∧
      List.Forall₂ (fun c row => InferenceTable.row? settings plan.concepts c = some row) sources
        plan.inferences ∧
      (sources.Pairwise fun c c' => c.position = c'.position →
        ∃ k, Tree.PromotedAt lines k c ∧ Tree.ClusterOf lines k c') ∧
      (∀ position, (plan.inferences.map (·.position)).count position ≤ 2) ∧
      ((sources.filter (·.parent.isNone)).map InferenceTable.placeholder).Nodup ∧
      (sources.zip plan.inferences).Pairwise fun e e' =>
        InferenceTable.InfersPlaceholder e.1 e.2 → InferenceTable.InfersPlaceholder e'.1 e'.2 →
          e.2.infers ≠ e'.2.infers := by
  intro lines plan
  have hrows : List.Forall₂ (fun c row => InferenceTable.row? settings plan.concepts c = some row)
      (InferenceTable.sources plan.clusters) plan.inferences :=
    InferenceTable.forall₂_sources settings plan.concepts plan.clusters
  have hfresh : (lines.map (·.position)).Nodup := Line.nodup_positions_parse hplain hsize
  have hshared := InferenceTable.pairwise_sources hfresh
  refine ⟨InferenceTable.sources plan.clusters, stableSort_perm _ _, hrows, hshared, ?_,
    Tree.nodup_placeholders hshared, InferenceTable.pairwise_infers_ne hrows.length_eq hshared⟩
  intro position
  rw [InferenceTable.map_position_of_forall₂ hrows]
  exact Tree.count_position_le hshared position

/-- A plan with two further operations, of which the first one shares its position with the cluster
    that it opens. -/
def furtherSteps : Text :=
  ":<: {r}\n    <= ::(f)\n    <= ::(g)\n        <= ::(h)\n    <= ::(k)\n"

theorem inferences_at_one_position_furtherSteps :
    let lines := Line.parse 4 furtherSteps
    let plan := ofText { } furtherSteps
    Physical.Plain furtherSteps ∧ furtherSteps.length < Numeral.max64 ∧
    plan.inferences.map (fun row => (row.position.text, row.infers)) =
      [("1".toList, "{r}".toList), ("1.2".toList, "{_inferred_1.2}".toList),
        ("1.2".toList, "::(g)".toList), ("1.3".toList, "{_inferred_1.3}".toList)] ∧
    ∃ sources : List Cluster,
      List.Forall₂ (fun c row => InferenceTable.row? { } plan.concepts c = some row) sources
        plan.inferences ∧
      (sources.Pairwise fun c c' => c.position = c'.position →
        ∃ k, Tree.PromotedAt lines k c ∧ Tree.ClusterOf lines k c') ∧
      (sources.zip plan.inferences).Pairwise fun e e' =>
        InferenceTable.InfersPlaceholder e.1 e.2 → InferenceTable.InfersPlaceholder e'.1 e'.2 →
          e.2.infers ≠ e'.2.infers := by
  intro lines plan
  have hfacts : Physical.Plain furtherSteps ∧ furtherSteps.length < Numeral.max64 ∧
      plan.inferences.map (fun row => (row.position.text, row.infers)) =
        [("1".toList, "{r}".toList), ("1.2".toList, "{_inferred_1.2}".toList),
          ("1.2".toList, "::(g)".toList), ("1.3".toList, "{_inferred_1.3}".toList)] := by
    decide +kernel
  obtain ⟨hplain, hsize, hrows⟩ := hfacts
  obtain ⟨sources, -, hsources, hshared, -, -, hinfers⟩ :=
    inferences_at_one_position { } furtherSteps hplain hsize
  exact ⟨hplain, hsize, hrows, sources, hsources, hshared, hinfers⟩

end CompiledPlan

end PlanGraph
