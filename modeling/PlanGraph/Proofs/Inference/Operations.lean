import Mathlib.Data.List.Nodup
import Mathlib.Data.List.Perm.Basic
import PlanGraph.Compilation
import PlanGraph.Proofs.List
import PlanGraph.Proofs.Tree.Numbering

set_option autoImplicit false

/-! # Every operation is compiled once

The operations of a plan are found twice. The tree of lines knows them as the lines with the operator
role that have a parent (`Tree.operations`). The inference table meets them as the functions of its
clusters: the first operation below a line belongs to the cluster of that line, each further one
makes a cluster of its own. `Tree.CompiledIn` says which cluster an operation belongs to, and the two
lists agree one by one (`Tree.forall₂_compiledIn`). A cluster gives either a row or a report that it
is dropped, so all operations are accounted for, each once (`operations_accounted`). -/

namespace PlanGraph

namespace Tree

/-! ## Operations by index -/

/-- The lines at some indices. -/
def linesAt (lines : List Line) (indices : List Nat) : List Line := indices.filterMap (lines[·]?)

/-- Whether the line at an index is an operation. -/
def isOperation (lines : List Line) (i : Nat) : Bool := lines[i]?.any (·.hasRole .operator)

/-- The operations below the line at an index, in order. -/
def operationsBelow (lines : List Line) (p : Nat) : List Nat :=
  (childrenOf lines p).filter (isOperation lines)

/-- The operations that stand below some line, in order. -/
def operations (lines : List Line) : List Nat :=
  (List.range lines.length).filter fun i =>
    isOperation lines i && (children lines).any (·.contains i)

theorem linesAt_cons {lines : List Line} {i : Nat} {l : Line} (h : lines[i]? = some l)
    (is : List Nat) : linesAt lines (i :: is) = l :: linesAt lines is := by
  rw [linesAt, List.filterMap_cons_some h, linesAt]

theorem filter_linesAt (lines : List Line) (holds : Line → Bool) (is : List Nat) :
    (linesAt lines is).filter holds = linesAt lines (is.filter fun i => lines[i]?.any holds) := by
  rw [linesAt, linesAt, List.filter_filterMap, List.filterMap_filter]
  refine List.filterMap_congr ?_
  intro i _
  cases lines[i]? with
  | none => rfl
  | some l => cases hl : holds l <;> simp [hl]

theorem filter_operator_childrenOf (lines : List Line) (p : Nat) :
    (linesAt lines (childrenOf lines p)).filter (·.hasRole .operator) =
      linesAt lines (operationsBelow lines p) :=
  filter_linesAt lines _ _

theorem forall₂_linesAt {R : Nat → Line → Prop} {lines : List Line} {is : List Nat}
    (h : ∀ i ∈ is, ∃ l, lines[i]? = some l ∧ R i l) : List.Forall₂ R is (linesAt lines is) := by
  induction is with
  | nil => exact List.Forall₂.nil
  | cons i is ih =>
      rw [List.forall_mem_cons] at h
      obtain ⟨⟨l, hl, hR⟩, hrest⟩ := h
      rw [linesAt_cons hl]
      exact List.Forall₂.cons hR (ih hrest)

theorem exists_of_isOperation {lines : List Line} {i : Nat} (h : isOperation lines i = true) :
    ∃ l, lines[i]? = some l ∧ l.hasRole .operator = true := by
  rw [isOperation, Option.any_eq_true] at h
  obtain ⟨l, hl, hrole⟩ := h
  exact ⟨l, hl, hrole⟩

theorem any_children_iff {lines : List Line} {i : Nat} :
    (children lines).any (·.contains i) = true ↔ ∃ p, i ∈ childrenOf lines p := by
  simp only [List.any_eq_true, List.contains_iff_mem]
  constructor
  · rintro ⟨kids, hkids, hi⟩
    obtain ⟨p, hp⟩ := List.getElem?_of_mem hkids
    exact ⟨p, by rw [childrenOf, hp]; exact hi⟩
  · rintro ⟨p, hi⟩
    rw [childrenOf] at hi
    cases hp : (children lines)[p]? with
    | none => simp [hp] at hi
    | some kids => exact ⟨kids, List.mem_of_getElem? hp, by simpa [hp] using hi⟩

theorem nodup_childrenOf (lines : List Line) (p : Nat) : (childrenOf lines p).Nodup := by
  by_cases hp : p < lines.length
  · rw [childrenOf_eq_filter lines hp]
    exact List.nodup_range.filter _
  · rw [childrenOf, List.getElem?_eq_none (by simpa [children] using hp)]
    exact List.nodup_nil

/-- Gone through parent by parent, the operations are all met, and none is met twice. -/
theorem flatMap_operationsBelow_perm (lines : List Line) :
    ((List.range lines.length).flatMap (operationsBelow lines)).Perm (operations lines) := by
  have hnodup : ((List.range lines.length).flatMap (operationsBelow lines)).Nodup := by
    rw [List.nodup_flatMap]
    constructor
    · intro p _
      exact (nodup_childrenOf lines p).filter _
    · refine List.nodup_range.imp ?_
      -- a line has one parent only
      intro p q hpq i hi hi'
      have hp := mem_childrenOf_iff.1 (List.mem_filter.1 hi).1
      have hq := mem_childrenOf_iff.1 (List.mem_filter.1 hi').1
      rw [hp] at hq
      exact hpq (by simpa using hq)
  refine (List.perm_ext_iff_of_nodup hnodup (List.nodup_range.filter _)).2 ?_
  intro i
  simp only [operationsBelow, List.mem_flatMap, List.mem_filter, List.mem_range,
    Bool.and_eq_true, any_children_iff]
  constructor
  · rintro ⟨p, -, hi, hop⟩
    obtain ⟨l, hl, -⟩ := exists_of_isOperation hop
    exact ⟨(List.getElem?_eq_some_iff.1 hl).1, hop, p, hi⟩
  · rintro ⟨-, hop, p, hi⟩
    exact ⟨p, parent_lt_of_parents (mem_childrenOf_iff.1 hi), hi, hop⟩

/-! ## The cluster of an operation -/

/-- The cluster that an operation is compiled in: with its parent and the other children if it is the
    first operation there, else by itself. -/
inductive CompiledIn (lines : List Line) (i : Nat) : Cluster → Prop where
  | first {p : Nat} {parent : Line} {c : Cluster} (hparent : lines[p]? = some parent)
      (hfirst : (operationsBelow lines p).head? = some i)
      (hcluster : Cluster.ofChildren? parent (linesAt lines (childrenOf lines p)) = some c) :
      CompiledIn lines i c
  | further {p : Nat} {operation : Line} (hoperation : lines[i]? = some operation)
      (hfurther : i ∈ (operationsBelow lines p).tail) : CompiledIn lines i (.promoted operation)

theorem function_of_ofChildren? {parent : Line} {kids : List Line} {c : Cluster}
    (h : Cluster.ofChildren? parent kids = some c) :
    (kids.filter (·.hasRole .operator)).head? = some c.function := by
  obtain ⟨function, hfind, rfl⟩ := Cluster.ofChildren?_eq_some_iff.1 h
  rw [List.head?_filter]
  exact hfind

/-- Behind the first operation, all others are further operations of the cluster. -/
theorem nested_of_ofChildren? {parent : Line} {kids : List Line} {c : Cluster}
    (h : Cluster.ofChildren? parent kids = some c) :
    c.nested = (kids.filter (·.hasRole .operator)).tail := by
  obtain ⟨function, -, rfl⟩ := Cluster.ofChildren?_eq_some_iff.1 h
  have hboth : ∀ l : Line, (l.hasRole .operator && !l.hasRole .value) = l.hasRole .operator := by
    intro l
    cases hl : l.hasRole .operator with
    | false => rfl
    | true =>
        have hrole : l.role = some .operator := by simpa [Line.hasRole] using hl
        simp [Line.hasRole, hrole]
  rw [Cluster.nested, filter_eraseP_self, List.filter_filter]
  simp only [hboth]

theorem contexts_of_ofChildren? {parent : Line} {kids : List Line} {c : Cluster}
    (h : Cluster.ofChildren? parent kids = some c) :
    c.contexts = kids.filter fun l => !l.hasRole .operator && !l.hasRole .value := by
  obtain ⟨function, -, rfl⟩ := Cluster.ofChildren?_eq_some_iff.1 h
  rw [Cluster.contexts, filter_not_eraseP, List.filter_filter]

theorem CompiledIn.function {lines : List Line} {i : Nat} {c : Cluster} (h : CompiledIn lines i c) :
    lines[i]? = some c.function := by
  cases h with
  | @first p parent c hparent hfirst hcluster =>
      have hfunction := function_of_ofChildren? hcluster
      have hi : isOperation lines i = true :=
        (List.mem_filter.1 (List.mem_of_mem_head? hfirst)).2
      obtain ⟨l, hl, -⟩ := exists_of_isOperation hi
      cases hops : operationsBelow lines p with
      | nil => simp [hops] at hfirst
      | cons j js =>
          obtain rfl : j = i := by simpa [hops] using hfirst
          rw [filter_operator_childrenOf, hops, linesAt_cons hl] at hfunction
          rw [hl]
          simpa using hfunction
  | further hoperation _ => exact hoperation

/-- The operations below one line and the clusters that come of them. -/
theorem forall₂_compiledIn_family {lines : List Line} {p : Nat} {parent : Line}
    (hparent : lines[p]? = some parent) :
    List.Forall₂ (CompiledIn lines) (operationsBelow lines p)
      ((Cluster.ofChildren? parent (linesAt lines (childrenOf lines p))).toList.flatMap
        InferenceTable.withNested) := by
  have hkids := filter_operator_childrenOf lines p
  have hops : ∀ i ∈ operationsBelow lines p, ∃ l, lines[i]? = some l ∧ l.hasRole .operator = true :=
    fun i hi => exists_of_isOperation (List.mem_filter.1 hi).2
  cases hbelow : operationsBelow lines p with
  | nil =>
      rw [hbelow] at hkids
      have hnone : Cluster.ofChildren? parent (linesAt lines (childrenOf lines p)) = none := by
        rw [Cluster.ofChildren?, ← List.head?_filter, hkids]
        rfl
      rw [hnone]
      exact List.Forall₂.nil
  | cons i is =>
      obtain ⟨operation, hoperation, -⟩ := hops i (by rw [hbelow]; exact List.mem_cons_self)
      rw [hbelow, linesAt_cons hoperation] at hkids
      obtain ⟨c, hc⟩ : ∃ c,
          Cluster.ofChildren? parent (linesAt lines (childrenOf lines p)) = some c := by
        rw [Cluster.ofChildren?, ← List.head?_filter, hkids]
        exact ⟨_, rfl⟩
      have hnested : c.nested = linesAt lines is := by rw [nested_of_ofChildren? hc, hkids]; rfl
      rw [hc, Option.toList_some, List.flatMap_singleton, InferenceTable.withNested, hnested]
      refine List.Forall₂.cons (.first hparent (by rw [hbelow]; rfl) hc) ?_
      rw [List.forall₂_map_right_iff]
      refine forall₂_linesAt ?_
      intro j hj
      obtain ⟨l, hl, -⟩ := hops j (by rw [hbelow]; exact List.mem_cons_of_mem _ hj)
      exact ⟨l, hl, .further hl (by rw [hbelow]; exact hj)⟩

theorem families_eq (lines : List Line) :
    families lines =
      lines.zipIdx.map fun (parent, p) => (parent, linesAt lines (childrenOf lines p)) := by
  have hchildren : (children lines).map (linesAt lines) =
      (List.range' 0 lines.length).map fun p => linesAt lines (childrenOf lines p) := by
    rw [← List.range_eq_range', children, List.map_map]
    refine List.map_congr_left fun p hp => ?_
    simp [childrenOf, children, List.mem_range.1 hp]
  show lines.zip ((children lines).map (linesAt lines)) = _
  rw [hchildren, List.zip_map_right, List.zipIdx_eq_zip_range']
  rfl

/-- The operations of a plan, parent by parent, and the clusters that they are compiled in. -/
theorem forall₂_compiledIn (lines : List Line) :
    List.Forall₂ (CompiledIn lines)
      ((List.range lines.length).flatMap (operationsBelow lines))
      ((clusters lines).flatMap InferenceTable.withNested) := by
  have hindices : (List.range lines.length).flatMap (operationsBelow lines) =
      lines.zipIdx.flatMap fun (_, p) => operationsBelow lines p := by
    rw [List.range_eq_range', ← List.zipIdx_map_snd, List.flatMap_map]
  have hclusters : (clusters lines).flatMap InferenceTable.withNested =
      lines.zipIdx.flatMap fun (parent, p) =>
        (Cluster.ofChildren? parent (linesAt lines (childrenOf lines p))).toList.flatMap
          InferenceTable.withNested := by
    rw [clusters, families_eq, List.filterMap_map, List.filterMap_eq_flatMap_toList,
      List.flatMap_assoc]
    rfl
  rw [hindices, hclusters]
  refine forall₂_flatMap ?_
  rintro ⟨parent, p⟩ hentry
  exact forall₂_compiledIn_family (List.mk_mem_zipIdx_iff_getElem?.1 hentry)

theorem operationsBelow_unique {lines : List Line} {i p q : Nat} (hp : i ∈ operationsBelow lines p)
    (hq : i ∈ operationsBelow lines q) : p = q := by
  have hparent := mem_childrenOf_iff.1 (List.mem_filter.1 hp).1
  rw [mem_childrenOf_iff.1 (List.mem_filter.1 hq).1] at hparent
  simpa using hparent.symm

/-- An operation is the first below its parent or a further one, but not both. -/
theorem not_head_of_mem_tail {lines : List Line} {i p q : Nat}
    (hfurther : i ∈ (operationsBelow lines p).tail) :
    (operationsBelow lines q).head? ≠ some i := by
  intro hfirst
  obtain rfl := operationsBelow_unique (List.mem_of_mem_tail hfurther) (List.mem_of_mem_head? hfirst)
  have hnodup : (operationsBelow lines p).Nodup := (nodup_childrenOf lines p).filter _
  cases hops : operationsBelow lines p with
  | nil => simp [hops] at hfurther
  | cons j js =>
      rw [hops] at hfirst hfurther hnodup
      obtain rfl : j = i := by simpa using hfirst
      exact (List.nodup_cons.1 hnodup).1 hfurther

/-- The first operation below a line is compiled with that line and all its children. -/
theorem CompiledIn.ofChildren? {lines : List Line} {i p : Nat} {c : Cluster} {parent : Line}
    (h : CompiledIn lines i c) (hparent : lines[p]? = some parent)
    (hfirst : (operationsBelow lines p).head? = some i) :
    Cluster.ofChildren? parent (linesAt lines (childrenOf lines p)) = some c := by
  cases h with
  | @first q parent' c hparent' hfirst' hcluster =>
      obtain rfl : q = p :=
        operationsBelow_unique (List.mem_of_mem_head? hfirst') (List.mem_of_mem_head? hfirst)
      obtain rfl : parent' = parent := Option.some.inj (hparent'.symm.trans hparent)
      exact hcluster
  | further _ hfurther => exact absurd hfirst (not_head_of_mem_tail hfurther)

theorem CompiledIn.promoted {lines : List Line} {i p : Nat} {c : Cluster} {operation : Line}
    (h : CompiledIn lines i c) (hoperation : lines[i]? = some operation)
    (hfurther : i ∈ (operationsBelow lines p).tail) : c = .promoted operation := by
  cases h with
  | first _ hfirst _ => exact absurd hfirst (not_head_of_mem_tail hfurther)
  | further hoperation' _ =>
      rw [hoperation, Option.some.injEq] at hoperation'
      rw [hoperation']

end Tree

/-! ## Accounting -/

namespace InferenceTable

/-- Whether the sequence of the line at an index can be told. -/
def isTold (lines : List Line) (i : Nat) : Bool :=
  lines[i]?.any fun l => (Sequence.resolve? l).isSome

/-- The row of an operation: that of its cluster. For the first operation below a line it stands at
    the position of that line, infers it, and uses its other children: those with the value role as
    values, and those that are no operations either as contexts. For a further operation below its
    parent it stands at its own position and uses nothing. -/
structure IsRowOf (settings : Settings) (concepts : List ConceptRow) (lines : List Line) (i : Nat)
    (row : InferenceRow) : Prop where
  cluster : ∃ c, Tree.CompiledIn lines i c ∧ row? settings concepts c = some row
  first : ∀ p parent, lines[p]? = some parent → (Tree.operationsBelow lines p).head? = some i →
    let kids := Tree.linesAt lines (Tree.childrenOf lines p)
    row.position = parent.position ∧ row.infers = parent.reference ∧
    row.values = (kids.filter (·.hasRole .value)).map (·.reference) ∧
    row.contexts =
      (kids.filter fun l => !l.hasRole .operator && !l.hasRole .value).map (·.reference)
  further : ∀ p operation, lines[i]? = some operation → i ∈ (Tree.operationsBelow lines p).tail →
    row.position = operation.position ∧ row.values = [] ∧ row.contexts = []

/-- The report that an operation is dropped, with the position of its cluster. -/
def IsDropOf (settings : Settings) (lines : List Line) (i : Nat) (event : Event) : Prop :=
  ∃ c, Tree.CompiledIn lines i c ∧
    event = .unresolved settings.unresolved c.position c.function.stripped

/-- The report that a cluster is dropped, if it is. -/
def drop? (settings : Settings) (c : Cluster) : Option Event :=
  if (Sequence.resolve? c.function).isSome then none
  else some (.unresolved settings.unresolved c.position c.function.stripped)

theorem isTold_of_compiledIn {lines : List Line} {i : Nat} {c : Cluster}
    (h : Tree.CompiledIn lines i c) : isTold lines i = (Sequence.resolve? c.function).isSome := by
  simp [isTold, h.function]

theorem isRowOf_of_row? {settings : Settings} {concepts : List ConceptRow} {lines : List Line}
    {i : Nat} {c : Cluster} {row : InferenceRow} (hc : Tree.CompiledIn lines i c)
    (hrow : row? settings concepts c = some row) : IsRowOf settings concepts lines i row where
  cluster := ⟨c, hc, hrow⟩
  first := by
    intro p parent hparent hfirst kids
    have hcluster := hc.ofChildren? hparent hfirst
    have hcontexts := Tree.contexts_of_ofChildren? hcluster
    obtain ⟨told, -, rfl⟩ := Option.map_eq_some_iff.1 hrow
    obtain ⟨function, -, rfl⟩ := Cluster.ofChildren?_eq_some_iff.1 hcluster
    exact ⟨rfl, rfl, rfl, congrArg (List.map Line.reference) hcontexts⟩
  further := by
    intro p operation hoperation hfurther
    obtain ⟨told, -, rfl⟩ := Option.map_eq_some_iff.1 hrow
    rw [hc.promoted hoperation hfurther]
    exact ⟨rfl, rfl, rfl⟩

/-- Whether an event reports that an inference is dropped. -/
def reportsDrop (e : Event) : Bool :=
  e.message == ("dropping cluster with unresolved sequence type" : Text)

theorem reportsDrop_eq (e : Event) :
    reportsDrop e = match e with
      | .unresolved _ _ _ => true
      | _ => false := by
  cases e <;> rfl

theorem filter_reportsDrop_clusterEvents (settings : Settings) (concepts : List ConceptRow)
    (c : Cluster) :
    (clusterEvents settings concepts c).filter reportsDrop = (drop? settings c).toList := by
  have htags : ((Sequence.unknownTag? c.function).toList.map
      (Event.unknownTag c.function.position)).filter reportsDrop = [] := by
    cases Sequence.unknownTag? c.function <;> rfl
  have hinferred : (inferredEvents concepts c).filter reportsDrop = [] := by
    rw [List.filter_eq_nil_iff]
    intro e he
    rw [inferredEvents] at he
    split at he <;> simp_all [reportsDrop_eq]
  have hreading : ∀ sequence, (readingEvents sequence c).filter reportsDrop = [] := by
    intro sequence
    rw [List.filter_eq_nil_iff]
    intro e he
    cases sequence <;> simp only [readingEvents] at he <;> grind [reportsDrop_eq]
  rw [clusterEvents, List.filter_append, htags, List.nil_append, drop?]
  cases hsequence : Sequence.resolve? c.function with
  | none => rfl
  | some told =>
      show (Event.resolved _ _ _ :: (inferredEvents concepts c ++ _)).filter reportsDrop = []
      rw [List.filter_cons_of_neg (by simp [reportsDrop_eq]), List.filter_append, hinferred,
        hreading, List.append_nil]

end InferenceTable

namespace CompiledPlan

open InferenceTable in
/-- Only the inference table reports what is dropped, and it does so cluster by cluster. -/
theorem filter_reportsDrop_events (settings : Settings) (source : Text) :
    (events settings source).filter reportsDrop =
      ((ofText settings source).clusters.flatMap withNested).filterMap (drop? settings) := by
  have hlines : (lineEvents settings source).filter reportsDrop = [] := by
    rw [List.filter_eq_nil_iff]
    intro e he
    simp only [lineEvents, List.mem_append, List.mem_map] at he
    obtain ⟨-, -, rfl⟩ | ⟨-, -, rfl⟩ := he <;> simp [reportsDrop_eq]
  have hfunctions : ((Tree.withoutFunction (Line.parse settings.indentWidth source)).map
      fun l => Event.noFunction l.position).filter reportsDrop = [] := by
    simp [List.filter_eq_nil_iff, reportsDrop_eq]
  have hconcepts : ∀ clusters, (ConceptTable.events clusters).filter reportsDrop = [] := by
    intro clusters
    rw [List.filter_eq_nil_iff]
    intro e he
    simp only [ConceptTable.events, List.mem_append, List.mem_map, List.mem_flatMap] at he
    obtain ⟨-, -, rfl⟩ | ⟨m, -, he⟩ := he
    · simp [reportsDrop_eq]
    · grind [reportsDrop_eq, ConceptTable.rowEvents]
  simp only [events, List.filter_append, hlines, hfunctions, hconcepts, List.nil_append,
    List.append_nil, InferenceTable.events, List.filter_flatMap, filter_reportsDrop_clusterEvents]
  rw [List.filterMap_eq_flatMap_toList]
  simp [reportsDrop_eq]

/-- Each operation below a line is accounted for once: by a row of the inference table if its
    sequence can be told, else by a report that it is dropped. No other row and no other such report
    is made. -/
theorem operations_accounted (settings : Settings) (source : Text) :
    let lines := Line.parse settings.indentWidth source
    let plan := ofText settings source
    (∃ is : List Nat, is.Perm ((Tree.operations lines).filter (InferenceTable.isTold lines)) ∧
      List.Forall₂ (InferenceTable.IsRowOf settings plan.concepts lines) is plan.inferences) ∧
    (∃ is : List Nat, is.Perm ((Tree.operations lines).filter (!InferenceTable.isTold lines ·)) ∧
      List.Forall₂ (InferenceTable.IsDropOf settings lines) is
        ((events settings source).filter fun e =>
          e.message == ("dropping cluster with unresolved sequence type" : Text))) := by
  intro lines plan
  have hstep := Tree.forall₂_compiledIn lines
  have hall := Tree.flatMap_operationsBelow_perm lines
  constructor
  · have hrows : List.Forall₂ (InferenceTable.IsRowOf settings plan.concepts lines)
        (((List.range lines.length).flatMap (Tree.operationsBelow lines)).filter
          (InferenceTable.isTold lines))
        (InferenceTable.rows settings plan.concepts plan.clusters) := by
      refine (forall₂_filter_filterMap hstep ?_).imp ?_
      · intro i c hc
        rw [InferenceTable.isTold_of_compiledIn hc, InferenceTable.row?, Option.isSome_map]
      · rintro i row ⟨c, hc, hrow⟩
        exact InferenceTable.isRowOf_of_row? hc hrow
    obtain ⟨is, his, hperm⟩ := List.perm_comp_forall₂
      (stableSort_perm (fun a b => a.position.le b.position) _) hrows.flip
    exact ⟨is, hperm.trans (hall.filter _), his.flip⟩
  · refine ⟨_, hall.filter _, ?_⟩
    have hdrops : (events settings source).filter InferenceTable.reportsDrop =
        ((Tree.clusters lines).flatMap InferenceTable.withNested).filterMap
          (InferenceTable.drop? settings) := filter_reportsDrop_events settings source
    show List.Forall₂ _ _ ((events settings source).filter InferenceTable.reportsDrop)
    rw [hdrops]
    refine (forall₂_filter_filterMap hstep ?_).imp ?_
    · intro i c hc
      rw [InferenceTable.isTold_of_compiledIn hc, InferenceTable.drop?]
      cases (Sequence.resolve? c.function).isSome <;> rfl
    · rintro i event ⟨c, hc, hevent⟩
      refine ⟨c, hc, ?_⟩
      rw [InferenceTable.drop?] at hevent
      split at hevent
      · cases hevent
      · exact (Option.some.inj hevent).symm

end CompiledPlan

end PlanGraph
