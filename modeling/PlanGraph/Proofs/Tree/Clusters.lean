import PlanGraph.Proofs.Inference.Operations

set_option autoImplicit false

/-! # Children by depth, and their groups

The parent of a line is the nearest line above it that is less deep. The ancestry knows more than the
lines that are open: for every depth it knows the nearest line that is less deep (`Nearest`). One line
keeps this (`Ancestry.Finds.push`), hence every line gets the parent that the depths give it
(`mem_childrenOf_iff_isBelow`). A cluster then holds each child of its parent once: the first operation
as its function, the values, and all the rest (`ClusterOf`). -/

namespace PlanGraph

namespace Tree

/-! ## The nearest line that is less deep -/

/-- Behind lines of the given depths, the nearest line that is less deep than `depth` has index `i`. -/
def Nearest (depths : List Nat) (depth i : Nat) : Prop :=
  ∃ e, depths[i]? = some e ∧ e < depth ∧ ∀ k f, i < k → depths[k]? = some f → depth ≤ f

theorem getElem?_concat_iff {depths : List Nat} {d e k : Nat} :
    (depths ++ [d])[k]? = some e ↔ depths[k]? = some e ∨ k = depths.length ∧ d = e := by
  rcases Nat.lt_trichotomy k depths.length with hlt | rfl | hgt
  · rw [List.getElem?_append_left hlt]
    simp [Nat.ne_of_lt hlt]
  · simp
  · rw [List.getElem?_eq_none (by simp; omega), List.getElem?_eq_none (Nat.le_of_lt hgt)]
    simp [Nat.ne_of_gt hgt]

/-- A line that is as deep is passed over. -/
theorem nearest_concat_of_le {depths : List Nat} {d e : Nat} (h : e ≤ d) (i : Nat) :
    Nearest (depths ++ [d]) e i ↔ Nearest depths e i := by
  simp only [Nearest, getElem?_concat_iff]
  constructor
  · rintro ⟨f, hf | ⟨-, rfl⟩, hlt, hbehind⟩
    · exact ⟨f, hf, hlt, fun k g hk hg => hbehind k g hk (Or.inl hg)⟩
    · omega
  · rintro ⟨f, hf, hlt, hbehind⟩
    refine ⟨f, Or.inl hf, hlt, ?_⟩
    rintro k g hk (hg | ⟨-, rfl⟩)
    · exact hbehind k g hk hg
    · exact h

/-- A line that is less deep is the nearest one, and hides all others. -/
theorem nearest_concat_of_gt {depths : List Nat} {d e : Nat} (h : d < e) (i : Nat) :
    Nearest (depths ++ [d]) e i ↔ i = depths.length := by
  simp only [Nearest, getElem?_concat_iff]
  constructor
  · rintro ⟨f, hf | ⟨rfl, -⟩, hlt, hbehind⟩
    · have hi : i < depths.length := (List.getElem?_eq_some_iff.1 hf).1
      have hle := hbehind depths.length d hi (Or.inr ⟨rfl, rfl⟩)
      omega
    · rfl
  · rintro rfl
    refine ⟨d, Or.inr ⟨rfl, rfl⟩, h, ?_⟩
    rintro k f hk (hf | ⟨rfl, -⟩)
    · have hlt : k < depths.length := (List.getElem?_eq_some_iff.1 hf).1
      omega
    · omega

/-- The ancestry behind some lines knows, for every depth, the nearest line that is less deep. -/
def Ancestry.Finds (a : Ancestry) (depths : List Nat) : Prop :=
  ∀ depth i, a.parent depth = some i ↔ Nearest depths depth i

theorem Ancestry.finds_nil : Ancestry.Finds [] [] := by
  intro depth i
  simp [Ancestry.parent, Ancestry.above, Nearest]

/-- One more line keeps it so. -/
theorem Ancestry.Finds.push {a : Ancestry} {depths : List Nat} (h : a.Finds depths) (d : Nat) :
    Ancestry.Finds ((depths.length, d) :: a.above d) (depths ++ [d]) := by
  intro e i
  rcases Nat.lt_or_ge d e with hlt | hle
  · rw [a.parent_push_of_gt _ hlt, nearest_concat_of_gt hlt, Option.some.injEq, eq_comm]
  · rw [a.parent_push_of_le _ hle, nearest_concat_of_le hle]
    exact h e i

theorem Ancestry.Finds.parentsFrom {a : Ancestry} {seen : List Nat} (h : a.Finds seen)
    (depths : List Nat) (j i : Nat) :
    (parentsFrom a seen.length depths)[j]? = some (some i) ↔
      ∃ d, depths[j]? = some d ∧ Nearest (seen ++ depths.take j) d i := by
  -- on the lines to come; the lines behind the ancestry grow by one in each step
  induction depths generalizing a seen j with
  | nil => simp [Tree.parentsFrom]
  | cons d ds ih =>
      rw [Tree.parentsFrom]
      cases j with
      | zero =>
          have hd := h d i
          rw [Ancestry.parent] at hd
          simp [hd]
      | succ j =>
          have hnext := ih (h.push d) j
          rw [List.length_append, List.length_singleton] at hnext
          rw [List.getElem?_cons_succ, hnext]
          simp

theorem parents_iff {depths : List Nat} {j i : Nat} :
    (parents depths)[j]? = some (some i) ↔
      ∃ d, depths[j]? = some d ∧ Nearest (depths.take j) d i := by
  have h := Ancestry.finds_nil.parentsFrom depths j i
  rwa [List.nil_append] at h

/-! ## Children by depth -/

/-- The line at index `j` is deeper than the one at `i` above it, and no line between the two is less
    deep than the line at `j`. -/
def IsBelow (lines : List Line) (i j : Nat) : Prop :=
  ∃ parent child, lines[i]? = some parent ∧ lines[j]? = some child ∧ i < j ∧
    parent.depth < child.depth ∧
    ∀ k between, i < k → k < j → lines[k]? = some between → child.depth ≤ between.depth

theorem mem_childrenOf_iff_isBelow {lines : List Line} {i j : Nat} :
    j ∈ childrenOf lines i ↔ IsBelow lines i j := by
  rw [mem_childrenOf_iff, parents_iff]
  simp only [Nearest, List.getElem?_take, List.getElem?_map]
  constructor
  · rintro ⟨d, hd, e, he, hlt, hbehind⟩
    obtain ⟨child, hchild, rfl⟩ := Option.map_eq_some_iff.1 hd
    split at he
    · next hij =>
        obtain ⟨parent, hparent, rfl⟩ := Option.map_eq_some_iff.1 he
        refine ⟨parent, child, hparent, hchild, hij, hlt, ?_⟩
        intro k between hik hkj hbetween
        exact hbehind k between.depth hik (by rw [if_pos hkj, hbetween]; rfl)
    · cases he
  · rintro ⟨parent, child, hparent, hchild, hij, hlt, hbetween⟩
    refine ⟨child.depth, by rw [hchild]; rfl, parent.depth, by rw [if_pos hij, hparent]; rfl, hlt, ?_⟩
    intro k f hik hf
    split at hf
    · next hkj =>
        obtain ⟨between, hk, rfl⟩ := Option.map_eq_some_iff.1 hf
        exact hbetween k between hik hkj hk
    · cases hf

theorem lt_of_mem_childrenOf {lines : List Line} {i j : Nat} (h : j ∈ childrenOf lines i) : i < j := by
  obtain ⟨-, -, -, -, hij, -⟩ := mem_childrenOf_iff_isBelow.1 h
  exact hij

/-- A child has one parent. -/
theorem parent_unique {lines : List Line} {i i' j : Nat} (h : j ∈ childrenOf lines i)
    (h' : j ∈ childrenOf lines i') : i = i' := by
  rw [mem_childrenOf_iff] at h h'
  rw [h] at h'
  simpa using h'

theorem ascending_childrenOf (lines : List Line) (i : Nat) :
    (childrenOf lines i).Pairwise (· < ·) := by
  by_cases hi : i < lines.length
  · rw [childrenOf_eq_filter lines hi]
    exact List.pairwise_lt_range.filter _
  · rw [childrenOf, List.getElem?_eq_none (by simpa [children] using hi)]
    exact List.Pairwise.nil

/-! ## The groups of a cluster -/

/-- Whether the line at an index is a value. -/
def isValue (lines : List Line) (i : Nat) : Bool := lines[i]?.any (·.hasRole .value)

theorem isValue_of_isOperation {lines : List Line} {i : Nat} (h : isOperation lines i = true) :
    isValue lines i = false := by
  obtain ⟨l, hl, hrole⟩ := exists_of_isOperation h
  have hoperator : l.role = some .operator := by simpa [Line.hasRole] using hrole
  simp [isValue, hl, Line.hasRole, hoperator]

/-- The lines at some indices, one by one. -/
abbrev LinesAt (lines : List Line) : List Nat → List Line → Prop :=
  List.Forall₂ fun j l => lines[j]? = some l

/-- The cluster of the line at index `p`. The first operation below the line is its function; its
    values are the values below the line, and its other lines are all that remains. -/
structure ClusterOf (lines : List Line) (p : Nat) (c : Cluster) : Prop where
  parent : ∃ l, lines[p]? = some l ∧ c.parent = some l ∧ c.position = l.position
  groups : ∃ before f behind, childrenOf lines p = before ++ f :: behind ∧
    (∀ j ∈ before, isOperation lines j = false) ∧ isOperation lines f = true ∧
    lines[f]? = some c.function ∧
    LinesAt lines ((childrenOf lines p).filter (isValue lines)) c.values ∧
    LinesAt lines ((before ++ behind).filter (!isValue lines ·)) c.others ∧
    (f :: ((childrenOf lines p).filter (isValue lines) ++
      (before ++ behind).filter (!isValue lines ·))).Perm (childrenOf lines p)

theorem exists_of_mem_childrenOf {lines : List Line} {p i : Nat} (h : i ∈ childrenOf lines p) :
    ∃ l, lines[i]? = some l := by
  obtain ⟨-, l, -, hl, -⟩ := mem_childrenOf_iff_isBelow.1 h
  exact ⟨l, hl⟩

theorem linesAt_linesAt {lines : List Line} {is : List Nat} (h : ∀ i ∈ is, ∃ l, lines[i]? = some l) :
    LinesAt lines is (linesAt lines is) := by
  refine forall₂_linesAt ?_
  intro i hi
  obtain ⟨l, hl⟩ := h i hi
  exact ⟨l, hl, hl⟩

theorem eraseP_linesAt (lines : List Line) (is : List Nat) :
    (linesAt lines is).eraseP (·.hasRole .operator) =
      linesAt lines (is.eraseP (isOperation lines)) := by
  rw [linesAt, List.eraseP_filterMap, linesAt]
  congr 2

/-- Without the values and the first operation, all other lines remain. -/
theorem eraseP_filter_linesAt {lines : List Line} {before behind : List Nat} {f : Nat}
    (his : ∀ i ∈ before ++ f :: behind, ∃ l, lines[i]? = some l)
    (hbefore : ∀ j ∈ before, isOperation lines j = false) (hf : isOperation lines f = true) :
    ((linesAt lines (before ++ f :: behind)).filter (!·.hasRole .value)).eraseP
        (·.hasRole .operator) =
      linesAt lines ((before ++ behind).filter (!isValue lines ·)) := by
  have hvalues : (before ++ f :: behind).filter (fun i => lines[i]?.any (!·.hasRole .value)) =
      (before ++ f :: behind).filter (!isValue lines ·) := by
    refine List.filter_congr ?_
    intro i hi
    obtain ⟨l, hl⟩ := his i hi
    simp [isValue, hl]
  have hnone : ∀ j ∈ before.filter (!isValue lines ·), ¬ isOperation lines j = true := by
    intro j hj
    rw [hbefore j (List.mem_of_mem_filter hj)]
    exact Bool.false_ne_true
  rw [filter_linesAt, hvalues, eraseP_linesAt, List.filter_append,
    List.filter_cons_of_pos (by simp [isValue_of_isOperation hf]), List.eraseP_append_right _ hnone,
    List.eraseP_cons_of_pos hf, List.filter_append]

theorem groups_perm {lines : List Line} {before behind : List Nat} {f : Nat}
    (hf : isOperation lines f = true) :
    (f :: ((before ++ f :: behind).filter (isValue lines) ++
      (before ++ behind).filter (!isValue lines ·))).Perm (before ++ f :: behind) := by
  have hvalues : (before ++ f :: behind).filter (isValue lines) =
      (before ++ behind).filter (isValue lines) := by
    rw [List.filter_append, List.filter_cons_of_neg (by simp [isValue_of_isOperation hf]),
      List.filter_append]
  rw [hvalues]
  exact ((List.filter_append_perm _ _).cons f).trans List.perm_middle.symm

theorem clusterOf_of_ofChildren? {lines : List Line} {p : Nat} {parent : Line} {c : Cluster}
    (hparent : lines[p]? = some parent)
    (h : Cluster.ofChildren? parent (linesAt lines (childrenOf lines p)) = some c) :
    ClusterOf lines p c := by
  obtain ⟨function, hfind, rfl⟩ := Cluster.ofChildren?_eq_some_iff.1 h
  rw [linesAt, List.find?_filterMap] at hfind
  obtain ⟨f, hf, hfunction⟩ := Option.bind_eq_some_iff.1 hfind
  obtain ⟨hop, before, behind, hsplit, hbefore⟩ := List.find?_eq_some_iff_append.1 hf
  have hbefore : ∀ j ∈ before, isOperation lines j = false := by
    intro j hj
    simpa [isOperation] using hbefore j hj
  have hkids : ∀ i ∈ before ++ f :: behind, ∃ l, lines[i]? = some l := by
    intro i hi
    rw [← hsplit] at hi
    exact exists_of_mem_childrenOf hi
  refine ⟨⟨parent, hparent, rfl, rfl⟩, before, f, behind, hsplit, hbefore, hop, hfunction, ?_⟩
  rw [hsplit]
  refine ⟨?_, ?_, groups_perm hop⟩
  · show LinesAt lines _ ((linesAt lines (before ++ f :: behind)).filter (·.hasRole .value))
    rw [filter_linesAt]
    exact linesAt_linesAt fun i hi => hkids i (List.mem_of_mem_filter hi)
  · show LinesAt lines _ (((linesAt lines (before ++ f :: behind)).filter _).eraseP _)
    rw [eraseP_filter_linesAt hkids hbefore hop]
    refine linesAt_linesAt ?_
    intro i hi
    refine hkids i ?_
    rcases List.mem_append.1 (List.mem_of_mem_filter hi) with hi | hi
    · exact List.mem_append_left _ hi
    · exact List.mem_append_right _ (List.mem_cons_of_mem _ hi)

theorem isSome_ofChildren?_linesAt (lines : List Line) (parent : Line) (is : List Nat) :
    (Cluster.ofChildren? parent (linesAt lines is)).isSome = is.any (isOperation lines) := by
  have hfind : (Cluster.ofChildren? parent (linesAt lines is)).isSome =
      ((linesAt lines is).find? (·.hasRole .operator)).isSome := by
    rw [Cluster.ofChildren?]
    cases (linesAt lines is).find? (·.hasRole .operator) <;> rfl
  rw [hfind, List.isSome_find?, linesAt, List.any_filterMap]
  congr 1

/-- **The tree of lines and its clusters.** A line is a child of the nearest line above it that is
    less deep, and of no other; children are listed in order. There is one cluster for each line with
    an operation among its children, in the order of these lines, and it holds each child once. -/
theorem clusters_of_children (lines : List Line) :
    (∀ i j, j ∈ childrenOf lines i ↔ IsBelow lines i j) ∧
    (∀ i, (childrenOf lines i).Pairwise (· < ·)) ∧
    (∀ i i' j, j ∈ childrenOf lines i → j ∈ childrenOf lines i' → i = i') ∧
    List.Forall₂ (ClusterOf lines)
      ((List.range lines.length).filter fun p => (childrenOf lines p).any (isOperation lines))
      (clusters lines) := by
  refine ⟨fun _ _ => mem_childrenOf_iff_isBelow, ascending_childrenOf lines,
    fun _ _ _ => parent_unique, ?_⟩
  have hfamilies : List.Forall₂ (fun p family => lines[p]? = some family.1 ∧
      family.2 = linesAt lines (childrenOf lines p)) (List.range lines.length) (families lines) := by
    rw [families_eq, List.range_eq_range', ← List.zipIdx_map_snd, List.forall₂_map_left_iff,
      List.forall₂_map_right_iff, List.forall₂_same]
    rintro ⟨parent, p⟩ hentry
    exact ⟨List.mk_mem_zipIdx_iff_getElem?.1 hentry, rfl⟩
  refine (forall₂_filter_filterMap hfamilies ?_).imp ?_
  · rintro p ⟨parent, kids⟩ ⟨-, rfl⟩
    exact (isSome_ofChildren?_linesAt lines parent _).symm
  · rintro p c ⟨⟨parent, kids⟩, ⟨hparent, rfl⟩, hcluster⟩
    exact clusterOf_of_ofChildren? hparent hcluster

end Tree

end PlanGraph
