import PlanGraph.Proofs.Tree.Numbering

set_option autoImplicit false

/-! # Families in a longer plan

The tree of lines reads nothing but their depths, so a change of lines that keeps the depths keeps
the families (`families_map`). And a line of depth zero closes everything above it: what follows
such a line makes the families that it makes by itself, and what stands before keeps its own
(`families_append`). Clusters are made family by family and go along (`clusters_map`,
`clusters_append`). -/

namespace PlanGraph

namespace Tree

/-! ## Lines that keep their depths -/

theorem families_map {f : Line → Line} (hdepth : ∀ l, (f l).depth = l.depth) (lines : List Line) :
    families (lines.map f) =
      (families lines).map fun (parent, kids) => (f parent, kids.map f) := by
  have hchildren : children (lines.map f) = children lines := by
    simp [children, Function.comp_def, hdepth]
  have hkids : (children lines).map (fun indices => indices.filterMap ((lines.map f)[·]?)) =
      ((children lines).map fun indices => indices.filterMap (lines[·]?)).map (List.map f) := by
    rw [List.map_map]
    refine List.map_congr_left ?_
    intro indices _
    rw [Function.comp_apply, List.map_filterMap]
    simp
  unfold families
  rw [hchildren, hkids, List.zip_map]
  rfl

/-- Lines that keep their depths make the clusters that their families make. -/
theorem clusters_map {f : Line → Line} {g : Cluster → Cluster}
    (hdepth : ∀ l, (f l).depth = l.depth)
    (hfamily : ∀ parent kids, Cluster.ofChildren? (f parent) (kids.map f) =
      (Cluster.ofChildren? parent kids).map g) (lines : List Line) :
    clusters (lines.map f) = (clusters lines).map g := by
  unfold clusters
  rw [families_map hdepth, List.filterMap_map, List.map_filterMap]
  congr 1
  funext family
  exact hfamily family.1 family.2

/-! ## The parents of a longer plan -/

theorem Ancestry.above_zero (a : Ancestry) : a.above 0 = [] := by
  rw [above, List.dropWhile_eq_nil_iff]
  simp

/-- The same lines with indices that are larger by `n`. -/
def Ancestry.shift (n : Nat) (a : Ancestry) : Ancestry := a.map fun (i, depth) => (i + n, depth)

theorem Ancestry.above_shift (n : Nat) (a : Ancestry) (depth : Nat) :
    (a.shift n).above depth = (a.above depth).shift n := by
  rw [above, shift, List.dropWhile_map]
  rfl

theorem parentsFrom_shift (n : Nat) (a : Ancestry) (index : Nat) (depths : List Nat) :
    parentsFrom (a.shift n) (index + n) depths =
      (parentsFrom a index depths).map (Option.map (· + n)) := by
  induction depths generalizing a index with
  | nil => rfl
  | cons d ds ih =>
      have hpush : (index + n, d) :: (a.above d).shift n =
          Ancestry.shift n ((index, d) :: a.above d) := rfl
      rw [parentsFrom, parentsFrom, Ancestry.above_shift, hpush, Nat.add_right_comm, ih,
        List.map_cons]
      cases a.above d <;> rfl

theorem exists_parentsFrom_append (a : Ancestry) (index : Nat) (depths : List Nat) :
    ∃ a', ∀ more, parentsFrom a index (depths ++ more) =
      parentsFrom a index depths ++ parentsFrom a' (index + depths.length) more := by
  induction depths generalizing a index with
  | nil => exact ⟨a, fun _ => rfl⟩
  | cons d ds ih =>
      obtain ⟨a', ha'⟩ := ih ((index, d) :: a.above d) (index + 1)
      refine ⟨a', ?_⟩
      intro more
      have hindex : index + 1 + ds.length = index + (d :: ds).length := by
        rw [List.length_cons, Nat.add_right_comm, Nat.add_assoc]
      rw [List.cons_append, parentsFrom, ha', hindex, parentsFrom, List.cons_append]

/-- Behind a line of depth zero the parents are those of a plan that begins there. -/
theorem parents_append (depths : List Nat) {more : List Nat} (hroot : ∀ d ∈ more.head?, d = 0) :
    parents (depths ++ more) =
      parents depths ++ (parents more).map (Option.map (· + depths.length)) := by
  obtain ⟨a, ha⟩ := exists_parentsFrom_append [] 0 depths
  rw [parents, ha, parents, Nat.zero_add]
  congr 1
  cases more with
  | nil => rfl
  | cons d ds =>
      obtain rfl : d = 0 := hroot d rfl
      have hclosed : parentsFrom a depths.length (0 :: ds) =
          parentsFrom [] depths.length (0 :: ds) := by
        rw [parentsFrom, parentsFrom, Ancestry.above_zero, Ancestry.above_zero]
      have hshift := parentsFrom_shift depths.length [] 0 (0 :: ds)
      rw [Nat.zero_add] at hshift
      rw [hclosed]
      exact hshift

/-! ## The families of a longer plan -/

/-- The lines whose parent is the line at index `p`, where `ps` has the parents of the lines. -/
def kidsOf (lines : List Line) (ps : List (Option Nat)) (p : Nat) : List Line :=
  ((lines.zip ps).filter fun entry => entry.2 == some p).map Prod.fst

theorem filterMap_childrenFrom (lines : List Line) (ps : List (Option Nat)) (p n : Nat) :
    (childrenFrom p n ps).filterMap (fun i => lines[i - n]?) = kidsOf lines ps p := by
  induction ps generalizing lines n with
  | nil => simp [childrenFrom, kidsOf]
  | cons q ps ih =>
      cases lines with
      | nil => simp [kidsOf]
      | cons l lines =>
          have hlater : (childrenFrom p (n + 1) ps).filterMap (fun i => (l :: lines)[i - n]?) =
              kidsOf lines ps p := by
            rw [← ih lines (n + 1)]
            refine List.filterMap_congr ?_
            intro i hi
            rw [childrenFrom_eq_filter] at hi
            have hle : n + 1 ≤ i := (List.mem_range'_1.1 (List.mem_of_mem_filter hi)).1
            rw [show i - n = (i - (n + 1)) + 1 by omega, List.getElem?_cons_succ]
          rw [childrenFrom]
          by_cases hq : q = some p
          · rw [if_pos hq, List.filterMap_cons, Nat.sub_self, List.getElem?_cons_zero, hlater]
            simp [kidsOf, hq]
          · rw [if_neg hq, hlater]
            simp [kidsOf, hq]

theorem families_eq_zip (lines : List Line) :
    families lines = lines.zip
      ((List.range lines.length).map (kidsOf lines (parents (lines.map (·.depth))))) := by
  have hkids : ∀ p, (childrenFrom p 0 (parents (lines.map (·.depth)))).filterMap (lines[·]?) =
      kidsOf lines (parents (lines.map (·.depth))) p := fun p => filterMap_childrenFrom _ _ p 0
  unfold families children
  rw [List.map_map]
  simp only [Function.comp_def, hkids]

section Append

variable {before behind : List Line}

theorem kidsOf_append {ps qs : List (Option Nat)} (h : before.length = ps.length) (p : Nat) :
    kidsOf (before ++ behind) (ps ++ qs) p = kidsOf before ps p ++ kidsOf behind qs p := by
  rw [kidsOf, List.zip_append h, List.filter_append, List.map_append, kidsOf, kidsOf]

theorem kidsOf_eq_nil {lines : List Line} {ps : List (Option Nat)} {p : Nat}
    (h : some p ∉ ps) : kidsOf lines ps p = [] := by
  rw [kidsOf, List.map_eq_nil_iff, List.filter_eq_nil_iff]
  intro entry hentry hp
  rw [beq_iff_eq] at hp
  exact h (hp ▸ (List.of_mem_zip hentry).2)

theorem kidsOf_shift (n : Nat) (lines : List Line) (ps : List (Option Nat)) (p : Nat) :
    kidsOf lines (ps.map (Option.map (· + n))) (n + p) = kidsOf lines ps p := by
  have htest : ∀ q : Option Nat, (q.map (· + n) == some (n + p)) = (q == some p) := by
    intro q
    rw [Bool.eq_iff_iff, beq_iff_eq, beq_iff_eq]
    cases q with
    | none => simp
    | some i => simp; omega
  have hfilter : ∀ entry : Line × Option Nat,
      ((Prod.map id (Option.map (· + n)) entry).2 == some (n + p)) = (entry.2 == some p) :=
    fun entry => htest entry.2
  rw [kidsOf, List.zip_map_right, List.filter_map, List.map_map]
  simp only [Function.comp_def, hfilter]
  rfl

theorem families_append (hroot : ∀ l ∈ behind.head?, l.depth = 0) :
    families (before ++ behind) = families before ++ families behind := by
  have hparents : parents ((before ++ behind).map (·.depth)) =
      parents (before.map (·.depth)) ++
        (parents (behind.map (·.depth))).map (Option.map (· + before.length)) := by
    rw [List.map_append, parents_append _ ?_, List.length_map]
    intro d hd
    rw [List.head?_map] at hd
    obtain ⟨l, hl, rfl⟩ := Option.map_eq_some_iff.1 hd
    exact hroot l hl
  have hlen := (parents_length before).symm
  have hsmall : ∀ p, before.length ≤ p → some p ∉ parents (before.map (·.depth)) := by
    intro p hp hmem
    obtain ⟨j, hj⟩ := List.getElem?_of_mem hmem
    exact absurd (parent_lt_of_parents hj) (Nat.not_lt.2 hp)
  have hlarge : ∀ p, p < before.length → some p ∉
      (parents (behind.map (·.depth))).map (Option.map (· + before.length)) := by
    intro p hp hmem
    obtain ⟨q, -, hq⟩ := List.mem_map.1 hmem
    obtain ⟨i, -, hi⟩ := Option.map_eq_some_iff.1 hq
    omega
  rw [families_eq_zip, families_eq_zip before, families_eq_zip behind, hparents,
    List.length_append, List.range_add, List.map_append, List.zip_append (by simp), List.map_map]
  congr 2
  · refine List.map_congr_left ?_
    intro p hp
    rw [kidsOf_append hlen, kidsOf_eq_nil (hlarge p (List.mem_range.1 hp)), List.append_nil]
  · refine List.map_congr_left ?_
    intro p _
    rw [Function.comp_apply, kidsOf_append hlen,
      kidsOf_eq_nil (hsmall _ (Nat.le_add_right _ _)), List.nil_append, kidsOf_shift]

/-- **A line of depth zero starts over.** The clusters of a plan in which such a line follows are
    those of the lines before it, and then those of the lines from there on. -/
theorem clusters_append (hroot : ∀ l ∈ behind.head?, l.depth = 0) :
    clusters (before ++ behind) = clusters before ++ clusters behind := by
  rw [clusters, families_append hroot, List.filterMap_append, clusters, clusters]

end Append

end Tree

end PlanGraph
