import PlanGraph.Cluster.Tree
import PlanGraph.Interpretation.Grouping
import PlanGraph.Proofs.Axes

set_option autoImplicit false

/-! # Axes for each value of a grouping

The axes that a grouping collapses come from the notes of its values, from its own note, from its
text or from the axes of its values, whichever is found first. Each of the four gives a list of axes
to each value and no empty one (`Fits`), so whichever is found does (`byAxes_fits`). -/

namespace PlanGraph

namespace Grouping

/-- One list of axes for each value, and no empty one. -/
def Fits (c : Cluster) (byAxes : List (List Text)) : Prop :=
  byAxes.length = c.values.length ∧ ∀ axes ∈ byAxes, axes ≠ []

variable {noneAxis : Text} {c : Cluster} {byAxes : List (List Text)}

/-! ## The four sources -/

theorem fits_perTarget (c : Cluster) (noneAxis t : Text) :
    Fits c ((Axes.ofText noneAxis t).perTarget c.values.length noneAxis) :=
  ⟨Axes.length_perTarget _ _ _,
    fun _ hmem => Axes.ne_nil_of_mem_perTarget (Axes.filled_ofText noneAxis t) hmem⟩

theorem fits_of_collapseAxes? (h : collapseAxes? noneAxis c = some byAxes) : Fits c byAxes := by
  rw [collapseAxes?] at h
  split at h
  · cases h
  · constructor
    · have hlength := congrArg List.length (map_eq_of_mapM h)
      rw [List.length_map, List.length_map] at hlength
      exact hlength.symm
    · intro axes hmem
      obtain ⟨v, -, hv⟩ := exists_of_mem_mapM h hmem
      obtain ⟨note, -, rfl⟩ := Option.map_eq_some_iff.1 hv
      exact (Axes.filled_ofText noneAxis note).flatten_ne_nil

theorem fits_of_notedAxes? (h : notedAxes? noneAxis c = some byAxes) : Fits c byAxes := by
  obtain ⟨note, -, rfl⟩ := Option.map_eq_some_iff.1 h
  exact fits_perTarget c noneAxis note

theorem fits_of_inlineAxes? (h : inlineAxes? noneAxis c = some byAxes) : Fits c byAxes := by
  obtain ⟨arg, -, rfl⟩ := Option.map_eq_some_iff.1 h
  exact fits_perTarget c noneAxis _

theorem fits_valueAxes (noneAxis : Text) (c : Cluster) : Fits c (valueAxes noneAxis c) := by
  refine ⟨List.length_map _, fun axes hmem => ?_⟩
  obtain ⟨v, -, rfl⟩ := List.mem_map.1 hmem
  cases v.notes.get? "axis" with
  | none => exact (Axes.filled_absent noneAxis).flatten_ne_nil
  | some note => exact (Axes.filled_ofText noneAxis note).flatten_ne_nil

theorem fits_axesOf (noneAxis : Text) (c : Cluster) : Fits c (axesOf noneAxis c) := by
  rw [axesOf]
  cases hcollapse : collapseAxes? noneAxis c with
  | some byAxes => exact fits_of_collapseAxes? hcollapse
  | none =>
      cases hnoted : notedAxes? noneAxis c with
      | some byAxes => exact fits_of_notedAxes? hnoted
      | none =>
          cases hinline : inlineAxes? noneAxis c with
          | some byAxes => exact fits_of_inlineAxes? hinline
          | none => exact fits_valueAxes noneAxis c

/-! ## The note of a grouping -/

theorem collapseAxes?_eq_none (noneAxis : Text)
    (h : ∃ v ∈ c.values, v.notes.get? "collapse" = none) : collapseAxes? noneAxis c = none := by
  obtain ⟨v, hv, hnone⟩ := h
  rw [Option.eq_none_iff_forall_ne_some]
  intro byAxes hsome
  rw [collapseAxes?] at hsome
  split at hsome
  · cases hsome
  · -- the value without the note is not read
    have hmem := List.mem_map_of_mem (f := fun v : Line =>
      (v.notes.get? "collapse").map fun note => (Axes.ofText noneAxis note).flatten) hv
    rw [map_eq_of_mapM hsome, hnone] at hmem
    obtain ⟨axes, -, hcontra⟩ := List.mem_map.1 hmem
    cases hcontra

theorem axesOf_of_note {note : Text} (hcollapse : ∃ v ∈ c.values, v.notes.get? "collapse" = none)
    (hnote : c.function.notes.get? "by_axes" = some note) :
    axesOf noneAxis c = (Axes.ofText noneAxis note).perTarget c.values.length noneAxis := by
  rw [axesOf, collapseAxes?_eq_none noneAxis hcollapse, notedAxes?, hnote]
  rfl

/-- A grouping has axes for each value and no empty list of them. Unless every value says itself
    what to collapse, a `by_axes` note hands out its groups in order, "none" to the values that it
    has no group for, and the whole list to each value if it has no groups at all. -/
theorem byAxes_fits (noneAxis : Text) (c : Cluster) :
    (ofCluster noneAxis c).byAxes.length = c.values.length ∧
    (∀ axes ∈ (ofCluster noneAxis c).byAxes, axes ≠ []) ∧
    ∀ note, (∃ v ∈ c.values, v.notes.get? "collapse" = none) →
      c.function.notes.get? "by_axes" = some note → ∀ i < c.values.length,
        (∀ groups, Axes.ofText noneAxis note = .nested groups →
          (i < groups.length → (ofCluster noneAxis c).byAxes[i]? = groups[i]?) ∧
          (groups.length ≤ i → (ofCluster noneAxis c).byAxes[i]? = some [noneAxis])) ∧
        ∀ axes, Axes.ofText noneAxis note = .flat axes →
          (ofCluster noneAxis c).byAxes[i]? = some axes := by
  obtain ⟨hlength, hfilled⟩ := fits_axesOf noneAxis c
  refine ⟨hlength, hfilled, ?_⟩
  intro note hcollapse hnote i hi
  have haxesOf : (ofCluster noneAxis c).byAxes = _ := axesOf_of_note hcollapse hnote
  rw [haxesOf]
  refine ⟨fun groups hgroups => ?_, fun axes haxes => ?_⟩
  · rw [hgroups, Axes.getElem?_perTarget_nested hi]
    constructor
    · intro hlt
      rw [List.getElem?_eq_getElem hlt, Option.getD_some]
    · intro hle
      rw [List.getElem?_eq_none hle, Option.getD_none]
  · rw [haxes, Axes.getElem?_perTarget_flat hi]

/-- A plan with more values than groups, and a group that is not named. -/
def sparseGroups : Text :=
  ":<: {r}\n    <= &[#] %-[ignored] | %{by_axes}: [[day, 'week'], []]\n" ++
    "    <- {a} | %{collapse}: [x]\n    <- {b}\n" ++
    "    <- {c} | %{axis}: y\n"

theorem byAxes_fits_sparseGroups :
    ∃ c ∈ Tree.clusters (Line.parse 4 sparseGroups),
      (∃ v ∈ c.values, v.notes.get? "collapse" = none) ∧
      c.function.notes.get? "by_axes" = some "[[day, 'week'], []]" ∧
      (ofCluster "none" c).byAxes.length = 3 ∧
      (ofCluster "none" c).byAxes[0]? = some ["day".toList, "week".toList] ∧
      (ofCluster "none" c).byAxes[1]? = some ["none".toList] ∧
      (ofCluster "none" c).byAxes[2]? = some ["none".toList] := by
  have hfacts : ∃ c ∈ Tree.clusters (Line.parse 4 sparseGroups),
      (∃ v ∈ c.values, v.notes.get? "collapse" = none) ∧ c.values.length = 3 ∧
      c.function.notes.get? "by_axes" = some "[[day, 'week'], []]" := by
    decide +kernel
  have hgroups : Axes.ofText "none" "[[day, 'week'], []]" =
      .nested [["day".toList, "week".toList], ["none".toList]] := by
    decide +kernel
  obtain ⟨c, hc, hcollapse, hthree, hnote⟩ := hfacts
  obtain ⟨hlength, -, hentries⟩ := byAxes_fits "none" c
  have hgroup : ∀ i < 3, _ := fun i hi =>
    (hentries _ hcollapse hnote i (by omega)).1 _ hgroups
  exact ⟨c, hc, hcollapse, hnote, hlength.trans hthree, (hgroup 0 (by decide)).1 (by decide),
    (hgroup 1 (by decide)).1 (by decide), (hgroup 2 (by decide)).2 (by decide)⟩

end Grouping

end PlanGraph
