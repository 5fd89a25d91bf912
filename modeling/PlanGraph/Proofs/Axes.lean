import PlanGraph.Axes
import PlanGraph.Proofs.Items.Whole

set_option autoImplicit false

/-! # Axes are never missing

Whatever a note says, the axes read from it are some axes: a flat list names one at least, and so
does each group of a list of groups (`Axes.filled_ofText`). Handed out to targets, there is one
group for each target, and none is empty (`Axes.ne_nil_of_mem_perTarget`). -/

namespace PlanGraph

namespace Axes

/-- Axes that are no empty list and have no empty group. -/
def Filled : Axes → Prop
  | flat axes => axes ≠ []
  | nested groups => groups ≠ [] ∧ ∀ group ∈ groups, group ≠ []

theorem filled_absent (noneAxis : Text) : (absent noneAxis).Filled := List.cons_ne_nil _ _

theorem orNone_ne_nil (noneAxis : Text) (group : List Text) : orNone noneAxis group ≠ [] := by
  rw [orNone]
  split
  · exact List.cons_ne_nil _ _
  · next h => exact fun hnil => h (List.isEmpty_iff.2 hnil)

theorem ne_nil_of_group? {noneAxis item : Text} {group : List Text}
    (h : group? noneAxis item = some group) : group ≠ [] := by
  rw [group?] at h
  split at h
  · cases h
    exact orNone_ne_nil _ _
  · split at h
    · cases h
    · cases h
      exact orNone_ne_nil _ _

theorem filled_ofList (noneAxis inner : Text) : (ofList noneAxis inner).Filled := by
  simp only [ofList]
  split
  · next hany =>
      split
      · next groups hgroups =>
          constructor
          · -- some item opens a group, so there are items
            rintro rfl
            rw [List.map_eq_nil_iff.1 (map_eq_of_mapM hgroups)] at hany
            cases hany
          · intro group hgroup
            obtain ⟨item, -, hitem⟩ := exists_of_mem_mapM hgroups hgroup
            exact ne_nil_of_group? hitem
      · exact filled_absent noneAxis
  · exact orNone_ne_nil _ _

theorem filled_ofText (noneAxis t : Text) : (ofText noneAxis t).Filled := by
  simp only [ofText]
  split
  · split
    · exact filled_ofList _ _
    · exact filled_absent noneAxis
  · split
    · exact filled_absent noneAxis
    · exact List.cons_ne_nil _ _

theorem Filled.flatten_ne_nil {a : Axes} (h : a.Filled) : a.flatten ≠ [] := by
  cases a with
  | flat axes => exact h
  | nested groups =>
      obtain ⟨hne, hgroups⟩ := h
      cases groups with
      | nil => exact absurd rfl hne
      | cons group groups =>
          exact List.append_ne_nil_of_left_ne_nil (hgroups group List.mem_cons_self) _

/-! ## Targets -/

theorem length_perTarget (targets : Nat) (noneAxis : Text) (a : Axes) :
    (a.perTarget targets noneAxis).length = targets := by
  cases a with
  | flat axes => exact List.length_replicate
  | nested groups =>
      rw [perTarget, List.length_append, List.length_take, List.length_replicate]
      omega

/-- A flat list serves each target. -/
theorem getElem?_perTarget_flat {targets i : Nat} (h : i < targets) (noneAxis : Text)
    (axes : List Text) : ((flat axes).perTarget targets noneAxis)[i]? = some axes := by
  rw [perTarget, List.getElem?_replicate, if_pos h]

/-- Groups serve the targets in order, as far as they go. -/
theorem getElem?_perTarget_nested {targets i : Nat} (h : i < targets) (noneAxis : Text)
    (groups : List (List Text)) :
    ((nested groups).perTarget targets noneAxis)[i]? = some (groups[i]?.getD [noneAxis]) := by
  rw [perTarget, List.getElem?_append, List.length_take]
  by_cases hi : i < groups.length
  · rw [if_pos (by omega), List.getElem?_take_of_lt h, List.getElem?_eq_getElem hi,
      Option.getD_some]
  · rw [if_neg (by omega), List.getElem?_replicate, if_pos (by omega),
      List.getElem?_eq_none (Nat.le_of_not_lt hi), Option.getD_none]

theorem ne_nil_of_mem_perTarget {a : Axes} (h : a.Filled) {targets : Nat} {noneAxis : Text}
    {axes : List Text} (hmem : axes ∈ a.perTarget targets noneAxis) : axes ≠ [] := by
  cases a with
  | flat all =>
      rw [(List.mem_replicate.1 hmem).2]
      exact h
  | nested groups =>
      rcases List.mem_append.1 hmem with hgroup | hnone
      · exact h.2 axes (List.mem_of_mem_take hgroup)
      · rw [(List.mem_replicate.1 hnone).2]
        exact List.cons_ne_nil _ _

end Axes

end PlanGraph
