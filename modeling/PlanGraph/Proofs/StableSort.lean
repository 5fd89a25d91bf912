import Mathlib.Data.List.Forall2
import Mathlib.Data.List.Perm.Basic
import Mathlib.Order.Lattice
import PlanGraph.StableSort

set_option autoImplicit false

/-! # What stable sorting makes of a list

A list is sorted stably by a key if its elements were only moved, their keys ascend, and the
elements of one key stand in the order they had before (`SortedStably`). A list can be sorted stably
in one way only, since the elements of each key and the order of the keys leave no choice
(`eq_of_filter_eq`), and `stableSort` does it (`sortedStably_stableSort`). Sorting by a finer key is
sorting by a coarser one exactly if the elements that the coarser key does not tell apart were in
the order of the finer one already (`SortedStably.coarser_iff`). Two lists whose elements compare
alike are moved alike (`zip_stableSort`). -/

namespace PlanGraph

variable {α κ : Type} [LinearOrder κ] {key : α → κ}

/-- `ys` holds the elements of `xs` in the order of their keys; those of one key keep their order. -/
structure SortedStably (key : α → κ) (xs ys : List α) : Prop where
  perm : ys.Perm xs
  ascending : ys.Pairwise fun a b => key a ≤ key b
  stable : ∀ k, ys.filter (fun a => key a = k) = xs.filter (fun a => key a = k)

/-! ## Sorting by insertion -/

section Insertion

variable {le : α → α → Bool} (hle : ∀ a b, le a b = true ↔ key a ≤ key b)
include hle

/-- Whatever an element is moved past has another key. -/
theorem filter_insertSorted (a : α) (xs : List α) (k : κ) :
    (insertSorted le a xs).filter (fun b => key b = k) =
      (a :: xs).filter (fun b => key b = k) := by
  induction xs with
  | nil => rfl
  | cons b rest ih =>
      rw [insertSorted]
      split
      · rfl
      · next h =>
          have hlt : key b < key a := not_le.1 fun hab => h ((hle a b).2 hab)
          rw [List.filter_cons, ih]
          by_cases hb : key b = k
          · have ha : key a ≠ k := fun ha => absurd hlt (by rw [ha, hb]; exact lt_irrefl k)
            simp [hb, ha]
          · simp [List.filter_cons, hb]

theorem ascending_insertSorted (a : α) {xs : List α}
    (h : xs.Pairwise fun a b => key a ≤ key b) :
    (insertSorted le a xs).Pairwise fun a b => key a ≤ key b := by
  induction xs with
  | nil => exact List.pairwise_singleton _ _
  | cons b rest ih =>
      rw [insertSorted]
      split
      · next hab =>
          refine List.Pairwise.cons (fun c hc => ?_) h
          have hfirst : key a ≤ key b := (hle a b).1 hab
          rcases List.mem_cons.1 hc with rfl | hc
          · exact hfirst
          · exact le_trans hfirst (List.rel_of_pairwise_cons h hc)
      · next hab =>
          refine List.Pairwise.cons (fun c hc => ?_) (ih h.of_cons)
          rcases List.mem_cons.1 ((insertSorted_perm le a rest).mem_iff.1 hc) with rfl | hc
          · exact le_of_not_ge fun hcb => hab ((hle _ b).2 hcb)
          · exact List.rel_of_pairwise_cons h hc

/-- Sorting by a test that compares keys sorts stably by the keys. -/
theorem sortedStably_stableSort (xs : List α) : SortedStably key xs (stableSort le xs) where
  perm := stableSort_perm le xs
  ascending := by
    induction xs with
    | nil => exact List.Pairwise.nil
    | cons a rest ih => exact ascending_insertSorted hle a ih
  stable k := by
    induction xs with
    | nil => rfl
    | cons a rest ih => rw [stableSort, filter_insertSorted hle, List.filter_cons, ih, List.filter_cons]

end Insertion

/-! ## One way to sort -/

/-- The first of some elements in order has the least key. -/
theorem key_le_of_filter_eq {a b : α} {ys zs : List α}
    (h : (a :: ys).Pairwise fun a b => key a ≤ key b)
    (hfilter : ∀ k, (a :: ys).filter (fun c => key c = k) = (b :: zs).filter (fun c => key c = k)) :
    key a ≤ key b := by
  have hmem : b ∈ (a :: ys).filter (fun c => key c = key b) := by
    rw [hfilter]
    simp
  rcases List.mem_cons.1 (List.mem_of_mem_filter hmem) with rfl | hb
  · exact le_refl _
  · exact List.rel_of_pairwise_cons h hb

/-- Lists in ascending order of keys that hold the same elements of each key are equal. -/
theorem eq_of_filter_eq {ys zs : List α} (hys : ys.Pairwise fun a b => key a ≤ key b)
    (hzs : zs.Pairwise fun a b => key a ≤ key b)
    (h : ∀ k, ys.filter (fun a => key a = k) = zs.filter (fun a => key a = k)) : ys = zs := by
  induction ys generalizing zs with
  | nil =>
      cases zs with
      | nil => rfl
      | cons b zs => simpa using h (key b)
  | cons a ys ih =>
      cases zs with
      | nil => simpa using h (key a)
      | cons b zs =>
          have hab : key a = key b :=
            le_antisymm (key_le_of_filter_eq hys h) (key_le_of_filter_eq hzs fun k => (h k).symm)
          -- of the elements with the least key, the first ones are the heads
          have hfirst := h (key b)
          rw [List.filter_cons_of_pos (by simpa using hab), List.filter_cons_of_pos (by simp),
            List.cons.injEq] at hfirst
          obtain ⟨rfl, htail⟩ := hfirst
          refine congrArg _ (ih hys.of_cons hzs.of_cons fun k => ?_)
          by_cases hk : key a = k
          · rw [← hk]
            exact htail
          · have hrest := h k
            rwa [List.filter_cons_of_neg (by simpa using hk),
              List.filter_cons_of_neg (by simpa using hk)] at hrest

/-! ## Finer and coarser keys -/

theorem pairwise_iff_filter (R : α → α → Prop) (xs : List α) :
    xs.Pairwise (fun a b => key a = key b → R a b) ↔
      ∀ k, (xs.filter fun a => key a = k).Pairwise R := by
  simp only [List.pairwise_filter, decide_eq_true_eq]
  constructor
  · intro h k
    refine h.imp fun {a b} hab ha hb => hab ?_
    rw [ha, hb]
  · intro h
    rw [List.pairwise_iff_forall_sublist]
    intro a b hsub hkey
    exact List.pairwise_iff_forall_sublist.1 (h (key a)) hsub rfl hkey.symm

/-- What holds of elements of one key in their order holds of them after sorting. -/
theorem SortedStably.pairwise_iff {xs ys : List α} (h : SortedStably key xs ys) (R : α → α → Prop) :
    ys.Pairwise (fun a b => key a = key b → R a b) ↔
      xs.Pairwise (fun a b => key a = key b → R a b) := by
  rw [pairwise_iff_filter, pairwise_iff_filter]
  simp only [h.stable]

/-- What is sorted by a finer key is sorted stably by a coarser one exactly if the elements of each
    coarser key stood in the order of the finer key before. -/
theorem SortedStably.coarser_iff {φ : Type} [LinearOrder φ] {fine : α → φ} {xs ys : List α}
    (h : SortedStably fine xs ys) (hcoarse : ∀ a b, fine a ≤ fine b → key a ≤ key b) :
    SortedStably key xs ys ↔ xs.Pairwise fun a b => key a = key b → fine a ≤ fine b := by
  rw [pairwise_iff_filter]
  constructor
  · intro hkey k
    rw [← hkey.stable k]
    exact h.ascending.filter _
  · intro hxs
    refine ⟨h.perm, h.ascending.imp fun {a b} hab => hcoarse a b hab, fun k => ?_⟩
    refine eq_of_filter_eq (h.ascending.filter _) (hxs k) fun f => ?_
    rw [List.filter_comm, h.stable f, List.filter_comm]

/-! ## Lists that compare alike -/

section Alike

variable {β : Type} {R : α → β → Prop} {le : α → α → Bool} {le' : β → β → Bool}
  (hle : ∀ a b c d, R a b → R c d → le a c = le' b d)
include hle

theorem forall₂_insertSorted {a : α} {b : β} {xs : List α} {ys : List β} (hab : R a b)
    (h : List.Forall₂ R xs ys) :
    List.Forall₂ R (insertSorted le a xs) (insertSorted le' b ys) := by
  induction h with
  | nil => exact List.Forall₂.cons hab List.Forall₂.nil
  | @cons x y xs ys hxy hrest ih =>
      rw [insertSorted, insertSorted, hle _ _ _ _ hab hxy]
      split
      · exact List.Forall₂.cons hab (List.Forall₂.cons hxy hrest)
      · exact List.Forall₂.cons hxy ih

/-- Lists whose elements compare alike are sorted alike. -/
theorem forall₂_stableSort {xs : List α} {ys : List β} (h : List.Forall₂ R xs ys) :
    List.Forall₂ R (stableSort le xs) (stableSort le' ys) := by
  induction h with
  | nil => exact List.Forall₂.nil
  | cons hxy _ ih => exact forall₂_insertSorted hle hxy ih

theorem zip_insertSorted {a : α} {b : β} {xs : List α} {ys : List β} (hab : R a b)
    (h : List.Forall₂ R xs ys) :
    (insertSorted le a xs).zip (insertSorted le' b ys) =
      insertSorted (fun p q => le p.1 q.1) (a, b) (xs.zip ys) := by
  induction h with
  | nil => rfl
  | @cons x y xs ys hxy _ ih =>
      rw [List.zip_cons_cons, insertSorted, insertSorted, insertSorted, ← hle _ _ _ _ hab hxy]
      split
      · rfl
      · rw [List.zip_cons_cons, ih]

/-- Elements that stand side by side before sorting do so afterwards. -/
theorem zip_stableSort {xs : List α} {ys : List β} (h : List.Forall₂ R xs ys) :
    (stableSort le xs).zip (stableSort le' ys) =
      stableSort (fun p q => le p.1 q.1) (xs.zip ys) := by
  induction h with
  | nil => rfl
  | cons hxy hrest ih =>
      rw [stableSort, stableSort, zip_insertSorted hle hxy (forall₂_stableSort hle hrest), ih]
      rfl

end Alike

end PlanGraph
