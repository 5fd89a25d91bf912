import Mathlib.Data.List.Forall2

set_option autoImplicit false

/-! # Lists

Facts about lists that no one table owns: what is left of a list without its first element of a
kind, and what two lists in step have in common. -/

namespace PlanGraph

/-! ## Without the first of a kind -/

theorem filter_eraseP_self {α : Type} (holds : α → Bool) (xs : List α) :
    (xs.eraseP holds).filter holds = (xs.filter holds).tail := by
  induction xs with
  | nil => rfl
  | cons x xs ih =>
      cases hx : holds x with
      | false => simp [hx, ih]
      | true => simp [hx]

theorem filter_not_eraseP {α : Type} (holds : α → Bool) (xs : List α) :
    (xs.eraseP holds).filter (!holds ·) = xs.filter (!holds ·) := by
  induction xs with
  | nil => rfl
  | cons x xs ih =>
      cases hx : holds x with
      | false => simp [hx, ih]
      | true => simp [hx]

/-! ## Lists in step -/

/-- What is kept of two lists in step by a test on the one and a choice on the other. -/
theorem forall₂_filter_filterMap {α β γ : Type} {R : α → β → Prop} {kept : α → Bool}
    {choose : β → Option γ} {as : List α} {bs : List β} (h : List.Forall₂ R as bs)
    (hkept : ∀ a b, R a b → kept a = (choose b).isSome) :
    List.Forall₂ (fun a c => ∃ b, R a b ∧ choose b = some c) (as.filter kept)
      (bs.filterMap choose) := by
  induction h with
  | nil => exact List.Forall₂.nil
  | @cons a b as bs hab _ ih =>
      cases hb : choose b with
      | none =>
          have ha : kept a = false := by rw [hkept a b hab, hb]; rfl
          rw [List.filter_cons_of_neg (by simp [ha]), List.filterMap_cons_none hb]
          exact ih
      | some c =>
          have ha : kept a = true := by rw [hkept a b hab, hb]; rfl
          rw [List.filter_cons_of_pos ha, List.filterMap_cons_some hb]
          exact List.Forall₂.cons ⟨b, hab, hb⟩ ih

theorem forall₂_flatMap {α β γ : Type} {R : β → γ → Prop} {f : α → List β} {g : α → List γ}
    {xs : List α} (h : ∀ x ∈ xs, List.Forall₂ R (f x) (g x)) :
    List.Forall₂ R (xs.flatMap f) (xs.flatMap g) := by
  induction xs with
  | nil => exact List.Forall₂.nil
  | cons x xs ih =>
      rw [List.forall_mem_cons] at h
      rw [List.flatMap_cons, List.flatMap_cons]
      exact List.rel_append h.1 (ih h.2)

theorem exists_of_mem_forall₂ {α β : Type} {R : α → β → Prop} {as : List α} {bs : List β}
    (h : List.Forall₂ R as bs) {a : α} (ha : a ∈ as) : ∃ b ∈ bs, R a b := by
  induction h with
  | nil => cases ha
  | @cons x y _ _ hxy _ ih =>
      rcases List.mem_cons.1 ha with rfl | ha
      · exact ⟨y, List.mem_cons_self, hxy⟩
      · obtain ⟨b, hb, hab⟩ := ih ha
        exact ⟨b, List.mem_cons_of_mem _ hb, hab⟩

/-- What holds of all pairs of a list holds, carried over, of all pairs of a list in step with it. -/
theorem pairwise_of_forall₂ {α β : Type} {R : α → β → Prop} {S : α → α → Prop} {T : β → β → Prop}
    {as : List α} {bs : List β} (h : List.Forall₂ R as bs) (hpair : as.Pairwise S)
    (hstep : ∀ a a' b b', S a a' → R a b → R a' b' → T b b') : bs.Pairwise T := by
  induction h with
  | nil => exact List.Pairwise.nil
  | @cons a b as bs hab hrest ih =>
      refine List.Pairwise.cons ?_ (ih hpair.of_cons)
      intro b' hb'
      obtain ⟨a', ha', hab'⟩ := exists_of_mem_forall₂ hrest.flip hb'
      exact hstep a a' b b' (List.rel_of_pairwise_cons hpair ha') hab hab'

/-! ## Pairs of a list -/

theorem length_le_two_of_pairwise {α : Type} {first second : α → Prop} {xs : List α}
    (hapart : ∀ a, first a → ¬ second a) (h : xs.Pairwise fun a b => first a ∧ second b) :
    xs.length ≤ 2 := by
  cases h with
  | nil => exact Nat.zero_le _
  | @cons a xs ha h =>
      cases h with
      | nil => exact Nat.le_succ 1
      | @cons b xs hb h =>
          cases xs with
          | nil => exact Nat.le_refl 2
          | cons c xs =>
              -- of three, the one in the middle would be both
              have hsecond := (ha b List.mem_cons_self).2
              have hfirst := (hb c List.mem_cons_self).1
              exact absurd hsecond (hapart b hfirst)

end PlanGraph
