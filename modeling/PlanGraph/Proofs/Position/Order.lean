import Mathlib.Data.List.Induction
import Mathlib.Data.List.Lex
import Mathlib.Data.Prod.Lex
import Mathlib.Order.Compare
import Mathlib.Order.WithBot
import PlanGraph.Position.Basic

set_option autoImplicit false

/-! # The order of positions

Positions are compared by their numbers and then by their texts. Both comparisons are
lexicographic, so the outcome is that of a rank in a linear order of the library: the path of
numbers, with a missing one at the top, and behind it the code points of the text
(`Position.compares_cmp`). The rank determines the position, and what a linear order satisfies holds
of positions. A list into which positions are inserted by comparing them stays strictly increasing
and holds exactly what was inserted (`Position.increasing_setOf`, `Position.mem_setOf`). -/

namespace PlanGraph

/-! ## Comparisons -/

section Comparison

variable {α β γ : Type} [LinearOrder β] [LinearOrder γ]

/-- Comparing in the order of a rank is comparing the ranks. -/
theorem compares_compareBy {le : α → α → Bool} (rank : α → β)
    (h : ∀ a b, le a b = true ↔ rank a ≤ rank b) (a b : α) :
    (compareBy le a b).Compares (rank a) (rank b) := by
  simp only [compareBy, h]
  split
  · next hab =>
      split
      · next hba => exact le_antisymm hab hba
      · next hba => exact not_le.1 hba
  · next hab => exact not_le.1 hab

/-- One comparison and then another compare the pairs. -/
theorem compares_then {o o' : Ordering} {b b' : β} {c c' : γ} (h : o.Compares b b')
    (h' : o'.Compares c c') : (o.then o').Compares (toLex (b, c)) (toLex (b', c')) := by
  cases o with
  | lt => exact Prod.Lex.toLex_lt_toLex.2 (Or.inl h)
  | gt => exact Prod.Lex.toLex_lt_toLex.2 (Or.inl h)
  | eq =>
      obtain rfl : b = b' := h
      cases o' with
      | lt => exact Prod.Lex.toLex_lt_toLex.2 (Or.inr ⟨rfl, h'⟩)
      | eq => exact congrArg (fun c => toLex (b, c)) h'
      | gt => exact Prod.Lex.toLex_lt_toLex.2 (Or.inr ⟨rfl, h'⟩)

end Comparison

/-! ## Paths of numbers -/

theorem path_cons_le_cons {m n : Nat} {p q : List Nat} :
    m :: p ≤ n :: q ↔ m < n ∨ m = n ∧ p ≤ q := by
  have hlt : m :: p < n :: q ↔ m < n ∨ m = n ∧ p < q := List.cons_lex_cons_iff
  rw [le_iff_lt_or_eq, hlt, le_iff_lt_or_eq, List.cons.injEq]
  tauto

theorem nil_le_path (p : List Nat) : [] ≤ p := by
  cases p with
  | nil => exact le_refl _
  | cons n p => exact le_of_lt List.Lex.nil

theorem not_path_cons_le_nil (n : Nat) (p : List Nat) : ¬ n :: p ≤ [] :=
  not_le.2 List.Lex.nil

theorem path_lt_append (p : List Nat) {q : List Nat} (h : q ≠ []) : p < p ++ q := by
  cases q with
  | nil => exact absurd rfl h
  | cons n q =>
      have hlex : List.Lex (· < ·) (p ++ []) (p ++ n :: q) :=
        List.Lex.append_left _ List.Lex.nil p
      rwa [List.append_nil] at hlex

theorem path_append_lt {m n : Nat} (h : m < n) (p q r : List Nat) : p ++ m :: q < p ++ n :: r :=
  List.Lex.append_left _ (List.Lex.rel h) p

theorem pathLe_iff {p q : List Nat} : pathLe p q = true ↔ p ≤ q := by
  induction p generalizing q with
  | nil => simp [pathLe, nil_le_path]
  | cons m p ih =>
      cases q with
      | nil => simp [pathLe, not_path_cons_le_nil]
      | cons n q => simp [pathLe, path_cons_le_cons, ih]

theorem Text.le_iff {s t : Text} :
    s.le t = true ↔ s.map Char.toNat ≤ t.map Char.toNat := by
  induction s generalizing t with
  | nil => simp [le, nil_le_path]
  | cons c s ih =>
      cases t with
      | nil => simp [le, not_path_cons_le_nil]
      | cons d t => simp [le, path_cons_le_cons, ih, Char.toNat_inj]

namespace SortKey

/-- The place of a sort key in a linear order: a missing position comes last. -/
def rank : SortKey → WithTop (List Nat)
  | path p => (p : WithTop (List Nat))
  | missing => ⊤

theorem rank_injective : Function.Injective rank := by
  intro a b h
  cases a with
  | path p =>
      cases b with
      | path q => exact congrArg path (WithTop.coe_injective h)
      | missing => exact absurd h (WithTop.coe_ne_top)
  | missing =>
      cases b with
      | path q => exact absurd h.symm (WithTop.coe_ne_top)
      | missing => rfl

theorem le_iff_rank {a b : SortKey} : a.le b = true ↔ a.rank ≤ b.rank := by
  cases a with
  | path p =>
      cases b with
      | path q => simp [le, rank, pathLe_iff]
      | missing => simp [le, rank]
  | missing =>
      cases b with
      | path q => simp [le, rank]
      | missing => simp [le, rank]

end SortKey

namespace Position

theorem eq_iff_text {p q : Position} : p = q ↔ p.text = q.text := by
  cases p
  cases q
  simp

theorem sortKey_of_text_ne_nil {p : Position} (h : p.text ≠ []) : p.sortKey = .path p.components := by
  rw [sortKey, if_neg (by simpa [isAbsent] using h)]

/-- The place of a position in a linear order: its key and then the code points of its text. -/
def rank (p : Position) : WithTop (List Nat) ×ₗ List Nat :=
  toLex (p.sortKey.rank, p.text.map Char.toNat)

theorem rank_injective : Function.Injective rank := by
  intro p q h
  have htext : p.text.map Char.toNat = q.text.map Char.toNat := congrArg (fun r => (ofLex r).2) h
  exact eq_iff_text.2 ((List.map_injective_iff.2 fun _ _ => Char.toNat_inj.1) htext)

/-- Comparing positions is comparing their ranks. -/
theorem compares_cmp (p q : Position) : (p.cmp q).Compares p.rank q.rank := by
  have hkey := compares_compareBy SortKey.rank (fun _ _ => SortKey.le_iff_rank) p.sortKey q.sortKey
  have htext := compares_compareBy (List.map Char.toNat) (fun _ _ => Text.le_iff) p.text q.text
  exact compares_then hkey htext

theorem le_iff_rank {p q : Position} : p.le q = true ↔ p.rank ≤ q.rank := by
  rw [le, Ordering.isLE_iff_ne_gt]
  exact (compares_cmp p q).ne_gt

theorem cmp_eq_iff {p q : Position} : p.cmp q = .eq ↔ p = q := by
  rw [(compares_cmp p q).eq_eq, rank_injective.eq_iff]

/-- The strict order of positions. -/
def lt (p q : Position) : Prop := p.le q = true ∧ p ≠ q

theorem lt_iff_rank {p q : Position} : p.lt q ↔ p.rank < q.rank := by
  rw [lt, le_iff_rank, lt_iff_le_and_ne, rank_injective.ne_iff]

theorem lt_trans {p q r : Position} (hpq : p.lt q) (hqr : q.lt r) : p.lt r := by
  rw [lt_iff_rank] at *
  exact hpq.trans hqr

theorem cmp_eq_lt_iff {p q : Position} : p.cmp q = .lt ↔ p.lt q := by
  rw [(compares_cmp p q).eq_lt, lt_iff_rank]

theorem cmp_eq_gt_iff {p q : Position} : p.cmp q = .gt ↔ q.lt p := by
  rw [(compares_cmp p q).eq_gt, lt_iff_rank]

/-! ## Inserting positions -/

theorem mem_insert {p q : Position} {ps : List Position} :
    q ∈ p.insert ps ↔ q = p ∨ q ∈ ps := by
  induction ps with
  | nil => simp [insert]
  | cons r rest ih =>
      rw [insert]
      split
      · simp
      · next h => simp [cmp_eq_iff.1 h]
      · rw [List.mem_cons, ih, List.mem_cons]
        tauto

/-- Inserting keeps a list strictly increasing. -/
theorem increasing_insert {p : Position} {ps : List Position} (h : ps.Pairwise lt) :
    (p.insert ps).Pairwise lt := by
  induction ps with
  | nil => exact List.pairwise_singleton _ _
  | cons r rest ih =>
      have hrest : ∀ q ∈ rest, r.lt q := fun q hq => List.rel_of_pairwise_cons h hq
      rw [insert]
      split
      · next hcmp =>
          have hlt : p.lt r := cmp_eq_lt_iff.1 hcmp
          refine List.Pairwise.cons (fun q hq => ?_) h
          rcases List.mem_cons.1 hq with rfl | hq
          · exact hlt
          · exact lt_trans hlt (hrest q hq)
      · exact h
      · next hcmp =>
          refine List.Pairwise.cons (fun q hq => ?_) (ih h.of_cons)
          rcases mem_insert.1 hq with rfl | hq
          · exact cmp_eq_gt_iff.1 hcmp
          · exact hrest q hq

theorem setOf_concat (ps : List Position) (p : Position) :
    setOf (ps ++ [p]) = p.insert (setOf ps) := by
  simp [setOf]

theorem mem_setOf {q : Position} {ps : List Position} : q ∈ setOf ps ↔ q ∈ ps := by
  induction ps using List.reverseRecOn with
  | nil => rfl
  | append_singleton ps p ih =>
      rw [setOf_concat, mem_insert, ih, List.mem_append, List.mem_singleton, or_comm]

theorem increasing_setOf (ps : List Position) : (setOf ps).Pairwise lt := by
  induction ps using List.reverseRecOn with
  | nil => exact List.Pairwise.nil
  | append_singleton ps p ih =>
      rw [setOf_concat]
      exact increasing_insert ih

end Position

end PlanGraph
