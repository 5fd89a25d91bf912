import Mathlib.Data.List.Sort
import PlanGraph.Proofs.Concept.Mentions

set_option autoImplicit false

/-! # Sets of positions

Many texts spell the same numbers, so a set of positions that went by numbers alone would lose some
of them, and one that went by texts alone would list them out of order. Comparing by numbers first
and by texts behind them is a total order that tells all texts apart. So a strictly increasing list
of positions is determined by the texts in it (`Position.setOf_eq_iff`), and a search tree that asks
for nothing but the comparison lists the same positions as inserting them one by one
(`Position.toList_ofList`). `Position.cmp_lawful` puts these together. -/

namespace PlanGraph

namespace Position

/-! ## Laws of the comparison -/

theorem cmp_ne_gt_iff {p q : Position} : p.cmp q ≠ .gt ↔ p.rank ≤ q.rank :=
  (compares_cmp p q).ne_gt

instance : Std.TransCmp cmp where
  eq_swap {p q} := (compares_cmp p q).inj (compares_cmp q p).swap
  isLE_trans hpq hqr := le_iff_rank.2 ((le_iff_rank.1 hpq).trans (le_iff_rank.1 hqr))

instance : Std.LawfulEqCmp cmp where
  compare_self := cmp_eq_iff.2 rfl
  eq_of_compare := cmp_eq_iff.1

/-- Positions are compared by their numbers, and where these are the same by their texts. -/
theorem cmp_eq_lt_iff_sortKey {p q : Position} :
    p.cmp q = .lt ↔ p.sortKey.rank < q.sortKey.rank ∨
      p.sortKey = q.sortKey ∧ p.text.map Char.toNat < q.text.map Char.toNat := by
  rw [(compares_cmp p q).eq_lt, rank, rank, Prod.Lex.toLex_lt_toLex, SortKey.rank_injective.eq_iff]

/-- A path of numbers comes before the longer paths that start with it. -/
theorem cmp_eq_lt_of_isPrefix {p q : Position} {a b : List Nat} (hp : p.sortKey = .path a)
    (hq : q.sortKey = .path b) (hstarts : a <+: b) (hne : a ≠ b) : p.cmp q = .lt := by
  obtain ⟨more, rfl⟩ := hstarts
  have hmore : more ≠ [] := by
    rintro rfl
    exact hne (List.append_nil a).symm
  refine cmp_eq_lt_iff_sortKey.2 (Or.inl ?_)
  rw [hp, hq]
  exact WithTop.coe_lt_coe.2 (path_lt_append a hmore)

/-- The absent position comes behind all others. -/
theorem cmp_absent_iff {p : Position} : p.cmp absent = .lt ↔ p.text ≠ [] := by
  constructor
  · intro h htext
    have habsent : p = absent := eq_iff_text.2 htext
    rw [habsent, cmp_eq_iff.2 rfl] at h
    cases h
  · intro htext
    refine cmp_eq_lt_iff_sortKey.2 (Or.inl ?_)
    rw [sortKey_of_text_ne_nil htext]
    exact WithTop.coe_lt_top _

/-! ## Sets -/

instance : Std.Irrefl lt where
  irrefl _ h := h.2 rfl

instance : Std.Antisymm lt where
  antisymm _ _ hpq hqp := absurd rfl (lt_trans hpq hqp).2

theorem mem_texts_setOf {ps : List Position} {t : Text} :
    t ∈ (setOf ps).map (·.text) ↔ t ∈ ps.map (·.text) := by
  simp only [List.mem_map, mem_setOf]

theorem nodup_texts_setOf (ps : List Position) : ((setOf ps).map (·.text)).Nodup :=
  List.pairwise_map.2 ((increasing_setOf ps).imp fun h htext => h.2 (eq_iff_text.2 htext))

/-- A set depends on nothing but the texts that were inserted. -/
theorem setOf_eq_iff {ps qs : List Position} :
    setOf ps = setOf qs ↔ ∀ t, t ∈ ps.map (·.text) ↔ t ∈ qs.map (·.text) := by
  constructor
  · intro h t
    rw [← mem_texts_setOf, h, mem_texts_setOf]
  · intro h
    -- both sets ascend strictly, so their members determine them
    refine (increasing_setOf ps).eq_of_mem_iff (increasing_setOf qs) fun p => ?_
    have htext : ∀ rs : List Position, p ∈ setOf rs ↔ p.text ∈ rs.map (·.text) := by
      intro rs
      simp [mem_setOf, ← eq_iff_text]
    rw [htext, htext, h]

/-- A search tree by the comparison lists the set. -/
theorem toList_ofList (ps : List Position) : (Std.TreeSet.ofList ps cmp).toList = setOf ps := by
  have hincreasing : (Std.TreeSet.ofList ps cmp).toList.Pairwise lt :=
    Std.TreeSet.ordered_toList.imp cmp_eq_lt_iff.1
  refine hincreasing.eq_of_mem_iff (increasing_setOf ps) fun p => ?_
  rw [Std.TreeSet.mem_toList, Std.TreeSet.mem_ofList, List.contains_iff_mem, mem_setOf]

/-- **The order of positions is lawful.** Comparing positions is a total order in which only
    positions of the same text are equal. It refines the order of the numbers, which is
    lexicographic with a missing position last; so a path of numbers comes before every longer path
    that starts with it. Hence a set of positions, kept as an ascending list or as a search tree,
    holds each text that was inserted once and no other, and the order of the insertions does not
    matter. What the mentions of a concept gather is such a set. -/
theorem cmp_lawful (p q r : Position) (ps qs : List Position) (first : Line) (more : List Line) :
    ((p.cmp q ≠ .gt → q.cmp r ≠ .gt → p.cmp r ≠ .gt) ∧
      (p.cmp q ≠ .gt → q.cmp p ≠ .gt → p = q) ∧
      (p.cmp q ≠ .gt ∨ q.cmp p ≠ .gt) ∧
      (p.cmp q = .eq ↔ p.text = q.text)) ∧
    ((p.cmp q = .lt ↔ p.sortKey.rank < q.sortKey.rank ∨
        p.sortKey = q.sortKey ∧ p.text.map Char.toNat < q.text.map Char.toNat) ∧
      (∀ a b, p.sortKey = .path a → q.sortKey = .path b → a <+: b → a ≠ b → p.cmp q = .lt) ∧
      (p.cmp absent = .lt ↔ p.text ≠ [])) ∧
    ((setOf ps).Pairwise fun a b => a.cmp b = .lt) ∧
    ((setOf ps).map (·.text)).Nodup ∧
    (∀ t, t ∈ (setOf ps).map (·.text) ↔ t ∈ ps.map (·.text)) ∧
    (setOf ps = setOf qs ↔ ∀ t, t ∈ ps.map (·.text) ↔ t ∈ qs.map (·.text)) ∧
    (Std.TreeSet.ofList ps cmp).toList = setOf ps ∧
    (more.foldl Mention.absorb (.ofLine first)).positions =
      setOf ((first :: more).map (·.position)) := by
  refine ⟨⟨?_, ?_, ?_, cmp_eq_iff.trans eq_iff_text⟩,
    ⟨cmp_eq_lt_iff_sortKey, fun _ _ => cmp_eq_lt_of_isPrefix, cmp_absent_iff⟩,
    (increasing_setOf ps).imp cmp_eq_lt_iff.2, nodup_texts_setOf ps, fun _ => mem_texts_setOf,
    setOf_eq_iff, toList_ofList ps, Mention.positions_gather first more⟩
  · simp only [cmp_ne_gt_iff]
    exact le_trans
  · simp only [cmp_ne_gt_iff]
    intro hpq hqp
    exact rank_injective (le_antisymm hpq hqp)
  · simp only [cmp_ne_gt_iff]
    exact le_total _ _

/-- Positions of which several have the same numbers, and one has none. -/
def spellings : List Position :=
  ["2".toList, [], "02".toList, "1.10".toList, "x".toList, "1.2".toList, "+2".toList, "1".toList,
    "2".toList].map ofText

theorem cmp_lawful_spellings :
    let one := ofText "1".toList
    let ten := ofText "1.10".toList
    let two := ofText "02".toList
    one.cmp ten = .lt ∧ one.cmp two ≠ .gt ∧ ofText " 1".toList = one ∧
    (setOf spellings).map (·.text) = ["x".toList, "1".toList, "1.2".toList, "1.10".toList,
      "+2".toList, "02".toList, "2".toList, []] ∧
    (Std.TreeSet.ofList spellings.reverse cmp).toList = setOf spellings := by
  intro one ten two
  have hfacts : (one.sortKey = .path [1] ∧ ten.sortKey = .path [1, 10]) ∧
      (one.cmp ten ≠ .gt ∧ ten.cmp two ≠ .gt) ∧
      ((ofText " 1".toList).cmp one ≠ .gt ∧ one.cmp (ofText " 1".toList) ≠ .gt) ∧
      (setOf spellings).map (·.text) = ["x".toList, "1".toList, "1.2".toList, "1.10".toList,
        "+2".toList, "02".toList, "2".toList, []] := by
    decide +kernel
  obtain ⟨⟨hone, hten⟩, ⟨honeTen, htenTwo⟩, ⟨hspaced, hspaced'⟩, htexts⟩ := hfacts
  obtain ⟨⟨htrans, -⟩, ⟨-, hstarts, -⟩, -⟩ := cmp_lawful one ten two [] [] default []
  obtain ⟨⟨-, hantisymm, -⟩, -⟩ := cmp_lawful (ofText " 1".toList) one one [] [] default []
  obtain ⟨-, -, -, -, -, hset, htree, -⟩ :=
    cmp_lawful one one one spellings.reverse spellings default []
  refine ⟨hstarts _ _ hone hten (by decide) (by decide), htrans honeTen htenTwo,
    hantisymm hspaced hspaced', htexts, ?_⟩
  rw [htree, hset]
  simp

end Position

end PlanGraph
