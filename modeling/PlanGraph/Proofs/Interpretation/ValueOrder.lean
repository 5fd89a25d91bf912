import PlanGraph.Cluster.Tree
import PlanGraph.Interpretation.Operation
import PlanGraph.Proofs.Items
import PlanGraph.Proofs.Line.Concept

set_option autoImplicit false

/-! # The order of the values of an operation

The note `value_order` of an operation lists its values by what they are called. The list is read by
a count of all brackets together, and what the values are called was read bracket by bracket; so the
listed order is obeyed exactly if the list keeps the values apart and its own brackets are found
(`orderOf_listed_iff`). It always is where the brackets of the names nest. -/

namespace PlanGraph

namespace Operation

/-! ## Numbered lists -/

theorem mem_numbered {ts : List Text} {key : Text} {n : Nat} :
    (key, n) ∈ numbered ts ↔ ∃ i, ts[i]? = some key ∧ n = i + 1 := by
  rw [numbered, List.mem_iff_getElem?]
  constructor
  · rintro ⟨i, hi⟩
    obtain ⟨hkey, hnumber⟩ := List.getElem?_zip_eq_some.1 hi
    have hlt := (List.getElem?_eq_some_iff.1 hkey).1
    rw [List.getElem?_range' hlt, Option.some.injEq] at hnumber
    exact ⟨i, hkey, by omega⟩
  · rintro ⟨i, hkey, rfl⟩
    have hlt := (List.getElem?_eq_some_iff.1 hkey).1
    refine ⟨i, List.getElem?_zip_eq_some.2 ⟨hkey, ?_⟩⟩
    rw [List.getElem?_range' hlt, Option.some.injEq]
    omega

theorem numbered_concat (ts : List Text) (t : Text) :
    numbered (ts ++ [t]) = numbered ts ++ [(t, ts.length + 1)] := by
  rw [numbered, List.length_append, List.length_singleton, List.range'_concat,
    List.zip_append (by rw [List.length_range']), numbered]
  simp [Nat.add_comm]

/-- A map that gives each text of a list its number there, and holds nothing else. -/
def Numbers (m : TextMap Nat) (ts : List Text) : Prop :=
  ∀ key n, m.get? key = some n ↔ ∃ i, ts[i]? = some key ∧ n = i + 1

theorem mem_numbered_of_get? {items : List Text} {key : Text} {n : Nat}
    (h : (TextMap.ofLast (numbered items)).get? key = some n) :
    ∃ i, items[i]? = some key ∧ n = i + 1 := by
  rw [TextMap.get?_ofLast] at h
  exact mem_numbered.1 (List.mem_reverse.1 (TextMap.mem_of_get? h))

theorem numbers_of_nodup {ts : List Text} (h : ts.Nodup) : Numbers (.ofLast (numbered ts)) ts := by
  intro key n
  refine ⟨mem_numbered_of_get?, ?_⟩
  rintro ⟨i, hi, rfl⟩
  obtain ⟨n, hn⟩ := TextMap.exists_get?_of_mem
    (List.mem_reverse.2 (mem_numbered.2 ⟨i, hi, rfl⟩))
  rw [← TextMap.get?_ofLast] at hn
  obtain ⟨j, hj, rfl⟩ := mem_numbered_of_get? hn
  obtain rfl : i = j :=
    (List.getElem?_inj (List.getElem?_eq_some_iff.1 hi).1 h).1 (hi.trans hj.symm)
  exact hn

/-- A list of distinct texts is found again in the numbers it gives. -/
theorem numbers_iff {items ts : List Text} (h : ts.Nodup) :
    Numbers (.ofLast (numbered items)) ts ↔ items = ts := by
  constructor
  · intro hnumbers
    have hlength : items.length ≤ ts.length := by
      rcases List.eq_nil_or_concat items with rfl | ⟨front, last, rfl⟩
      · exact Nat.zero_le _
      · -- the last item has the last number
        have hget : (TextMap.ofLast (numbered (front.concat last))).get? last =
            some (front.length + 1) := by
          rw [TextMap.get?_ofLast, List.concat_eq_append, numbered_concat, List.reverse_append]
          exact if_pos rfl
        obtain ⟨i, hi, hlast⟩ := (hnumbers last (front.length + 1)).1 hget
        have hlt := (List.getElem?_eq_some_iff.1 hi).1
        rw [List.length_concat]
        omega
    refine List.ext_getElem? fun i => ?_
    cases hi : ts[i]? with
    | none => exact List.getElem?_eq_none (hlength.trans (List.getElem?_eq_none_iff.1 hi))
    | some key =>
        obtain ⟨j, hj, heq⟩ := mem_numbered_of_get? ((hnumbers key (i + 1)).2 ⟨i, hi, rfl⟩)
        obtain rfl : i = j := Nat.succ.inj heq
        exact hj
  · rintro rfl
    exact numbers_of_nodup h

/-! ## Listed orders -/

theorem listedOrder_eq {note inner : Text} (h : (Bracket.square.strip? note).getD note = inner)
    (hinner : Items.Unquoted inner) :
    listedOrder note = .ofLast (numbered (Items.split ',' inner)) := by
  rw [listedOrder, h, Items.map_unquote_split hinner]

/-- A list in square brackets gives its items their numbers exactly if its brackets are found and it
    keeps its items apart. -/
theorem numbers_listedOrder_iff {items : List Text} (hnodup : items.Nodup)
    (hitems : ∀ item ∈ items, Items.IsItem item ∧ ∃ x ∈ item, x ≠ '[') :
    Numbers (listedOrder ('[' :: (Items.listed items ++ [']']))) items ↔
      Items.Apart items ∧ Bracket.Matched '[' ']' (Items.listed items) := by
  have hunquoted := Items.unquoted_listed fun item hitem => (hitems item hitem).1.unquoted
  have hstrip : Bracket.square.strip? ('[' :: (Items.listed items ++ [']'])) =
      if Bracket.Matched '[' ']' (Items.listed items) then some (Items.listed items) else none :=
    Bracket.strip?_enclosed (by decide) _
  by_cases hmatched : Bracket.Matched '[' ']' (Items.listed items)
  · rw [if_pos hmatched] at hstrip
    rw [listedOrder_eq (by rw [hstrip]; rfl) hunquoted, numbers_iff hnodup,
      Items.split_listed_iff fun item hitem => (hitems item hitem).1, and_iff_left hmatched]
  · rw [if_neg hmatched] at hstrip
    have hnote : Items.Unquoted ('[' :: (Items.listed items ++ [']'])) :=
      Items.unquoted_cons.2 ⟨by decide, Items.unquoted_append.2 ⟨hunquoted, by decide⟩⟩
    rw [listedOrder_eq (by rw [hstrip]; rfl) hnote, numbers_iff hnodup]
    refine iff_of_false ?_ fun h => hmatched h.2
    cases items with
    | nil => exact absurd Bracket.Matched.nil hmatched
    | cons item items => exact Items.split_bracket_ne (hitems item List.mem_cons_self).2 items _

/-- What a concept in brackets is called can stand as an item. -/
theorem isItem_reference {v : Line} (h : v.kind.form = .bracketed)
    (hquotes : Items.Unquoted v.reference) :
    Items.IsItem v.reference ∧ ∃ x ∈ v.reference, x ≠ '[' := by
  obtain ⟨b, hreference⟩ := Line.exists_reference_eq h
  have hends : b.opening ≠ ',' ∧ b.closing ≠ '[' := by cases b <;> decide
  refine ⟨⟨hquotes, ?_, ?_⟩, ?_⟩
  · rw [hreference]
    exact Bracket.tight_enclosed b v.name
  · rw [hreference]
    exact ⟨b.opening, rfl, hends.1⟩
  · rw [hreference]
    exact ⟨b.closing, by simp, hends.2⟩

/-- A `value_order` note that lists the values of a cluster, in any order, gives each its place in
    the list and nothing else exactly if the list keeps them apart and its own brackets are found.
    That is so if the brackets of each name nest, whatever commas stand in them. -/
theorem orderOf_listed_iff {c : Cluster} {order : List Text}
    (hkinds : ∀ v ∈ c.values, v.kind.form = .bracketed)
    (hdistinct : (c.values.map (·.reference)).Nodup)
    (hquotes : ∀ v ∈ c.values, Items.Unquoted v.reference)
    (horder : order.Perm (c.values.map (·.reference)))
    (hnote : c.function.notes.get? "value_order" = some ('[' :: (Items.listed order ++ [']']))) :
    (Numbers (orderOf c) order ↔
      Items.Apart order ∧ Bracket.Matched '[' ']' (Items.listed order)) ∧
    ((∀ v ∈ c.values, Bracket.Nested v.name) → Numbers (orderOf c) order) := by
  have hvalue : ∀ item ∈ order, ∃ v ∈ c.values, v.reference = item := by
    intro item hitem
    exact List.mem_map.1 (horder.mem_iff.1 hitem)
  have hiff : Numbers (orderOf c) order ↔
      Items.Apart order ∧ Bracket.Matched '[' ']' (Items.listed order) := by
    rw [orderOf, hnote]
    refine numbers_listedOrder_iff (horder.nodup_iff.2 hdistinct) fun item hitem => ?_
    obtain ⟨v, hv, rfl⟩ := hvalue item hitem
    exact isItem_reference (hkinds v hv) (hquotes v hv)
  refine ⟨hiff, fun hnested => hiff.2 ?_⟩
  have hitems : ∀ item ∈ order, ∃ (b : Bracket) (t : Text),
      item = b.opening :: (t ++ [b.closing]) ∧ Bracket.Nested t := by
    intro item hitem
    obtain ⟨v, hv, rfl⟩ := hvalue item hitem
    obtain ⟨b, hreference⟩ := Line.exists_reference_eq (hkinds v hv)
    exact ⟨b, v.name, hreference, hnested v hv⟩
  have hlisted : Bracket.Nested (Items.listed order) := by
    refine Items.nested_listed fun item hitem => ?_
    obtain ⟨b, t, rfl, ht⟩ := hitems item hitem
    exact ht.enclosed b
  exact ⟨Items.apart_of_nested hitems, hlisted.matched .square⟩

/-- A plan that lists its values in another order than that of their lines, with commas inside
    their brackets. -/
def nestedValues : Text :=
  ":<: {r}\n    <= ::(f) | %{value_order}: [[pairs (x, y)], {sum of [a, b]}]\n" ++
    "    <- {sum of [a, b]}\n    <- [pairs (x, y)]\n"

theorem orderOf_listed_iff_nestedValues :
    let order : List Text := ["[pairs (x, y)]", "{sum of [a, b]}"]
    ∃ c ∈ Tree.clusters (Line.parse 4 nestedValues),
      c.values.map (·.reference) = order.reverse ∧
      (Items.Apart order ∧ Bracket.Matched '[' ']' (Items.listed order)) ∧
      Numbers (orderOf c) order := by
  intro order
  have hfacts : ∃ c ∈ Tree.clusters (Line.parse 4 nestedValues),
      c.values.map (·.reference) = order.reverse ∧
      c.values.map (·.name) = ["sum of [a, b]", "pairs (x, y)"] ∧
      (∀ v ∈ c.values, v.kind.form = .bracketed) ∧
      (∀ v ∈ c.values, Items.Unquoted v.reference) ∧
      c.function.notes.get? "value_order" = some ('[' :: (Items.listed order ++ [']'])) := by
    decide +kernel
  obtain ⟨c, hc, hreferences, hnames, hkinds, hquotes, hnote⟩ := hfacts
  have hnested : ∀ name ∈ c.values.map (·.name), Bracket.Nested name := by
    have hlist : Bracket.Nested "a, b".toList := .of_plain (by decide)
    have hpair : Bracket.Nested "x, y".toList := .of_plain (by decide)
    have hsum : Bracket.Nested "sum of [a, b]".toList :=
      (Bracket.Nested.of_plain (t := "sum of ".toList) (by decide)).append (hlist.enclosed .square)
    have hpairs : Bracket.Nested "pairs (x, y)".toList :=
      (Bracket.Nested.of_plain (t := "pairs ".toList) (by decide)).append (hpair.enclosed .round)
    rw [hnames]
    simpa using ⟨hsum, hpairs⟩
  have hdistinct : (c.values.map (·.reference)).Nodup := by
    rw [hreferences]
    decide
  have horder : order.Perm (c.values.map (·.reference)) := by
    rw [hreferences]
    exact order.reverse_perm.symm
  obtain ⟨hiff, hobeyed⟩ := orderOf_listed_iff hkinds hdistinct hquotes horder hnote
  have hnumbers := hobeyed fun v hv => hnested v.name (List.mem_map_of_mem hv)
  exact ⟨c, hc, hreferences, hiff.1 hnumbers, hnumbers⟩

/-- A plan that lists a value which compares. -/
def comparedValues : Text :=
  ":<: {r}\n    <= ::(f) | %{value_order}: [<count < 5>, {b}]\n" ++
    "    <- {b}\n    <- <count < 5>\n"

/-- The `<` of a comparison opens a bracket that the list never closes, so both values are one. -/
theorem orderOf_comparedValues :
    let order : List Text := ["<count < 5>", "{b}"]
    ∃ c ∈ Tree.clusters (Line.parse 4 comparedValues),
      (∀ v ∈ c.values, v.kind.form = .bracketed ∧ v.classification.warnings = [] ∧
        Items.Unquoted v.reference ∧ '|' ∉ v.reference ∧ '\\' ∉ v.reference) ∧
      (c.values.map (·.reference)).Nodup ∧ order.Perm (c.values.map (·.reference)) ∧
      c.function.notes.get? "value_order" = some ('[' :: (Items.listed order ++ [']'])) ∧
      orderOf c = [("<count < 5>, {b}".toList, 1)] ∧ ¬ Numbers (orderOf c) order := by
  intro order
  have hnot : ¬ Numbers [("<count < 5>, {b}".toList, 1)] order := by
    intro hnumbers
    exact absurd ((hnumbers "{b}".toList 2).2 ⟨1, rfl, rfl⟩) (by decide)
  have hlisted : ∀ c, (orderOf c = [("<count < 5>, {b}".toList, 1)] ∧
      ¬ Numbers (orderOf c) order) ↔ orderOf c = [("<count < 5>, {b}".toList, 1)] := by
    intro c
    exact and_iff_left_of_imp fun h => h ▸ hnot
  simp only [hlisted]
  decide +kernel

end Operation

end PlanGraph
