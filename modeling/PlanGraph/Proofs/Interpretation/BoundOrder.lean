import PlanGraph.Cluster.Tree
import PlanGraph.Inference.Table
import PlanGraph.Proofs.Interpretation.ValueOrder
import PlanGraph.Proofs.TextMap

set_option autoImplicit false

/-! # The order of values that no note lists

Where no note lists the values of an operation, their bindings order them, and if there are none the
order of their lines does. Values may be called the same, and then the last of them counts: the
order is said by the values that no other one of the same name follows (`IsLast`). As soon as one
value is bound the others are left out (`orderOf_unlisted`). -/

namespace PlanGraph

/-- Whether a binding tag gives a value a number. -/
def Line.IsBound (v : Line) : Prop := v.binding?.isSome = true

instance (v : Line) : Decidable v.IsBound := inferInstanceAs (Decidable (_ = true))

namespace Operation

/-- `v` stands behind `front` among the values and counts, and none behind it that counts is called
    the same. -/
def IsLast (counts : Line → Prop) (values front : List Line) (v : Line) : Prop :=
  counts v ∧ ∃ back, values = front ++ v :: back ∧ ∀ w ∈ back, counts w → w.reference ≠ v.reference

/-! ## Bound values -/

theorem boundValues_eq_nil_iff {values : List Line} :
    boundValues values = [] ↔ ∀ v ∈ values, ¬ v.IsBound := by
  simp [boundValues, List.filterMap_eq_nil_iff, Line.IsBound]

theorem mem_boundValues {values : List Line} {key : Text} {n : Nat} :
    (key, n) ∈ boundValues values ↔ ∃ v ∈ values, v.reference = key ∧ v.binding? = some n := by
  simp only [boundValues, List.mem_filterMap, Option.map_eq_some_iff, Prod.mk.injEq]
  constructor
  · rintro ⟨v, hv, m, hm, hkey, rfl⟩
    exact ⟨v, hv, hkey, hm⟩
  · rintro ⟨v, hv, hkey, hn⟩
    exact ⟨v, hv, n, hn, hkey, rfl⟩

/-- A key has the binding of the last bound value that it calls. -/
theorem mem_ofLast_boundValues {values : List Line} {key : Text} {n : Nat} :
    (key, n) ∈ TextMap.ofLast (boundValues values) ↔
      ∃ front v, IsLast Line.IsBound values front v ∧ v.reference = key ∧ v.binding? = some n := by
  rw [TextMap.mem_ofLast_iff]
  constructor
  · rintro ⟨entries, later, hcut, hlater⟩
    obtain ⟨front, rest, rfl, -, hrest⟩ := List.filterMap_eq_append_iff.1 hcut
    obtain ⟨unbound, v, back, rfl, -, hv, rfl⟩ := List.filterMap_eq_cons_iff.1 hrest
    obtain ⟨m, hm, hentry⟩ := Option.map_eq_some_iff.1 hv
    obtain ⟨hkey, rfl⟩ := Prod.mk.inj hentry
    refine ⟨front ++ unbound, v, ⟨Option.isSome_iff_exists.2 ⟨m, hm⟩, back, by simp, ?_⟩, hkey, hm⟩
    intro w hw hbound
    obtain ⟨k, hk⟩ := Option.isSome_iff_exists.1 hbound
    rw [hkey]
    exact hlater (w.reference, k) (mem_boundValues.2 ⟨w, hw, rfl, hk⟩)
  · rintro ⟨front, v, ⟨-, back, rfl, hback⟩, rfl, hn⟩
    refine ⟨boundValues front, boundValues back, by simp [boundValues, hn], ?_⟩
    rintro ⟨key, k⟩ he
    obtain ⟨w, hw, rfl, hk⟩ := mem_boundValues.1 he
    exact hback w hw (Option.isSome_iff_exists.2 ⟨k, hk⟩)

/-! ## Values by their lines -/

theorem map_fst_numbered (ts : List Text) : (numbered ts).map Prod.fst = ts := by
  rw [numbered, List.map_fst_zip]
  rw [List.length_range']

theorem exists_numbered_append_cons (front back : List Text) (t : Text) :
    ∃ later, numbered (front ++ t :: back) = numbered front ++ (t, front.length + 1) :: later ∧
      later.map Prod.fst = back := by
  refine ⟨back.zip (List.range' (front.length + 2) back.length), ?_, ?_⟩
  · rw [numbered, List.length_append, ← List.range'_append_1,
      List.zip_append (by rw [List.length_range']), List.length_cons, List.range'_succ,
      List.zip_cons_cons, numbered, Nat.add_comm 1]
  · rw [List.map_fst_zip]
    rw [List.length_range']

/-- A key has the number of the last line that it calls. -/
theorem mem_ofLast_numbered {values : List Line} {key : Text} {n : Nat} :
    (key, n) ∈ TextMap.ofLast (numbered (values.map (·.reference))) ↔
      ∃ front v, IsLast (fun _ => True) values front v ∧ v.reference = key ∧
        n = front.length + 1 := by
  rw [TextMap.mem_ofLast_iff]
  constructor
  · rintro ⟨entries, later, hcut, hlater⟩
    have hkeys := congrArg (List.map Prod.fst) hcut
    rw [map_fst_numbered, List.map_append, List.map_cons] at hkeys
    obtain ⟨front, rest, rfl, hfront, hrest⟩ := List.map_eq_append_iff.1 hkeys
    obtain ⟨v, back, rfl, rfl, hback⟩ := List.map_eq_cons_iff.1 hrest
    refine ⟨front, v, ⟨trivial, back, rfl, ?_⟩, rfl, ?_⟩
    · intro w hw _ hcalled
      have hmem : w.reference ∈ later.map Prod.fst := by
        rw [← hback]
        exact List.mem_map_of_mem hw
      obtain ⟨e, he, hkey⟩ := List.mem_map.1 hmem
      exact hlater e he (hkey.trans hcalled)
    · -- both cuts are made behind as many entries
      obtain ⟨more, hnumbered, -⟩ := exists_numbered_append_cons (front.map (·.reference))
        (back.map (·.reference)) v.reference
      have hlength : (numbered (front.map (·.reference))).length = entries.length := by
        have h := congrArg List.length (map_fst_numbered (front.map (·.reference)))
        rw [hfront] at h ⊢
        simpa using h
      rw [List.map_append, List.map_cons, hnumbered] at hcut
      have hentry := (List.cons.inj (List.append_inj hcut hlength).2).1
      have hn := (Prod.mk.inj hentry).2
      rw [List.length_map] at hn
      exact hn.symm
  · rintro ⟨front, v, ⟨-, back, rfl, hback⟩, rfl, rfl⟩
    obtain ⟨later, hnumbered, hlater⟩ := exists_numbered_append_cons (front.map (·.reference))
      (back.map (·.reference)) v.reference
    refine ⟨_, later, by rw [List.map_append, List.map_cons, hnumbered, List.length_map], ?_⟩
    intro e he
    have hmem : e.1 ∈ back.map (·.reference) := by
      rw [← hlater]
      exact List.mem_map_of_mem he
    obtain ⟨w, hw, hcalled⟩ := List.mem_map.1 hmem
    rw [← hcalled]
    exact hback w hw trivial

/-! ## Unlisted orders -/

section Unlisted

variable {c : Cluster} (hnote : c.function.notes.get? "value_order" = none)
include hnote

theorem orderOf_of_bound (h : ∃ v ∈ c.values, v.IsBound) :
    orderOf c = .ofLast (boundValues c.values) := by
  have hne : boundValues c.values ≠ [] := by
    rw [Ne, boundValues_eq_nil_iff]
    intro hnone
    obtain ⟨v, hv, hbound⟩ := h
    exact hnone v hv hbound
  simp only [orderOf, hnote, List.isEmpty_iff, if_neg hne]

theorem orderOf_of_unbound (h : ∀ v ∈ c.values, ¬ v.IsBound) :
    orderOf c = .ofLast (numbered (c.values.map (·.reference))) := by
  simp only [orderOf, hnote, boundValues_eq_nil_iff.2 h, List.isEmpty_nil, if_true]

/-- The keys of an order are what its bound values are called, or all its values if none is. -/
theorem mem_keys_orderOf {key : Text} :
    key ∈ (orderOf c).map Prod.fst ↔
      ∃ v ∈ c.values, v.reference = key ∧ (v.IsBound ∨ ∀ w ∈ c.values, ¬ w.IsBound) := by
  by_cases h : ∃ v ∈ c.values, v.IsBound
  · have hnot : ¬ ∀ w ∈ c.values, ¬ w.IsBound := by
      intro hnone
      obtain ⟨v, hv, hbound⟩ := h
      exact hnone v hv hbound
    rw [orderOf_of_bound hnote h, TextMap.mem_keys_ofLast]
    simp only [hnot, or_false, List.mem_map, Prod.exists, exists_and_right, exists_eq_right]
    constructor
    · rintro ⟨n, hn⟩
      obtain ⟨v, hv, hkey, hbinding⟩ := mem_boundValues.1 hn
      exact ⟨v, hv, hkey, Option.isSome_iff_exists.2 ⟨n, hbinding⟩⟩
    · rintro ⟨v, hv, hkey, hbound⟩
      obtain ⟨n, hn⟩ := Option.isSome_iff_exists.1 hbound
      exact ⟨n, mem_boundValues.2 ⟨v, hv, hkey, hn⟩⟩
  · have hnone : ∀ w ∈ c.values, ¬ w.IsBound := fun w hw hbound => h ⟨w, hw, hbound⟩
    rw [orderOf_of_unbound hnote hnone, TextMap.mem_keys_ofLast, map_fst_numbered, List.mem_map]
    simp only [eq_true hnone, or_true, and_true]

end Unlisted

/-- The order in a row of the inference table is that of its cluster. -/
theorem valueOrder_of_row? {settings : Settings} {concepts : List ConceptRow} {c : Cluster}
    {row : InferenceRow} {o : Operation} (hrow : InferenceTable.row? settings concepts c = some row)
    (ho : row.interpretation = .operation o) :
    o.valueOrder = orderOf c ∧ row.values = c.values.map (·.reference) := by
  obtain ⟨⟨sequence, tier⟩, -, rfl⟩ := Option.map_eq_some_iff.1 hrow
  have hinterpretation : Interpretation.ofCluster sequence settings.noneAxis c = .operation o := ho
  cases sequence with
  | imperative => cases hinterpretation; exact ⟨rfl, rfl⟩
  | judgement => cases hinterpretation; exact ⟨rfl, rfl⟩
  | _ => cases hinterpretation

/-- The order of values that no note lists. If one of them is bound, each key is what a bound value
    is called and has the binding of the last such value; else each key is what a value is called
    and has the number of the last such line. So a row orders only its own values, and next to a
    bound value an unbound one only if it is called as a bound one is. -/
theorem orderOf_unlisted {c : Cluster} (hnote : c.function.notes.get? "value_order" = none) :
    (orderOf c).Ascending ∧
    (∀ key, key ∈ (orderOf c).map Prod.fst ↔
      ∃ v ∈ c.values, v.reference = key ∧ (v.IsBound ∨ ∀ w ∈ c.values, ¬ w.IsBound)) ∧
    ((∃ v ∈ c.values, v.IsBound) → ∀ key n, (key, n) ∈ orderOf c ↔
      ∃ front v, IsLast Line.IsBound c.values front v ∧ v.reference = key ∧ v.binding? = some n) ∧
    ((∀ v ∈ c.values, ¬ v.IsBound) → ∀ key n, (key, n) ∈ orderOf c ↔
      ∃ front v, IsLast (fun _ => True) c.values front v ∧ v.reference = key ∧
        n = front.length + 1) ∧
    (∀ settings concepts row o, InferenceTable.row? settings concepts c = some row →
      row.interpretation = .operation o →
      ∀ key ∈ o.valueOrder.map Prod.fst, key ∈ row.values) ∧
    ((∃ v ∈ c.values, v.IsBound) → ∀ v ∈ c.values, ¬ v.IsBound →
      (v.reference ∈ (orderOf c).map Prod.fst ↔
        ∃ w ∈ c.values, w.IsBound ∧ w.reference = v.reference)) := by
  have hkeys := @mem_keys_orderOf c hnote
  refine ⟨?_, fun key => hkeys, ?_, ?_, ?_, ?_⟩
  · by_cases h : ∃ v ∈ c.values, v.IsBound
    · rw [orderOf_of_bound hnote h]
      exact TextMap.ascending_ofLast _
    · rw [orderOf_of_unbound hnote fun v hv hbound => h ⟨v, hv, hbound⟩]
      exact TextMap.ascending_ofLast _
  · intro h key n
    rw [orderOf_of_bound hnote h]
    exact mem_ofLast_boundValues
  · intro h key n
    rw [orderOf_of_unbound hnote h]
    exact mem_ofLast_numbered
  · intro settings concepts row o hrow ho key hkey
    obtain ⟨horder, hvalues⟩ := valueOrder_of_row? hrow ho
    rw [horder] at hkey
    obtain ⟨v, hv, rfl, -⟩ := hkeys.1 hkey
    rw [hvalues]
    exact List.mem_map_of_mem hv
  · rintro ⟨u, hu, hbound⟩ v - -
    rw [hkeys]
    constructor
    · rintro ⟨w, hw, hcalled, hcounts⟩
      exact ⟨w, hw, hcounts.resolve_right fun hnone => hnone u hu hbound, hcalled⟩
    · rintro ⟨w, hw, hcounts, hcalled⟩
      exact ⟨w, hw, hcalled, Or.inl hcounts⟩

/-- A plan in which a value is bound twice and stands unbound in between, and in which neither a
    number of too many bits nor a digit of another script binds. -/
def mixedBindings : Text :=
  ":<: {r}\n    <= ::(f)\n    <- {a}<:{2}>\n" ++
    "    <- {b}<:{18446744073709551616}>\n    <- {a}\n" ++
    "    <- {a}<:{7}>\n    <- {c}<:{٣}>\n    <- {a}\n"

theorem orderOf_unlisted_mixedBindings :
    ∃ c ∈ Tree.clusters (Line.parse 4 mixedBindings),
      c.function.notes.get? "value_order" = none ∧
      c.values.map (·.binding?) = [some 2, none, none, some 7, none, none] ∧
      orderOf c = [("{a}".toList, 7)] ∧
      (∃ front v, IsLast Line.IsBound c.values front v ∧ v.reference = "{a}" ∧
        v.binding? = some 7) ∧
      ∃ v ∈ c.values, ¬ v.IsBound ∧ ¬ ∃ w ∈ c.values, w.IsBound ∧ w.reference = v.reference := by
  have hfacts : ∃ c ∈ Tree.clusters (Line.parse 4 mixedBindings),
      c.function.notes.get? "value_order" = none ∧
      c.values.map (·.binding?) = [some 2, none, none, some 7, none, none] ∧
      orderOf c = [("{a}".toList, 7)] ∧ (∃ v ∈ c.values, v.IsBound) ∧
      ∃ v ∈ c.values, ¬ v.IsBound ∧ v.reference ∉ (orderOf c).map Prod.fst := by
    decide +kernel
  obtain ⟨c, hc, hnote, hbindings, horder, hbound, v, hv, hunbound, hleft⟩ := hfacts
  obtain ⟨-, -, hlast, -, -, hshared⟩ := orderOf_unlisted hnote
  refine ⟨c, hc, hnote, hbindings, horder, ?_, v, hv, hunbound, ?_⟩
  · exact (hlast hbound _ 7).1 (by rw [horder]; exact List.mem_singleton.2 rfl)
  · rwa [← hshared hbound v hv hunbound]

end Operation

end PlanGraph
