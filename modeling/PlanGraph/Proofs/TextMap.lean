import PlanGraph.Proofs.Note
import PlanGraph.Proofs.Position.Order

set_option autoImplicit false

/-! # Maps as they are listed

A map lists its entries in the strict order of their keys, however it was filled
(`TextMap.ascending_ofLast`). So an entry stands in the list exactly if its key has its value
(`TextMap.Ascending.mem_iff`), and of all entries that a map is filled with those stay that no entry
of the same key follows (`TextMap.mem_ofLast_iff`). -/

namespace PlanGraph

namespace Text

/-- The strict order of texts. -/
def lt (s t : Text) : Prop := le s t = true ∧ s ≠ t

theorem lt_iff {s t : Text} : lt s t ↔ s.map Char.toNat < t.map Char.toNat := by
  have hinjective : Function.Injective (List.map Char.toNat) :=
    List.map_injective_iff.2 fun _ _ => Char.toNat_inj.1
  rw [lt, le_iff, lt_iff_le_and_ne, hinjective.ne_iff]

theorem lt_trans {s t u : Text} (hst : lt s t) (htu : lt t u) : lt s u := by
  rw [lt_iff] at *
  exact hst.trans htu

theorem lt_of_not_le {s t : Text} (h : ¬ le s t = true) : lt t s := by
  rw [le_iff, not_le] at h
  exact lt_iff.2 h

end Text

namespace TextMap

variable {α : Type}

/-! ## The order of the keys -/

/-- A map in the strict order of its keys. -/
def Ascending (m : TextMap α) : Prop := m.Pairwise fun d e => Text.lt d.1 e.1

theorem mem_insert {m : TextMap α} {key : Text} {v : α} {e : Text × α} (h : e ∈ m.insert key v) :
    e = (key, v) ∨ e ∈ m := by
  induction m with
  | nil => exact Or.inl (List.mem_singleton.1 h)
  | cons d rest ih =>
      obtain ⟨k, w⟩ := d
      rw [insert] at h
      split at h
      · rcases List.mem_cons.1 h with rfl | h
        · exact Or.inl rfl
        · exact Or.inr (List.mem_cons_of_mem _ h)
      · split at h
        · exact List.mem_cons.1 h
        · rcases List.mem_cons.1 h with rfl | h
          · exact Or.inr List.mem_cons_self
          · exact (ih h).imp_right (List.mem_cons_of_mem _)

theorem Ascending.insert {m : TextMap α} (h : m.Ascending) (key : Text) (v : α) :
    (m.insert key v).Ascending := by
  induction m with
  | nil => exact List.pairwise_singleton _ _
  | cons d rest ih =>
      obtain ⟨k, w⟩ := d
      have hrest : ∀ e ∈ rest, Text.lt k e.1 := fun e he => List.rel_of_pairwise_cons h he
      rw [TextMap.insert]
      split
      · next hkey =>
          subst hkey
          exact List.Pairwise.cons hrest h.of_cons
      · next hne =>
          split
          · next hle =>
              refine List.Pairwise.cons (fun e he => ?_) h
              rcases List.mem_cons.1 he with rfl | he
              · exact ⟨hle, hne⟩
              · exact Text.lt_trans ⟨hle, hne⟩ (hrest e he)
          · next hle =>
              refine List.Pairwise.cons (fun e he => ?_) (ih h.of_cons)
              rcases mem_insert he with rfl | he
              · exact Text.lt_of_not_le hle
              · exact hrest e he

theorem ascending_ofLast (entries : List (Text × α)) : (ofLast entries).Ascending := by
  have hfold : ∀ m : TextMap α, m.Ascending →
      Ascending (entries.foldl (fun m e => m.insert e.1 e.2) m) := by
    induction entries with
    | nil => exact fun m h => h
    | cons e rest ih => exact fun m h => ih _ (h.insert e.1 e.2)
  exact hfold [] List.Pairwise.nil

/-! ## Entries -/

/-- The value of a key stands in the first entry of that key. -/
theorem get?_eq_some_iff {m : TextMap α} {key : Text} {v : α} :
    m.get? key = some v ↔ ∃ front back, m = front ++ (key, v) :: back ∧ ∀ e ∈ front, e.1 ≠ key := by
  constructor
  · intro h
    induction m with
    | nil => simp [get?] at h
    | cons d rest ih =>
        obtain ⟨k, w⟩ := d
        rw [get?] at h
        split at h
        · next hkey =>
            obtain rfl := Option.some.inj h
            exact ⟨[], rest, by rw [hkey, List.nil_append], by simp⟩
        · next hkey =>
            obtain ⟨front, back, rfl, hfront⟩ := ih h
            refine ⟨(k, w) :: front, back, rfl, ?_⟩
            rw [List.forall_mem_cons]
            exact ⟨fun he => hkey he.symm, hfront⟩
  · rintro ⟨front, back, rfl, hfront⟩
    have hnone : get? front key = none := by
      rw [Option.eq_none_iff_forall_ne_some]
      intro w hw
      exact hfront (key, w) (mem_of_get? hw) rfl
    rw [get?_append, hnone, Option.none_or, get?, if_pos rfl]

/-- In a map each key has one entry. -/
theorem Ascending.mem_iff {m : TextMap α} (h : m.Ascending) {key : Text} {v : α} :
    (key, v) ∈ m ↔ m.get? key = some v := by
  refine ⟨fun hmem => ?_, mem_of_get?⟩
  obtain ⟨front, back, rfl⟩ := List.append_of_mem hmem
  rw [get?_eq_some_iff]
  refine ⟨front, back, rfl, fun e he => ?_⟩
  exact ((List.pairwise_append.1 h).2.2 e he (key, v) List.mem_cons_self).2

/-- An entry stays in a map if no other entry of its key follows it. -/
theorem mem_ofLast_iff {entries : List (Text × α)} {key : Text} {v : α} :
    (key, v) ∈ ofLast entries ↔
      ∃ front back, entries = front ++ (key, v) :: back ∧ ∀ e ∈ back, e.1 ≠ key := by
  rw [(ascending_ofLast entries).mem_iff, get?_ofLast, get?_eq_some_iff]
  constructor
  · rintro ⟨front, back, hentries, hfront⟩
    refine ⟨back.reverse, front.reverse, ?_, fun e he => hfront e (List.mem_reverse.1 he)⟩
    rw [← List.reverse_reverse entries, hentries]
    simp
  · rintro ⟨front, back, rfl, hback⟩
    exact ⟨back.reverse, front.reverse, by simp, fun e he => hback e (List.mem_reverse.1 he)⟩

theorem mem_keys_ofLast {entries : List (Text × α)} {key : Text} :
    key ∈ (ofLast entries).map Prod.fst ↔ key ∈ entries.map Prod.fst := by
  simp only [List.mem_map, Prod.exists, exists_and_right, exists_eq_right]
  constructor
  · rintro ⟨v, hv⟩
    obtain ⟨front, back, rfl, -⟩ := mem_ofLast_iff.1 hv
    exact ⟨v, by simp⟩
  · rintro ⟨v, hv⟩
    obtain ⟨w, hw⟩ := exists_get?_of_mem (List.mem_reverse.2 hv)
    rw [← get?_ofLast] at hw
    exact ⟨w, mem_of_get? hw⟩

end TextMap

end PlanGraph
