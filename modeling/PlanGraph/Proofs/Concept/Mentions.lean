import Mathlib.Data.List.MinMax
import Mathlib.Data.List.Nodup
import PlanGraph.Concept.Mention
import PlanGraph.Proofs.Position.Order

set_option autoImplicit false

/-! # What is gathered of the mentions of a concept

`Mention.collect` runs once over the lines and keeps one record for each key. Here the run is
unfolded: the records stand in the order in which their keys first occur, and each is what its own
lines, taken by themselves, add up to (`gathered_collect`). What they add up to is said field by
field: the first line, the comments of the earliest line with the most comments, the set of all
positions, and whether some line is the final output. -/

namespace PlanGraph

namespace Mention

/-! ## The lines of one concept -/

/-- What a first line and further lines of the same concept say together. -/
def gather (first : Line) (more : List Line) : Mention := more.foldl absorb (ofLine first)

theorem gather_concat (first : Line) (more : List Line) (l : Line) :
    gather first (more ++ [l]) = (gather first more).absorb l := by
  simp [gather]

@[simp]
theorem key_absorb (m : Mention) (l : Line) : (m.absorb l).key = m.key := rfl

@[simp]
theorem line_gather (first : Line) (more : List Line) : (gather first more).line = first := by
  induction more using List.reverseRecOn with
  | nil => rfl
  | append_singleton more l ih =>
      rw [gather_concat]
      exact ih

/-- The positions are the set of those of all lines. -/
theorem positions_gather (first : Line) (more : List Line) :
    (gather first more).positions = Position.setOf ((first :: more).map (·.position)) := by
  induction more using List.reverseRecOn with
  | nil => rfl
  | append_singleton more l ih =>
      rw [gather_concat, absorb, ih, ← List.cons_append, List.map_append, List.map_singleton,
        Position.setOf_concat]

theorem mem_positions_gather {first : Line} {more : List Line} {p : Position} :
    p ∈ (gather first more).positions ↔ ∃ l ∈ first :: more, l.position = p := by
  rw [positions_gather, Position.mem_setOf, List.mem_map]

theorem increasing_positions_gather (first : Line) (more : List Line) :
    (gather first more).positions.Pairwise Position.lt := by
  rw [positions_gather]
  exact Position.increasing_setOf _

theorem isFinal_gather (first : Line) (more : List Line) :
    (gather first more).isFinal = (first :: more).any (·.hasRole .rootFinal) := by
  induction more using List.reverseRecOn with
  | nil => simp [gather, ofLine, absorb]
  | append_singleton more l ih =>
      rw [gather_concat, absorb, ih, ← List.cons_append, List.any_append]
      simp

/-- The comments are those of the earliest line that has the most. -/
theorem comments_gather (first : Line) (more : List Line) :
    ∃ l ∈ (first :: more).argmax (·.comments.length),
      (gather first more).comments = l.comments := by
  induction more using List.reverseRecOn with
  | nil => exact ⟨first, by simp [List.argmax_singleton], by simp [gather, ofLine, absorb]⟩
  | append_singleton more l ih =>
      obtain ⟨k, hk, hcomments⟩ := ih
      rw [gather_concat, ← List.cons_append, List.argmax_concat, Option.mem_def.1 hk]
      -- the last line wins by having more comments, not by having as many
      simp only [absorb, hcomments]
      split
      · exact ⟨l, rfl, rfl⟩
      · exact ⟨k, rfl, rfl⟩

/-! ## One line more -/

theorem add_of_not_mem {ms : List Mention} {l : Line} (h : l.conceptKey ∉ ms.map key) :
    add ms l = ms ++ [ofLine l] := by
  induction ms with
  | nil => rfl
  | cons m rest ih =>
      simp only [List.map_cons, List.mem_cons, not_or] at h
      rw [add, if_neg (fun he => h.1 he.symm), ih h.2, List.cons_append]

theorem map_key_add_of_mem {ms : List Mention} {l : Line} (h : l.conceptKey ∈ ms.map key) :
    (add ms l).map key = ms.map key := by
  induction ms with
  | nil => simp at h
  | cons m rest ih =>
      rw [add]
      split
      · simp
      · next hne =>
          simp only [List.map_cons, List.mem_cons] at h
          rw [List.map_cons, List.map_cons, ih (h.resolve_left fun he => hne he.symm)]

/-- Only the record of the line's own key changes, and it absorbs the line. -/
theorem mem_add {ms : List Mention} {l : Line} (hnodup : (ms.map key).Nodup)
    (h : l.conceptKey ∈ ms.map key) {m : Mention} (hm : m ∈ add ms l) :
    (m ∈ ms ∧ m.key ≠ l.conceptKey) ∨ ∃ old ∈ ms, old.key = l.conceptKey ∧ m = old.absorb l := by
  induction ms with
  | nil => simp at h
  | cons first rest ih =>
      rw [List.map_cons, List.nodup_cons] at hnodup
      rw [add] at hm
      split at hm
      · next hkey =>
          rcases List.mem_cons.1 hm with rfl | hm
          · exact Or.inr ⟨first, List.mem_cons_self, hkey, rfl⟩
          · refine Or.inl ⟨List.mem_cons_of_mem _ hm, fun he => hnodup.1 ?_⟩
            rw [hkey, ← he]
            exact List.mem_map_of_mem hm
      · next hne =>
          rw [List.map_cons, List.mem_cons] at h
          rcases List.mem_cons.1 hm with rfl | hm
          · exact Or.inl ⟨List.mem_cons_self, hne⟩
          · rcases ih hnodup.2 (h.resolve_left fun he => hne he.symm) hm with
              ⟨hmem, hk⟩ | ⟨old, hold, hk, rfl⟩
            · exact Or.inl ⟨List.mem_cons_of_mem _ hmem, hk⟩
            · exact Or.inr ⟨old, List.mem_cons_of_mem _ hold, hk, rfl⟩

/-! ## All lines -/

/-- The lines that mention a concept. -/
def linesOf (key : Text) (lines : List Line) : List Line := lines.filter (·.conceptKey = key)

theorem mem_linesOf {key : Text} {lines : List Line} {l : Line} :
    l ∈ linesOf key lines ↔ l ∈ lines ∧ l.conceptKey = key := by
  simp [linesOf]

/-- The records of some lines: one for each key, in the order of first occurrence, each gathered of
    the lines with its key. -/
structure Gathered (lines : List Line) (ms : List Mention) : Prop where
  keys : ms.map key = (lines.map (·.conceptKey)).eraseDups
  nodup : (ms.map key).Nodup
  each : ∀ m ∈ ms, ∃ more, linesOf m.key lines = m.line :: more ∧ m = gather m.line more

theorem Gathered.mem_keys {lines : List Line} {ms : List Mention} (h : Gathered lines ms)
    {k : Text} : k ∈ ms.map key ↔ ∃ l ∈ lines, l.conceptKey = k := by
  rw [h.keys, List.mem_eraseDups, List.mem_map]

theorem linesOf_concat (k : Text) (lines : List Line) (l : Line) :
    linesOf k (lines ++ [l]) = linesOf k lines ++ if l.conceptKey = k then [l] else [] := by
  rw [linesOf, List.filter_append, List.filter_singleton, linesOf]
  by_cases h : l.conceptKey = k <;> simp [h]

/-- A further key comes last, unless it is there already. -/
theorem eraseDups_concat (ks : List Text) (k : Text) :
    (ks ++ [k]).eraseDups = if k ∈ ks then ks.eraseDups else ks.eraseDups ++ [k] := by
  rw [List.eraseDups_append, List.removeAll, List.filter_singleton]
  by_cases h : k ∈ ks <;> simp [h, List.eraseDups_cons]

theorem Gathered.add {lines : List Line} {ms : List Mention} (h : Gathered lines ms) (l : Line) :
    Gathered (lines ++ [l]) (Mention.add ms l) := by
  have hkeys : l.conceptKey ∈ ms.map key ↔ l.conceptKey ∈ lines.map (·.conceptKey) := by
    rw [h.keys, List.mem_eraseDups]
  have hdups : ((lines ++ [l]).map (·.conceptKey)).eraseDups =
      if l.conceptKey ∈ ms.map key then ms.map key else ms.map key ++ [l.conceptKey] := by
    rw [List.map_append, List.map_singleton, eraseDups_concat, ← h.keys]
    simp only [hkeys]
  by_cases hmem : l.conceptKey ∈ ms.map key
  · -- one record absorbs the line, the others are left as they are
    refine ⟨?_, ?_, ?_⟩
    · rw [map_key_add_of_mem hmem, hdups, if_pos hmem]
    · rw [map_key_add_of_mem hmem]
      exact h.nodup
    · intro m hm
      rcases mem_add h.nodup hmem hm with ⟨hm, hne⟩ | ⟨old, hold, hkey, rfl⟩
      · obtain ⟨more, hlines, hgather⟩ := h.each m hm
        refine ⟨more, ?_, hgather⟩
        rw [linesOf_concat, if_neg (fun he => hne he.symm), List.append_nil, hlines]
      · obtain ⟨more, hlines, hgather⟩ := h.each old hold
        refine ⟨more ++ [l], ?_, ?_⟩
        · rw [key_absorb, linesOf_concat, if_pos hkey.symm, hlines]
          rfl
        · rw [gather_concat]
          exact congrArg (absorb · l) hgather
  · -- the line is the first of its concept
    rw [add_of_not_mem hmem]
    refine ⟨?_, ?_, ?_⟩
    · rw [hdups, if_neg hmem, List.map_append]
      rfl
    · rw [List.map_append]
      exact List.Nodup.append h.nodup (List.nodup_singleton _) (List.disjoint_singleton.2 hmem)
    · intro m hm
      rcases List.mem_append.1 hm with hm | hm
      · obtain ⟨more, hlines, hgather⟩ := h.each m hm
        refine ⟨more, ?_, hgather⟩
        have hne : l.conceptKey ≠ m.key := fun he => hmem (he ▸ List.mem_map_of_mem hm)
        rw [linesOf_concat, if_neg hne, List.append_nil, hlines]
      · rw [List.mem_singleton.1 hm]
        have hnone : linesOf l.conceptKey lines = [] := by
          rw [linesOf, List.filter_eq_nil_iff]
          intro k hk hkey
          exact hmem (hkeys.2 (List.mem_map.2 ⟨k, hk, by simpa using hkey⟩))
        refine ⟨[], ?_, rfl⟩
        show linesOf l.conceptKey (lines ++ [l]) = [l]
        rw [linesOf_concat, if_pos rfl, hnone]
        rfl

theorem gathered_foldl_add (lines : List Line) : Gathered lines (lines.foldl Mention.add []) := by
  induction lines using List.reverseRecOn with
  | nil => exact ⟨rfl, List.nodup_nil, by simp⟩
  | append_singleton lines l ih =>
      rw [List.foldl_append]
      exact ih.add l

/-- The records of the clusters' lines. -/
theorem gathered_collect (clusters : List Cluster) : Gathered (lines clusters) (collect clusters) :=
  gathered_foldl_add (lines clusters)

end Mention

end PlanGraph
