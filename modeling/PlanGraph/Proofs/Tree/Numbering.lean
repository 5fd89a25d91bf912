import Mathlib.Data.List.Basic
import PlanGraph.Cluster.Tree
import PlanGraph.Proofs.Line.Parse
import PlanGraph.Proofs.Position.Spelling

set_option autoImplicit false

/-! # Positions and the tree of lines

Two stacks run over the depths of the lines: the counter, which gives the positions, and the
ancestry, which gives the parents. They describe the same tree. The joint invariant is `Agree`: the
count of a depth is the number of lines so far that have that depth and the parent that a next line
of that depth would get. One line keeps it (`Agree.step`), hence all lines do, and with it every
line continues the path of its parent by zeros and its number among its siblings
(`components_of_parse`). -/

namespace PlanGraph

/-! ## Counts by depth -/

namespace Counter

/-- The count of a depth; zero for one that was not reached. -/
def count (c : Counter) (depth : Nat) : Nat := c.counts.getD depth 0

theorem count_advance_of_lt (c : Counter) {d e : Nat} (h : e < d) :
    (c.advance d).count e = c.count e := by
  simp only [count, advance, List.getD_eq_getElem?_getD, List.append_assoc]
  by_cases hlen : e < c.counts.length
  · rw [List.getElem?_append_left (by simp; omega), List.getElem?_take_of_lt h]
  · rw [List.getElem?_append_right (by simp; omega)]
    have hrep : e - (c.counts.take d).length < d - c.counts.length := by
      simp only [List.length_take]
      omega
    rw [List.getElem?_append_left (by simpa using hrep), List.getElem?_replicate, if_pos hrep,
      List.getElem?_eq_none (by omega)]
    rfl

theorem count_advance_self (c : Counter) (d : Nat) : (c.advance d).count d = raise (c.count d) := by
  have hlen : (c.counts.take d ++ List.replicate (d - c.counts.length) 0).length = d := by
    simp only [List.length_append, List.length_take, List.length_replicate]
    omega
  simp only [count, advance, List.getD_eq_getElem?_getD]
  rw [List.getElem?_append_right (by omega), hlen]
  simp

theorem count_advance_of_gt (c : Counter) {d e : Nat} (h : d < e) : (c.advance d).count e = 0 := by
  rw [count, List.getD_eq_getElem?_getD, List.getElem?_eq_none (by rw [length_advance]; omega)]
  rfl

/-- The counts of the first `n` depths. -/
def front (c : Counter) (n : Nat) : List Nat := (List.range n).map c.count

theorem counts_advance (c : Counter) (d : Nat) :
    (c.advance d).counts = (c.advance d).front (d + 1) := by
  refine List.ext_getElem? fun e => ?_
  by_cases h : e < d + 1
  · simp [front, count, h, List.getD_eq_getElem?_getD]
  · rw [List.getElem?_eq_none (by rw [length_advance]; omega),
      List.getElem?_eq_none (by simp [front]; omega)]

theorem front_congr {c c' : Counter} {n : Nat} (h : ∀ e < n, c.count e = c'.count e) :
    c.front n = c'.front n :=
  List.map_congr_left fun e he => h e (List.mem_range.1 he)

theorem front_succ (c : Counter) (n : Nat) : c.front (n + 1) = c.front n ++ [c.count n] := by
  simp [front, List.range_succ]

/-- Depths that count zero add zeros. -/
theorem front_eq_append_replicate {c : Counter} {m n : Nat} (hle : m ≤ n)
    (hzero : ∀ e, m ≤ e → e < n → c.count e = 0) :
    c.front n = c.front m ++ List.replicate (n - m) 0 := by
  induction n, hle using Nat.le_induction with
  | base => simp
  | succ n hmn ih =>
      rw [front_succ, ih fun e he hen => hzero e he (by omega), hzero n hmn (by omega),
        Nat.sub_add_comm hmn, List.replicate_succ', List.append_assoc]

end Counter

/-! ## The joint run of counter and ancestry -/

namespace Tree

theorem Ancestry.mem_above_of_lt {a : Ancestry} {d : Nat} {x : Nat × Nat} (hx : x ∈ a)
    (h : x.2 < d) : x ∈ a.above d := by
  induction a with
  | nil => simp at hx
  | cons y rest ih =>
      rw [above, List.dropWhile_cons]
      split
      · next hy =>
          rcases List.mem_cons.1 hx with rfl | hx
          · simp only [decide_eq_true_eq] at hy
            omega
          · exact ih hx
      · exact hx

theorem Ancestry.mem_of_mem_above {a : Ancestry} {d : Nat} {x : Nat × Nat} (hx : x ∈ a.above d) :
    x ∈ a :=
  (List.dropWhile_suffix _).subset hx

/-- What is less deep than `e` is less deep than a deeper `d`. -/
theorem Ancestry.above_above {a : Ancestry} {d e : Nat} (h : e ≤ d) :
    (a.above d).above e = a.above e := by
  induction a with
  | nil => rfl
  | cons y rest ih =>
      by_cases hy : d ≤ y.2
      · have hye : e ≤ y.2 := by omega
        simpa [above, hy, hye] using ih
      · simp [above, hy]

/-- The parent that a next line of the given depth gets. -/
def Ancestry.parent (a : Ancestry) (depth : Nat) : Option Nat := (a.above depth).head?.map Prod.fst

/-- A new line changes no parent up to its own depth. -/
theorem Ancestry.parent_push_of_le (a : Ancestry) (n : Nat) {d e : Nat} (h : e ≤ d) :
    Ancestry.parent ((n, d) :: a.above d) e = a.parent e := by
  have hdrop : Ancestry.above ((n, d) :: a.above d) e = (a.above d).above e := by
    simp [above, h]
  rw [parent, hdrop, above_above h, parent]

theorem Ancestry.parent_push_of_gt (a : Ancestry) (n : Nat) {d e : Nat} (h : d < e) :
    Ancestry.parent ((n, d) :: a.above d) e = some n := by
  simp [parent, above, Nat.not_le.2 h]

/-- In an ancestry that gets less deep outwards, what remains above a depth is less deep. -/
theorem Ancestry.lt_of_mem_above {a : Ancestry} (hdesc : a.Pairwise fun x y => y.2 < x.2) {d : Nat}
    {x : Nat × Nat} (hx : x ∈ a.above d) : x.2 < d := by
  induction a with
  | nil => simp [above] at hx
  | cons y rest ih =>
      rw [above, List.dropWhile_cons] at hx
      split at hx
      · exact ih hdesc.of_cons hx
      · next hy =>
          simp only [decide_eq_true_eq, Nat.not_le] at hy
          rcases List.mem_cons.1 hx with rfl | hx
          · exact hy
          · have := List.rel_of_pairwise_cons hdesc hx
            omega

/-- A line as both stacks see it. -/
structure Placed where
  parent : Option Nat
  depth : Nat
  /-- The counts behind the line. -/
  path : List Nat

/-- How many of the lines have this parent and this depth. -/
def siblings (placed : List Placed) (parent : Option Nat) (depth : Nat) : Nat :=
  placed.countP fun s => s.parent = parent ∧ s.depth = depth

/-- The path of the line at index `i` continues that of its parent, by zeros for the depths between
    them and by its number among the siblings before it. -/
def NumberedAt (placed : List Placed) (i : Nat) (s : Placed) : Prop :=
  match s.parent with
  | some p => ∃ t, placed[p]? = some t ∧ t.depth < s.depth ∧
      s.path = t.path ++ List.replicate (s.depth - t.depth - 1) 0 ++
        [Counter.raise (siblings (placed.take i) (some p) s.depth)]
  | none => s.path = List.replicate s.depth 0 ++
      [Counter.raise (siblings (placed.take i) none s.depth)]

/-- The counter and the ancestry behind some lines describe the same tree. -/
structure Agree (c : Counter) (a : Ancestry) (placed : List Placed) : Prop where
  /-- A depth counts the lines that a next line of this depth would join. -/
  count : ∀ d, c.count d = siblings placed (a.parent d) d % (Numeral.max64 + 1)
  descending : a.Pairwise fun x y => y.2 < x.2
  /-- Depths at which no line is open count zero. -/
  gap : ∀ d, (∀ x ∈ a, x.2 ≠ d) → c.count d = 0
  /-- An open line's path is still in the counter. -/
  path : ∀ x ∈ a, ∃ s, placed[x.1]? = some s ∧ s.depth = x.2 ∧ s.path = c.front (x.2 + 1)
  parent_lt : ∀ s ∈ placed, ∀ p ∈ s.parent, p < placed.length
  numbered : ∀ i s, placed[i]? = some s → NumberedAt placed i s

theorem Agree.start : Agree .start [] [] where
  count d := by simp [siblings, Counter.count, Counter.start]
  descending := List.Pairwise.nil
  gap d _ := by simp [Counter.count, Counter.start]
  path x hx := by simp at hx
  parent_lt s hs := by simp at hs
  numbered i s hs := by simp at hs

/-- The next line, as both stacks see it. -/
def place (c : Counter) (a : Ancestry) (d : Nat) : Placed := ⟨a.parent d, d, (c.advance d).counts⟩

theorem siblings_append_place (placed : List Placed) (c : Counter) (a : Ancestry) (d : Nat)
    (parent : Option Nat) (e : Nat) :
    siblings (placed ++ [place c a d]) parent e =
      siblings placed parent e + if a.parent d = parent ∧ d = e then 1 else 0 := by
  simp [siblings, place, List.countP_append, List.countP_singleton]

theorem raise_mod (n : Nat) : Counter.raise (n % (Numeral.max64 + 1)) = Counter.raise n := by
  simp [Counter.raise]

/-- What was placed before keeps its number. -/
theorem NumberedAt.append {placed : List Placed} {i : Nat} {s : Placed} (h : NumberedAt placed i s)
    (hi : i ≤ placed.length) (more : List Placed) : NumberedAt (placed ++ more) i s := by
  have htake : (placed ++ more).take i = placed.take i := List.take_append_of_le_length hi
  rw [NumberedAt, htake]
  rw [NumberedAt] at h
  cases hp : s.parent with
  | none => simpa [hp] using h
  | some p =>
      simp only [hp] at h
      obtain ⟨t, ht, hdepth, hpath⟩ := h
      have hlt : p < placed.length := (List.getElem?_eq_some_iff.1 ht).1
      exact ⟨t, by rw [List.getElem?_append_left hlt, ht], hdepth, hpath⟩

/-- The innermost line that is less deep than `d`, and no line is open between the two depths. -/
theorem Agree.head_above {c : Counter} {a : Ancestry} {placed : List Placed} (h : Agree c a placed)
    {d : Nat} {y : Nat × Nat} {rest : Ancestry} (hy : a.above d = y :: rest) :
    y ∈ a ∧ y.2 < d ∧ ∀ e, y.2 < e → e < d → c.count e = 0 := by
  have hmem : y ∈ a := Ancestry.mem_of_mem_above (by rw [hy]; exact List.mem_cons_self)
  have hlt : y.2 < d :=
    Ancestry.lt_of_mem_above h.descending (by rw [hy]; exact List.mem_cons_self)
  refine ⟨hmem, hlt, fun e hye hed => h.gap e fun x hx hxe => ?_⟩
  have hdesc : (y :: rest).Pairwise fun x z => z.2 < x.2 :=
    hy ▸ h.descending.sublist (List.dropWhile_sublist _)
  have hxabove : x ∈ y :: rest := hy ▸ Ancestry.mem_above_of_lt hx (by omega)
  rcases List.mem_cons.1 hxabove with rfl | hxrest
  · omega
  · have := List.rel_of_pairwise_cons hdesc hxrest
    omega

theorem Agree.path_place {c : Counter} {a : Ancestry} {placed : List Placed} (h : Agree c a placed)
    (d : Nat) :
    (place c a d).path = c.front d ++ [Counter.raise (siblings placed (a.parent d) d)] := by
  have hfront : (c.advance d).front d = c.front d :=
    Counter.front_congr fun e he => c.count_advance_of_lt he
  rw [place, Counter.counts_advance, Counter.front_succ, hfront, Counter.count_advance_self,
    h.count d, raise_mod]

theorem Agree.numberedAt_place {c : Counter} {a : Ancestry} {placed : List Placed}
    (h : Agree c a placed) (d : Nat) :
    NumberedAt (placed ++ [place c a d]) placed.length (place c a d) := by
  have hpath := h.path_place d
  have htake : (placed ++ [place c a d]).take placed.length = placed := List.take_left
  rw [NumberedAt, htake]
  cases hy : a.above d with
  | nil =>
      -- no line is open above the new one, so all depths above it count zero
      have hnone : a.parent d = none := by simp [Ancestry.parent, hy]
      have hzero : ∀ e, 0 ≤ e → e < d → c.count e = 0 := by
        intro e _ hed
        refine h.gap e fun x hx hxe => ?_
        have := Ancestry.mem_above_of_lt hx (by omega : x.2 < d)
        simp [hy] at this
      rw [hnone, Counter.front_eq_append_replicate (Nat.zero_le d) hzero] at hpath
      simpa [place, hnone, Counter.front] using hpath
  | cons y rest =>
      -- the counts down to the depth of the parent are its path, those between the two are zero
      obtain ⟨hmem, hlt, hzero⟩ := h.head_above hy
      obtain ⟨t, ht, htd, htp⟩ := h.path y hmem
      have hsome : a.parent d = some y.1 := by simp [Ancestry.parent, hy]
      have hidx : y.1 < placed.length := (List.getElem?_eq_some_iff.1 ht).1
      rw [hsome, Counter.front_eq_append_replicate (by omega : y.2 + 1 ≤ d)
        fun e he hed => hzero e (by omega) hed, ← htp] at hpath
      simp only [place, hsome] at hpath ⊢
      refine ⟨t, by rw [List.getElem?_append_left hidx, ht], htd ▸ hlt, ?_⟩
      rw [hpath, htd, Nat.sub_sub]

/-- One more line keeps the two stacks in agreement. -/
theorem Agree.step {c : Counter} {a : Ancestry} {placed : List Placed} (h : Agree c a placed)
    (d : Nat) :
    Agree (c.advance d) ((placed.length, d) :: a.above d) (placed ++ [place c a d]) where
  count e := by
    rw [siblings_append_place]
    rcases Nat.lt_trichotomy e d with hlt | rfl | hgt
    · -- above the new line nothing changes
      rw [c.count_advance_of_lt hlt, h.count e, a.parent_push_of_le _ (Nat.le_of_lt hlt),
        if_neg (by omega), Nat.add_zero (siblings _ _ _)]
    · rw [c.count_advance_self, h.count e, raise_mod, a.parent_push_of_le _ (Nat.le_refl e),
        if_pos ⟨rfl, rfl⟩]
      rfl
    · -- below it the new line is the parent, and it has no children yet
      have hnone : siblings placed (some placed.length) e = 0 := by
        rw [siblings, List.countP_eq_zero]
        intro s hs hse
        simp only [decide_eq_true_eq] at hse
        have := h.parent_lt s hs placed.length (by rw [hse.1]; rfl)
        omega
      rw [c.count_advance_of_gt hgt, a.parent_push_of_gt _ hgt, hnone, if_neg (by omega),
        Nat.add_zero, Nat.zero_mod]
  descending := by
    refine List.Pairwise.cons (fun x hx => ?_) (h.descending.sublist (List.dropWhile_sublist _))
    exact Ancestry.lt_of_mem_above h.descending hx
  gap e he := by
    have hne : d ≠ e := he (placed.length, d) List.mem_cons_self
    rcases Nat.lt_or_gt_of_ne hne with hlt | hgt
    · exact c.count_advance_of_gt hlt
    · rw [c.count_advance_of_lt hgt]
      refine h.gap e fun x hx hxe => ?_
      exact he x (List.mem_cons_of_mem _ (Ancestry.mem_above_of_lt hx (by omega))) hxe
  path x hx := by
    rcases List.mem_cons.1 hx with rfl | hx
    · exact ⟨place c a d, by simp, rfl, c.counts_advance d⟩
    · -- a line that stays open is less deep, and the counts above the new line are not touched
      have hlt : x.2 < d := Ancestry.lt_of_mem_above h.descending hx
      obtain ⟨s, hs, hsd, hsp⟩ := h.path x (Ancestry.mem_of_mem_above hx)
      have hidx : x.1 < placed.length := (List.getElem?_eq_some_iff.1 hs).1
      refine ⟨s, by rw [List.getElem?_append_left hidx, hs], hsd, ?_⟩
      rw [hsp]
      exact Counter.front_congr fun e he => (c.count_advance_of_lt (by omega)).symm
  parent_lt s hs p hp := by
    simp only [List.length_append, List.length_singleton]
    rcases List.mem_append.1 hs with hs | hs
    · exact Nat.lt_succ_of_lt (h.parent_lt s hs p hp)
    · -- the parent of the new line is open, and so it has been placed
      rw [List.mem_singleton.1 hs] at hp
      obtain ⟨y, hy, rfl⟩ := Option.map_eq_some_iff.1 (Option.mem_def.1 hp)
      obtain ⟨t, ht, -⟩ := h.path y (Ancestry.mem_of_mem_above (List.mem_of_mem_head? hy))
      exact Nat.lt_succ_of_lt (List.getElem?_eq_some_iff.1 ht).1
  numbered i s hs := by
    rcases Nat.lt_trichotomy i placed.length with hlt | rfl | hgt
    · rw [List.getElem?_append_left hlt] at hs
      exact (h.numbered i s hs).append (Nat.le_of_lt hlt) _
    · rw [List.getElem?_append_right (Nat.le_refl _), Nat.sub_self] at hs
      obtain rfl : place c a d = s := by simpa using hs
      exact h.numberedAt_place d
    · rw [List.getElem?_eq_none (by simp; omega)] at hs
      exact absurd hs (by simp)

/-! ## All lines -/

/-- The lines of the given depths, as both stacks see them. -/
def placeFrom : Counter → Ancestry → Nat → List Nat → List Placed
  | _, _, _, [] => []
  | c, a, n, d :: ds => place c a d :: placeFrom (c.advance d) ((n, d) :: a.above d) (n + 1) ds

theorem Agree.numbered_placeFrom {c : Counter} {a : Ancestry} {placed : List Placed}
    (h : Agree c a placed) (ds : List Nat) (i : Nat) (s : Placed)
    (hs : (placed ++ placeFrom c a placed.length ds)[i]? = some s) :
    NumberedAt (placed ++ placeFrom c a placed.length ds) i s := by
  -- on the lines to come; the placed ones grow by one in each step
  induction ds generalizing c a placed with
  | nil =>
      simp only [placeFrom, List.append_nil] at hs ⊢
      exact h.numbered i s hs
  | cons d ds ih =>
      have hsplit : placed ++ placeFrom c a placed.length (d :: ds) =
          placed ++ [place c a d] ++ placeFrom (c.advance d) ((placed.length, d) :: a.above d)
            (placed ++ [place c a d]).length ds := by
        simp [placeFrom]
      rw [hsplit] at hs ⊢
      exact ih (h.step d) hs

theorem map_parent_placeFrom (c : Counter) (a : Ancestry) (n : Nat) (ds : List Nat) :
    (placeFrom c a n ds).map (·.parent) = parentsFrom a n ds := by
  induction ds generalizing c a n with
  | nil => rfl
  | cons d ds ih => simp [placeFrom, parentsFrom, ih, place, Ancestry.parent]

theorem map_depth_placeFrom (c : Counter) (a : Ancestry) (n : Nat) (ds : List Nat) :
    (placeFrom c a n ds).map (·.depth) = ds := by
  induction ds generalizing c a n with
  | nil => rfl
  | cons d ds ih => simp [placeFrom, ih, place]

theorem map_path_placeFrom (c : Counter) (a : Ancestry) (n : Nat) (ds : List Nat) :
    (placeFrom c a n ds).map (·.path) = (c.trace ds).map (·.counts) := by
  induction ds generalizing c a n with
  | nil => rfl
  | cons d ds ih => simp [placeFrom, Counter.trace, ih, place]

/-! ## Children and roots by index -/

/-- The children of the line at an index. -/
def childrenOf (lines : List Line) (p : Nat) : List Nat := ((children lines)[p]?).getD []

/-- The lines that are children of no line. -/
def roots (lines : List Line) : List Nat :=
  (List.range lines.length).filter fun i => (children lines).all (!·.contains i)

/-- How many of the lines at some indices stand before line `i` and have its depth. -/
def elders (lines : List Line) (indices : List Nat) (i : Nat) : Nat :=
  indices.countP fun j => j < i && lines[j]?.map (·.depth) == lines[i]?.map (·.depth)

theorem childrenFrom_eq_filter (p n : Nat) (ps : List (Option Nat)) :
    childrenFrom p n ps =
      (List.range' n ps.length).filter fun j => ps[j - n]? == some (some p) := by
  induction ps generalizing n with
  | nil => rfl
  | cons q ps ih =>
      have htail :
          (List.range' (n + 1) ps.length).filter (fun j => (q :: ps)[j - n]? == some (some p)) =
            (List.range' (n + 1) ps.length).filter fun j => ps[j - (n + 1)]? == some (some p) := by
        refine List.filter_congr fun j hj => ?_
        have hj : n + 1 ≤ j := (List.mem_range'_1.1 hj).1
        rw [show j - n = (j - (n + 1)) + 1 by omega, List.getElem?_cons_succ]
      rw [childrenFrom, List.length_cons, List.range'_succ, List.filter_cons, htail, ih (n + 1)]
      by_cases hq : q = some p <;> simp [hq]

theorem parents_length (lines : List Line) :
    (parents (lines.map (·.depth))).length = lines.length := by
  rw [parents, ← map_parent_placeFrom .start, List.length_map,
    ← List.length_map (·.depth), map_depth_placeFrom, List.length_map]

theorem childrenOf_eq_filter (lines : List Line) {p : Nat} (hp : p < lines.length) :
    childrenOf lines p = (List.range lines.length).filter fun j =>
      (parents (lines.map (·.depth)))[j]? == some (some p) := by
  have hget : (children lines)[p]? = some (childrenFrom p 0 (parents (lines.map (·.depth)))) := by
    simp [children, hp]
  rw [childrenOf, hget, Option.getD_some, childrenFrom_eq_filter, parents_length,
    ← List.range_eq_range']
  rfl

/-- All lines, as both stacks see them. -/
def placed (lines : List Line) : List Placed := placeFrom .start [] 0 (lines.map (·.depth))

theorem numberedAt_placed {lines : List Line} {i : Nat} {s : Placed}
    (h : (placed lines)[i]? = some s) : NumberedAt (placed lines) i s := by
  have := Agree.start.numbered_placeFrom (lines.map (·.depth)) i s
  rw [List.nil_append] at this
  exact this h

theorem map_parent_placed (lines : List Line) (j : Nat) :
    (placed lines)[j]?.map (·.parent) = (parents (lines.map (·.depth)))[j]? := by
  rw [← List.getElem?_map, placed, map_parent_placeFrom, parents]

theorem map_depth_placed (lines : List Line) (j : Nat) :
    (placed lines)[j]?.map (·.depth) = lines[j]?.map (·.depth) := by
  rw [← List.getElem?_map, placed, map_depth_placeFrom, List.getElem?_map]

theorem length_placed (lines : List Line) : (placed lines).length = lines.length := by
  rw [← List.length_map (·.depth), placed, map_depth_placeFrom, List.length_map]

/-- A parent is a line. -/
theorem parent_lt_of_parents {lines : List Line} {j p : Nat}
    (h : (parents (lines.map (·.depth)))[j]? = some (some p)) : p < lines.length := by
  rw [← map_parent_placed] at h
  obtain ⟨s, hs, hp⟩ := Option.map_eq_some_iff.1 h
  have hnum := numberedAt_placed hs
  rw [NumberedAt, hp] at hnum
  obtain ⟨t, ht, -⟩ := hnum
  rw [← length_placed]
  exact (List.getElem?_eq_some_iff.1 ht).1

theorem mem_childrenOf_iff {lines : List Line} {i p : Nat} :
    i ∈ childrenOf lines p ↔ (parents (lines.map (·.depth)))[i]? = some (some p) := by
  constructor
  · intro hi
    by_cases hp : p < lines.length
    · rw [childrenOf_eq_filter lines hp, List.mem_filter] at hi
      simpa using hi.2
    · rw [childrenOf, List.getElem?_eq_none (by simpa [children] using hp)] at hi
      simp at hi
  · intro hi
    have hlen : i < lines.length := by
      rw [← parents_length]
      exact (List.getElem?_eq_some_iff.1 hi).1
    rw [childrenOf_eq_filter lines (parent_lt_of_parents hi), List.mem_filter]
    exact ⟨List.mem_range.2 hlen, by simpa using hi⟩

theorem roots_eq_filter (lines : List Line) :
    roots lines = (List.range lines.length).filter fun j =>
      (parents (lines.map (·.depth)))[j]? == some none := by
  refine List.filter_congr fun j hj => ?_
  have hlen : j < (parents (lines.map (·.depth))).length := by
    rw [parents_length]
    exact List.mem_range.1 hj
  have hall : (children lines).all (!·.contains j) = true ↔ ∀ p, j ∉ childrenOf lines p := by
    simp only [childrenOf, List.all_eq_true, Bool.not_eq_true', List.contains_eq_mem,
      decide_eq_false_iff_not]
    constructor
    · intro h p hp
      cases hk : (children lines)[p]? with
      | none => simp [hk] at hp
      | some kids => exact h kids (List.mem_of_getElem? hk) (by simpa [hk] using hp)
    · intro h kids hkids
      obtain ⟨p, hp⟩ := List.getElem?_of_mem hkids
      simpa [hp] using h p
  rw [Bool.eq_iff_iff, hall, beq_iff_eq]
  simp only [mem_childrenOf_iff]
  rw [List.getElem?_eq_getElem hlen]
  cases (parents (lines.map (·.depth)))[j] <;> simp

/-! ## Siblings by index -/

theorem countP_take {α : Type} (xs : List α) (holds : α → Bool) (i : Nat) :
    (xs.take i).countP holds =
      (List.range xs.length).countP fun j => decide (j < i) && (xs[j]?).any holds := by
  induction xs generalizing i with
  | nil => simp
  | cons x xs ih =>
      cases i with
      | zero => simp
      | succ i =>
          rw [List.take_succ_cons, List.countP_cons, ih, List.length_cons, List.range_succ_eq_map,
            List.countP_cons, List.countP_map]
          simp [Function.comp_def]

/-- The elders among the lines with some parent are the siblings that were placed before. -/
theorem elders_filter_parents {lines : List Line} {i : Nat} {s : Placed}
    (hs : (placed lines)[i]? = some s) (q : Option Nat) :
    elders lines ((List.range lines.length).filter fun j =>
        (parents (lines.map (·.depth)))[j]? == some q) i =
      siblings ((placed lines).take i) q s.depth := by
  rw [elders, List.countP_filter, siblings, countP_take, length_placed]
  refine List.countP_congr fun j _ => ?_
  rw [← map_parent_placed, ← map_depth_placed, ← map_depth_placed, hs]
  cases (placed lines)[j]? with
  | none => simp
  | some t =>
      simp only [Option.map_some, Option.any_some, Bool.and_eq_true, decide_eq_true_eq, beq_iff_eq,
        Option.some.injEq]
      tauto

/-! ## The positions of a plan -/

theorem counts_ne_nil_of_mem_trace {c c' : Counter} {ds : List Nat} (h : c' ∈ c.trace ds) :
    c'.counts ≠ [] := by
  induction ds generalizing c with
  | nil => simp [Counter.trace] at h
  | cons d ds ih =>
      rcases List.mem_cons.1 h with rfl | h
      · exact c.counts_advance_ne_nil d
      · exact ih h

/-- Where no position is asked for, a line's position spells the path at which it is placed. -/
theorem position_of_parse {width : Nat} {source : Text}
    (hplain : ∀ raw ∈ Text.splitOn '\n' source, Role.opens raw.trim = true →
      Physical.asked? raw = none) {i : Nat} {l : Line}
    (hl : (Line.parse width source)[i]? = some l) :
    ∃ s, (placed (Line.parse width source))[i]? = some s ∧ s.depth = l.depth ∧
      l.position = .ofComponents s.path ∧ l.position.components = s.path := by
  have hpos : (Line.parse width source).map (·.position) =
      (Counter.start.trace ((Line.parse width source).map (·.depth))).map Counter.position :=
    Line.positions_readFrom width _ hplain .start 1
  have hcounter := congrArg (·[i]?) hpos
  simp only [List.getElem?_map, hl, Option.map_some] at hcounter
  obtain ⟨c, hc, hcl⟩ := Option.map_eq_some_iff.1 hcounter.symm
  have hpath := congrArg (·[i]?)
    (map_path_placeFrom .start [] 0 ((Line.parse width source).map (·.depth)))
  simp only [List.getElem?_map, hc, Option.map_some] at hpath
  obtain ⟨s, hs, hsc⟩ := Option.map_eq_some_iff.1 hpath
  have hdepth := map_depth_placed (Line.parse width source) i
  rw [show (placed (Line.parse width source))[i]? = some s from hs, hl] at hdepth
  have hne : c.counts ≠ [] := counts_ne_nil_of_mem_trace (List.mem_of_getElem? hc)
  refine ⟨s, hs, Option.some.inj hdepth, ?_, ?_⟩
  · rw [← hcl, hsc, Counter.position]
  · rw [← hcl, hsc, Counter.components_position hne]

theorem raise_eq_of_le {n : Nat} (h : 1 + n ≤ Numeral.max64) : Counter.raise n = 1 + n := by
  rw [Counter.raise, Nat.add_comm n 1, Nat.mod_eq_of_lt (Nat.lt_succ_of_le h)]

/-- **The positions of a plan are the paths of its tree.** Where no line asks for a position, the
    position of a line is spelled by its numbers with dots between them. The numbers of a child are
    those of its parent, a zero for each depth between the two, and one more than the number of
    children before it at its depth; a line without a parent is numbered in the same way among the
    lines without one. -/
theorem components_of_parse (width : Nat) (source : Text)
    (hplain : ∀ raw ∈ Text.splitOn '\n' source, Role.opens raw.trim = true →
      Physical.asked? raw = none) :
    let lines := Line.parse width source
    ∀ i l, lines[i]? = some l →
      l.position.text = Text.joinWith '.' (l.position.components.map Numeral.decimal) ∧
      (∀ p parent, lines[p]? = some parent → i ∈ childrenOf lines p →
        1 + elders lines (childrenOf lines p) i ≤ Numeral.max64 →
        parent.depth < l.depth ∧
        l.position.components = parent.position.components ++
          List.replicate (l.depth - parent.depth - 1) 0 ++
          [1 + elders lines (childrenOf lines p) i]) ∧
      ((∀ p, i ∉ childrenOf lines p) → 1 + elders lines (roots lines) i ≤ Numeral.max64 →
        l.position.components =
          List.replicate l.depth 0 ++ [1 + elders lines (roots lines) i]) := by
  intro lines i l hl
  obtain ⟨s, hs, hsd, hspell, hcomp⟩ := position_of_parse hplain hl
  have hnum := numberedAt_placed hs
  have hparents : (parents (lines.map (·.depth)))[i]? = some s.parent := by
    rw [← map_parent_placed, hs]
    rfl
  refine ⟨?_, ?_, ?_⟩
  · rw [hcomp, hspell, Position.ofComponents]
  · intro p parent hp hchild hsmall
    have hlen : p < lines.length := (List.getElem?_eq_some_iff.1 hp).1
    rw [childrenOf_eq_filter lines hlen, elders_filter_parents hs (some p)] at hsmall ⊢
    obtain ⟨t, ht, htd, -, htcomp⟩ := position_of_parse hplain hp
    rw [mem_childrenOf_iff, hparents, Option.some.injEq] at hchild
    rw [NumberedAt, hchild] at hnum
    obtain ⟨t', ht', hlt, hpath⟩ := hnum
    obtain rfl : t = t' := Option.some.inj (ht.symm.trans ht')
    refine ⟨by rw [← hsd, ← htd]; exact hlt, ?_⟩
    rw [hcomp, htcomp, hpath, hsd, htd, ← hsd, raise_eq_of_le hsmall]
  · intro hroot hsmall
    have hnone : s.parent = none := by
      cases hparent : s.parent with
      | none => rfl
      | some p => exact absurd (mem_childrenOf_iff.2 (hparents.trans (by rw [hparent]))) (hroot p)
    rw [roots_eq_filter, elders_filter_parents hs none] at hsmall ⊢
    rw [NumberedAt, hnone] at hnum
    rw [hcomp, hnum, hsd, ← hsd, raise_eq_of_le hsmall]

/-- A plan that passes over a depth and then comes back to it. -/
def steppedPlan : Text := ":<: {r}\n        <= ::(f)\n    <- {a}\n    <- {b}\n"

theorem components_of_parse_steppedPlan :
    (∀ raw ∈ Text.splitOn '\n' steppedPlan, Role.opens raw.trim = true →
      Physical.asked? raw = none) ∧
    ∃ root skipped last, (Line.parse 4 steppedPlan)[0]? = some root ∧
      (Line.parse 4 steppedPlan)[1]? = some skipped ∧ (Line.parse 4 steppedPlan)[3]? = some last ∧
      root.position.components = [] ++ [1] ∧
      skipped.position.components = root.position.components ++ [0] ++ [1] ∧
      last.position.components = root.position.components ++ [] ++ [2] := by
  have hplain : ∀ raw ∈ Text.splitOn '\n' steppedPlan, Role.opens raw.trim = true →
      Physical.asked? raw = none := by decide
  have hroot : (parents ((Line.parse 4 steppedPlan).map (·.depth)))[0]? = some none := by decide
  have h := components_of_parse 4 steppedPlan hplain
  refine ⟨hplain, _, _, _, rfl, rfl, rfl, ?_, ?_, ?_⟩
  · refine (h 0 _ rfl).2.2 (fun p hp => ?_) (by decide)
    rw [mem_childrenOf_iff, hroot] at hp
    exact absurd hp (by simp)
  · exact ((h 1 _ rfl).2.1 0 _ rfl (by decide) (by decide)).2
  · exact ((h 3 _ rfl).2.1 0 _ rfl (by decide) (by decide)).2

end Tree

end PlanGraph
