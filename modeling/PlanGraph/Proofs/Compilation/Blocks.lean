import PlanGraph.Proofs.Line.Relocation

set_option autoImplicit false

/-! # A plan of two blocks

A text that starts with a role line of depth zero is a block of its own: behind another text it is
read as it is read alone. What is carried over the seam is the cursor and nothing else
(`readFrom_append`). The cursor decides about positions only, so lines and clusters are the same up
to their places (`map_line_readFrom`). Where no line asks for a position, it decides about the first
number only, and that is larger by the number of lines of depth zero in front (`Ahead`). -/

namespace PlanGraph

open Relocation (unplaced)

/-! ## Counting on from another number -/

/-- The position whose first number is larger by `k`. -/
def Position.later (k : Nat) (p : Position) : Position :=
  .ofComponents (p.components.modifyHead (· + k))

namespace Counter

/-- The same counts, but for the first one, which is larger by `k`. -/
def Ahead (k : Nat) (c c' : Counter) : Prop :=
  ∃ m path, c.counts = m :: path ∧ c'.counts = (m + k) :: path

variable {k : Nat} {c c' : Counter}

theorem Ahead.position (h : Ahead k c c') : c'.position = c.position.later k := by
  obtain ⟨m, path, hc, hc'⟩ := h
  have hne : c.counts ≠ [] := by simp [hc]
  rw [Position.later, components_position hne, hc, List.modifyHead_cons, Counter.position, hc']

theorem counts_advance_zero (c : Counter) : (c.advance 0).counts = [raise (c.count 0)] := by
  simp [advance, count]

/-- Behind a line of depth zero only the first count is left. -/
theorem ahead_advance_zero (h : c'.count 0 = c.count 0 + k) (hle : c'.count 0 + 1 ≤ Numeral.max64) :
    Ahead k (c.advance 0) (c'.advance 0) := by
  refine ⟨1 + c.count 0, [], ?_, ?_⟩
  · rw [counts_advance_zero, Tree.raise_eq_of_le (by omega)]
  · rw [counts_advance_zero, Tree.raise_eq_of_le (by omega), h, Nat.add_assoc]

theorem Ahead.count_zero (h : Ahead k c c') : c'.count 0 = c.count 0 + k := by
  obtain ⟨m, path, hc, hc'⟩ := h
  simp [count, hc, hc']

theorem Ahead.advance (h : Ahead k c c') {depth : Nat}
    (hle : depth = 0 → c'.count 0 + 1 ≤ Numeral.max64) :
    Ahead k (c.advance depth) (c'.advance depth) := by
  cases depth with
  | zero => exact ahead_advance_zero h.count_zero (hle rfl)
  | succ depth =>
      obtain ⟨m, path, hc, hc'⟩ := h
      refine ⟨m, path.take depth ++ List.replicate (depth - path.length) 0 ++
        [raise (path.getD depth 0)], ?_, ?_⟩
      · simp [Counter.advance, hc]
      · simp [Counter.advance, hc']

/-- The first count grows with the lines of depth zero. -/
theorem count_advance_zero (c : Counter) {depth : Nat}
    (hle : c.count 0 + [depth].count 0 ≤ Numeral.max64) :
    (c.advance depth).count 0 = c.count 0 + [depth].count 0 := by
  cases depth with
  | zero =>
      have hle : c.count 0 + 1 ≤ Numeral.max64 := hle
      rw [count_advance_self, Tree.raise_eq_of_le (by omega), Nat.add_comm]
      rfl
  | succ depth => exact count_advance_of_lt c (Nat.succ_pos depth)

theorem Ahead.positions_trace {depths : List Nat} (h : Ahead k c c')
    (hle : c'.count 0 + depths.count 0 ≤ Numeral.max64) :
    (c'.trace depths).map Counter.position =
      (c.trace depths).map (Position.later k ∘ Counter.position) := by
  induction depths generalizing c c' with
  | nil => rfl
  | cons depth depths ih =>
      have hsplit : (depth :: depths).count 0 = [depth].count 0 + depths.count 0 := by
        rw [← List.count_append, List.singleton_append]
      rw [hsplit] at hle
      have hstep : Ahead k (c.advance depth) (c'.advance depth) := by
        refine h.advance ?_
        rintro rfl
        rw [List.count_singleton_self] at hle
        omega
      have hcount : (c'.advance depth).count 0 = c'.count 0 + [depth].count 0 :=
        count_advance_zero c' (by omega)
      rw [trace, trace, List.map_cons, List.map_cons, hstep.position, ih hstep (by omega)]
      rfl

/-- From a line of depth zero on, the positions differ in their first number only. -/
theorem positions_trace_zero {depths : List Nat} (h : c'.count 0 = c.count 0 + k)
    (hle : c'.count 0 + (0 :: depths).count 0 ≤ Numeral.max64) :
    (c'.trace (0 :: depths)).map Counter.position =
      (c.trace (0 :: depths)).map (Position.later k ∘ Counter.position) := by
  rw [List.count_cons_self] at hle
  have hahead : Ahead k (c.advance 0) (c'.advance 0) := ahead_advance_zero h (by omega)
  have hcount : (c'.advance 0).count 0 = c'.count 0 + [0].count 0 :=
    count_advance_zero c' (by rw [List.count_singleton_self]; omega)
  rw [List.count_singleton_self] at hcount
  rw [trace, trace, List.map_cons, List.map_cons, hahead.position,
    hahead.positions_trace (by omega)]
  rfl

end Counter

/-! ## Lines behind other lines -/

namespace Physical

/-- Whether a line is a role line of depth zero. -/
def isRoot (width : Nat) (raw : Text) : Bool := Role.opens raw.trim && depth width raw == 0

/-- How many role lines of depth zero a text has. -/
def roots (width : Nat) (source : Text) : Nat := (Text.splitOn '\n' source).countP (isRoot width)

/-- Whether the first of some lines that is not blank is a role line of depth zero. -/
def startsWithRoot (width : Nat) (lines : List Text) : Bool :=
  (lines.find? (!·.trim.isEmpty)).any (isRoot width)

/-- Whether a text starts with a role line of depth zero, apart from blank lines. -/
def opensBlock (width : Nat) (source : Text) : Bool :=
  startsWithRoot width (Text.splitOn '\n' source)

end Physical

namespace Entry

/-- The cursor behind one line. -/
def Cursor.pass (width : Nat) (cursor : Cursor) (raw : Text) : Cursor :=
  if Role.opens raw.trim then
    cursor.step (Physical.depth width raw) (Physical.splitComment raw.trim).2
  else cursor

/-- The cursor behind some lines. -/
def Cursor.behind (width : Nat) (cursor : Cursor) (lines : List Text) : Cursor :=
  lines.foldl (Cursor.pass width) cursor

/-- The first count of the cursor is the number of role lines of depth zero. -/
theorem Cursor.count_behind {width : Nat} {lines : List Text} {cursor : Cursor}
    (hplain : ∀ raw ∈ lines, Role.opens raw.trim = true → Physical.asked? raw = none)
    (hle : cursor.counter.count 0 + lines.countP (Physical.isRoot width) ≤ Numeral.max64) :
    (cursor.behind width lines).counter.count 0 =
      cursor.counter.count 0 + lines.countP (Physical.isRoot width) := by
  induction lines generalizing cursor with
  | nil => rfl
  | cons raw lines ih =>
      have hsplit : (raw :: lines).countP (Physical.isRoot width) =
          [raw].countP (Physical.isRoot width) + lines.countP (Physical.isRoot width) := by
        rw [← List.countP_append, List.singleton_append]
      rw [hsplit] at hle ⊢
      have hpass : (cursor.pass width raw).counter.count 0 =
          cursor.counter.count 0 + [raw].countP (Physical.isRoot width) := by
        unfold pass
        split
        · next hrole =>
            have hroot : [raw].countP (Physical.isRoot width) =
                [Physical.depth width raw].count 0 := by
              simp [Physical.isRoot, hrole, List.count_singleton]
            rw [Line.step_of_asked?_eq_none width cursor (hplain raw List.mem_cons_self hrole), hroot]
            exact Counter.count_advance_zero _ (by omega)
        · next hrole => simp [Physical.isRoot, hrole]
      have hbehind : cursor.behind width (raw :: lines) =
          (cursor.pass width raw).behind width lines := rfl
      rw [hbehind, ih (fun r hr => hplain r (List.mem_cons_of_mem _ hr)) (by omega), hpass,
        Nat.add_assoc]

/-- The entries of some lines `k` further down, up to the positions. -/
theorem map_entry_ofLines (width : Nat) (cursor cursor' : Cursor) (n k : Nat) (lines : List Text) :
    (ofLines width cursor (n + k) lines).map (unplaced 0).entry =
      (ofLines width cursor' n lines).map (unplaced k).entry := by
  induction lines generalizing cursor cursor' n with
  | nil => rfl
  | cons raw lines ih =>
      have hnext : n + k + 1 = n + 1 + k := by omega
      by_cases hblank : raw.trim.isEmpty = true
      · rw [ofLines, if_pos hblank, ofLines, if_pos hblank, hnext]
        exact ih cursor cursor' (n + 1)
      · have hline : (ofLine width cursor (n + k) raw).2.map (unplaced 0).entry =
            (ofLine width cursor' n raw).2.map (unplaced k).entry :=
          map_entry_ofLine rfl rfl rfl rfl
        rw [ofLines_cons hblank, ofLines_cons hblank, List.map_append, List.map_append, hline, hnext,
          ih]

end Entry

namespace Line

/-- Lines are read where the lines before leave off, unless a comment in front belongs to these. -/
theorem readFrom_append {width n : Nat} {cursor : Entry.Cursor} {before behind : List Text}
    (h : (readFrom width (cursor.behind width before) (n + before.length) behind).1 = []) :
    readFrom width cursor n (before ++ behind) =
      ((readFrom width cursor n before).1, (readFrom width cursor n before).2 ++
        (readFrom width (cursor.behind width before) (n + before.length) behind).2) := by
  induction before generalizing cursor n with
  | nil => exact Prod.ext h rfl
  | cons raw before ih =>
      have hlength : n + (raw :: before).length = n + 1 + before.length := by
        rw [List.length_cons]
        omega
      rw [hlength] at h ⊢
      have hbehind : cursor.behind width (raw :: before) =
          (cursor.pass width raw).behind width before := rfl
      rw [hbehind] at h ⊢
      have ih := ih h
      by_cases hrole : Role.opens raw.trim = true
      · rw [Entry.Cursor.pass, if_pos hrole] at ih ⊢
        rw [List.cons_append, readFrom_role _ hrole, readFrom_role _ hrole, ih]
        rfl
      · rw [Entry.Cursor.pass, if_neg hrole] at ih ⊢
        by_cases hne : raw.trim = []
        · rw [List.cons_append, readFrom_blank _ hne, readFrom_blank _ hne, ih]
        · have hrole : Role.opens raw.trim = false := by simpa using hrole
          rw [List.cons_append, readFrom_comment _ hne hrole, readFrom_comment _ hne hrole, ih]

/-- A block starts with a line of depth zero and has no comments in front. -/
theorem readFrom_of_startsWithRoot {width : Nat} {lines : List Text}
    (h : Physical.startsWithRoot width lines = true)
    (cursor : Entry.Cursor) (n : Nat) :
    ∃ first more, readFrom width cursor n lines = ([], first :: more) ∧ first.depth = 0 := by
  unfold Physical.startsWithRoot at h
  induction lines generalizing cursor n with
  | nil => simp at h
  | cons raw lines ih =>
      by_cases hne : raw.trim = []
      · rw [List.find?_cons_of_neg (by simp [hne])] at h
        rw [readFrom_blank _ hne]
        exact ih h cursor (n + 1)
      · rw [List.find?_cons_of_pos (by simpa using hne), Option.any_some, Physical.isRoot,
          Bool.and_eq_true, beq_iff_eq] at h
        rw [readFrom_role _ h.1]
        exact ⟨_, _, rfl, h.2⟩

/-- The lines of a text `k` further down, up to the positions. -/
theorem map_line_readFrom (width : Nat) (cursor cursor' : Entry.Cursor) (n k : Nat)
    (lines : List Text) :
    (readFrom width cursor (n + k) lines).2.map (unplaced 0).line =
      (readFrom width cursor' n lines).2.map (unplaced k).line := by
  have hgroup := congrArg group (Entry.map_entry_ofLines width cursor cursor' n k lines)
  rw [Relocation.group_map_entry, Relocation.group_map_entry] at hgroup
  exact congrArg Prod.snd hgroup

/-- Positions and everything else make up the lines. -/
theorem eq_map_line {ls ls' : List Line} {later : Position → Position} {k : Nat}
    (hplace : ls'.map (unplaced 0).line = ls.map (unplaced k).line)
    (hposition : ls'.map (·.position) = (ls.map (·.position)).map later) :
    ls' = ls.map (Relocation.mk later (· + k)).line := by
  induction ls generalizing ls' with
  | nil => simpa using hposition
  | cons l ls ih =>
      cases ls' with
      | nil => simp at hposition
      | cons l' ls' =>
          simp only [List.map_cons, List.cons.injEq] at hplace hposition ⊢
          refine ⟨?_, ih hplace.2 hposition.2⟩
          have hline := hplace.1
          simp only [Relocation.line, unplaced, Line.mk.injEq] at hline
          exact Line.ext hposition.1 hline.2.1 hline.2.2.1 hline.2.2.2.1 hline.2.2.2.2.1
            hline.2.2.2.2.2.1 hline.2.2.2.2.2.2

/-- Behind another text, a block without positions of its own is counted on. -/
theorem readFrom_behind {width : Nat} {lines : List Text} (cursor : Entry.Cursor) (n k : Nat)
    (hopens : Physical.startsWithRoot width lines = true)
    (hplain : ∀ raw ∈ lines, Role.opens raw.trim = true → Physical.asked? raw = none)
    (hle : cursor.counter.count 0 + lines.countP (Physical.isRoot width) ≤ Numeral.max64) :
    (readFrom width cursor (n + k) lines).2 = (readFrom width .start n lines).2.map
      (Relocation.mk (Position.later (cursor.counter.count 0)) (· + k)).line := by
  refine eq_map_line (map_line_readFrom width cursor .start n k lines) ?_
  obtain ⟨first, more, hread, hfirst⟩ := readFrom_of_startsWithRoot hopens .start n
  have hdepths : roleDepths width lines = 0 :: more.map (·.depth) := by
    rw [← map_depth_readFrom width .start n, hread, List.map_cons, hfirst]
  have hcount : (0 :: more.map (·.depth)).count 0 = lines.countP (Physical.isRoot width) := by
    rw [← hdepths, roleDepths, List.count, List.countP_map, List.countP_filter]
    refine List.countP_congr ?_
    intro raw _
    simp [Physical.isRoot, and_comm]
  rw [positions_readFrom width lines hplain, positions_readFrom width lines hplain,
    map_depth_readFrom, map_depth_readFrom, hdepths, List.map_map]
  exact Counter.positions_trace_zero (Nat.zero_add _).symm (by omega)

end Line

/-! ## Clusters behind other clusters -/

/-- A text that is empty or ends with a line feed has its lines to itself. -/
theorem Text.exists_lines {before : Text} (h : before = [] ∨ before.getLast? = some '\n') :
    ∃ lines, lines.length = before.count '\n' ∧
      ∀ behind, splitOn '\n' (before ++ behind) = lines ++ splitOn '\n' behind := by
  rcases h with rfl | h
  · exact ⟨[], rfl, fun _ => rfl⟩
  · obtain ⟨front, rfl⟩ := List.getLast?_eq_some_iff.1 h
    refine ⟨splitOn '\n' front, ?_, ?_⟩
    · simp [length_splitOn]
    · intro behind
      rw [List.append_assoc, List.singleton_append, splitOn_append]

namespace Line

/-- A block behind a text is read where the text leaves off. -/
theorem parse_append {width : Nat} {before behind : Text}
    (hbefore : before = [] ∨ before.getLast? = some '\n')
    (hbehind : Physical.opensBlock width behind = true) :
    ∃ cursor : Entry.Cursor,
      parse width (before ++ behind) = parse width before ++
        (readFrom width cursor (1 + before.count '\n') (Text.splitOn '\n' behind)).2 ∧
      (Physical.Plain before → Physical.roots width before ≤ Numeral.max64 →
        cursor.counter.count 0 = Physical.roots width before) := by
  obtain ⟨lines, hlength, hsplit⟩ := Text.exists_lines hbefore
  have hlines : Text.splitOn '\n' before = lines ++ [[]] := by
    rw [← List.append_nil before, hsplit]
    rfl
  refine ⟨Entry.Cursor.behind width .start lines, ?_, ?_⟩
  · obtain ⟨first, more, hread, -⟩ := readFrom_of_startsWithRoot hbehind
      (Entry.Cursor.behind width .start lines) (1 + lines.length)
    have hparse : parse width before = (readFrom width .start 1 lines).2 := by
      rw [parse_eq_readFrom, hlines, readFrom_append rfl]
      exact List.append_nil _
    rw [parse_eq_readFrom, hsplit, readFrom_append (by rw [hread]), hparse, hlength]
  · intro hplain hroots
    have hcount : Physical.roots width before = lines.countP (Physical.isRoot width) := by
      rw [Physical.roots, hlines, List.countP_append]
      rfl
    have hplain : ∀ raw ∈ lines, Role.opens raw.trim = true → Physical.asked? raw = none := by
      intro raw hraw
      exact hplain raw (by simp [hlines, hraw])
    have hstart : Entry.Cursor.start.counter.count 0 = 0 := rfl
    rw [Entry.Cursor.count_behind hplain (by omega), hcount, hstart, Nat.zero_add]

end Line

/-- **Blocks are compiled independently.** Behind a text that is empty or ends with a line feed, a
    text that opens with a role line of depth zero has the clusters that it has alone, and the text
    in front keeps its own. The clusters behind are moved down by the lines in front, and their
    positions may be others. Where no line asks for a position, the first number of each position
    behind is larger by the number of role lines of depth zero in front. -/
theorem Tree.clusters_of_blocks (width : Nat) {before behind : Text}
    (hbefore : before = [] ∨ before.getLast? = some '\n')
    (hbehind : Physical.opensBlock width behind = true) :
    ∃ moved,
      clusters (Line.parse width (before ++ behind)) =
        clusters (Line.parse width before) ++ moved ∧
      moved.map (unplaced 0).cluster =
        (clusters (Line.parse width behind)).map (unplaced (before.count '\n')).cluster ∧
      (Physical.Plain before → Physical.Plain behind →
        Physical.roots width before + Physical.roots width behind ≤ Numeral.max64 →
        moved = (clusters (Line.parse width behind)).map
          (Relocation.mk (Position.later (Physical.roots width before))
            (· + before.count '\n')).cluster) := by
  obtain ⟨cursor, hparse, hcount⟩ := Line.parse_append hbefore hbehind
  obtain ⟨first, more, hread, hfirst⟩ := Line.readFrom_of_startsWithRoot hbehind cursor
    (1 + before.count '\n')
  refine ⟨clusters (Line.readFrom width cursor (1 + before.count '\n')
    (Text.splitOn '\n' behind)).2, ?_, ?_, ?_⟩
  · rw [hparse]
    refine clusters_append ?_
    simp [hread, hfirst]
  · rw [← Relocation.clusters_map_line, Line.map_line_readFrom width cursor .start,
      Relocation.clusters_map_line, Line.parse_eq_readFrom]
  · intro hplain hplain' hle
    have hroots := hcount hplain (by omega)
    have hmoved := Line.readFrom_behind cursor 1 (before.count '\n') hbehind hplain'
      (by rw [hroots]; exact hle)
    rw [hmoved, Relocation.clusters_map_line, hroots, Line.parse_eq_readFrom]

/-- A block that ends with a comment below its deepest line. -/
def Tree.firstBlock : Text :=
  ":<: {r}\n    <= ::(f)\n    <- {a}\n        <= ::(g)\n        # done\n"

/-- A block behind a blank line, of two lines of depth zero. -/
def Tree.secondBlock : Text := " \n:<: {s}\n<- {t}\n    ...: what is left\n    <= ::(h)"

theorem Tree.clusters_of_blocks_secondBlock :
    firstBlock.getLast? = some '\n' ∧ Physical.opensBlock 4 secondBlock = true ∧
    Physical.Plain firstBlock ∧ Physical.Plain secondBlock ∧
    Physical.roots 4 firstBlock + Physical.roots 4 secondBlock ≤ Numeral.max64 ∧
    (clusters (Line.parse 4 secondBlock)).map (·.position.text) = ["2".toList] ∧
    clusters (Line.parse 4 (firstBlock ++ secondBlock)) = clusters (Line.parse 4 firstBlock) ++
      (clusters (Line.parse 4 secondBlock)).map
        (Relocation.mk (Position.later 1) (· + 5)).cluster := by
  have hlast : firstBlock.getLast? = some '\n' := by decide +kernel
  have hopens : Physical.opensBlock 4 secondBlock = true := by decide +kernel
  have hplain : Physical.Plain firstBlock := by decide +kernel
  have hplain' : Physical.Plain secondBlock := by decide +kernel
  have hroots : Physical.roots 4 firstBlock = 1 := by decide +kernel
  have hlines : firstBlock.count '\n' = 5 := by decide +kernel
  have hle : Physical.roots 4 firstBlock + Physical.roots 4 secondBlock ≤ Numeral.max64 := by
    decide +kernel
  obtain ⟨moved, hclusters, -, hmoved⟩ := clusters_of_blocks 4 (Or.inr hlast) hopens
  rw [hmoved hplain hplain' hle, hroots, hlines] at hclusters
  exact ⟨hlast, hopens, hplain, hplain', hle, by decide +kernel, hclusters⟩

end PlanGraph
