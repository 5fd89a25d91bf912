import PlanGraph.Line.Basic
import PlanGraph.Proofs.Position.Spelling
import PlanGraph.Proofs.Text

set_option autoImplicit false

/-! # Reading the lines of a plan, one by one

`Line.parse` first makes entries of all lines and then groups them. Here both steps are taken
together, line by line from the front: a blank line adds nothing (`readFrom_blank`), a comment is
handed to the role line before it (`readFrom_comment`), and a role line takes the comments that
wait for it (`readFrom_role`). Every statement about parsed lines below is an induction along these
three. The first one is that, where no line asks for a position, the positions are those of a
counter that is fed the depths (`positions_readFrom`). -/

namespace PlanGraph

namespace Physical

/-- The position that the inline comment of a role line asks for. -/
def asked? (line : Text) : Option Position := (splitComment line.trim).2.bind positionTag?

/-- No role line asks for a position. -/
def Plain (source : Text) : Prop :=
  ∀ raw ∈ Text.splitOn '\n' source, Role.opens raw.trim = true → asked? raw = none

instance (source : Text) : Decidable (Plain source) :=
  inferInstanceAs (Decidable (∀ raw ∈ Text.splitOn '\n' source,
    Role.opens raw.trim = true → asked? raw = none))

end Physical

namespace Role

theorem ne_nil_of_opens {t : Text} (h : opens t = true) : t ≠ [] := by
  rintro rfl
  exact absurd h (by decide)

end Role

namespace Counter

/-- The counters behind each of the lines with the given depths. -/
def trace : Counter → List Nat → List Counter
  | _, [] => []
  | c, depth :: depths => c.advance depth :: trace (c.advance depth) depths

end Counter

attribute [ext] Line

namespace Line

/-- The comments in front of the first role line, and the lines, read from the lines of a text from
    `lineNumber` on. -/
def readFrom (width : Nat) (cursor : Entry.Cursor) (lineNumber : Nat) (source : List Text) :
    List Entry × List Line :=
  group (Entry.ofLines width cursor lineNumber source)

theorem parse_eq_readFrom (width : Nat) (source : Text) :
    parse width source = (readFrom width .start 1 (Text.splitOn '\n' source)).2 := rfl

/-! ## One line more in front -/

theorem readFrom_nil (width : Nat) (cursor : Entry.Cursor) (n : Nat) :
    readFrom width cursor n [] = ([], []) := rfl

theorem readFrom_blank {width : Nat} {cursor : Entry.Cursor} {n : Nat} {raw : Text}
    (more : List Text) (h : raw.trim = []) :
    readFrom width cursor n (raw :: more) = readFrom width cursor (n + 1) more := by
  simp [readFrom, Entry.ofLines, h]

theorem readFrom_comment {width : Nat} {cursor : Entry.Cursor} {n : Nat} {raw : Text}
    (more : List Text) (hne : raw.trim ≠ []) (hrole : Role.opens raw.trim = false) :
    readFrom width cursor n (raw :: more) =
      (⟨cursor.position, Physical.depth width raw, .comment, raw.trim, n⟩ ::
        (readFrom width cursor (n + 1) more).1, (readFrom width cursor (n + 1) more).2) := by
  simp [readFrom, Entry.ofLines, Entry.ofLine, hne, hrole, group]

/-- The entry of the inline comment on a role line. -/
def inlineEntries (position : Position) (depth lineNumber : Nat) (comment : Option Text) :
    List Entry :=
  comment.toList.map fun c => ⟨position, depth, .inlineComment, c, lineNumber⟩

theorem group_inlineEntries_append (position : Position) (depth n : Nat) (comment : Option Text)
    (more : List Entry) :
    group (inlineEntries position depth n comment ++ more) =
      (inlineEntries position depth n comment ++ (group more).1, (group more).2) := by
  cases comment <;> simp [inlineEntries, group]

/-- The line that a role line becomes, with the comments that follow it. -/
def ofRole (width n : Nat) (cursor : Entry.Cursor) (raw : Text) (followers : List Entry) : Line :=
  let depth := Physical.depth width raw
  let comment := (Physical.splitComment raw.trim).2
  let position := (cursor.step depth comment).position
  ofEntry ⟨position, depth, .main, Note.unescape (Physical.splitComment raw.trim).1, n⟩
    (inlineEntries position depth n comment ++ followers)

section OfRole

variable (width n : Nat) (cursor : Entry.Cursor) (raw : Text) (followers : List Entry)

theorem lineNumber_ofRole : (ofRole width n cursor raw followers).lineNumber = n := rfl

theorem position_ofRole :
    (ofRole width n cursor raw followers).position =
      (cursor.step (Physical.depth width raw) (Physical.splitComment raw.trim).2).position := rfl

theorem content_ofRole :
    (ofRole width n cursor raw followers).content =
      Note.unescape (Physical.splitComment raw.trim).1 := rfl

theorem classification_ofRole :
    (ofRole width n cursor raw followers).classification =
      .ofText (ofRole width n cursor raw followers).content := by
  simp only [ofRole, ofEntry]

theorem comments_ofRole :
    (ofRole width n cursor raw followers).comments =
      (Physical.splitComment raw.trim).2.toList ++ followers.map (·.text) := by
  simp [ofRole, ofEntry, inlineEntries, Function.comp_def]

/-- The wording is looked for behind the inline comment. -/
theorem sourceText_ofRole :
    (ofRole width n cursor raw followers).sourceText = wording? followers := by
  have hfind : ∀ (position : Position) (depth : Nat) (comment : Option Text),
      (inlineEntries position depth n comment ++ followers).find? (·.form == .comment) =
        followers.find? (·.form == .comment) := by
    intro position depth comment
    cases comment <;> rfl
  simp only [ofRole, ofEntry, wording?, hfind]

end OfRole

theorem readFrom_role {width : Nat} {cursor : Entry.Cursor} {n : Nat} {raw : Text}
    (more : List Text) (hrole : Role.opens raw.trim = true) :
    readFrom width cursor n (raw :: more) =
      let behind := readFrom width
        (cursor.step (Physical.depth width raw) (Physical.splitComment raw.trim).2) (n + 1) more
      ([], ofRole width n cursor raw behind.1 :: behind.2) := by
  have hne : raw.trim.isEmpty = false := by simpa using Role.ne_nil_of_opens hrole
  have hcons : ∀ (e : Entry) (es : List Entry), e.form = .main →
      group (e :: es) = ([], ofEntry e (group es).1 :: (group es).2) := by
    intro e es he
    simp [group, he]
  simp only [readFrom, Entry.ofLines, Entry.ofLine, hne, hrole, if_true, Bool.false_eq_true,
    if_false, List.cons_append]
  rw [hcons _ _ rfl]
  have hinline := group_inlineEntries_append
    (cursor.step (Physical.depth width raw) (Physical.splitComment raw.trim).2).position
    (Physical.depth width raw) n (Physical.splitComment raw.trim).2
    (Entry.ofLines width (cursor.step (Physical.depth width raw)
      (Physical.splitComment raw.trim).2) (n + 1) more)
  rw [inlineEntries] at hinline
  rw [hinline]
  rfl

/-- A parsed line comes from a role line, and its number says from which. -/
theorem exists_ofRole_of_mem_readFrom {width : Nat} {cursor : Entry.Cursor} {n : Nat}
    {source : List Text} {l : Line} (h : l ∈ (readFrom width cursor n source).2) :
    ∃ n' cursor' raw followers, (n ≤ n' ∧ source[n' - n]? = some raw) ∧
      Role.opens raw.trim = true ∧ l = ofRole width n' cursor' raw followers := by
  induction source generalizing cursor n with
  | nil => simp [readFrom_nil] at h
  | cons raw more ih =>
      have hmore : ∀ {cursor : Entry.Cursor}, l ∈ (readFrom width cursor (n + 1) more).2 →
          ∃ n' cursor' raw' followers, (n ≤ n' ∧ (raw :: more)[n' - n]? = some raw') ∧
            Role.opens raw'.trim = true ∧ l = ofRole width n' cursor' raw' followers := by
        intro cursor h
        obtain ⟨n', cursor', raw', followers, ⟨hn, hraw⟩, hrole, hl⟩ := ih h
        have hindex : n' - n = (n' - (n + 1)) + 1 := by omega
        refine ⟨n', cursor', raw', followers, ⟨Nat.le_of_succ_le hn, ?_⟩, hrole, hl⟩
        rw [hindex, List.getElem?_cons_succ, hraw]
      cases hrole : Role.opens raw.trim with
      | true =>
          rw [readFrom_role more hrole] at h
          rcases List.mem_cons.1 h with rfl | h
          · exact ⟨n, cursor, raw, _, ⟨Nat.le_refl n, by simp⟩, hrole, rfl⟩
          · exact hmore h
      | false =>
          by_cases hne : raw.trim = []
          · rw [readFrom_blank more hne] at h
            exact hmore h
          · rw [readFrom_comment more hne hrole] at h
            exact hmore h

theorem le_lineNumber_of_mem_readFrom {width : Nat} {cursor : Entry.Cursor} {n : Nat}
    {source : List Text} {l : Line} (h : l ∈ (readFrom width cursor n source).2) :
    n ≤ l.lineNumber := by
  obtain ⟨n', cursor', raw, followers, ⟨hn, -⟩, -, rfl⟩ := exists_ofRole_of_mem_readFrom h
  exact hn

/-! ## Depths -/

/-- The depths of the role lines. -/
def roleDepths (width : Nat) (source : List Text) : List Nat :=
  (source.filter fun raw => Role.opens raw.trim).map (Physical.depth width)

theorem roleDepths_role (width : Nat) {raw : Text} (more : List Text)
    (h : Role.opens raw.trim = true) :
    roleDepths width (raw :: more) = Physical.depth width raw :: roleDepths width more := by
  simp [roleDepths, h]

theorem roleDepths_other (width : Nat) {raw : Text} (more : List Text)
    (h : Role.opens raw.trim = false) :
    roleDepths width (raw :: more) = roleDepths width more := by
  simp [roleDepths, h]

theorem map_depth_readFrom (width : Nat) (cursor : Entry.Cursor) (n : Nat) (source : List Text) :
    (readFrom width cursor n source).2.map (·.depth) = roleDepths width source := by
  induction source generalizing cursor n with
  | nil => rfl
  | cons raw more ih =>
      cases hrole : Role.opens raw.trim with
      | true =>
          rw [readFrom_role more hrole, roleDepths_role width more hrole, List.map_cons, ih]
          rfl
      | false =>
          rw [roleDepths_other width more hrole]
          by_cases hne : raw.trim = []
          · rw [readFrom_blank more hne]
            exact ih cursor (n + 1)
          · rw [readFrom_comment more hne hrole]
            exact ih cursor (n + 1)

/-! ## Positions without tags -/

/-- A line is read at the position that it is counted at unless its comment asks for another one. -/
theorem position_step_iff (cursor : Entry.Cursor) (depth : Nat) (comment : Option Text) :
    (cursor.step depth comment).position = (cursor.counter.advance depth).position ↔
      ∀ asked ∈ comment.bind Physical.positionTag?,
        asked = (cursor.counter.advance depth).position := by
  rw [Entry.Cursor.step]
  cases comment.bind Physical.positionTag? <;> simp

/-- A line that is read where it is counted leaves the counter where counting leaves it. -/
theorem step_eq_of_position {cursor : Entry.Cursor} {depth : Nat} {comment : Option Text}
    (h : (cursor.step depth comment).position = (cursor.counter.advance depth).position) :
    cursor.step depth comment =
      ⟨cursor.counter.advance depth, (cursor.counter.advance depth).position⟩ := by
  have hasked := (position_step_iff cursor depth comment).1 h
  rw [Entry.Cursor.step]
  cases hbind : comment.bind Physical.positionTag? with
  | none => rfl
  | some asked =>
      show Entry.Cursor.mk (.resetTo asked) asked = _
      rw [hasked asked hbind, Counter.resetTo_position (Counter.counts_advance_ne_nil _ _)]

/-- Where no position is asked for, the line is counted at its depth. -/
theorem step_of_asked?_eq_none (width : Nat) (cursor : Entry.Cursor) {raw : Text}
    (h : Physical.asked? raw = none) :
    cursor.step (Physical.depth width raw) (Physical.splitComment raw.trim).2 =
      ⟨cursor.counter.advance (Physical.depth width raw),
        (cursor.counter.advance (Physical.depth width raw)).position⟩ := by
  rw [Physical.asked?] at h
  simp only [Entry.Cursor.step, h]

theorem positions_readFrom (width : Nat) (source : List Text)
    (hplain : ∀ raw ∈ source, Role.opens raw.trim = true → Physical.asked? raw = none)
    (cursor : Entry.Cursor) (n : Nat) :
    (readFrom width cursor n source).2.map (·.position) =
      (cursor.counter.trace ((readFrom width cursor n source).2.map (·.depth))).map
        Counter.position := by
  induction source generalizing cursor n with
  | nil => rfl
  | cons raw more ih =>
      have ih := ih fun r hr => hplain r (List.mem_cons_of_mem _ hr)
      by_cases hrole : Role.opens raw.trim = true
      · have hnone := hplain raw List.mem_cons_self hrole
        have hstep := step_of_asked?_eq_none width cursor hnone
        rw [readFrom_role more hrole, hstep]
        simp only [List.map_cons]
        rw [ih]
        simp [ofRole, ofEntry, hstep, Counter.trace]
      · by_cases hne : raw.trim = []
        · rw [readFrom_blank more hne]
          exact ih cursor (n + 1)
        · rw [readFrom_comment more hne (by simpa using hrole)]
          exact ih cursor (n + 1)

/-! ## Sizes -/

/-- Each level of depth takes a character. -/
theorem depth_le_length (width : Nat) (raw : Text) : Physical.depth width raw ≤ raw.length := by
  have hindent : ∀ t : Text, Physical.indentation width t ≤ max width 1 * t.length := by
    intro t
    fun_induction Physical.indentation width t with
    | case1 rest ih =>
        refine (Nat.mod_le _ _).trans ?_
        rw [List.length_cons, Nat.mul_succ]
        omega
    | case2 rest ih =>
        refine (Nat.mod_le _ _).trans ?_
        rw [List.length_cons, Nat.mul_succ]
        omega
    | case3 => exact Nat.zero_le _
  exact Nat.div_le_of_le_mul (hindent raw)

/-- A parsed line is no deeper than its text is long, and its number no larger than that of the last
    line. -/
theorem size_of_mem_parse {width : Nat} {source : Text} {l : Line} (h : l ∈ parse width source) :
    l.depth ≤ source.length ∧ l.lineNumber ≤ source.length + 1 := by
  obtain ⟨n, cursor, raw, followers, ⟨hn, hraw⟩, -, rfl⟩ := exists_ofRole_of_mem_readFrom h
  have hindex : n - 1 < (Text.splitOn '\n' source).length := (List.getElem?_eq_some_iff.1 hraw).1
  have hcount : source.count '\n' ≤ source.length := List.count_le_length
  rw [Text.length_splitOn] at hindex
  constructor
  · calc Physical.depth width raw
      _ ≤ raw.length := depth_le_length width raw
      _ ≤ source.length := Text.length_le_of_mem_splitOn (List.mem_of_getElem? hraw)
  · rw [lineNumber_ofRole]
    omega

end Line

end PlanGraph
