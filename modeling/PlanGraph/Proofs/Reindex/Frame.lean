import Mathlib.Data.List.Forall2
import PlanGraph.Proofs.Line.Relocation
import PlanGraph.Proofs.Reindex.Idempotence

set_option autoImplicit false

/-! # What reindexing leaves alone

Reindexing writes into a role line at one place: the value of its first position tag, or the end of
the line where it has none (`retagged_retag`). A line with a tag but for the value is a `Stamp`, and
what is written there depends on the stamp alone (`Stamp.retag_line`). Two statements about whole
texts follow. The pipe of a line stays where it is, so a reindexed text is read as the same lines
with other positions and comments (`frame_run`). And a text with other values in its tags is
reindexed to the same text (`text_run_restamped`). -/

namespace PlanGraph

namespace Reindex

/-! ## Lines with a tag, but for its value -/

/-- A line with a position tag, without the value of the tag. -/
structure Stamp where
  /-- What stands before the first pipe. -/
  main : Text
  /-- What stands between the pipe and the first tag. -/
  front : Text
  /-- What stands between the opening of the tag and its value. -/
  gap : Text
  /-- What stands behind the value. -/
  rest : Text
  pipe : Physical.splitPipe? false (main ++ ['|']) = some (main, ['|'])
  first : Text.contains front tagOpening = false
  gap_blank : ∀ d ∈ gap, d = ' ' ∨ d = '\t'
  rest_ends : ∀ d ∈ rest.head?, d = '|' ∨ isBlank d = true

/-- The first tag of a comment is the one behind a text without any. -/
theorem replaceTag?_append (position : Text) {front : Text}
    (h : Text.contains front tagOpening = false) (behind : Text) :
    replaceTag? position (front ++ tagOpening ++ behind) =
      some (front ++ tagOpening ++ revalue position behind) := by
  induction front with
  | nil => exact replaceTag?_of_opening position (Text.after?_eq_some_iff.2 rfl)
  | cons c front ih =>
      have hhere := Text.after?_eq_none_of_contains h
      rw [Text.contains, Bool.or_eq_false_iff] at h
      -- no tag that opens in front of another one reaches into it, for want of a question mark
      have hopen : Text.after? (c :: front ++ tagOpening ++ behind) tagOpening = none := by
        rw [tagOpening_eq, Text.cons_after?_cons] at hhere
        rw [tagOpening_eq, List.append_assoc, List.cons_append, List.cons_append,
          Text.cons_after?_cons]
        split
        · next hc =>
            rw [if_pos hc] at hhere
            rw [Text.after?_append_cons _ _ (by decide), hhere]
            rfl
        · rfl
      rw [List.cons_append, List.cons_append] at hopen ⊢
      rw [replaceTag?_of_no_opening position hopen, ih h.2]
      rfl

namespace Stamp

variable (s : Stamp)

/-- The line with a value in its tag. -/
def line (value : Text) : Text :=
  s.main ++ '|' :: (s.front ++ tagOpening ++ (s.gap ++ value ++ s.rest))

theorem splitPipe?_line (value : Text) :
    Physical.splitPipe? false (s.line value) =
      some (s.main, '|' :: (s.front ++ tagOpening ++ (s.gap ++ value ++ s.rest))) :=
  Physical.splitPipe?_pipe s.pipe _

/-- A position takes the place of any value. -/
theorem retag_line (position : Text) {value : Text} (hvalue : TagValue value) :
    retag position (s.line value) = s.line position := by
  have hgap : ∀ d ∈ s.gap, (d == ' ' || d == '\t') = true := by
    intro d hd
    rcases s.gap_blank d hd with rfl | rfl <;> decide
  have hreplaced := replaceTag?_append position s.first (s.gap ++ value ++ s.rest)
  rw [revalue_append position hgap hvalue (dropWhile_of_ends s.rest_ends)] at hreplaced
  refine retag_of_replaceTag? (s.splitPipe?_line value) ?_
  rw [replaceTag?_of_no_opening position rfl, hreplaced]
  rfl

/-- The value of a tag has no say in the role and the depth of its line. -/
theorem opens_depth_line (width : Nat) {value : Text} (hvalue : TagValue value) (other : Text)
    (hrole : Role.opens (s.line value).trim = true) :
    Role.opens (s.line other).trim = true ∧
      Physical.depth width (s.line other) = Physical.depth width (s.line value) := by
  have h := opens_depth_retag width other hrole []
  rw [s.retag_line other hvalue] at h
  simpa [piece] using h

end Stamp

/-! ## What becomes of a role line -/

/-- A role line with its position written into it: the value of its first tag is replaced, or a tag
    is put behind it if it has none. -/
inductive Retagged (position body : Text) : Text → Prop where
  | corrected (s : Stamp) {value : Text} (hbody : body = s.line value)
      (hvalue : ∀ d ∈ value, d ≠ '|' ∧ isBlank d = false) :
      Retagged position body (s.line position)
  | appended (hfree : (Physical.fromPipe? body).all
      (fun comment => !Text.contains comment tagOpening) = true) :
      Retagged position body (appendTag position body)

/-- What follows the opening of a tag is a gap, a value and the rest. -/
theorem exists_revalue_eq (behind : Text) :
    ∃ gap value rest, behind = gap ++ value ++ rest ∧ (∀ d ∈ gap, d = ' ' ∨ d = '\t') ∧
      (∀ d ∈ value, d ≠ '|' ∧ isBlank d = false) ∧
      (∀ d ∈ rest.head?, d = '|' ∨ isBlank d = true) ∧
      ∀ position, revalue position behind = gap ++ position ++ rest := by
  refine ⟨_, (behind.dropWhile fun d => d == ' ' || d == '\t').takeWhile
    (fun d => d != '|' && !isBlank d), _, ?_, ?_, ?_, ?_, fun _ => rfl⟩
  · rw [List.append_assoc, List.takeWhile_append_dropWhile, List.takeWhile_append_dropWhile]
  · intro d hd
    simpa using List.mem_takeWhile_imp (p := fun d => d == ' ' || d == '\t') hd
  · intro d hd
    simpa using List.mem_takeWhile_imp (p := fun d => d != '|' && !isBlank d) hd
  · intro d hd
    have h := List.head?_dropWhile_not (fun d => d != '|' && !isBlank d)
      (behind.dropWhile fun d => d == ' ' || d == '\t')
    rw [Option.mem_def.1 hd] at h
    by_cases hpipe : d = '|'
    · exact Or.inl hpipe
    · right
      simpa [hpipe] using h

theorem retagged_retag (position body : Text) : Retagged position body (retag position body) := by
  cases hcut : Physical.splitPipe? false body with
  | none =>
      have hretag : retag position body = appendTag position body := by
        simp only [retag, hcut]
      rw [hretag]
      exact .appended (by simp [Physical.fromPipe?, hcut])
  | some cut =>
      obtain ⟨main, comment⟩ := cut
      cases hreplaced : replaceTag? position comment with
      | none =>
          have hretag : retag position body = appendTag position body := by
            simp only [retag, hcut, hreplaced]
          have hfree := contains_of_replaceTag?_eq_none hreplaced
          rw [hretag]
          exact .appended (by simp [Physical.fromPipe?, hcut, hfree])
      | some replaced =>
          rw [retag_of_replaceTag? hcut hreplaced]
          obtain ⟨more, rfl⟩ := Physical.exists_of_splitPipe? hcut
          have hline := Physical.splitPipe?_append hcut
          rw [replaceTag?_of_no_opening position rfl] at hreplaced
          obtain ⟨r, hr, rfl⟩ := Option.map_eq_some_iff.1 hreplaced
          obtain ⟨front, behind, hfirst, rfl, rfl⟩ := exists_of_replaceTag? hr
          obtain ⟨gap, value, rest, rfl, hgap, hvalue, hends, hrevalue⟩ := exists_revalue_eq behind
          rw [hrevalue]
          have hpipe := Physical.splitPipe?_pipe (hline ▸ hcut) []
          exact .corrected ⟨main, front, gap, rest, hpipe, hfirst, hgap, hends⟩ hline hvalue

end Reindex

/-! ## The main text of a line -/

namespace Physical

/-- What stands behind a line brings no pipe into it. -/
theorem splitPipe?_append_no_pipe {escaped : Bool} (t : Text) {b : Text} (hb : '|' ∉ b) :
    splitPipe? escaped (t ++ b) =
      (splitPipe? escaped t).map fun cut => (cut.1, cut.2 ++ b) := by
  cases ht : splitPipe? escaped t with
  | some cut => exact splitPipe?_append_of_some b ht
  | none =>
      rw [Option.map_none, Option.eq_none_iff_forall_ne_some]
      rintro ⟨front, back⟩ h
      have hline := splitPipe?_append h
      obtain ⟨more, rfl⟩ := exists_of_splitPipe? h
      rcases List.append_eq_append_iff.1 hline with ⟨a, -, rfl⟩ | ⟨a, rfl, ha⟩
      · simp at hb
      · cases a with
        | nil =>
            rw [List.nil_append] at ha
            simp [← ha] at hb
        | cons d a =>
            -- then the pipe is one of the text in front
            obtain ⟨rfl, -⟩ := List.cons.inj ha
            rw [hline] at h
            rw [splitPipe?_pipe h a] at ht
            cases ht

/-- The margins of a line are none of its main text. -/
theorem fst_splitComment_trim (t : Text) : (splitComment t.trim).1 = (splitComment t).1 := by
  obtain ⟨a, b, ha, hb, hcut⟩ := Text.exists_margins t
  obtain ⟨hpipe, hback⟩ := Reindex.plain_of_allBlank ha
  have hsplit : splitPipe? false t =
      (splitPipe? false t.trim).map fun cut => (a ++ cut.1, cut.2 ++ b) := by
    conv_lhs => rw [hcut]
    rw [splitPipe?_append_no_pipe _ (Reindex.plain_of_allBlank hb).1,
      splitPipe?_append_plain _ hpipe hback, Option.map_map]
    rfl
  unfold splitComment
  rw [hsplit]
  cases splitPipe? false t.trim with
  | none => exact Text.trim_of_tight (Text.tight_trim t)
  | some cut =>
      show cut.1.trim = Text.trim (a ++ cut.1)
      rw [Text.trim, Text.trim, Text.trimStart_append _ ha]

end Physical

namespace Reindex

/-- The pipe of a role line stays where it is, and with it the main text. -/
theorem main_retag {c : Counter} (hc : c.counts ≠ []) {body : Text} (hbody : body.trim ≠ []) :
    (Physical.splitComment (retag c.position.text body).trim).1 =
      (Physical.splitComment body.trim).1 := by
  have h := retagged_retag c.position.text body
  generalize retag c.position.text body = body' at h ⊢
  cases h with
  | corrected s hline _ =>
      rw [Physical.fst_splitComment_trim, hline, Physical.fst_splitComment_trim,
        Physical.splitComment, Physical.splitComment, s.splitPipe?_line, s.splitPipe?_line]
  | appended _ =>
      have htrim := trim_appendTag hc hbody Text.AllBlank.nil
      rw [List.append_nil] at htrim
      rw [htrim, splitComment_append_tag hc (Text.tight_trim body)]

end Reindex

/-! ## Lines but for their positions and comments -/

/-- What a line has apart from its position and its comments. -/
def Line.frame (l : Line) : Line := { l with position := .absent, comments := [] }

theorem Line.frame_congr {l l' : Line} (hdepth : l.depth = l'.depth)
    (hcontent : l.content = l'.content) (hclassification : l.classification = l'.classification)
    (hsource : l.sourceText = l'.sourceText) (hnumber : l.lineNumber = l'.lineNumber) :
    l.frame = l'.frame :=
  Line.ext rfl hdepth hcontent hclassification rfl hsource hnumber

/-- No positions any more. -/
def Relocation.displaced : Relocation := ⟨fun _ => .absent, id⟩

open Relocation (displaced)

theorem Line.frame_ofRole {width n : Nat} {cursor cursor' : Entry.Cursor} {raw raw' : Text}
    {followers followers' : List Entry}
    (hdepth : Physical.depth width raw' = Physical.depth width raw)
    (hmain : (Physical.splitComment raw'.trim).1 = (Physical.splitComment raw.trim).1)
    (hfollowers : followers'.map displaced.entry = followers.map displaced.entry) :
    (ofRole width n cursor' raw' followers').frame =
      (ofRole width n cursor raw followers).frame := by
  have hcontent : (ofRole width n cursor' raw' followers').content =
      (ofRole width n cursor raw followers).content := by
    rw [content_ofRole, content_ofRole, hmain]
  have hwording : wording? followers' = wording? followers := by
    rw [← displaced.wording?_map_entry, hfollowers, displaced.wording?_map_entry]
  refine frame_congr hdepth hcontent ?_ ?_ rfl
  · rw [classification_ofRole, hcontent, classification_ofRole]
  · rw [sourceText_ofRole, hwording, sourceText_ofRole]

namespace Reindex

/-- Retagged lines are read as they were, apart from positions and comments. Nothing depends on the
    cursors of the two readings. -/
theorem frame_readFrom_retagLines (width : Nat) {lines : List (Text × Text)}
    (hblank : ∀ line ∈ lines, Text.AllBlank line.2.dropLast) (c : Counter)
    (cursor cursor' : Entry.Cursor) (n : Nat) :
    let before := Line.readFrom width cursor n (lines.map piece)
    let after := Line.readFrom width cursor' n ((retagLines width c lines).map piece)
    after.1.map displaced.entry = before.1.map displaced.entry ∧
      after.2.map Line.frame = before.2.map Line.frame := by
  induction lines generalizing c cursor cursor' n with
  | nil => exact ⟨rfl, rfl⟩
  | cons line lines ih =>
      obtain ⟨body, ending⟩ := line
      rw [List.forall_mem_cons] at hblank
      have ih := ih hblank.2
      have htrim : (piece (body, ending)).trim = body.trim := Text.trim_append_blank body hblank.1
      rw [retagLines]
      by_cases hrole : Role.opens body.trim = true
      · have hbody := Role.ne_nil_of_opens hrole
        have hrole' : Role.opens (piece (body, ending)).trim = true := by rw [htrim]; exact hrole
        generalize hcount : c.advance (Physical.depth width body) = counted
        have hc : counted.counts ≠ [] := by
          rw [← hcount]
          exact Counter.counts_advance_ne_nil _ _
        obtain ⟨hopens, hdepth⟩ := opens_depth_retag width counted.position.text hrole ending
        have htrim' : (piece (retag counted.position.text body, ending)).trim =
            (retag counted.position.text body).trim := Text.trim_append_blank _ hblank.1
        have hsame : Physical.depth width (piece (body, ending)) = Physical.depth width body :=
          (Physical.depth_append width hbody _).symm
        rw [if_pos hrole, List.map_cons, List.map_cons, Line.readFrom_role _ hrole',
          Line.readFrom_role _ hopens]
        obtain ⟨hfollowers, hmore⟩ := ih counted _ _ (n + 1)
        refine ⟨rfl, ?_⟩
        rw [List.map_cons, List.map_cons, hmore]
        refine congrArg (· :: _) (Line.frame_ofRole ?_ ?_ hfollowers)
        · rw [hdepth, hsame]
        · rw [htrim', htrim, main_retag hc hbody]
      · have hrole' : Role.opens (piece (body, ending)).trim = false := by
          rw [htrim]
          simpa using hrole
        rw [if_neg hrole, List.map_cons, List.map_cons]
        by_cases hne : (piece (body, ending)).trim = []
        · rw [Line.readFrom_blank _ hne, Line.readFrom_blank _ hne]
          exact ih c cursor cursor' (n + 1)
        · rw [Line.readFrom_comment _ hne hrole', Line.readFrom_comment _ hne hrole']
          obtain ⟨hfollowers, hmore⟩ := ih c cursor cursor' (n + 1)
          exact ⟨congrArg (_ :: ·) hfollowers, hmore⟩

/-! ## The whole text -/

theorem forall₂_retagLines (width : Nat) (c : Counter) (lines : List (Text × Text)) :
    List.Forall₂ (fun line line' => line'.2 = line.2 ∧
        (Role.opens line.1.trim = false → line'.1 = line.1) ∧
        (Role.opens line.1.trim = true → ∃ position, Retagged position line.1 line'.1))
      lines (retagLines width c lines) := by
  induction lines generalizing c with
  | nil => exact .nil
  | cons line lines ih =>
      obtain ⟨body, ending⟩ := line
      rw [retagLines]
      cases hrole : Role.opens body.trim with
      | true =>
          exact .cons ⟨rfl, fun h => absurd (hrole.symm.trans h) (by simp),
            fun _ => ⟨_, retagged_retag _ body⟩⟩ (ih _)
      | false =>
          exact .cons ⟨rfl, fun _ => rfl, fun h => absurd (hrole.symm.trans h) (by simp)⟩ (ih c)

/-- **Reindexing changes nothing but tags.** A reindexed text is read as the same lines: as many,
    each with the depth, content, classification, wording and line number that it had, and so with
    the same children. Of the text itself every ending and every line without a role is what it was,
    and a role line has another value in its first tag or a tag behind it. The number of updated lines
    is the number of lines that differ. -/
theorem frame_run (width : Nat) (source : Text) :
    let outcome := run width source
    let before := Line.parse width source
    let after := Line.parse width outcome.text
    after.map Line.frame = before.map Line.frame ∧
      Tree.children after = Tree.children before ∧
      List.Forall₂ (fun line line' => line'.2 = line.2 ∧
          (Role.opens line.1.trim = false → line'.1 = line.1) ∧
          (Role.opens line.1.trim = true → ∃ position, Retagged position line.1 line'.1))
        (physicalLines source) (physicalLines outcome.text) ∧
      outcome.updated = ((physicalLines source).zip (physicalLines outcome.text)).countP
        fun pair => pair.1 != pair.2 := by
  intro outcome before after
  have hframe : after.map Line.frame = before.map Line.frame := by
    have hread := (frame_readFrom_retagLines width (wellEnded_physicalLines source).allBlank .start
      .start .start 1).2
    rw [← splitOn_run, map_piece_physicalLines] at hread
    exact hread
  have hdepths : after.map (·.depth) = before.map (·.depth) := by
    simpa [Function.comp_def, Line.frame] using congrArg (List.map (·.depth)) hframe
  refine ⟨hframe, ?_, ?_, ?_⟩
  · have hlength : after.length = before.length := by
      simpa using congrArg List.length hframe
    unfold Tree.children
    rw [hdepths, hlength]
  · rw [physicalLines_run]
    exact forall₂_retagLines width .start _
  · rw [physicalLines_run]
    rfl

/-! ## Other values in the tags -/

/-- A role line with another value in its first tag, or any line as it is. -/
inductive Restamped (raw : Text) : Text → Prop where
  | same : Restamped raw raw
  | other (s : Stamp) {old new : Text} (hrole : Role.opens raw.trim = true)
      (hraw : raw = s.line old) (hold : TagValue old) (hnew : TagValue new) :
      Restamped raw (s.line new)

theorem Stamp.getLast?_line (s : Stamp) {value : Text} (hvalue : value ≠ []) :
    (s.line value).getLast? = (value ++ s.rest).getLast? := by
  have hcut : s.line value =
      (s.main ++ '|' :: (s.front ++ tagOpening ++ s.gap)) ++ (value ++ s.rest) := by
    simp [line]
  rw [hcut, List.getLast?_append_of_ne_nil _ (by simp [hvalue])]

/-- A carriage return at the end of a line is none of the value of its tag. -/
theorem Stamp.return_cases (s : Stamp) :
    (∀ value, TagValue value → (s.line value).before? "\r" = none) ∨
      ∃ cut : Stamp, ∀ value, s.line value = cut.line value ++ ['\r'] := by
  rcases List.eq_nil_or_concat' s.rest with hrest | ⟨rest, d, hrest⟩
  · -- the value ends the line, and it holds no blank
    left
    intro value hvalue
    rw [before?_return_eq_none_iff, s.getLast?_line hvalue.ne_nil, hrest, List.append_nil]
    intro hlast
    exact absurd (hvalue.plain _ (List.mem_of_mem_getLast? hlast)).2 (by decide)
  · by_cases hd : d = '\r'
    · right
      subst hd
      have hends : ∀ d ∈ rest.head?, d = '|' ∨ isBlank d = true := by
        intro d hd
        refine s.rest_ends d ?_
        rw [hrest, List.head?_append]
        simp [Option.mem_def.1 hd]
      exact ⟨{ s with rest := rest, rest_ends := hends }, fun value => by simp [Stamp.line, hrest]⟩
    · left
      intro value hvalue
      rw [before?_return_eq_none_iff, s.getLast?_line hvalue.ne_nil, hrest, ← List.append_assoc,
        List.getLast?_concat]
      simpa using hd

theorem Restamped.before?_return {raw raw' : Text} (h : Restamped raw raw') :
    (raw.before? "\r" = none ∧ raw'.before? "\r" = none) ∨
      ∃ body body', raw.before? "\r" = some body ∧ raw'.before? "\r" = some body' ∧
        Restamped body body' := by
  cases h with
  | same =>
      cases hraw : raw.before? "\r" with
      | none => exact Or.inl ⟨rfl, rfl⟩
      | some body => exact Or.inr ⟨body, body, rfl, rfl, .same⟩
  | @other s old new hrole hraw hold hnew =>
      subst hraw
      rcases s.return_cases with hnone | ⟨cut, hline⟩
      · exact Or.inl ⟨hnone old hold, hnone new hnew⟩
      · have hopens : Role.opens (cut.line old).trim = true := by
          rwa [hline, Text.trim_append_blank _ (show Text.AllBlank ['\r'] by decide)] at hrole
        exact Or.inr ⟨cut.line old, cut.line new, Text.before?_eq_some_iff.2 (hline old),
          Text.before?_eq_some_iff.2 (hline new), .other cut hopens rfl hold hnew⟩

/-- The endings are cut off alike. -/
theorem forall₂_withEndings {pieces pieces' : List Text}
    (h : List.Forall₂ Restamped pieces pieces') :
    List.Forall₂ (fun line line' => line'.2 = line.2 ∧ Restamped line.1 line'.1)
      (withEndings pieces) (withEndings pieces') := by
  induction h with
  | nil => exact .nil
  | cons hraw hmore ih =>
      cases hmore with
      | nil => exact .cons ⟨rfl, hraw⟩ .nil
      | cons _ _ =>
          refine .cons ?_ ih
          rcases hraw.before?_return with ⟨hnone, hnone'⟩ | ⟨body, body', hsome, hsome', hbody⟩
          · rw [hnone, hnone']
            exact ⟨rfl, hraw⟩
          · rw [hsome, hsome']
            exact ⟨rfl, hbody⟩

/-- Lines that differ in the value of a tag are counted alike and retagged alike. -/
theorem Restamped.retag {body body' : Text} (h : Restamped body body') (width : Nat) :
    Role.opens body'.trim = Role.opens body.trim ∧
      Physical.depth width body' = Physical.depth width body ∧
      (∀ position, Reindex.retag position body' = Reindex.retag position body) ∧
      (Role.opens body.trim = false → body' = body) := by
  cases h with
  | same => exact ⟨rfl, rfl, fun _ => rfl, fun _ => rfl⟩
  | @other s old new hrole hraw hold hnew =>
      subst hraw
      obtain ⟨hrole', hdepth⟩ := s.opens_depth_line width hold new hrole
      refine ⟨hrole'.trans hrole.symm, hdepth, ?_, fun hnot => by simp [hrole] at hnot⟩
      intro position
      rw [s.retag_line position hold, s.retag_line position hnew]

theorem retagLines_restamped (width : Nat) {lines lines' : List (Text × Text)}
    (h : List.Forall₂ (fun line line' => line'.2 = line.2 ∧ Restamped line.1 line'.1) lines lines')
    (c : Counter) : retagLines width c lines' = retagLines width c lines := by
  induction h generalizing c with
  | nil => rfl
  | @cons line line' lines lines' hline _ ih =>
      obtain ⟨body, ending⟩ := line
      obtain ⟨body', ending'⟩ := line'
      obtain ⟨hending, hbody⟩ := hline
      obtain ⟨hrole, hdepth, hretag, hother⟩ := hbody.retag width
      simp only at hending hrole hdepth hretag hother
      rw [retagLines, retagLines, hrole, hending]
      cases hopens : Role.opens body.trim with
      | true => simp only [if_true, hdepth, hretag, ih]
      | false => simp only [hother hopens, ih]

/-- **Stale tags have no influence.** A text in which role lines have other values in their first
    position tags, whatever these values are, is reindexed to the same text. -/
theorem text_run_restamped (width : Nat) {source source' : Text}
    (h : List.Forall₂ Restamped (Text.splitOn '\n' source) (Text.splitOn '\n' source')) :
    (run width source').text = (run width source).text := by
  have hlines := retagLines_restamped width (forall₂_withEndings h) .start
  exact congrArg assemble hlines

/-- A root with two tags, of which the second one stays, and a carriage return at its end. -/
def rootStamp : Stamp where
  main := ":<: {r} "
  front := " "
  gap := " "
  rest := " | ?{position}: 4\r"
  pipe := by decide
  first := by decide
  gap_blank := by simp
  rest_ends := by
    have hspace : isBlank ' ' = true := by decide
    simp [hspace]

/-- A step with an escaped pipe before its comment and a tabulator in its tag. -/
def stepStamp : Stamp where
  main := "    <= ::(f \\| g) "
  front := " kept "
  gap := "\t"
  rest := "| last"
  pipe := by decide
  first := by decide
  gap_blank := by simp
  rest_ends := by simp

def stampedPlan (root step : Text) : Text :=
  rootStamp.line root ++ "\n" ++ stepStamp.line step ++ "\n/: a remark"

/-- The new values are the opening of a tag with a number, and a backslash before the pipe. -/
theorem text_run_restamped_stampedPlan :
    List.Forall₂ Restamped (Text.splitOn '\n' (stampedPlan "9.9" "x"))
        (Text.splitOn '\n' (stampedPlan "?{position}:3" "\\")) ∧
      (run 4 (stampedPlan "?{position}:3" "\\")).text =
        (run 4 (stampedPlan "9.9" "x")).text := by
  have hold : Text.splitOn '\n' (stampedPlan "9.9" "x") =
      [rootStamp.line "9.9", stepStamp.line "x", "/: a remark"] := by decide +kernel
  have hnew : Text.splitOn '\n' (stampedPlan "?{position}:3" "\\") =
      [rootStamp.line "?{position}:3", stepStamp.line "\\", "/: a remark"] := by
    decide +kernel
  have hrestamped : List.Forall₂ Restamped (Text.splitOn '\n' (stampedPlan "9.9" "x"))
      (Text.splitOn '\n' (stampedPlan "?{position}:3" "\\")) := by
    rw [hold, hnew]
    refine .cons (.other rootStamp (by decide) rfl (by decide) (by decide)) ?_
    refine .cons (.other stepStamp (by decide) rfl (by decide) (by decide)) ?_
    exact .cons .same .nil
  exact ⟨hrestamped, text_run_restamped 4 hrestamped⟩

end Reindex

end PlanGraph
