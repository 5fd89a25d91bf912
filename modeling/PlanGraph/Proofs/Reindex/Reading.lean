import PlanGraph.Proofs.Line.Parse
import PlanGraph.Proofs.Line.Physical
import PlanGraph.Proofs.Recommenting.Inference
import PlanGraph.Proofs.Reindex.Lines

set_option autoImplicit false

/-! # The lines that a reindexed text is read as

Where no role line carries a position, reindexing puts a tag behind every role line. Read again,
each line is what it was, at the position it had, except for its comments: the tag is a comment of
its own if the line had none, and the end of the line's comment otherwise (`parse_run`). -/

namespace PlanGraph

namespace Reindex

/-! ## A line with a tag behind it -/

/-- The comment of a line with a tag behind it, where `comment` is the line from its pipe on. -/
def tagged (position : Text) : Option Text → Text
  | none => tag position
  | some comment => comment ++ ' ' :: tag position

/-- Comments that take up a tag: where the line has a comment, that comes first and goes on with the
    tag; else the tag makes a comment of its own. -/
def retagComments (position line : Text) (comments : List Text) : List Text :=
  match Physical.fromPipe? line with
  | none => tag position :: comments
  | some ['|'] => (['|'] ++ ' ' :: tag position) :: comments
  | some _ => comments.modifyHead (· ++ ' ' :: tag position)

theorem tagged_cons_eq_retagComments (position : Text) {line : Text} (hline : Text.Tight line)
    (comments : List Text) :
    tagged position (Physical.fromPipe? line) :: comments =
      retagComments position line ((Physical.splitComment line).2.toList ++ comments) := by
  rw [retagComments]
  split
  · next h => rw [Physical.splitComment_eq hline, h]; rfl
  · next h => rw [Physical.splitComment_eq hline, h]; rfl
  · next comment hmore h =>
      rw [Physical.splitComment_of_fromPipe? hline h hmore, h]
      rfl

/-- A tag takes the place of the right margin of a line. -/
theorem exists_appendTag_eq {body : Text} (hbody : body.trim ≠ []) :
    ∃ a, Text.AllBlank a ∧
      (∀ position, appendTag position body = a ++ body.trim ++ ' ' :: tag position) ∧
      ∃ b, body = a ++ body.trim ++ b := by
  obtain ⟨a, b, ha, hb, hcut⟩ := Text.exists_margins body
  have hend : body.trimEnd = a ++ body.trim := by
    conv_lhs => rw [hcut]
    exact Text.trimEnd_between hbody (Text.tight_trim body) hb
  refine ⟨a, ha, ?_, b, hcut⟩
  intro position
  rw [appendTag_eq, hend]

theorem depth_appendTag (width : Nat) (position : Text) {body : Text} (hbody : body.trim ≠ [])
    (ending : Text) :
    Physical.depth width (appendTag position body ++ ending) = Physical.depth width body := by
  obtain ⟨a, -, happend, b, hcut⟩ := exists_appendTag_eq hbody
  have hm := Text.tight_trim body
  have hold : Physical.depth width body = Physical.depth width (a ++ body.trim) := by
    conv_lhs => rw [hcut]
    exact Physical.depth_append_of_tight width a b hbody hm
  rw [happend, List.append_assoc (a ++ body.trim),
    Physical.depth_append_of_tight width a _ hbody hm, hold]

section Counted

variable {c : Counter} (hc : c.counts ≠ [])
include hc

theorem isBlank_last_tag (t : Text) {d : Char}
    (hd : d ∈ (t ++ tag c.position.text).getLast?) : isBlank d = false := by
  have hposition : c.position.text ≠ [] := Counter.text_position_ne_nil hc
  have hcut : t ++ tag c.position.text =
      (t ++ '|' :: ' ' :: (tagOpening ++ [' '])) ++ c.position.text := by
    simp [tag]
  rw [hcut, List.getLast?_append_of_ne_nil _ hposition] at hd
  exact Counter.isBlank_of_mem_text_position (List.mem_of_mem_getLast? hd)

theorem tight_tag : Text.Tight (tag c.position.text) :=
  ⟨by simp [tag]; decide, fun _ hd => isBlank_last_tag hc [] hd⟩

theorem tight_append_tag {m : Text} (hne : m ≠ []) (hm : Text.Tight m) :
    Text.Tight (m ++ ' ' :: tag c.position.text) := by
  constructor
  · rw [List.head?_append_of_ne_nil _ hne]
    exact hm.1
  · intro d hd
    exact isBlank_last_tag hc (m ++ [' ']) (by simpa using hd)

theorem trim_appendTag {body ending : Text} (hbody : body.trim ≠ [])
    (hending : Text.AllBlank ending) :
    (appendTag c.position.text body ++ ending).trim =
      body.trim ++ ' ' :: tag c.position.text := by
  obtain ⟨a, ha, happend, -⟩ := exists_appendTag_eq hbody
  rw [happend, List.append_assoc a]
  exact Text.trim_between ha (tight_append_tag hc hbody (Text.tight_trim body)) hending

/-- A line with a tag behind it has the same main text, and its comment takes up the tag. -/
theorem splitComment_append_tag {m : Text} (hm : Text.Tight m) :
    Physical.splitComment (m ++ ' ' :: tag c.position.text) =
      ((Physical.splitComment m).1, some (tagged c.position.text (Physical.fromPipe? m))) := by
  unfold Physical.splitComment Physical.fromPipe?
  cases hpipe : Physical.splitPipe? false m with
  | none =>
      have htag : Physical.splitPipe? false (m ++ ' ' :: tag c.position.text) =
          some (m ++ [' '], tag c.position.text) :=
        Physical.splitPipe?_append_of_none _ hpipe
      have hmain : Text.trim (m ++ [' ']) = m.trim :=
        Text.trim_append_blank m Text.AllBlank.space
      have hlen : 1 < (tag c.position.text).length := by simp [tag]
      rw [htag]
      simp only [Text.trim_of_tight (tight_tag hc), hlen, if_true, hmain]
      rfl
  | some cut =>
      obtain ⟨front, back⟩ := cut
      obtain ⟨rest, rfl⟩ := Physical.exists_of_splitPipe? hpipe
      have hback := Physical.tight_of_splitPipe? hm hpipe
      have hlen : 1 < ('|' :: rest ++ ' ' :: tag c.position.text).length := by
        simp only [List.length_append, List.length_cons]
        omega
      rw [Physical.splitPipe?_append_of_some _ hpipe]
      simp only [Text.trim_of_tight (tight_append_tag hc (by simp) hback), hlen, if_true]
      rfl

end Counted

/-! ## The position that a tag asks for -/

/-- A tag is read up to the next pipe. -/
theorem exists_tagEntries_tag (value : Text) :
    ∃ more, Note.tagEntries (tag value) =
      ("position".toList, Note.clean (Note.untilPipe (' ' :: value)).1) :: more := by
  have hpair : Note.tagPair? (tagOpening ++ ' ' :: value) =
      some (("position".toList, Note.clean (Note.untilPipe (' ' :: value)).1),
        (Note.untilPipe (' ' :: value)).2) := rfl
  have hpipe : Note.tagPair? (tag value) = none := rfl
  have hspace : Note.tagPair? (' ' :: (tagOpening ++ ' ' :: value)) = none := rfl
  have hsuffix : (Note.untilPipe (' ' :: value)).2 <:+ tagOpening.tail ++ ' ' :: value := by
    refine List.IsSuffix.trans ?_ (List.suffix_append _ _)
    exact ⟨(Note.untilPipe (' ' :: value)).1, Note.untilPipe_append _⟩
  refine ⟨Note.tagEntries (Note.untilPipe (' ' :: value)).2, ?_⟩
  rw [Note.tagEntries, tag, Text.allMatches_of_none hpipe, Text.allMatches_of_none hspace]
  exact Text.allMatches_of_some hpair hsuffix

theorem clean_untilPipe_position (c : Counter) {rest : Text}
    (hrest : Text.AllBlank (Note.untilPipe rest).1) :
    Note.clean (Note.untilPipe (' ' :: (c.position.text ++ rest))).1 = c.position.text := by
  have hplain : ∀ d ∈ c.position.text, d = '.' ∨ d.isDigit = true :=
    fun _ => Counter.mem_text_position
  have hpipe : '|' ∉ c.position.text := Note.no_pipe_of_plain hplain
  have hback : '\\' ∉ c.position.text := by
    intro h
    rcases hplain _ h with h | h
    · exact absurd h (by decide)
    · exact absurd h (by decide)
  have huntil := Note.untilPipe_append_plain (s := ' ' :: c.position.text) rest
    (by simp [hpipe]) (by simp [hback])
  rw [List.cons_append] at huntil
  rw [huntil, Note.clean_append_blank _ hrest, Note.clean_of_plain hplain]

/-- A comment that asks for no position of its own is read at the position of the tag behind it. -/
theorem eq_of_mem_positionTag?_tagged {c : Counter} {rest : Text}
    (hrest : Text.AllBlank (Note.untilPipe rest).1) {earlier : Option Text}
    (hearlier : earlier.bind Physical.positionTag? = none) {asked : Position}
    (hasked : asked ∈ Physical.positionTag? (tagged (c.position.text ++ rest) earlier)) :
    asked = c.position := by
  have hget : TextMap.get? (Note.tagEntries (tag (c.position.text ++ rest))) "position" =
      some c.position.text := by
    obtain ⟨more, htag⟩ := exists_tagEntries_tag (c.position.text ++ rest)
    rw [htag, clean_untilPipe_position c hrest, TextMap.get?, if_pos rfl]
  have hown : ∀ q ∈ ((some c.position.text).filter (!·.isEmpty)).map Position.ofText,
      q = c.position := by
    intro q hq
    obtain ⟨value, hvalue, rfl⟩ := Option.map_eq_some_iff.1 hq
    obtain rfl := Option.some.inj (Option.filter_eq_some_iff.1 hvalue).1
    exact Counter.ofText_position c
  unfold Physical.positionTag? at hasked hearlier
  rw [TextMap.get?_ofFirst] at hasked
  cases earlier with
  | none =>
      rw [tagged, hget] at hasked
      exact hown asked hasked
  | some comment =>
      have hentries : Note.tagEntries (comment ++ ' ' :: tag (c.position.text ++ rest)) =
          Note.tagEntries comment ++ Note.tagEntries (tag (c.position.text ++ rest)) :=
        allMatches_append_tag _ rfl Note.suffix_of_tagPair? (Note.tagPair?_append_tag _) comment
      rw [Option.bind_some, TextMap.get?_ofFirst] at hearlier
      rw [tagged, hentries, TextMap.get?_append, hget] at hasked
      cases hcomment : TextMap.get? (Note.tagEntries comment) "position" with
      | none =>
          rw [hcomment] at hasked
          exact hown asked hasked
      | some value =>
          -- a value that is not empty would have been asked for without the tag
          rw [hcomment] at hearlier hasked
          rw [Option.some_or, hearlier] at hasked
          cases hasked

/-- A pipe alone is no comment, and asks for nothing. -/
theorem positionTag?_fromPipe? {m : Text} (hm : Text.Tight m)
    (h : (Physical.splitComment m).2.bind Physical.positionTag? = none) :
    (Physical.fromPipe? m).bind Physical.positionTag? = none := by
  cases hpipe : Physical.fromPipe? m with
  | none => rfl
  | some comment =>
      by_cases hmore : comment = ['|']
      · rw [hmore]
        rfl
      · rw [Physical.splitComment_of_fromPipe? hm hpipe hmore] at h
        exact h

theorem eq_of_mem_positionTag?_append_tag {c : Counter} {m : Text} (hm : Text.Tight m)
    (hask : (Physical.splitComment m).2.bind Physical.positionTag? = none) {asked : Position}
    (hasked : asked ∈ Physical.positionTag? (tagged c.position.text (Physical.fromPipe? m))) :
    asked = c.position := by
  have hend : Text.AllBlank (Note.untilPipe []).1 := Text.AllBlank.nil
  rw [← List.append_nil c.position.text] at hasked
  exact eq_of_mem_positionTag?_tagged hend (positionTag?_fromPipe? hm hask) hasked

/-- Read again, a tagged line is counted where it was counted before. -/
theorem step_append_tag (cursor : Entry.Cursor) (depth : Nat) {m : Text} (hm : Text.Tight m)
    (hask : (Physical.splitComment m).2.bind Physical.positionTag? = none) :
    cursor.step depth
        (some (tagged (cursor.counter.advance depth).position.text (Physical.fromPipe? m))) =
      ⟨cursor.counter.advance depth, (cursor.counter.advance depth).position⟩ := by
  refine Line.step_eq_of_position ((Line.position_step_iff _ _ _).2 ?_)
  intro asked hasked
  exact eq_of_mem_positionTag?_append_tag hm hask hasked

/-! ## The comments of a reindexed plan -/

section Spelled

variable (path : List Nat) (line : Text) (comments : List Text)

theorem keyedEntries_retagComments :
    (retagComments (Position.ofComponents path).text line comments).flatMap Note.keyedEntries =
      comments.flatMap Note.keyedEntries := by
  have hplain : ∀ d ∈ (Position.ofComponents path).text, d = '.' ∨ d.isDigit = true :=
    fun _ => Position.mem_text_ofComponents
  rw [retagComments]
  split
  · rw [List.flatMap_cons, Note.keyedEntries_tag hplain, List.nil_append]
  · rw [List.flatMap_cons, Note.keyedEntries_append_tag hplain]
    rfl
  · cases comments with
    | nil => rfl
    | cons comment more =>
        rw [List.modifyHead_cons, List.flatMap_cons, List.flatMap_cons,
          Note.keyedEntries_append_tag hplain]

/-- The position tag is no tag by another name. -/
theorem tag?_retagComments {key : Text} (hkey : key ≠ "position".toList) :
    (Notes.ofComments (retagComments (Position.ofComponents path).text line comments)).tag? key =
      (Notes.ofComments comments).tag? key := by
  have hplain : ∀ d ∈ (Position.ofComponents path).text, d = '.' ∨ d.isDigit = true :=
    fun _ => Position.mem_text_ofComponents
  have hother :
      TextMap.get? [("position".toList, (Position.ofComponents path).text)] key = none := by
    rw [TextMap.get?, if_neg hkey, TextMap.get?]
  unfold Notes.tag? Notes.ofComments
  rw [TextMap.get?_ofFirst, TextMap.get?_ofFirst, retagComments]
  split
  · rw [List.flatMap_cons, Note.tagEntries_tag hplain, TextMap.get?_append, hother]
    rfl
  · rw [List.flatMap_cons, Note.tagEntries_append_tag hplain, TextMap.get?_append,
      TextMap.get?_append, hother]
    rfl
  · cases comments with
    | nil => rfl
    | cons comment more =>
        rw [List.modifyHead_cons, List.flatMap_cons, List.flatMap_cons,
          Note.tagEntries_append_tag hplain, TextMap.get?_append, TextMap.get?_append,
          TextMap.get?_append, hother, Option.or_none]

end Spelled

/-- The line of a text that a parsed line comes from, without its margins, where the text is given
    from line `first` on. -/
def sourceLine (first : Nat) (source : List Text) (l : Line) : Text :=
  ((source[l.lineNumber - first]?).getD []).trim

/-- The comments of lines whose source is reindexed. -/
def retagging (first : Nat) (source : List Text) : Recommenting where
  comments l := retagComments (Position.ofComponents l.position.components).text
    (sourceLine first source l) l.comments
  keyedEntries_comments l := keyedEntries_retagComments _ _ _
  sequence_comments l := tag?_retagComments _ _ _ (by decide)

theorem retagging_cons_line {first : Nat} (raw : Text) (more : List Text) {l : Line}
    (h : first + 1 ≤ l.lineNumber) :
    (retagging first (raw :: more)).line l = (retagging (first + 1) more).line l := by
  have hindex : l.lineNumber - first = (l.lineNumber - (first + 1)) + 1 := by omega
  have hsource : sourceLine first (raw :: more) l = sourceLine (first + 1) more l := by
    rw [sourceLine, hindex, List.getElem?_cons_succ, sourceLine]
  simp only [Recommenting.line, retagging, hsource]

/-! ## Reading a reindexed text -/

/-- No role line of a text carries a position. -/
def Untagged (lines : List Text) : Prop :=
  ∀ raw ∈ lines, Role.opens raw.trim = true →
    Physical.asked? raw = none ∧
      (Physical.fromPipe? raw).all (fun comment => !Text.contains comment tagOpening) = true

instance (lines : List Text) : Decidable (Untagged lines) := by
  unfold Untagged
  infer_instance

theorem replaceTag?_eq_none (position : Text) {comment : Text}
    (h : Text.contains comment tagOpening = false) : replaceTag? position comment = none := by
  induction comment with
  | nil => rfl
  | cons c rest ih =>
      have hhere := Text.after?_eq_none_of_contains h
      rw [Text.contains, Bool.or_eq_false_iff] at h
      rw [replaceTag?, hhere, ih h.2]
      rfl

/-- The comment of a line has no tag if the comment of a longer line has none. -/
theorem contains_comment_of_append {body ending main comment : Text}
    (hpipe : Physical.splitPipe? false body = some (main, comment))
    (h : (Physical.fromPipe? (body ++ ending)).all
      (fun comment => !Text.contains comment tagOpening) = true) :
    Text.contains comment tagOpening = false := by
  rw [Physical.fromPipe?, Physical.splitPipe?_append_of_some ending hpipe] at h
  have hlong : ¬ tagOpening <:+: comment ++ ending := by
    simpa [← Text.contains_iff] using h
  rw [← Bool.not_eq_true, Text.contains_iff]
  intro hshort
  exact hlong (hshort.trans (List.prefix_append _ _).isInfix)

/-- Where a role line carries no tag, its tag is put behind it. -/
theorem retag_eq_appendTag (position : Text) {body ending : Text}
    (h : (Physical.fromPipe? (body ++ ending)).all
      (fun comment => !Text.contains comment tagOpening) = true) :
    retag position body = appendTag position body := by
  rw [retag]
  split
  · next main comment hpipe =>
      -- the condition is on the line with its ending, the tag is looked for without
      rw [replaceTag?_eq_none position (contains_comment_of_append hpipe h)]
  · rfl

/-- A tagged role line is read as the line that it was, with retagged comments. -/
theorem ofRole_appendTag {width n : Nat} {cursor : Entry.Cursor} {raw raw' : Text}
    (hask : Physical.asked? raw = none)
    (htrim : raw'.trim = raw.trim ++ ' ' :: tag
      (cursor.counter.advance (Physical.depth width raw)).position.text)
    (hdepth : Physical.depth width raw' = Physical.depth width raw)
    (followers : List Entry) (more : List Text) :
    Line.ofRole width n cursor raw' followers =
      (retagging n (raw :: more)).line (Line.ofRole width n cursor raw followers) := by
  generalize hcount : cursor.counter.advance (Physical.depth width raw) = c at htrim
  have hc : c.counts ≠ [] := by
    rw [← hcount]
    exact Counter.counts_advance_ne_nil _ _
  have hsplit := splitComment_append_tag hc (Text.tight_trim raw)
  have hstep := step_append_tag cursor (Physical.depth width raw) (Text.tight_trim raw) hask
  rw [hcount] at hstep
  have hold := Line.step_of_asked?_eq_none width cursor hask
  have hspelled : Position.ofComponents c.position.components = c.position := by
    rw [Counter.components_position hc]
    rfl
  have hposition : (Line.ofRole width n cursor raw followers).position = c.position := by
    rw [Line.position_ofRole, hold, hcount]
  have hsource : sourceLine n (raw :: more) (Line.ofRole width n cursor raw followers) =
      raw.trim := by
    rw [sourceLine, Line.lineNumber_ofRole, Nat.sub_self]
    rfl
  have hcontent : (Line.ofRole width n cursor raw' followers).content =
      (Line.ofRole width n cursor raw followers).content := by
    rw [Line.content_ofRole, Line.content_ofRole, htrim, hsplit]
  refine Line.ext ?_ hdepth hcontent ?_ ?_ ?_ rfl
  · show _ = (Line.ofRole width n cursor raw followers).position
    rw [hposition, Line.position_ofRole, htrim, hsplit, hdepth, hstep]
  · rw [Recommenting.classification_line, Line.classification_ofRole, hcontent,
      Line.classification_ofRole]
  · show _ = retagComments (Position.ofComponents
      (Line.ofRole width n cursor raw followers).position.components).text
      (sourceLine n (raw :: more) (Line.ofRole width n cursor raw followers))
      (Line.ofRole width n cursor raw followers).comments
    rw [hsource, hposition, hspelled, Line.comments_ofRole, Line.comments_ofRole, htrim, hsplit,
      ← tagged_cons_eq_retagComments _ (Text.tight_trim raw)]
    rfl
  · show _ = (Line.ofRole width n cursor raw followers).sourceText
    rw [Line.sourceText_ofRole, Line.sourceText_ofRole]

/-- A text whose first line is a tagged role line is read from there on as without the tag. -/
theorem readFrom_tagged {width n : Nat} {cursor : Entry.Cursor} {raw raw' : Text}
    (hrole : Role.opens raw.trim = true) (hask : Physical.asked? raw = none)
    (htrim : raw'.trim = raw.trim ++ ' ' :: tag
      (cursor.counter.advance (Physical.depth width raw)).position.text)
    (hdepth : Physical.depth width raw' = Physical.depth width raw) (more more' : List Text) :
    Line.readFrom width cursor n (raw' :: more') =
      let behind := Line.readFrom width
        (cursor.step (Physical.depth width raw) (Physical.splitComment raw.trim).2) (n + 1) more'
      ([], (retagging n (raw :: more)).line (Line.ofRole width n cursor raw behind.1) ::
        behind.2) := by
  have hopens : Role.opens raw'.trim = true := by
    rw [htrim]
    exact Role.opens_append _ hrole
  have hc := Counter.counts_advance_ne_nil cursor.counter (Physical.depth width raw)
  have hcursor : cursor.step (Physical.depth width raw') (Physical.splitComment raw'.trim).2 =
      cursor.step (Physical.depth width raw) (Physical.splitComment raw.trim).2 := by
    rw [hdepth, htrim, splitComment_append_tag hc (Text.tight_trim raw),
      step_append_tag cursor _ (Text.tight_trim raw) hask,
      Line.step_of_asked?_eq_none width cursor hask]
  rw [Line.readFrom_role more' hopens, hcursor]
  simp only [ofRole_appendTag hask htrim hdepth _ more]

/-- What reindexing makes of a role line without a tag. -/
theorem trim_depth_retag (width : Nat) {c : Counter} (hc : c.counts ≠ []) {body ending : Text}
    (hbody : body.trim ≠ []) (hblank : Text.AllBlank ending.dropLast)
    (hfree : (Physical.fromPipe? (piece (body, ending))).all
      (fun comment => !Text.contains comment tagOpening) = true) :
    (piece (retag c.position.text body, ending)).trim =
        (piece (body, ending)).trim ++ ' ' :: tag c.position.text ∧
      Physical.depth width (piece (retag c.position.text body, ending)) =
        Physical.depth width (piece (body, ending)) := by
  have hretag : piece (retag c.position.text body, ending) =
      appendTag c.position.text body ++ ending.dropLast := by
    rw [retag_eq_appendTag c.position.text hfree]
    rfl
  have htrim : (piece (body, ending)).trim = body.trim := Text.trim_append_blank body hblank
  rw [hretag, htrim]
  refine ⟨trim_appendTag hc hbody hblank, ?_⟩
  rw [depth_appendTag width _ hbody]
  exact Physical.depth_append width hbody _

/-- Lines further down do not depend on the first one. -/
theorem map_retagging_cons (width : Nat) (cursor : Entry.Cursor) (n : Nat) (raw : Text)
    (more : List Text) :
    (Line.readFrom width cursor (n + 1) more).2.map (retagging n (raw :: more)).line =
      (Line.readFrom width cursor (n + 1) more).2.map (retagging (n + 1) more).line := by
  refine List.map_congr_left ?_
  intro l hl
  exact retagging_cons_line raw more (Line.le_lineNumber_of_mem_readFrom hl)

theorem readFrom_retagLines (width : Nat) {lines : List (Text × Text)}
    (hblank : ∀ line ∈ lines, Text.AllBlank line.2.dropLast)
    (huntagged : Untagged (lines.map piece)) (cursor : Entry.Cursor) (n : Nat) :
    Line.readFrom width cursor n ((retagLines width cursor.counter lines).map piece) =
      ((Line.readFrom width cursor n (lines.map piece)).1,
        (Line.readFrom width cursor n (lines.map piece)).2.map
          (retagging n (lines.map piece)).line) := by
  -- Reading and reindexing run over the same lines; their common state is the counter.
  induction lines generalizing cursor n with
  | nil => rfl
  | cons line lines ih =>
      obtain ⟨body, ending⟩ := line
      rw [List.forall_mem_cons] at hblank
      have ih := ih hblank.2 fun raw hraw => huntagged raw (List.mem_cons_of_mem _ hraw)
      have htrim : (piece (body, ending)).trim = body.trim :=
        Text.trim_append_blank body hblank.1
      rw [List.map_cons, retagLines]
      by_cases hrole : Role.opens body.trim = true
      · have hbody := Role.ne_nil_of_opens hrole
        have hrole' : Role.opens (piece (body, ending)).trim = true := by rw [htrim]; exact hrole
        obtain ⟨hask, hfree⟩ := huntagged (piece (body, ending)) List.mem_cons_self hrole'
        obtain ⟨htag, hdepth⟩ := trim_depth_retag width
          (Counter.counts_advance_ne_nil cursor.counter (Physical.depth width body)) hbody
          hblank.1 hfree
        rw [Physical.depth_append width hbody ending.dropLast] at htag hdepth ⊢
        have hstep := Line.step_of_asked?_eq_none width cursor hask
        rw [if_pos hrole, List.map_cons,
          readFrom_tagged hrole' hask htag hdepth (lines.map piece) _,
          Line.readFrom_role _ hrole', hstep]
        -- the counter of the cursor is the one that reindexing goes on with
        have ih := ih ⟨cursor.counter.advance (Physical.depth width (piece (body, ending))),
          (cursor.counter.advance (Physical.depth width (piece (body, ending)))).position⟩ (n + 1)
        simp only [piece] at ih ⊢
        rw [ih, List.map_cons, map_retagging_cons]
      · have hrole' : Role.opens (piece (body, ending)).trim = false := by
          rw [htrim]
          simpa using hrole
        -- a line without a role is copied, and neither run moves its counter
        rw [if_neg hrole, List.map_cons]
        by_cases hne : (piece (body, ending)).trim = []
        · rw [Line.readFrom_blank _ hne, Line.readFrom_blank _ hne, map_retagging_cons]
          exact ih cursor (n + 1)
        · rw [Line.readFrom_comment _ hne hrole', Line.readFrom_comment _ hne hrole',
            map_retagging_cons, ih cursor (n + 1)]

theorem WellEnded.allBlank {lines : List (Text × Text)} (h : WellEnded lines) :
    ∀ line ∈ lines, Text.AllBlank line.2.dropLast := by
  induction h with
  | last => simp [Text.AllBlank]
  | cons hbody hending _ ih =>
      rw [List.forall_mem_cons]
      refine ⟨?_, ih⟩
      rcases hending with rfl | rfl
      · exact Text.AllBlank.nil
      · show Text.AllBlank ['\x0d']
        decide

/-- **Reindexing an untagged plan changes comments only.** Its lines are read as they were, with the
    tag taken up by their comments. -/
theorem parse_run (width : Nat) {source : Text} (h : Untagged (Text.splitOn '\n' source)) :
    Line.parse width (run width source).text =
      (Line.parse width source).map (retagging 1 (Text.splitOn '\n' source)).line := by
  have hpieces := map_piece_physicalLines source
  have hread := readFrom_retagLines width (wellEnded_physicalLines source).allBlank
    (hpieces.symm ▸ h) .start 1
  rw [Line.parse_eq_readFrom, splitOn_run, Line.parse_eq_readFrom, ← hpieces]
  exact congrArg Prod.snd hread

end Reindex

end PlanGraph
