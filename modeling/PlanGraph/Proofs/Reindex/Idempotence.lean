import PlanGraph.Proofs.Reindex.Positions

set_option autoImplicit false

/-! # Reindexing twice

A second run of reindexing finds each tag where the first one left it. That takes three facts: a
line that was retagged is cut at the same pipe and holds its first tag at the same place, whether
the tag was corrected or put at the end (`retag_retag`); its role and depth are those of before, so
that it is counted alike (`retagLines_retagLines`); and no line ends in a carriage return that it
did not end in before, so that the endings are cut off as they were (`physicalLines_run`). Hence
nothing changes any more (`run_text_run`). -/

namespace PlanGraph

namespace Reindex

/-! ## Replacing the value of a tag twice -/

theorem tagValue_position {c : Counter} (hc : c.counts ≠ []) : TagValue c.position.text where
  ne_nil := Counter.text_position_ne_nil hc
  plain d hd := by
    refine ⟨?_, Counter.isBlank_of_mem_text_position hd⟩
    rintro rfl
    exact Note.no_pipe_of_plain (fun _ => Counter.mem_text_position) hd

theorem revalue_revalue {position : Text} (hposition : TagValue position) (behind : Text) :
    revalue position (revalue position behind) = revalue position behind := by
  refine revalue_append position ?_ hposition (List.dropWhile_idempotent ..)
  intro d hd
  exact List.mem_takeWhile_imp (p := fun d => d == ' ' || d == '\t') hd

theorem startsWith_eq_false_of_after? {s p more : Text} (h : Text.after? (s ++ more) p = none) :
    s.startsWith p = false := by
  rw [← Bool.not_eq_true, Text.startsWith, List.isPrefixOf_iff_prefix]
  rintro ⟨behind, rfl⟩
  rw [List.append_assoc, Text.after?_eq_some_iff.2 rfl] at h
  cases h

/-- A replacement leaves the text alone up to the opening of its first tag. -/
theorem exists_of_replaceTag? {position comment replaced : Text}
    (h : replaceTag? position comment = some replaced) :
    ∃ front behind, Text.contains front tagOpening = false ∧
      comment = front ++ tagOpening ++ behind ∧
      replaced = front ++ tagOpening ++ revalue position behind := by
  induction comment generalizing replaced with
  | nil => simp [replaceTag?] at h
  | cons c rest ih =>
      cases hopen : Text.after? (c :: rest) tagOpening with
      | some behind =>
          rw [replaceTag?_of_opening position hopen, Option.some.injEq] at h
          exact ⟨[], behind, by decide, Text.after?_eq_some_iff.1 hopen, h.symm⟩
      | none =>
          rw [replaceTag?_of_no_opening position hopen] at h
          obtain ⟨r, hr, rfl⟩ := Option.map_eq_some_iff.1 h
          obtain ⟨front, behind, hfront, rfl, rfl⟩ := ih hr
          refine ⟨c :: front, behind, ?_, rfl, rfl⟩
          rw [Text.contains, Bool.or_eq_false_iff]
          rw [List.append_assoc, ← List.cons_append] at hopen
          exact ⟨startsWith_eq_false_of_after? hopen, hfront⟩

theorem take_of_replaceTag? {position comment replaced : Text}
    (h : replaceTag? position comment = some replaced) :
    replaced.take tagOpening.length = comment.take tagOpening.length := by
  obtain ⟨front, behind, -, rfl, rfl⟩ := exists_of_replaceTag? h
  have hlen : tagOpening.length ≤ (front ++ tagOpening).length := by simp
  rw [List.take_append_of_le_length hlen, List.take_append_of_le_length hlen]

theorem after?_eq_none_congr {p s t : Text} (h : s.take p.length = t.take p.length)
    (ht : t.after? p = none) : s.after? p = none := by
  rw [Option.eq_none_iff_forall_ne_some] at ht ⊢
  intro behind hbehind
  have hprefix : t.take p.length = p := by
    rw [← h, Text.after?_eq_some_iff.1 hbehind, List.take_left]
  refine ht (t.drop p.length) (Text.after?_eq_some_iff.2 ?_)
  conv_lhs => rw [← List.take_append_drop p.length t, hprefix]

/-- A replaced tag is the first of its comment, as it was before. -/
theorem replaceTag?_replaced {position : Text} (hposition : TagValue position)
    {comment replaced : Text} (h : replaceTag? position comment = some replaced) :
    replaceTag? position replaced = some replaced := by
  induction comment generalizing replaced with
  | nil => simp [replaceTag?] at h
  | cons c rest ih =>
      have htake := take_of_replaceTag? h
      cases hopen : Text.after? (c :: rest) tagOpening with
      | some behind =>
          rw [replaceTag?_of_opening position hopen, Option.some.injEq] at h
          rw [← h, replaceTag?_of_opening position (Text.after?_eq_some_iff.2 rfl),
            revalue_revalue hposition]
      | none =>
          rw [replaceTag?_of_no_opening position hopen] at h
          obtain ⟨r, hr, rfl⟩ := Option.map_eq_some_iff.1 h
          rw [replaceTag?_of_no_opening position (after?_eq_none_congr htake hopen), ih hr]
          rfl

/-! ## Retagging a line twice -/

theorem contains_of_replaceTag?_eq_none {position comment : Text}
    (h : replaceTag? position comment = none) : Text.contains comment tagOpening = false := by
  induction comment with
  | nil => decide
  | cons c rest ih =>
      cases hopen : Text.after? (c :: rest) tagOpening with
      | some behind =>
          rw [replaceTag?_of_opening position hopen] at h
          exact absurd h (by simp)
      | none =>
          rw [replaceTag?_of_no_opening position hopen, Option.map_eq_none_iff] at h
          rw [Text.contains, Bool.or_eq_false_iff]
          rw [← List.append_nil (c :: rest)] at hopen
          exact ⟨startsWith_eq_false_of_after? hopen, ih h⟩

theorem retag_of_replaceTag? {position body main comment replaced : Text}
    (hcut : Physical.splitPipe? false body = some (main, comment))
    (h : replaceTag? position comment = some replaced) :
    retag position body = main ++ replaced := by
  simp only [retag, hcut, h]

/-- Behind a line without a tag, a tag is found again where it was put. -/
theorem retag_appendTag {position : Text} (hposition : TagValue position) {body : Text}
    (hfree : (Physical.fromPipe? body).all
      (fun comment => !Text.contains comment tagOpening) = true) :
    retag position (appendTag position body) = appendTag position body := by
  have htag : replaceTag? position (tag position) = some (tag position) := by
    have hend : ∀ d ∈ ([] : Text).head?, d = '|' ∨ isBlank d = true := by simp
    simpa using replaceTag?_tag position hposition hend
  have hpre : body.trimEnd <+: body := List.rdropWhile_prefix isBlank (l := body)
  rw [appendTag_eq]
  cases hcut : Physical.splitPipe? false body.trimEnd with
  | none =>
      have hpipe : Physical.splitPipe? false (body.trimEnd ++ ' ' :: tag position) =
          some (body.trimEnd ++ [' '], tag position) :=
        Physical.splitPipe?_append_of_none _ hcut
      rw [retag_of_replaceTag? hpipe htag, List.append_assoc]
      rfl
  | some cut =>
      obtain ⟨main, comment⟩ := cut
      have hpipe := Physical.splitPipe?_append_of_some (' ' :: tag position) hcut
      -- the comment is the front of the comment that had no tag
      have hcomment : Text.contains comment tagOpening = false := by
        obtain ⟨blanks, hblanks⟩ := hpre
        exact contains_comment_of_append hcut (hblanks ▸ hfree)
      have hspace : replaceTag? position (' ' :: tag position) = some (' ' :: tag position) := by
        rw [replaceTag?_of_no_opening position rfl, htag]
        rfl
      have hreplaced : replaceTag? position (comment ++ ' ' :: tag position) =
          some (comment ++ ' ' :: tag position) := by
        rw [replaceTag?_append_space position hcomment, hspace]
        rfl
      rw [retag_of_replaceTag? hpipe hreplaced, ← List.append_assoc,
        ← Physical.splitPipe?_append hcut]

/-- A line with its position is not changed by giving it that position again. -/
theorem retag_retag {position : Text} (hposition : TagValue position) (body : Text) :
    retag position (retag position body) = retag position body := by
  cases hcut : Physical.splitPipe? false body with
  | none =>
      have hretag : retag position body = appendTag position body := by
        simp only [retag, hcut]
      rw [hretag, retag_appendTag hposition (by simp [Physical.fromPipe?, hcut])]
  | some cut =>
      obtain ⟨main, comment⟩ := cut
      cases hreplaced : replaceTag? position comment with
      | none =>
          have hretag : retag position body = appendTag position body := by
            simp only [retag, hcut, hreplaced]
          have hfree := contains_of_replaceTag?_eq_none hreplaced
          rw [hretag, retag_appendTag hposition (by simp [Physical.fromPipe?, hcut, hfree])]
      | some replaced =>
          -- a tag opens with no pipe, so the pipe of the line stays
          obtain ⟨rest, rfl⟩ := Physical.exists_of_splitPipe? hcut
          obtain ⟨r, -, rfl⟩ : ∃ r, replaceTag? position rest = some r ∧ '|' :: r = replaced := by
            rw [replaceTag?_of_no_opening position rfl] at hreplaced
            exact Option.map_eq_some_iff.1 hreplaced
          have hline := Physical.splitPipe?_append hcut
          have hpipe := Physical.splitPipe?_pipe (hline ▸ hcut) r
          rw [retag_of_replaceTag? hcut hreplaced,
            retag_of_replaceTag? hpipe (replaceTag?_replaced hposition hreplaced)]

/-! ## The lines of the second run -/

theorem retagLines_retagLines (width : Nat) (c : Counter) (lines : List (Text × Text)) :
    retagLines width c (retagLines width c lines) = retagLines width c lines := by
  induction lines generalizing c with
  | nil => rfl
  | cons line lines ih =>
      obtain ⟨body, ending⟩ := line
      by_cases hrole : Role.opens body.trim = true
      · generalize hc : c.advance (Physical.depth width body) = c'
        have hposition : TagValue c'.position.text := by
          rw [← hc]
          exact tagValue_position (Counter.counts_advance_ne_nil c _)
        obtain ⟨hopens, hdepth⟩ := opens_depth_retag width c'.position.text hrole []
        simp only [piece, List.dropLast_nil, List.append_nil] at hopens hdepth
        have hfirst : retagLines width c ((body, ending) :: lines) =
            (retag c'.position.text body, ending) :: retagLines width c' lines := by
          simp only [retagLines, hrole, if_true, hc]
        rw [hfirst]
        simp only [retagLines, hopens, if_true, hdepth, hc, retag_retag hposition, ih]
      · have hfirst : retagLines width c ((body, ending) :: lines) =
            (body, ending) :: retagLines width c lines := by
          simp only [retagLines, if_neg hrole]
        rw [hfirst, retagLines, if_neg hrole, ih]

/-! ## Endings that are cut off again -/

/-- A line whose ending is the longest that can be cut off: a line feed alone stands behind no
    carriage return. -/
def FullyCut (line : Text × Text) : Prop := line.2 = ['\n'] → '\r' ∉ line.1.getLast?

theorem before?_return_eq_none_iff {t : Text} : t.before? "\r" = none ↔ '\r' ∉ t.getLast? := by
  rw [Option.eq_none_iff_forall_ne_some]
  constructor
  · intro h hlast
    refine h t.dropLast (Text.before?_eq_some_iff.2 ?_)
    exact (List.dropLast_append_getLast? _ hlast).symm
  · intro h body hbody
    rw [Text.before?_eq_some_iff.1 hbody] at h
    exact h (by simp)

theorem fullyCut_withEndings (pieces : List Text) :
    ∀ line ∈ withEndings pieces, FullyCut line := by
  fun_induction withEndings pieces with
  | case1 => simp
  | case2 last => simp [FullyCut]
  | case3 text pieces _ ih =>
      rw [List.forall_mem_cons]
      refine ⟨?_, ih⟩
      split
      · intro hending
        simp at hending
      · next hnone => exact fun _ => before?_return_eq_none_iff.1 hnone

theorem withEndings_map_piece {lines : List (Text × Text)} (h : WellEnded lines)
    (hcut : ∀ line ∈ lines, FullyCut line) : withEndings (lines.map piece) = lines := by
  induction h with
  | last => simp [withEndings, piece]
  | @cons body ending lines _ hending hlines ih =>
      rw [List.forall_mem_cons] at hcut
      have ih := ih hcut.2
      obtain ⟨next, more, rfl⟩ : ∃ next more, lines = next :: more := by
        cases hlines <;> exact ⟨_, _, rfl⟩
      rw [List.map_cons, List.map_cons, withEndings, ← List.map_cons, ih]
      · rcases hending with rfl | rfl
        · have hnone : Text.before? (piece (body, ['\n'])) "\r" = none := by
            rw [piece, List.dropLast_singleton, List.append_nil]
            exact before?_return_eq_none_iff.2 (hcut.1 rfl)
          rw [hnone]
          simp [piece]
        · have hsome : Text.before? (piece (body, ['\r', '\n'])) "\r" = some body :=
            Text.before?_eq_some_iff.2 rfl
          rw [hsome]
      · simp

/-- A blank at the end of a comment with a replaced tag stood there before. -/
theorem getLast?_replaceTag? {position comment replaced : Text} (hposition : TagValue position)
    (h : replaceTag? position comment = some replaced) {d : Char} (hd : d ∈ replaced.getLast?)
    (hblank : isBlank d = true) : d ∈ comment.getLast? := by
  obtain ⟨front, behind, -, rfl, rfl⟩ := exists_of_replaceTag? h
  rw [revalue] at hd
  generalize hleft : (behind.dropWhile fun e => e == ' ' || e == '\t').dropWhile
    (fun e => e != '|' && !isBlank e) = left at hd
  have hsuffix : left <:+ behind := by
    rw [← hleft]
    exact (List.dropWhile_suffix _).trans (List.dropWhile_suffix _)
  cases left with
  | nil =>
      -- the position ends the comment, and it holds no blank
      rw [List.append_nil, ← List.append_assoc,
        List.getLast?_append_of_ne_nil _ hposition.ne_nil] at hd
      rw [(hposition.plain d (List.mem_of_mem_getLast? hd)).2] at hblank
      exact absurd hblank (by simp)
  | cons e left =>
      obtain ⟨taken, rfl⟩ := hsuffix
      rw [← List.append_assoc, List.getLast?_append_of_ne_nil _ (by simp)] at hd ⊢
      exact hd

theorem getLast?_retag {c : Counter} (hc : c.counts ≠ []) {body : Text} {d : Char}
    (hd : d ∈ (retag c.position.text body).getLast?) (hblank : isBlank d = true) :
    d ∈ body.getLast? := by
  have happend : d ∉ (appendTag c.position.text body).getLast? := by
    intro hd
    rw [appendTag_eq, ← List.singleton_append, ← List.append_assoc] at hd
    rw [isBlank_last_tag hc _ hd] at hblank
    exact absurd hblank (by simp)
  rw [retag] at hd
  split at hd
  · next main comment hcut =>
      split at hd
      · next replaced hreplaced =>
          have hne : replaced ≠ [] := by
            obtain ⟨front, behind, -, -, rfl⟩ := exists_of_replaceTag? hreplaced
            simp [tagOpening_eq]
          rw [List.getLast?_append_of_ne_nil _ hne] at hd
          have hcomment := getLast?_replaceTag? (tagValue_position hc) hreplaced hd hblank
          have hcomment_ne : comment ≠ [] := by
            rintro rfl
            simp at hcomment
          rw [Physical.splitPipe?_append hcut, List.getLast?_append_of_ne_nil _ hcomment_ne]
          exact hcomment
      · exact absurd hd happend
  · exact absurd hd happend

theorem fullyCut_retagLines (width : Nat) (c : Counter) {lines : List (Text × Text)}
    (h : ∀ line ∈ lines, FullyCut line) : ∀ line ∈ retagLines width c lines, FullyCut line := by
  induction lines generalizing c with
  | nil => exact h
  | cons line lines ih =>
      obtain ⟨body, ending⟩ := line
      rw [List.forall_mem_cons] at h
      rw [retagLines]
      split
      · rw [List.forall_mem_cons]
        refine ⟨?_, ih _ h.2⟩
        intro hending hlast
        exact h.1 hending (getLast?_retag (Counter.counts_advance_ne_nil _ _) hlast (by decide))
      · rw [List.forall_mem_cons]
        exact ⟨h.1, ih _ h.2⟩

/-- The lines of a reindexed text are cut with the endings that they were given. -/
theorem physicalLines_run (width : Nat) (source : Text) :
    physicalLines (run width source).text =
      retagLines width .start (physicalLines source) := by
  rw [physicalLines, splitOn_run]
  exact withEndings_map_piece ((wellEnded_physicalLines source).retagLines width .start)
    (fullyCut_retagLines width .start (fullyCut_withEndings _))

/-- **Reindexing is idempotent.** A reindexed text is reindexed to itself, whatever tags, blanks,
    backslashes and line endings the text held at first, and no line of it counts as changed. -/
theorem run_text_run (width : Nat) (source : Text) :
    run width (run width source).text = ⟨(run width source).text, 0⟩ := by
  rw [run, physicalLines_run, retagLines_retagLines]
  refine congrArg (Outcome.mk _) (List.countP_eq_zero.2 ?_)
  intro pair hpair
  rw [List.zip, List.zipWith_self] at hpair
  obtain ⟨line, -, rfl⟩ := List.mem_map.1 hpair
  simp

end Reindex

end PlanGraph
