import PlanGraph.Proofs.Reindex.Tag

set_option autoImplicit false

/-! # The lines of a reindexed text

Reindexing cuts a text into lines with their endings and puts them together again; reading a plan
cuts it at line feeds. The two cuts agree: put together, lines with proper endings are cut again
where they were (`splitOn_assemble`), so the lines of a reindexed text are the lines that
`retagLines` made (`splitOn_run`). -/

namespace PlanGraph

namespace Reindex

/-! ## Lines with endings -/

/-- A line as it stands between two line feeds. -/
def piece (line : Text × Text) : Text := line.1 ++ line.2.dropLast

/-- Lines that end in a line feed each, with or without a carriage return, except for the last,
    which has no ending. -/
inductive WellEnded : List (Text × Text) → Prop where
  | last {body : Text} (hbody : '\n' ∉ body) : WellEnded [(body, [])]
  | cons {body ending : Text} {lines : List (Text × Text)} (hbody : '\n' ∉ body)
      (hending : ending = ['\n'] ∨ ending = ['\r', '\n']) (hlines : WellEnded lines) :
      WellEnded ((body, ending) :: lines)

theorem splitOn_assemble {lines : List (Text × Text)} (h : WellEnded lines) :
    Text.splitOn '\n' (assemble lines) = lines.map piece := by
  induction h with
  | last hbody => simp [assemble, piece, Text.splitOn_of_not_mem hbody]
  | @cons body ending lines hbody hending _ ih =>
      obtain ⟨hcut, hfree⟩ :
          ending = ending.dropLast ++ ['\n'] ∧ '\n' ∉ body ++ ending.dropLast := by
        rcases hending with rfl | rfl <;> simp [hbody]
      have hassemble : assemble ((body, ending) :: lines) =
          body ++ ending.dropLast ++ '\n' :: assemble lines := by
        rw [assemble, List.flatMap_cons]
        show body ++ ending ++ assemble lines = _
        rw [hcut]
        simp
      rw [hassemble, Text.splitOn_append_cons _ hfree, ih]
      rfl

theorem wellEnded_withEndings {pieces : List Text} (hne : pieces ≠ [])
    (hfree : ∀ piece ∈ pieces, '\n' ∉ piece) : WellEnded (withEndings pieces) := by
  fun_induction withEndings pieces with
  | case1 => exact absurd rfl hne
  | case2 last => exact WellEnded.last (hfree last List.mem_cons_self)
  | case3 piece pieces hpieces ih =>
      have hpiece := hfree piece List.mem_cons_self
      have ih := ih hpieces fun q hq => hfree q (List.mem_cons_of_mem _ hq)
      split
      · next body hbody =>
          rw [Text.before?_eq_some_iff.1 hbody] at hpiece
          refine WellEnded.cons (fun h => hpiece ?_) (Or.inr rfl) ih
          exact List.mem_append_left _ h
      · exact WellEnded.cons hpiece (Or.inl rfl) ih

theorem map_piece_withEndings (pieces : List Text) :
    (withEndings pieces).map piece = pieces := by
  fun_induction withEndings pieces with
  | case1 => rfl
  | case2 last => simp [piece]
  | case3 text pieces _ ih =>
      rw [List.map_cons, ih]
      split
      · next body hbody =>
          rw [Text.before?_eq_some_iff.1 hbody]
          rfl
      · simp [piece]

theorem wellEnded_physicalLines (source : Text) : WellEnded (physicalLines source) :=
  wellEnded_withEndings (Text.splitOn_ne_nil _ _) fun _ => Text.not_mem_of_mem_splitOn

theorem map_piece_physicalLines (source : Text) :
    (physicalLines source).map piece = Text.splitOn '\n' source :=
  map_piece_withEndings _

/-! ## Tags stay on their line -/

theorem not_mem_replaceTag? {d : Char} {position comment replaced : Text}
    (hopening : d ∉ tagOpening) (hposition : d ∉ position) (hcomment : d ∉ comment)
    (h : replaceTag? position comment = some replaced) : d ∉ replaced := by
  induction comment generalizing replaced with
  | nil => simp [replaceTag?] at h
  | cons c rest ih =>
      rw [replaceTag?] at h
      split at h
      · next behind hbehind =>
          rw [Text.after?_eq_some_iff.1 hbehind] at hcomment
          cases h
          simp only [List.mem_append, not_or] at hcomment ⊢
          refine ⟨⟨⟨hopening, ?_⟩, hposition⟩, ?_⟩
          · exact fun hd => hcomment.2 ((List.takeWhile_sublist _).subset hd)
          · intro hd
            have := (List.dropWhile_suffix _).subset hd
            exact hcomment.2 ((List.dropWhile_suffix _).subset this)
      · simp only [List.mem_cons, not_or] at hcomment
        obtain ⟨r, hr, rfl⟩ := Option.map_eq_some_iff.1 h
        simp only [List.mem_cons, not_or]
        exact ⟨hcomment.1, ih hcomment.2 hr⟩

theorem not_mem_retag {d : Char} {position body : Text} (htag : d ∉ ' ' :: tag position)
    (hbody : d ∉ body) : d ∉ retag position body := by
  have happend : d ∉ appendTag position body := by
    rw [appendTag_eq, List.mem_append, not_or]
    refine ⟨fun hd => hbody ?_, htag⟩
    exact (List.rdropWhile_prefix isBlank (l := body)).subset hd
  simp only [tag, List.mem_cons, List.mem_append, not_or] at htag
  rw [retag]
  split
  · next main comment hpipe =>
      rw [Physical.splitPipe?_append hpipe, List.mem_append, not_or] at hbody
      split
      · next replaced hreplaced =>
          rw [List.mem_append, not_or]
          exact ⟨hbody.1, not_mem_replaceTag? htag.2.2.2.1 htag.2.2.2.2.2 hbody.2 hreplaced⟩
      · exact happend
  · exact happend

theorem newline_not_mem_tag (c : Counter) : '\n' ∉ ' ' :: tag c.position.text := by
  have hopening : '\n' ∉ tagOpening := by decide
  have hposition : '\n' ∉ c.position.text := fun h =>
    absurd (Counter.isBlank_of_mem_text_position h) (by decide)
  simp [tag, hopening, hposition]

/-- Retagged lines keep their endings, and no line is broken. -/
theorem WellEnded.retagLines {lines : List (Text × Text)} (h : WellEnded lines) (width : Nat)
    (c : Counter) : WellEnded (retagLines width c lines) := by
  induction h generalizing c with
  | last hbody =>
      rw [Reindex.retagLines]
      split
      · exact WellEnded.last (not_mem_retag (newline_not_mem_tag _) hbody)
      · exact WellEnded.last hbody
  | cons hbody hending _ ih =>
      rw [Reindex.retagLines]
      split
      · exact WellEnded.cons (not_mem_retag (newline_not_mem_tag _) hbody) hending (ih _)
      · exact WellEnded.cons hbody hending (ih _)

/-- A reindexed text is read line by line as it was written. -/
theorem splitOn_run (width : Nat) (source : Text) :
    Text.splitOn '\n' (run width source).text =
      (retagLines width .start (physicalLines source)).map piece :=
  splitOn_assemble ((wellEnded_physicalLines source).retagLines width .start)

end Reindex

end PlanGraph
