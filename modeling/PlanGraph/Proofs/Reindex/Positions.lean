import PlanGraph.Proofs.Reindex.Reading

set_option autoImplicit false

/-! # The positions of a reindexed text

Reindexing keeps every role line a role line at its depth (`exists_retag_eq`), whatever tags it
carries, so the lines of the reindexed text are counted like those of the text before. Whether they
are read at these positions is another matter: the tag is written by one reading of a comment and
read by another. The written tag replaces the first place that spells `?{position}:` and ends at a
blank; the reader trims keys, takes the first tag by that name and reads up to the next pipe. The
positions come out as counted exactly if no retagged line asks for another one
(`positions_run_iff`), and they do so where tags are written the way reindexing writes them
(`Settled`). -/

namespace PlanGraph

namespace Reindex

open Line (roleDepths roleDepths_role roleDepths_other map_depth_readFrom)

/-! ## Retagged role lines -/

theorem plain_of_allBlank {a : Text} (ha : Text.AllBlank a) : '|' ∉ a ∧ '\\' ∉ a :=
  ⟨fun h => absurd (ha _ h) (by decide), fun h => absurd (ha _ h) (by decide)⟩

/-- The tag of a role line comes behind its symbol. -/
theorem exists_retag_eq (position : Text) {a : Text} (ha : Text.AllBlank a) (role : Role)
    (t : Text) : ∃ t', retag position (a ++ role.symbol ++ t) = a ++ role.symbol ++ t' := by
  have happend : ∃ t', appendTag position (a ++ role.symbol ++ t) = a ++ role.symbol ++ t' := by
    have hlast : ∀ c ∈ (a ++ role.symbol).getLast?, isBlank c = false := by
      rw [List.getLast?_append_of_ne_nil _ role.symbol_ne_nil]
      exact role.tight_symbol.2
    exact ⟨t.trimEnd ++ ' ' :: tag position, by
      rw [appendTag_eq, Text.trimEnd_append_of_last t hlast, List.append_assoc]⟩
  rw [retag]
  split
  · next main comment hpipe =>
      split
      · next replaced _ =>
          have hfree : '|' ∉ a ++ role.symbol ∧ '\\' ∉ a ++ role.symbol := by
            simp [plain_of_allBlank ha, role.symbol_plain]
          rw [Physical.splitPipe?_append_plain t hfree.1 hfree.2] at hpipe
          obtain ⟨⟨front, back⟩, -, hcut⟩ := Option.map_eq_some_iff.1 hpipe
          cases hcut
          exact ⟨front ++ replaced, by simp⟩
      · exact happend
  · exact happend

/-- A role line stays one, at its depth. -/
theorem opens_depth_retag (width : Nat) (position : Text) {body : Text}
    (hrole : Role.opens body.trim = true) (ending : Text) :
    Role.opens (piece (retag position body, ending)).trim = true ∧
      Physical.depth width (piece (retag position body, ending)) = Physical.depth width body := by
  obtain ⟨a, role, t, ha, rfl⟩ := Role.exists_of_opens_trim hrole
  obtain ⟨t', ht'⟩ := exists_retag_eq position ha role t
  have hdepth := fun s => Physical.depth_append_of_tight width a s role.symbol_ne_nil
    role.tight_symbol
  rw [piece, ht', List.append_assoc _ t']
  exact ⟨Role.opens_trim_symbol_append ha role _, by rw [hdepth, hdepth]⟩

/-! ## Counting role lines -/

/-- The role lines of a text, each with the position that its indentation gives it. -/
def numbered (width : Nat) : Counter → List (Text × Text) → List (Text × Position)
  | _, [] => []
  | c, (body, _) :: lines =>
    if Role.opens body.trim then
      let c := c.advance (Physical.depth width body)
      (body, c.position) :: numbered width c lines
    else numbered width c lines

section Lines

variable (width : Nat) {lines : List (Text × Text)}
  (hblank : ∀ line ∈ lines, Text.AllBlank line.2.dropLast)
include hblank

theorem map_snd_numbered (c : Counter) :
    (numbered width c lines).map Prod.snd =
      (c.trace (roleDepths width (lines.map piece))).map Counter.position := by
  induction lines generalizing c with
  | nil => rfl
  | cons line lines ih =>
      obtain ⟨body, ending⟩ := line
      rw [List.forall_mem_cons] at hblank
      have htrim : (piece (body, ending)).trim = body.trim := Text.trim_append_blank body hblank.1
      rw [numbered, List.map_cons]
      cases hrole : Role.opens body.trim with
      | true =>
          have hdepth : Physical.depth width (piece (body, ending)) = Physical.depth width body :=
            (Physical.depth_append width (Role.ne_nil_of_opens hrole) _).symm
          rw [if_pos rfl, roleDepths_role width _ (by rw [htrim, hrole]), hdepth, Counter.trace,
            List.map_cons, List.map_cons, ih hblank.2]
      | false =>
          rw [if_neg Bool.false_ne_true, roleDepths_other width _ (by rw [htrim, hrole])]
          exact ih hblank.2 c

theorem roleDepths_retagLines (c : Counter) :
    roleDepths width ((retagLines width c lines).map piece) =
      roleDepths width (lines.map piece) := by
  induction lines generalizing c with
  | nil => rfl
  | cons line lines ih =>
      obtain ⟨body, ending⟩ := line
      rw [List.forall_mem_cons] at hblank
      have htrim : (piece (body, ending)).trim = body.trim := Text.trim_append_blank body hblank.1
      rw [retagLines, List.map_cons]
      cases hrole : Role.opens body.trim with
      | true =>
          obtain ⟨hopens, hdepth⟩ := opens_depth_retag width
            (c.advance (Physical.depth width body)).position.text hrole ending
          have hsame : Physical.depth width (piece (body, ending)) = Physical.depth width body :=
            (Physical.depth_append width (Role.ne_nil_of_opens hrole) _).symm
          rw [if_pos rfl, List.map_cons, roleDepths_role width _ hopens,
            roleDepths_role width _ (by rw [htrim, hrole]), ih hblank.2, hsame, hdepth]
      | false =>
          have hnot : Role.opens (piece (body, ending)).trim = false := by rw [htrim, hrole]
          rw [if_neg Bool.false_ne_true, List.map_cons, roleDepths_other width _ hnot,
            roleDepths_other width _ hnot]
          exact ih hblank.2 c

end Lines

/-! ## Reading the tags -/

/-- A numbered role line asks for no other position once it is retagged. -/
def Agrees (line : Text × Position) : Prop :=
  ∀ asked ∈ Physical.asked? (retag line.2.text line.1), asked = line.2

theorem map_position_readFrom_iff (width : Nat) {lines : List (Text × Text)}
    (hblank : ∀ line ∈ lines, Text.AllBlank line.2.dropLast) (cursor : Entry.Cursor) (n : Nat) :
    (Line.readFrom width cursor n ((retagLines width cursor.counter lines).map piece)).2.map
        (·.position) = (numbered width cursor.counter lines).map Prod.snd ↔
      ∀ line ∈ numbered width cursor.counter lines, Agrees line := by
  -- The cursor follows the counter up to the first line that disagrees; behind it nothing matters.
  induction lines generalizing cursor n with
  | nil => simp [retagLines, numbered, Line.readFrom_nil]
  | cons line lines ih =>
      obtain ⟨body, ending⟩ := line
      rw [List.forall_mem_cons] at hblank
      have ih := ih hblank.2
      rw [retagLines, numbered]
      by_cases hrole : Role.opens body.trim = true
      · obtain ⟨hopens, hdepth⟩ := opens_depth_retag width
          (cursor.counter.advance (Physical.depth width body)).position.text hrole ending
        generalize hc : cursor.counter.advance (Physical.depth width body) = c at hopens hdepth ⊢
        have htrim : (piece (retag c.position.text body, ending)).trim =
            (retag c.position.text body).trim := Text.trim_append_blank _ hblank.1
        have hhead := Line.position_step_iff cursor (Physical.depth width body)
          (Physical.splitComment (retag c.position.text body).trim).2
        rw [hc] at hhead
        rw [if_pos hrole, if_pos hrole, List.map_cons, Line.readFrom_role _ hopens]
        simp only [List.map_cons, List.cons.injEq, List.forall_mem_cons, Line.position_ofRole]
        rw [hdepth, htrim]
        constructor
        · rintro ⟨hposition, hmore⟩
          rw [Line.step_eq_of_position (by rw [hc]; exact hposition), hc] at hmore
          exact ⟨hhead.1 hposition, (ih ⟨c, c.position⟩ (n + 1)).1 hmore⟩
        · rintro ⟨hagrees, hmore⟩
          have hposition := hhead.2 hagrees
          refine ⟨hposition, ?_⟩
          rw [Line.step_eq_of_position (by rw [hc]; exact hposition), hc]
          exact (ih ⟨c, c.position⟩ (n + 1)).2 hmore
      · have htrim : (piece (body, ending)).trim = body.trim :=
          Text.trim_append_blank body hblank.1
        have hrole' : Role.opens (piece (body, ending)).trim = false := by
          rw [htrim]
          simpa using hrole
        rw [if_neg hrole, if_neg hrole, List.map_cons]
        by_cases hne : (piece (body, ending)).trim = []
        · rw [Line.readFrom_blank _ hne]
          exact ih cursor (n + 1)
        · rw [Line.readFrom_comment _ hne hrole']
          exact ih cursor (n + 1)

/-! ## Replacing the value of a tag -/

/-- A text that is found again as a whole when it stands as the value of a tag: it is not empty, and
    neither a pipe nor a blank ends it early. -/
structure TagValue (value : Text) : Prop where
  ne_nil : value ≠ []
  plain : ∀ d ∈ value, d ≠ '|' ∧ isBlank d = false

theorem tagValue_iff {value : Text} :
    TagValue value ↔ value ≠ [] ∧ value.all (fun d => d != '|' && !isBlank d) = true := by
  constructor
  · intro h
    exact ⟨h.ne_nil, List.all_eq_true.2 fun d hd => by simp [h.plain d hd]⟩
  · rintro ⟨hne, hall⟩
    exact ⟨hne, fun d hd => by simpa using List.all_eq_true.1 hall d hd⟩

instance : DecidablePred TagValue := fun _ => decidable_of_iff' _ tagValue_iff

/-- What stands behind the opening of a tag once its value is replaced. -/
def revalue (position behind : Text) : Text :=
  behind.takeWhile (fun d => d == ' ' || d == '\t') ++ position ++
    (behind.dropWhile fun d => d == ' ' || d == '\t').dropWhile fun d => d != '|' && !isBlank d

theorem replaceTag?_of_opening (position : Text) {comment behind : Text}
    (h : comment.after? tagOpening = some behind) :
    replaceTag? position comment = some (tagOpening ++ revalue position behind) := by
  cases comment with
  | nil => cases h
  | cons c rest => simp [replaceTag?, h, revalue]

theorem replaceTag?_of_no_opening (position : Text) {c : Char} {rest : Text}
    (h : Text.after? (c :: rest) tagOpening = none) :
    replaceTag? position (c :: rest) = (replaceTag? position rest).map (c :: ·) := by
  simp only [replaceTag?, h]

/-- A pipe, a blank or the end of the comment is where the value of a tag ends. -/
theorem dropWhile_of_ends {rest : Text} (h : ∀ d ∈ rest.head?, d = '|' ∨ isBlank d = true) :
    rest.dropWhile (fun d => d != '|' && !isBlank d) = rest := by
  cases rest with
  | nil => rfl
  | cons d rest =>
      refine List.dropWhile_cons_of_neg ?_
      rcases h d rfl with rfl | hd
      · decide
      · simp [hd]

/-- A value that stands between the gap of a tag and a pipe or blank is replaced and nothing else. -/
theorem revalue_append (position : Text) {gap value rest : Text}
    (hgap : ∀ d ∈ gap, (d == ' ' || d == '\t') = true) (hvalue : TagValue value)
    (hrest : rest.dropWhile (fun d => d != '|' && !isBlank d) = rest) :
    revalue position (gap ++ value ++ rest) = gap ++ position ++ rest := by
  have hdrop : (value ++ rest).dropWhile (fun d => d != '|' && !isBlank d) = rest := by
    rw [List.dropWhile_append_of_pos (fun d hd => by simp [hvalue.plain d hd]), hrest]
  obtain ⟨d, ds, rfl⟩ := List.exists_cons_of_ne_nil hvalue.ne_nil
  -- the gap ends where the value begins
  have hd : ¬ (d == ' ' || d == '\t') = true := by
    have hnot := (hvalue.plain d List.mem_cons_self).2
    rw [Bool.or_eq_true, beq_iff_eq, beq_iff_eq]
    rintro (rfl | rfl) <;> exact absurd hnot (by decide)
  rw [List.cons_append] at hdrop
  rw [revalue, List.append_assoc gap, List.takeWhile_append_of_pos hgap,
    List.dropWhile_append_of_pos hgap, List.cons_append, List.takeWhile_cons_of_neg (by exact hd),
    List.dropWhile_cons_of_neg (by exact hd), hdrop, List.append_nil]

/-! ## Tags as they are written -/

/-- A role line whose tags are written the way reindexing writes them: it has no position tag by
    either reading, or its first one stands behind a pipe, and nothing but blanks stands between its
    value and the next pipe. -/
inductive Settled (body : Text) : Prop where
  | untagged (hask : Physical.asked? body = none)
      (hfree : (Physical.fromPipe? body).all
        (fun comment => !Text.contains comment tagOpening) = true) : Settled body
  | tagged {main value rest : Text} {earlier : Option Text}
      (hcut : Physical.splitPipe? false body.trim =
        some (main, Reindex.tagged (value ++ rest) earlier))
      (hearlier : earlier.bind Physical.positionTag? = none)
      (hfirst : earlier.all (fun comment => !Text.contains comment tagOpening) = true)
      (hne : value ≠ []) (hvalue : ∀ d ∈ value, d ≠ '|' ∧ isBlank d = false)
      (hrest : Text.AllBlank (Note.untilPipe rest).1) : Settled body

theorem head_of_allBlank_untilPipe {rest : Text} (h : Text.AllBlank (Note.untilPipe rest).1) :
    ∀ d ∈ rest.head?, d = '|' ∨ isBlank d = true := by
  intro d hd
  cases rest with
  | nil => simp at hd
  | cons e rest =>
      obtain rfl : e = d := by simpa using hd
      by_cases hpipe : e = '|'
      · exact Or.inl hpipe
      · right
        refine h e ?_
        rw [Note.untilPipe.eq_def]
        split <;> simp_all

theorem replaceTag?_append_space (position : Text) {front : Text}
    (h : Text.contains front tagOpening = false) (s : Text) :
    replaceTag? position (front ++ ' ' :: s) =
      (replaceTag? position (' ' :: s)).map (front ++ ·) := by
  induction front with
  | nil => simp
  | cons c front ih =>
      have hhere := Text.after?_eq_none_of_contains h
      rw [Text.contains, Bool.or_eq_false_iff] at h
      -- no tag opens in front of the blank and reaches across it
      have hacross := Text.after?_append_cons (c :: front) s (show ' ' ∉ tagOpening by decide)
      rw [hhere, List.cons_append] at hacross
      rw [List.cons_append, replaceTag?_of_no_opening position hacross, ih h.2, Option.map_map]
      rfl

/-- The value of a written tag is replaced and nothing else. -/
theorem replaceTag?_tag (position : Text) {value rest : Text} (hvalue : TagValue value)
    (hrest : ∀ d ∈ rest.head?, d = '|' ∨ isBlank d = true) :
    replaceTag? position (tag (value ++ rest)) = some (tag (position ++ rest)) := by
  have hopen : Text.after? (tagOpening ++ ' ' :: (value ++ rest)) tagOpening =
      some ([' '] ++ value ++ rest) := by
    rw [Text.after?_eq_some_iff]
    simp
  rw [tag, replaceTag?_of_no_opening position rfl, replaceTag?_of_no_opening position rfl,
    replaceTag?_of_opening position hopen, revalue_append position (by simp) hvalue
      (dropWhile_of_ends hrest)]
  simp [tag]

theorem replaceTag?_tagged (position : Text) {value rest : Text} {earlier : Option Text}
    (hfirst : earlier.all (fun comment => !Text.contains comment tagOpening) = true)
    (hvalue : TagValue value) (hrest : ∀ d ∈ rest.head?, d = '|' ∨ isBlank d = true) :
    replaceTag? position (tagged (value ++ rest) earlier) =
      some (tagged (position ++ rest) earlier) := by
  have htag := replaceTag?_tag position hvalue hrest
  cases earlier with
  | none => exact htag
  | some comment =>
      rw [tagged, replaceTag?_append_space position (by simpa using hfirst),
        replaceTag?_of_no_opening position rfl, htag]
      rfl

/-! ## The line of a written tag -/

theorem exists_tagged_eq (earlier : Option Text) :
    ∃ front, ∀ value, tagged value earlier = front ++ tag value := by
  cases earlier with
  | none => exact ⟨[], fun _ => rfl⟩
  | some comment => exact ⟨comment ++ [' '], fun _ => by simp [tagged]⟩

theorem tagged_append (value more : Text) (earlier : Option Text) :
    tagged value earlier ++ more = tagged (value ++ more) earlier := by
  cases earlier <;> simp [tagged, tag]

/-- Where the pipe of a line stands does not depend on the value of the tag behind it. -/
theorem splitPipe?_tagged {value : Text} {earlier : Option Text} {main line : Text}
    (hcut : Physical.splitPipe? false line = some (main, tagged value earlier)) (value' : Text) :
    Physical.splitPipe? false (main ++ tagged value' earlier) =
      some (main, tagged value' earlier) := by
  obtain ⟨front, hfront⟩ := exists_tagged_eq earlier
  have hline := Physical.splitPipe?_append hcut
  obtain ⟨w, hw⟩ := Physical.exists_of_splitPipe? hcut
  rw [hline, hfront] at hcut
  rw [hfront] at hw ⊢
  cases front with
  | nil => exact Physical.splitPipe?_pipe hcut _
  | cons d front =>
      obtain rfl : d = '|' := (List.cons.inj hw).1
      exact Physical.splitPipe?_pipe hcut _

/-- A trimmed line stays trimmed if the value of its tag is replaced by a position. -/
theorem tight_tagged {c : Counter} (hc : c.counts ≠ []) {main value rest : Text}
    {earlier : Option Text} (h : Text.Tight (main ++ tagged (value ++ rest) earlier)) :
    Text.Tight (main ++ tagged (c.position.text ++ rest) earlier) := by
  obtain ⟨front, hfront⟩ := exists_tagged_eq earlier
  have hcut : ∀ v, main ++ tagged (v ++ rest) earlier =
      (main ++ front ++ '|' :: ' ' :: (tagOpening ++ [' '])) ++ v ++ rest := by
    intro v
    rw [hfront]
    simp [tag]
  rw [hcut] at h ⊢
  obtain ⟨hhead, hlast⟩ := h
  constructor
  · simpa [List.head?_append] using hhead
  · intro d hd
    cases rest with
    | nil =>
        rw [List.append_nil, List.getLast?_append_of_ne_nil _ (Counter.text_position_ne_nil hc)]
          at hd
        exact Counter.isBlank_of_mem_text_position (List.mem_of_mem_getLast? hd)
    | cons e rest =>
        rw [List.getLast?_append_of_ne_nil _ (by simp)] at hd hlast
        exact hlast d hd

/-- A settled line agrees with whatever position it is given. -/
theorem agrees_of_settled {c : Counter} (hc : c.counts ≠ []) {body : Text}
    (hbody : body.trim ≠ []) (h : Settled body) : Agrees (body, c.position) := by
  intro asked hasked
  cases h with
  | untagged hask hfree =>
      rw [← List.append_nil body] at hfree
      have hretag := retag_eq_appendTag c.position.text hfree
      have htrim : (appendTag c.position.text body).trim =
          body.trim ++ ' ' :: tag c.position.text := by
        simpa using trim_appendTag hc hbody Text.AllBlank.nil
      rw [hretag, Physical.asked?, htrim, splitComment_append_tag hc (Text.tight_trim body)]
        at hasked
      exact eq_of_mem_positionTag?_append_tag (Text.tight_trim body) hask hasked
  | @tagged main value rest earlier hcut hearlier hfirst hne hvalue hrest =>
      obtain ⟨a, b, ha, hb, hmargins⟩ := Text.exists_margins body
      obtain ⟨hpipe, hback⟩ := plain_of_allBlank ha
      have hline := Physical.splitPipe?_append hcut
      have hsplit : Physical.splitPipe? false body =
          some (a ++ main, Reindex.tagged (value ++ (rest ++ b)) earlier) := by
        rw [hmargins, List.append_assoc, Physical.splitPipe?_append_plain _ hpipe hback,
          Physical.splitPipe?_append_of_some b hcut, tagged_append, List.append_assoc]
        rfl
      have hnext : ∀ d ∈ (rest ++ b).head?, d = '|' ∨ isBlank d = true := by
        cases rest with
        | nil => exact fun d hd => Or.inr (hb d (List.mem_of_mem_head? hd))
        | cons e rest => exact fun d hd => head_of_allBlank_untilPipe hrest d hd
      have hretag : retag c.position.text body =
          a ++ (main ++ Reindex.tagged (c.position.text ++ rest) earlier) ++ b := by
        simp only [retag, hsplit, replaceTag?_tagged c.position.text hfirst ⟨hne, hvalue⟩ hnext]
        rw [← List.append_assoc c.position.text, ← tagged_append]
        simp
      have htight := tight_tagged hc (hline ▸ Text.tight_trim body)
      have hfrom : Physical.fromPipe? (main ++ Reindex.tagged (c.position.text ++ rest) earlier) =
          some (Reindex.tagged (c.position.text ++ rest) earlier) := by
        rw [Physical.fromPipe?, splitPipe?_tagged hcut]
        rfl
      have hmore : Reindex.tagged (c.position.text ++ rest) earlier ≠ ['|'] := by
        obtain ⟨front, hfront⟩ := exists_tagged_eq earlier
        rw [hfront]
        intro heq
        have := congrArg List.length heq
        simp [tag] at this
        omega
      rw [hretag, Physical.asked?, Text.trim_between ha htight hb,
        Physical.splitComment_of_fromPipe? htight hfrom hmore] at hasked
      exact eq_of_mem_positionTag?_tagged hrest hearlier hasked

theorem exists_of_mem_numbered {width : Nat} {c : Counter} {lines : List (Text × Text)}
    {line : Text × Position} (h : line ∈ numbered width c lines) :
    Role.opens line.1.trim = true ∧ (∃ ending, (line.1, ending) ∈ lines) ∧
      ∃ c' : Counter, c'.counts ≠ [] ∧ line.2 = c'.position := by
  induction lines generalizing c with
  | nil => simp [numbered] at h
  | cons first lines ih =>
      obtain ⟨body, ending⟩ := first
      rw [numbered] at h
      split at h
      · next hrole =>
          rcases List.mem_cons.1 h with rfl | h
          · exact ⟨hrole, ⟨ending, List.mem_cons_self⟩, _, Counter.counts_advance_ne_nil _ _, rfl⟩
          · obtain ⟨hopens, ⟨e, he⟩, hcounter⟩ := ih h
            exact ⟨hopens, ⟨e, List.mem_cons_of_mem _ he⟩, hcounter⟩
      · obtain ⟨hopens, ⟨e, he⟩, hcounter⟩ := ih h
        exact ⟨hopens, ⟨e, List.mem_cons_of_mem _ he⟩, hcounter⟩

/-! ## The positions of a reindexed text -/

/-- **Reindexing numbers a text by its indentation.** The role lines keep their depths. They are
    read at the positions that a fresh counter gives these depths exactly if no retagged line asks
    for another position. That holds in particular if every role line is settled. -/
theorem positions_run_iff (width : Nat) (source : Text) :
    let before := Line.parse width source
    let after := Line.parse width (run width source).text
    let counted := (Counter.start.trace (before.map (·.depth))).map Counter.position
    after.map (·.depth) = before.map (·.depth) ∧
      (after.map (·.position) = counted ↔
        ∀ line ∈ numbered width .start (physicalLines source), Agrees line) ∧
      ((∀ line ∈ physicalLines source, Role.opens line.1.trim = true → Settled line.1) →
        after.map (·.position) = counted) := by
  intro before after counted
  have hpieces := map_piece_physicalLines source
  have hblank := (wellEnded_physicalLines source).allBlank
  have hbefore : before.map (·.depth) = roleDepths width ((physicalLines source).map piece) := by
    rw [hpieces]
    exact map_depth_readFrom width .start 1 _
  have hafter : after = (Line.readFrom width .start 1
      ((retagLines width .start (physicalLines source)).map piece)).2 := by
    rw [← splitOn_run]
    rfl
  have hcounted : counted = (numbered width .start (physicalLines source)).map Prod.snd := by
    rw [map_snd_numbered width hblank, ← hbefore]
  have hiff : after.map (·.position) = counted ↔
      ∀ line ∈ numbered width .start (physicalLines source), Agrees line := by
    rw [hafter, hcounted]
    exact map_position_readFrom_iff width hblank .start 1
  refine ⟨?_, hiff, ?_⟩
  · rw [hafter, map_depth_readFrom, roleDepths_retagLines width hblank, hbefore]
  · intro hsettled
    rw [hiff]
    rintro ⟨body, position⟩ hline
    obtain ⟨hrole, ⟨ending, hmem⟩, c, hc, rfl⟩ := exists_of_mem_numbered hline
    exact agrees_of_settled hc (Role.ne_nil_of_opens hrole) (hsettled _ hmem hrole)

/-- Three role lines with a settled tag, with tags that are none by either reading, and with no
    comment at all. -/
def settledPlan : Text :=
  ":<: {r} | %{axis}: x | ?{position}: 7  | ?{sequence}: looping\n" ++
    "    <= ::(f) | ?{sequence}: timing\n    <- {a}\n"

/-- The first line keeps its number behind two notes, though it was tagged otherwise. -/
theorem positions_run_settledPlan :
    (∀ line ∈ physicalLines settledPlan, Role.opens line.1.trim = true → Settled line.1) ∧
      (Line.parse 4 (run 4 settledPlan).text).map (·.position) =
        (Counter.start.trace ((Line.parse 4 settledPlan).map (·.depth))).map Counter.position := by
  have hlines : physicalLines settledPlan = [
      (":<: {r} | %{axis}: x | ?{position}: 7  | ?{sequence}: looping".toList,
        ['\n']),
      ("    <= ::(f) | ?{sequence}: timing".toList, ['\n']),
      ("    <- {a}".toList, ['\n']), ([], [])] := by decide +kernel
  have hsettled :
      ∀ line ∈ physicalLines settledPlan, Role.opens line.1.trim = true → Settled line.1 := by
    rw [hlines]
    simp only [List.forall_mem_cons, List.not_mem_nil, false_implies, implies_true, and_true]
    refine ⟨fun _ => ?_, fun _ => ?_, fun _ => ?_, fun h => ?_⟩
    · have hcut : Physical.splitPipe? false (Text.trim
          ":<: {r} | %{axis}: x | ?{position}: 7  | ?{sequence}: looping".toList) =
          some (":<: {r} ".toList, tagged ("7".toList ++ "  | ?{sequence}: looping".toList)
            (some "| %{axis}: x".toList)) := by decide +kernel
      refine .tagged hcut (by decide +kernel) (by decide +kernel) (by decide) ?_ (by decide)
      intro d hd
      obtain rfl := List.mem_singleton.1 hd
      decide
    · exact .untagged (by decide +kernel) (by decide +kernel)
    · exact .untagged (by decide +kernel) (by decide +kernel)
    · exact absurd h (by decide)
  exact ⟨hsettled, (positions_run_iff 4 settledPlan).2.2 hsettled⟩

/-- Two lines whose tags are written otherwise: with more text behind the value, and with blanks
    around the key. -/
def driftingPlan : Text :=
  ":<: {r} | ?{position}: 7 draft\n    <= ::(f) | ?{ position }: 9\n"

theorem positions_run_driftingPlan :
    (Line.parse 4 (run 4 driftingPlan).text).map (·.position.text) =
        ["1 draft".toList, "9".toList] ∧
      (Counter.start.trace ((Line.parse 4 driftingPlan).map (·.depth))).map (·.position.text) =
        ["1".toList, "1.1".toList] := by
  decide +kernel

end Reindex

end PlanGraph
