import PlanGraph.Proofs.Line.Parse
import PlanGraph.Proofs.Line.Physical
import PlanGraph.Proofs.Note

set_option autoImplicit false

/-! # Writing a role line

A role line is written as its indentation, the symbol of its role, the concept and its keyed notes,
each behind a pipe of its own. Pipes inside the concept and the values are escaped. Three readers
take such a line apart again, and each of them has its own idea of an escaped pipe:

* the line is cut at its first plain pipe, where a backslash also escapes a backslash
  (`Physical.splitPipe?_escape`);
* a value runs up to the first pipe that no backslash stands before, whatever comes before the
  backslash (`Note.untilPipe_escape_append`);
* every pipe loses the backslash in front of it (`Note.unescape_escape`).

They agree on what is written, provided the concept has no backslash in front of a pipe: the concept
and the notes are read back as they are (`parse_write`). Values need no such proviso. -/

namespace PlanGraph

namespace Note

/-! ## Escaped texts -/

/-- A text with a backslash in front of each pipe. -/
def escape : Text → Text
  | [] => []
  | c :: rest => if c = '|' then '\\' :: '|' :: escape rest else c :: escape rest

theorem escape_ne_nil {t : Text} (h : t ≠ []) : escape t ≠ [] := by
  cases t with
  | nil => exact absurd rfl h
  | cons c rest =>
      rw [escape]
      split <;> simp

theorem escape_ne_cons_pipe (t rest : Text) : escape t ≠ '|' :: rest := by
  cases t with
  | nil => simp [escape]
  | cons c more =>
      rw [escape]
      split
      · simp
      · next h => simp [h]

theorem mem_escape {c : Char} {t : Text} (h : c ∈ escape t) : c = '\\' ∨ c ∈ t := by
  induction t with
  | nil => simp [escape] at h
  | cons d rest ih =>
      rw [escape] at h
      split at h
      · next hd =>
          simp only [List.mem_cons] at h ⊢
          rcases h with h | h | h
          · exact Or.inl h
          · exact Or.inr (Or.inl (h.trans hd.symm))
          · exact (ih h).imp_right Or.inr
      · simp only [List.mem_cons] at h ⊢
        rcases h with h | h
        · exact Or.inr (Or.inl h)
        · exact (ih h).imp_right Or.inr

theorem getLast?_escape (t : Text) : (escape t).getLast? = t.getLast? := by
  induction t with
  | nil => rfl
  | cons c rest ih =>
      rw [escape]
      split
      · next h => simp [List.getLast?_cons, ih, h]
      · simp [List.getLast?_cons, ih]

theorem tight_escape {t : Text} (h : Text.Tight t) : Text.Tight (escape t) := by
  refine ⟨?_, by rw [getLast?_escape]; exact h.2⟩
  intro c hc
  cases t with
  | nil => simp [escape] at hc
  | cons d rest =>
      rw [escape] at hc
      split at hc
      · obtain rfl : '\\' = c := by simpa using hc
        decide
      · exact h.1 c (by simpa using hc)

theorem unescape_escape (t : Text) : unescape (escape t) = t := by
  induction t with
  | nil => rfl
  | cons c rest ih =>
      rw [escape]
      split
      · next h => rw [unescape, ih, h]
      · rw [unescape_cons fun _ => escape_ne_cons_pipe rest, ih]

/-- A value goes on behind an escaped text, unless a pipe follows at once: that would be escaped by
    a backslash at the end of the text. -/
theorem untilPipe_escape_append (t : Text) {s : Text} (h : ∀ rest, s ≠ '|' :: rest) :
    untilPipe (escape t ++ s) = (escape t ++ (untilPipe s).1, (untilPipe s).2) := by
  induction t with
  | nil => rfl
  | cons c rest ih =>
      rw [escape]
      split
      · rw [List.cons_append, List.cons_append, untilPipe, ih]
        rfl
      · next hpipe =>
          have hnext : ∀ more, escape rest ++ s ≠ '|' :: more := by
            intro more hmore
            cases hrest : escape rest with
            | nil => exact h more (by rwa [hrest] at hmore)
            | cons d ds =>
                rw [hrest, List.cons_append, List.cons.injEq] at hmore
                exact escape_ne_cons_pipe rest ds (by rw [hrest, hmore.1])
          rw [List.cons_append, untilPipe_cons hpipe fun _ => hnext, ih]
          rfl

/-! ## Written notes -/

/-- A keyed note. -/
def write (key value : Text) : Text :=
  '|' :: ' ' :: '%' :: '{' :: (key ++ '}' :: ':' :: ' ' :: escape value)

/-- Notes behind one another, each with a blank in front. -/
def writeAll (notes : List (Text × Text)) : Text :=
  notes.flatMap fun note => ' ' :: write note.1 note.2

/-- Keys that a note can carry. -/
structure IsKey (key : Text) : Prop where
  ne_nil : key ≠ []
  tight : Text.Tight key
  no_brace : '{' ∉ key ∧ '}' ∉ key
  no_pipe : '|' ∉ key
  one_line : '\n' ∉ key

/-- Values that a note can carry. -/
structure IsValue (value : Text) : Prop where
  tight : Text.Tight value
  one_line : '\n' ∉ value

theorem keyed?_of_isKey {key : Text} (h : IsKey key) (u : Text) :
    keyed? (key ++ '}' :: ':' :: u) = some (key, u) := by
  have hkey : ∀ c ∈ key, inKey c = true := by
    intro c hc
    have hopen : c ≠ '{' := fun he => h.no_brace.1 (he ▸ hc)
    have hclose : c ≠ '}' := fun he => h.no_brace.2 (he ▸ hc)
    simp [inKey, hopen, hclose]
  have htake : (key ++ '}' :: ':' :: u).takeWhile inKey = key := by
    rw [List.takeWhile_append_of_pos hkey]
    simp [inKey]
  have hdrop : (key ++ '}' :: ':' :: u).dropWhile inKey = '}' :: ':' :: u := by
    rw [List.dropWhile_append_of_pos hkey]
    simp [inKey]
  rw [keyed?_eq, htake, hdrop, if_neg h.ne_nil]
  rfl

/-- A note at the front of a text is read with the value up to the next pipe. -/
theorem keyedPair?_of_isKey {key : Text} (h : IsKey key) (u : Text) :
    keyedPair? ('|' :: ' ' :: '%' :: '{' :: (key ++ '}' :: ':' :: u)) =
      some ((key, clean (untilPipe u).1), (untilPipe u).2) := by
  have hpair : pair? (key ++ '}' :: ':' :: u) =
      some ((key, clean (untilPipe u).1), (untilPipe u).2) := by
    rw [pair?, keyed?_of_isKey h, ← Text.trim_of_tight h.tight]
    simp [Text.trim_of_tight h.tight]
  have hblank : Text.trimStart (' ' :: '%' :: '{' :: (key ++ '}' :: ':' :: u)) =
      '%' :: '{' :: (key ++ '}' :: ':' :: u) := rfl
  rw [keyedPair?, hblank]
  exact hpair

theorem clean_escape {value a b : Text} (h : Text.Tight value) (ha : Text.AllBlank a)
    (hb : Text.AllBlank b) : clean (a ++ escape value ++ b) = value := by
  rw [clean, Text.trim_between ha (tight_escape h) hb, unescape_escape]

/-- The last note of a line may lose the blank in front of an empty value. -/
theorem exists_trimEnd_write (key : Text) {value : Text} (h : Text.Tight value) :
    ∃ u, Text.trimEnd (write key value) =
        '|' :: ' ' :: '%' :: '{' :: (key ++ '}' :: ':' :: u) ∧
      untilPipe u = (u, []) ∧ clean u = value := by
  have hwrite : write key value =
      ('|' :: ' ' :: '%' :: '{' :: (key ++ ['}', ':'])) ++ (' ' :: escape value) := by
    simp [write]
  by_cases hv : value = []
  · refine ⟨[], ?_, rfl, by rw [hv]; rfl⟩
    rw [hwrite, hv]
    show Text.trimEnd (_ ++ [' ']) = _
    rw [Text.trimEnd_append _ Text.AllBlank.space, Text.trimEnd_of_last]
    intro c hc
    obtain rfl : ':' = c := by simpa [List.getLast?_cons] using hc
    decide
  · refine ⟨' ' :: escape value, ?_, ?_, ?_⟩
    · rw [hwrite, Text.trimEnd_of_last]
      · simp
      · intro c hc
        have hne : escape value ≠ [] := escape_ne_nil hv
        rw [List.getLast?_append_of_ne_nil _ (by simp), ← List.singleton_append,
          List.getLast?_append_of_ne_nil _ hne] at hc
        exact (tight_escape h).2 c hc
    · have huntil := untilPipe_escape_append value (s := []) (by simp)
      rw [List.append_nil] at huntil
      rw [untilPipe_cons (by decide) (fun hc => absurd hc (by decide)), huntil]
      simp [untilPipe]
    · have hclean := clean_escape h Text.AllBlank.space Text.AllBlank.nil
      simpa using hclean

theorem trimEnd_write_append (key value more : Text) :
    ∃ rest, Text.trimEnd (write key value ++ more) = '|' :: rest := by
  have hpipe := Text.trimEnd_append_of_last (a := ['|']) ((write key value).tail ++ more) (by simp; decide)
  exact ⟨_, hpipe⟩

/-- Written notes are read one by one, also without the blanks at their end. -/
theorem keyedEntries_write {key value : Text} {more : List (Text × Text)} (hkey : IsKey key)
    (hvalue : IsValue value) (hmore : ∀ note ∈ more, IsKey note.1 ∧ IsValue note.2) :
    keyedEntries (Text.trimEnd (write key value ++ writeAll more)) = (key, value) :: more := by
  induction more generalizing key value with
  | nil =>
      obtain ⟨u, htrim, huntil, hclean⟩ := exists_trimEnd_write key hvalue.tight
      have hread := keyedPair?_of_isKey hkey u
      rw [huntil, hclean] at hread
      rw [writeAll, List.flatMap_nil, List.append_nil, htrim, keyedEntries,
        Text.allMatches_of_some hread List.nil_suffix, Text.allMatches_nil]
  | cons note more ih =>
      obtain ⟨key', value'⟩ := note
      rw [List.forall_mem_cons] at hmore
      have ih := ih hmore.1.1 hmore.1.2 hmore.2
      obtain ⟨rest, hrest⟩ := trimEnd_write_append key' value' (writeAll more)
      -- only the last note can lose a blank, so the first one is followed by a blank and a pipe
      have htrim : Text.trimEnd (write key value ++ writeAll ((key', value') :: more)) =
          '|' :: ' ' :: '%' :: '{' ::
            (key ++ '}' :: ':' :: (' ' :: escape value ++ ' ' :: '|' :: rest)) := by
        have hcut : write key value ++ writeAll ((key', value') :: more) =
            (write key value ++ [' ']) ++ (write key' value' ++ writeAll more) := by
          simp [writeAll]
        rw [hcut, Text.trimEnd_append_of_ne_nil _ (by rw [hrest]; simp), hrest]
        simp [write]
      have huntil : untilPipe (' ' :: escape value ++ ' ' :: '|' :: rest) =
          (' ' :: escape value ++ [' '], '|' :: rest) := by
        rw [List.cons_append, untilPipe_cons (by decide) (fun hc => absurd hc (by decide)),
          untilPipe_escape_append value (by simp)]
        rfl
      have hclean : clean (' ' :: escape value ++ [' ']) = value := by
        simpa using clean_escape hvalue.tight Text.AllBlank.space Text.AllBlank.space
      have hread := keyedPair?_of_isKey hkey (' ' :: escape value ++ ' ' :: '|' :: rest)
      rw [huntil, hclean] at hread
      have hsuffix : '|' :: rest <:+ ' ' :: '%' :: '{' ::
          (key ++ '}' :: ':' :: (' ' :: escape value ++ ' ' :: '|' :: rest)) :=
        ⟨' ' :: '%' :: '{' :: (key ++ '}' :: ':' :: ' ' :: (escape value ++ [' '])), by simp⟩
      rw [htrim, keyedEntries, Text.allMatches_of_some hread hsuffix, ← hrest]
      exact congrArg _ ih

end Note

namespace Physical

/-- An escaped text without a backslash in front of a pipe has no plain pipe. The scan enters it
    unescaped, or in front of a character that is no pipe. -/
theorem splitPipe?_escape {t : Text} (h : ¬ ['\\', '|'] <:+: t) (escaped : Bool)
    (hstart : escaped = true → ∀ rest, t ≠ '|' :: rest) :
    splitPipe? escaped (Note.escape t) = none := by
  induction t generalizing escaped with
  | nil => rfl
  | cons c rest ih =>
      have hrest : ¬ ['\\', '|'] <:+: rest := fun hin => h (hin.trans (List.suffix_cons _ _).isInfix)
      rw [Note.escape]
      split
      · next hc =>
          subst hc
          have hplain : escaped = false := by
            cases escaped with
            | false => rfl
            | true => exact absurd rfl (hstart rfl rest)
          simp [splitPipe?, hplain, ih hrest false (by simp)]
      · next hpipe =>
          by_cases hback : c = '\\'
          · -- the next character is no pipe, so it does not matter whether it is escaped
            subst hback
            have hnext : ∀ more, rest ≠ '|' :: more := by
              rintro more rfl
              exact h ⟨[], more, rfl⟩
            simp [splitPipe?, ih hrest (!escaped) fun _ => hnext]
          · simp [splitPipe?, hback, hpipe, ih hrest false (by simp)]

end Physical

namespace Line

/-! ## Written lines -/

/-- The main text of a role line. -/
def writeMain (role : Role) (concept : Text) : Text := role.symbol ++ ' ' :: Note.escape concept

/-- A role line with its notes. -/
def write (indent : Text) (role : Role) (concept : Text) (notes : List (Text × Text)) : Text :=
  indent ++ (writeMain role concept ++ Note.writeAll notes)

/-- Concepts that a role line can carry. -/
structure IsConcept (concept : Text) : Prop where
  ne_nil : concept ≠ []
  tight : Text.Tight concept
  one_line : '\n' ∉ concept
  /-- No backslash stands in front of a pipe. -/
  no_escape : ¬ ['\\', '|'] <:+: concept

theorem tight_writeMain (role : Role) {concept : Text} (h : IsConcept concept) :
    Text.Tight (writeMain role concept) := by
  constructor
  · intro c hc
    cases role <;> (simp [writeMain, Role.symbol] at hc; subst hc; decide)
  · intro c hc
    have hne : Note.escape concept ≠ [] := Note.escape_ne_nil h.ne_nil
    rw [writeMain, List.getLast?_append_of_ne_nil _ (by simp), ← List.singleton_append,
      List.getLast?_append_of_ne_nil _ hne] at hc
    exact (Note.tight_escape h.tight).2 c hc

theorem splitPipe?_writeMain (role : Role) {concept : Text} (h : IsConcept concept) :
    Physical.splitPipe? false (writeMain role concept) = none := by
  obtain ⟨hpipe, hback, -⟩ := Role.symbol_plain role
  have hescape : Physical.splitPipe? false (' ' :: Note.escape concept) = none := by
    have := Physical.splitPipe?_append_plain (s := [' ']) (Note.escape concept) (by simp) (by simp)
    rw [Physical.splitPipe?_escape h.no_escape false (by simp)] at this
    exact this
  rw [writeMain, Physical.splitPipe?_append_plain _ hpipe hback, hescape]
  rfl

theorem unescape_writeMain (role : Role) (concept : Text) :
    Note.unescape (writeMain role concept) = role.symbol ++ ' ' :: concept := by
  obtain ⟨-, hback, -⟩ := Role.symbol_plain role
  rw [writeMain, Note.unescape_append _ hback, Note.unescape_cons (fun hc => absurd hc (by decide)),
    Note.unescape_escape]

theorem newline_not_mem_write {indent : Text} (role : Role) {concept : Text}
    {notes : List (Text × Text)} (hindent : '\n' ∉ indent) (hconcept : IsConcept concept)
    (hnotes : ∀ note ∈ notes, Note.IsKey note.1 ∧ Note.IsValue note.2) :
    '\n' ∉ write indent role concept notes := by
  have hescape : ∀ t : Text, '\n' ∉ t → '\n' ∉ Note.escape t := by
    intro t ht hmem
    rcases Note.mem_escape hmem with h | h
    · exact absurd h (by decide)
    · exact ht h
  have hall : '\n' ∉ Note.writeAll notes := by
    rw [Note.writeAll, List.mem_flatMap]
    rintro ⟨note, hnote, hmem⟩
    obtain ⟨hkey, hvalue⟩ := hnotes note hnote
    simp [Note.write, hkey.one_line, hescape _ hvalue.one_line] at hmem
  simp [write, writeMain, hindent, (Role.symbol_plain role).2.2.1, hescape _ hconcept.one_line, hall]

/-- What a written line is cut into. -/
theorem splitComment_write (role : Role) {concept : Text} {notes : List (Text × Text)}
    (hconcept : IsConcept concept)
    (hnotes : ∀ note ∈ notes, Note.IsKey note.1 ∧ Note.IsValue note.2) :
    ∃ comment : Option Text,
      Physical.splitComment (Text.trimEnd (writeMain role concept ++ Note.writeAll notes)) =
        (writeMain role concept, comment) ∧
      comment.toList.flatMap Note.keyedEntries = notes := by
  have hmain := tight_writeMain role hconcept
  have hnone := splitPipe?_writeMain role hconcept
  cases notes with
  | nil =>
      refine ⟨none, ?_, rfl⟩
      rw [Note.writeAll, List.flatMap_nil, List.append_nil, Text.trimEnd_of_last hmain.2]
      unfold Physical.splitComment
      rw [hnone]
      simp only [Text.trim_of_tight hmain]
  | cons note more =>
      obtain ⟨key, value⟩ := note
      rw [List.forall_mem_cons] at hnotes
      have hread := Note.keyedEntries_write hnotes.1.1 hnotes.1.2 hnotes.2
      obtain ⟨rest, hrest⟩ := Note.trimEnd_write_append key value (Note.writeAll more)
      have hlast := Text.last_trimEnd (Note.write key value ++ Note.writeAll more)
      rw [hrest] at hread hlast
      have hline : Text.trimEnd (writeMain role concept ++ Note.writeAll ((key, value) :: more)) =
          writeMain role concept ++ ' ' :: '|' :: rest := by
        have hcut : writeMain role concept ++ Note.writeAll ((key, value) :: more) =
            (writeMain role concept ++ [' ']) ++ (Note.write key value ++ Note.writeAll more) := by
          simp [Note.writeAll]
        rw [hcut, Text.trimEnd_append_of_ne_nil _ (by rw [hrest]; simp), hrest]
        simp
      have htight : Text.Tight ('|' :: rest) := ⟨by simp; decide, hlast⟩
      have hlong : 1 < ('|' :: rest).length := by
        cases rest with
        | nil => exact absurd hread (by simp [Note.keyedEntries, Text.allMatches, Text.matchesFrom,
            Note.keyedPair?, Text.trimStart])
        | cons d rest => simp
      refine ⟨some ('|' :: rest), ?_, by simpa using hread⟩
      rw [hline]
      unfold Physical.splitComment
      have hcut : Physical.splitPipe? false (writeMain role concept ++ ' ' :: '|' :: rest) =
          some (writeMain role concept ++ [' '], '|' :: rest) :=
        Physical.splitPipe?_append_of_none _ hnone
      rw [hcut]
      simp only [Text.trim_of_tight htight, hlong, if_true,
        Text.trim_append_blank _ Text.AllBlank.space, Text.trim_of_tight hmain]

theorem trim_write {indent : Text} (role : Role) {concept : Text} (notes : List (Text × Text))
    (hindent : Text.AllBlank indent) (hconcept : IsConcept concept) :
    (write indent role concept notes).trim =
      Text.trimEnd (writeMain role concept ++ Note.writeAll notes) := by
  have hstart : Text.trimStart (writeMain role concept ++ Note.writeAll notes) =
      writeMain role concept ++ Note.writeAll notes := by
    refine Text.trimStart_of_head ?_
    intro c hc
    refine (tight_writeMain role hconcept).1 c ?_
    rwa [List.head?_append_of_ne_nil _ (by simp [writeMain])] at hc
  rw [write, Text.trim, Text.trimStart_append _ hindent, hstart]

theorem opens_trim_write {indent : Text} (role : Role) {concept : Text} (notes : List (Text × Text))
    (hindent : Text.AllBlank indent) (hconcept : IsConcept concept) :
    Role.opens (write indent role concept notes).trim = true := by
  rw [trim_write role notes hindent hconcept,
    Text.trimEnd_append_of_last _ (tight_writeMain role hconcept).2, writeMain, List.append_assoc]
  exact Role.opens_append _ (Role.symbol_plain role).2.2.2

/-- A written role line is read back wherever it stands: comments behind it cannot change the notes
    that it has itself. -/
theorem ofRole_write (width n : Nat) (cursor : Entry.Cursor) (followers : List Entry)
    {indent concept : Text} (role : Role) {notes : List (Text × Text)} (hindent : Text.AllBlank indent)
    (hconcept : IsConcept concept)
    (hnotes : ∀ note ∈ notes, Note.IsKey note.1 ∧ Note.IsValue note.2) :
    (ofRole width n cursor (write indent role concept notes) followers).content =
        role.symbol ++ ' ' :: concept ∧
      ∀ key value, notes.lookup key = some value →
        (ofRole width n cursor (write indent role concept notes) followers).notes.get? key =
          some value := by
  obtain ⟨comment, hcut, hread⟩ := splitComment_write role hconcept hnotes
  rw [← trim_write role notes hindent hconcept] at hcut
  refine ⟨by rw [content_ofRole, hcut, unescape_writeMain], fun key value hvalue => ?_⟩
  rw [Line.notes, comments_ofRole, hcut, Notes.get?, Notes.ofComments]
  dsimp only
  rw [TextMap.get?_ofFirst, List.flatMap_append, hread, TextMap.get?_append,
    TextMap.get?_eq_lookup notes, hvalue, Option.some_or]

/-- **A written role line is read back.** Whatever its indentation, it is one line, its content is
    the role symbol and the concept, and its keyed notes are those that were written, of which the
    first counts where a key is given twice. -/
theorem parse_write (width : Nat) {indent concept : Text} (role : Role)
    {notes : List (Text × Text)} (hindent : Text.AllBlank indent) (hline : '\n' ∉ indent)
    (hconcept : IsConcept concept)
    (hnotes : ∀ note ∈ notes, Note.IsKey note.1 ∧ Note.IsValue note.2) :
    ∃ l, parse width (write indent role concept notes) = [l] ∧
      l.content = role.symbol ++ ' ' :: concept ∧
      l.notes.keyed = TextMap.ofFirst notes ∧
      ∀ key, l.notes.get? key = notes.lookup key := by
  have hsplit := Text.splitOn_of_not_mem (newline_not_mem_write role hline hconcept hnotes)
  have hopens := opens_trim_write role notes hindent hconcept
  obtain ⟨comment, hcut, hread⟩ := splitComment_write role hconcept hnotes
  rw [← trim_write role notes hindent hconcept] at hcut
  have hkeyed : (Notes.ofComments comment.toList).keyed = TextMap.ofFirst notes := by
    rw [Notes.ofComments, hread]
  refine ⟨ofRole width 1 .start (write indent role concept notes) [], ?_, ?_, ?_, ?_⟩
  · rw [parse_eq_readFrom, hsplit, readFrom_role [] hopens]
    rfl
  · rw [content_ofRole, hcut, unescape_writeMain]
  · rw [Line.notes, comments_ofRole, hcut]
    simpa using hkeyed
  · intro key
    rw [Notes.get?, Line.notes, comments_ofRole, hcut]
    simp only [List.map_nil, List.append_nil, hkeyed, TextMap.get?_ofFirst]
    exact TextMap.get?_eq_lookup notes key

/-- Notes that try the readers: a value that looks like a note and ends in a backslash, an empty
    value, and a key given twice. -/
def trickyNotes : List (Text × Text) :=
  [("k", "x | %{k}: y\\"), ("empty", ""), ("k", "z \\|")]

theorem parse_write_trickyNotes :
    IsConcept "{a|b}\\".toList ∧
    (∀ note ∈ trickyNotes, Note.IsKey note.1 ∧ Note.IsValue note.2) ∧
    write "    " .value "{a|b}\\" trickyNotes =
      "    <- ".toList ++ ['{', 'a', '\\', '|', 'b', '}', '\\'] ++
        " | %{k}: x \\| %{k}: y\\ | %{empty}:  | %{k}: z \\\\|".toList ∧
    ∃ l, parse 4 (write "    " .value "{a|b}\\" trickyNotes) = [l] ∧
      l.content = "<- {a|b}\\".toList ∧
      l.notes.keyed = [("empty".toList, []), ("k".toList, "x | %{k}: y\\".toList)] := by
  have hconcept : IsConcept "{a|b}\\".toList :=
    ⟨by decide, by decide, by decide, by decide⟩
  have hnotes : ∀ note ∈ trickyNotes, Note.IsKey note.1 ∧ Note.IsValue note.2 := by
    simp only [trickyNotes, List.forall_mem_cons]
    refine ⟨⟨⟨?_, ?_, ?_, ?_, ?_⟩, ?_, ?_⟩, ⟨⟨?_, ?_, ?_, ?_, ?_⟩, ?_, ?_⟩,
      ⟨⟨?_, ?_, ?_, ?_, ?_⟩, ?_, ?_⟩, by simp⟩ <;> decide
  refine ⟨hconcept, hnotes, by decide, ?_⟩
  obtain ⟨l, hl, hcontent, hkeyed, -⟩ := parse_write 4 .value
    (show Text.AllBlank "    " by decide) (by decide) hconcept hnotes
  refine ⟨l, hl, hcontent, hkeyed.trans ?_⟩
  decide

end Line

end PlanGraph
