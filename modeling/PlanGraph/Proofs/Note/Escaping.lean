import Mathlib.Algebra.Group.Nat.Even
import PlanGraph.Proofs.Line.Writing

set_option autoImplicit false

/-! # Two ideas of an escaped pipe

A line is cut at its first pipe that is not escaped, and so is the value of a note. But the two count
differently. The line is cut at the first pipe behind an even number of backslashes, since there a
backslash may itself be escaped (`Physical.upToPipe_beforePipe`). A value runs up to the first pipe
behind no backslash at all (`Note.upToPipe_untilPipe`). So a value never ends before the line would
be cut, and the two agree exactly if the pipe that cuts the line is behind no backslash
(`Notes.get?_spelled_iff`): a pipe behind two backslashes cuts the line, but not the value. -/

namespace PlanGraph

namespace Text

/-! ## Texts up to a pipe -/

/-- How many backslashes a text ends with. -/
def slashes (t : Text) : Nat := (t.reverse.takeWhile (· == '\\')).length

theorem slashes_concat (t : Text) (c : Char) :
    slashes (t ++ [c]) = if c = '\\' then slashes t + 1 else 0 := by
  by_cases hc : c = '\\' <;> simp [slashes, hc]

theorem exists_of_slashes_ne_zero {t : Text} (h : slashes t ≠ 0) :
    ∃ front, t = front ++ ['\\'] ∧ slashes t = slashes front + 1 := by
  induction t using List.reverseRecOn with
  | nil => exact absurd rfl h
  | append_singleton front c _ =>
      rw [slashes_concat] at h ⊢
      by_cases hc : c = '\\'
      · exact ⟨front, by rw [hc], if_pos hc⟩
      · exact absurd (if_neg hc) h

/-- An even number of backslashes that is not zero is at least two. -/
theorem exists_of_even_slashes {t : Text} (h : slashes t ≠ 0) (heven : Even (slashes t)) :
    ∃ rest, t = rest ++ ['\\', '\\'] := by
  obtain ⟨front, rfl, hone⟩ := exists_of_slashes_ne_zero h
  rw [hone, Nat.even_add_one] at heven
  obtain ⟨rest, rfl, -⟩ := exists_of_slashes_ne_zero fun hzero => heven (hzero ▸ Even.zero)
  exact ⟨rest, by simp⟩

/-- `part` is a text up to its first pipe for which `p` holds of all that stands before it, or the
    whole text if there is none. -/
structure UpToPipe (p : Text → Prop) (t part : Text) : Prop where
  first : ∀ front back, t = front ++ '|' :: back → p front → part.length ≤ front.length
  stops : part = t ∨ ∃ back, t = part ++ '|' :: back ∧ p part

section UpToPipe

variable {p : Text → Prop} {c : Char} {t part : Text}

theorem upToPipe_nil : UpToPipe p [] [] := ⟨by simp, Or.inl rfl⟩

theorem upToPipe_pipe (h : p []) (t : Text) : UpToPipe p ('|' :: t) [] :=
  ⟨fun _ _ _ _ => Nat.zero_le _, Or.inr ⟨t, rfl, h⟩⟩

theorem UpToPipe.cons (h : c = '|' → ¬ p []) (hrest : UpToPipe (fun front => p (c :: front)) t part) :
    UpToPipe p (c :: t) (c :: part) := by
  constructor
  · intro front back hcut hfront
    cases front with
    | nil => exact absurd hfront (h (List.cons.inj hcut).1)
    | cons d front =>
        obtain ⟨rfl, ht⟩ := List.cons.inj hcut
        exact Nat.succ_le_succ (hrest.first front back ht hfront)
  · rcases hrest.stops with rfl | ⟨back, rfl, hpart⟩
    · exact Or.inl rfl
    · exact Or.inr ⟨back, rfl, hpart⟩

theorem UpToPipe.isPrefix (h : UpToPipe p t part) : part <+: t := by
  rcases h.stops with rfl | ⟨back, rfl, -⟩
  · exact List.prefix_rfl
  · exact List.prefix_append _ _

theorem UpToPipe.of_pipe (h : UpToPipe p t part) {back : Text} (hcut : t = part ++ '|' :: back) :
    p part := by
  rcases h.stops with heq | ⟨-, -, hpart⟩
  · have hlength := congrArg List.length (heq.trans hcut)
    simp at hlength
  · exact hpart

theorem UpToPipe.length_le {q : Text → Prop} {other : Text} (h : UpToPipe p t part)
    (hother : UpToPipe q t other) (hqp : ∀ front, q front → p front) :
    part.length ≤ other.length := by
  rcases hother.stops with rfl | ⟨back, hcut, hq⟩
  · exact h.isPrefix.length_le
  · exact h.first other back hcut (hqp other hq)

/-- Two parts of a text agree if the pipe behind the shorter one ends the other as well. -/
theorem UpToPipe.eq_iff {q : Text → Prop} {other : Text} (h : UpToPipe p t part)
    (hother : UpToPipe q t other) (hqp : ∀ front, q front → p front) :
    part = other ↔ ∀ back, t = part ++ '|' :: back → q part := by
  constructor
  · rintro rfl back hcut
    exact hother.of_pipe hcut
  · intro hq
    refine List.prefix_of_prefix_length_le h.isPrefix hother.isPrefix (h.length_le hother hqp)
      |>.eq_of_length_le ?_
    rcases h.stops with heq | ⟨back, hcut, -⟩
    · rw [heq]
      exact hother.isPrefix.length_le
    · exact hother.first part back hcut (hq back hcut)

/-- If they do not agree, the longer one goes on with that pipe. -/
theorem UpToPipe.exists_of_ne {q : Text → Prop} {other : Text} (h : UpToPipe p t part)
    (hother : UpToPipe q t other) (hqp : ∀ front, q front → p front) (hne : part ≠ other) :
    ¬ q part ∧ ∃ more, other = part ++ '|' :: more := by
  have hpipe : ¬ ∀ back, t = part ++ '|' :: back → q part :=
    fun hall => hne ((h.eq_iff hother hqp).2 hall)
  simp only [not_forall] at hpipe
  obtain ⟨back, rfl, hq⟩ := hpipe
  obtain ⟨more, rfl⟩ := List.prefix_of_prefix_length_le h.isPrefix hother.isPrefix
    (h.length_le hother hqp)
  cases more with
  | nil => exact absurd (List.append_nil part).symm hne
  | cons x more =>
      have hmore := (List.prefix_append_right_inj part).1 hother.isPrefix
      obtain ⟨rfl, -⟩ := List.cons_prefix_cons.1 hmore
      exact ⟨hq, more, rfl⟩

end UpToPipe

theorem trim_append_cons {x : Char} (hx : isBlank x = false) (a s : Text) :
    trim (a ++ x :: s) = trimStart a ++ x :: trimEnd s := by
  have hstart : trimStart (a ++ x :: s) = trimStart a ++ x :: s := by
    rw [trimStart, List.dropWhile_append, List.dropWhile_cons_of_neg (by simp [hx]), trimStart]
    cases a.dropWhile isBlank <;> rfl
  have hlast : ∀ c ∈ (trimStart a ++ [x]).getLast?, isBlank c = false := by
    rw [List.getLast?_concat]
    rintro c ⟨⟩
    exact hx
  rw [trim, hstart, List.append_cons, trimEnd_append_of_last s hlast, ← List.append_cons]

end Text

namespace Physical

/-! ## Where a line is cut -/

/-- What stands before the first pipe that is not escaped: the front of the text that
    `pipeOffset?` measures, or the whole text if it has no such pipe. -/
def beforePipe (escaped : Bool) (t : Text) : Text := ((splitPipe? escaped t).map Prod.fst).getD t

theorem beforePipe_cons (escaped : Bool) (c : Char) (t : Text) :
    beforePipe escaped (c :: t) =
      if c = '\\' then c :: beforePipe (!escaped) t
      else if c = '|' ∧ !escaped then [] else c :: beforePipe false t := by
  rw [beforePipe, splitPipe?, beforePipe, beforePipe]
  split
  · cases splitPipe? (!escaped) t <;> rfl
  · split
    · rfl
    · cases splitPipe? false t <;> rfl

/-- A line is cut at its first pipe behind an even number of backslashes. A scan behind `before`
    knows whether that ends with an odd number of them. -/
theorem upToPipe_beforePipe_append {escaped : Bool} {before : Text}
    (h : escaped = false ↔ Even before.slashes) (t : Text) :
    Text.UpToPipe (fun front => Even (Text.slashes (before ++ front))) t (beforePipe escaped t) := by
  induction t generalizing escaped before with
  | nil => exact Text.upToPipe_nil
  | cons c t ih =>
      rw [beforePipe_cons]
      by_cases hback : c = '\\'
      · have hflip : (!escaped) = false ↔ Even (Text.slashes (before ++ [c])) := by
          rw [Text.slashes_concat, if_pos hback, Nat.even_add_one, ← h, Bool.not_eq_false,
            Bool.not_eq_false']
        have hrest := ih hflip
        simp only [List.append_assoc, List.singleton_append] at hrest
        rw [if_pos hback]
        exact hrest.cons fun hpipe => absurd (hback.symm.trans hpipe) (by decide)
      · have hrest := @ih false (before ++ [c]) (by simp [Text.slashes_concat, hback])
        simp only [List.append_assoc, List.singleton_append] at hrest
        rw [if_neg hback]
        by_cases hpipe : c = '|' ∧ !escaped
        · rw [if_pos hpipe, hpipe.1]
          exact Text.upToPipe_pipe (by simpa using h.1 (by simpa using hpipe.2)) t
        · rw [if_neg hpipe]
          exact hrest.cons fun hc heven => hpipe ⟨hc, by simpa using h.2 (by simpa using heven)⟩

theorem upToPipe_beforePipe (t : Text) :
    Text.UpToPipe (fun front => Even front.slashes) t (beforePipe false t) :=
  @upToPipe_beforePipe_append false [] (by simp [Text.slashes]) t

/-- `part` is a text up to the byte offset of its first pipe that is not escaped, or the whole text
    if it has no such pipe. -/
def MainText (t part : Text) : Prop :=
  pipeOffset? t = none ∧ part = t ∨ pipeOffset? t = some part.byteSize ∧ part <+: t

instance (t part : Text) : Decidable (MainText t part) := inferInstanceAs (Decidable (_ ∨ _))

theorem MainText.eq_beforePipe {t part : Text} (h : MainText t part) :
    part = beforePipe false t := by
  rw [MainText, pipeOffset?] at h
  rw [beforePipe]
  cases hsplit : splitPipe? false t with
  | none => simpa [hsplit] using h
  | some cut =>
      obtain ⟨front, back⟩ := cut
      simp only [hsplit, Option.map_some, Option.some.injEq, reduceCtorEq, false_and,
        false_or] at h
      obtain ⟨hsize, rest, rfl⟩ := h
      exact Text.eq_of_byteSize (splitPipe?_append hsplit) hsize.symm

end Physical

namespace Note

/-! ## Where a value ends -/

/-- A value ends at the first pipe behind no backslash. The scan never stops between a backslash and
    a pipe. -/
theorem upToPipe_untilPipe_append {before t : Text}
    (h : ∀ rest, t = '|' :: rest → before.slashes = 0) :
    Text.UpToPipe (fun front => Text.slashes (before ++ front) = 0) t (untilPipe t).1 := by
  fun_induction untilPipe t generalizing before with
  | case1 => exact Text.upToPipe_nil
  | case2 rest ih =>
      have hescaped : Text.slashes (before ++ ['\\']) ≠ 0 := by
        rw [Text.slashes_concat]
        simp
      have hrest := @ih (before ++ ['\\', '|']) fun _ _ => by
        rw [List.append_cons, Text.slashes_concat]
        rfl
      simp only [List.append_assoc, List.cons_append, List.nil_append] at hrest
      exact (hrest.cons fun _ => hescaped).cons fun hpipe => absurd hpipe (by decide)
  | case3 rest => exact Text.upToPipe_pipe (by simpa using h rest rfl) rest
  | case4 c rest hescaped hpipe ih =>
      have hrest := @ih (before ++ [c]) fun more hmore => by
        rw [Text.slashes_concat, if_neg fun hback => hescaped more hback hmore]
      simp only [List.append_assoc, List.singleton_append] at hrest
      exact hrest.cons fun hc => absurd hc hpipe

theorem upToPipe_untilPipe (t : Text) :
    Text.UpToPipe (fun front => front.slashes = 0) t (untilPipe t).1 :=
  @upToPipe_untilPipe_append [] t fun _ _ => rfl

theorem unescape_append_of_no_pipe (t : Text) {s : Text} (h : ∀ rest, s ≠ '|' :: rest) :
    unescape (t ++ s) = unescape t ++ unescape s := by
  fun_induction unescape t with
  | case1 => rfl
  | case2 rest ih => rw [List.cons_append, List.cons_append, unescape, ih, List.cons_append]
  | case3 c rest hescaped ih =>
      rw [List.cons_append, unescape_cons, ih, List.cons_append]
      rintro hback more hmore
      cases rest with
      | nil => exact h more hmore
      | cons d rest =>
          obtain ⟨rfl, -⟩ := List.cons.inj hmore
          exact hescaped rest hback rfl

/-- A value that ends with a backslash is not the value that goes on with a pipe: there the pipe
    takes the place of the backslash. -/
theorem clean_append_pipe_ne {t : Text} (h : t.slashes ≠ 0) (more : Text) :
    clean t ≠ clean (t ++ '|' :: more) := by
  obtain ⟨front, rfl, -⟩ := Text.exists_of_slashes_ne_zero h
  have hback : isBlank '\\' = false := by decide
  have hshort : clean (front ++ ['\\']) = unescape (Text.trimStart front) ++ ['\\'] := by
    rw [clean, Text.trim_append_cons hback, unescape_append_of_no_pipe _ (by simp)]
    rfl
  have hpipe : Text.trimEnd ('|' :: more) = '|' :: Text.trimEnd more :=
    Text.trimEnd_append_of_last (a := ['|']) more (by simp; decide)
  have hlong : clean (front ++ ['\\'] ++ '|' :: more) =
      unescape (Text.trimStart front) ++ '|' :: unescape (Text.trimEnd more) := by
    rw [clean, ← List.append_cons, Text.trim_append_cons hback, hpipe,
      unescape_append_of_no_pipe _ (by simp), unescape]
  rw [hshort, hlong]
  intro heq
  have := (List.cons.inj (List.append_cancel_left heq)).1
  exact absurd this (by decide)

/-- A keyed note with its value as it is spelled. -/
def spelled (key value : Text) : Text :=
  '|' :: ' ' :: '%' :: '{' :: (key ++ '}' :: ':' :: ' ' :: value)

/-- The value of a note is read up to the first pipe behind no backslash. -/
theorem get?_spelled {key : Text} (h : IsKey key) (w : Text) :
    (Notes.ofComments [spelled key w]).get? key = some (clean (untilPipe w).1) := by
  have huntil : untilPipe (' ' :: w) = (' ' :: (untilPipe w).1, (untilPipe w).2) :=
    untilPipe_cons (by decide) fun hback => absurd hback (by decide)
  have hread : keyedPair? (spelled key w) =
      some ((key, clean (untilPipe w).1), (untilPipe w).2) := by
    rw [spelled, keyedPair?_of_isKey h, huntil]
    rfl
  have hentries : keyedEntries (spelled key w) =
      (key, clean (untilPipe w).1) :: Text.allMatches keyedPair? (untilPipe w).2 :=
    Text.allMatches_of_some hread (suffix_of_keyedPair? hread)
  rw [Notes.get?, Notes.ofComments, TextMap.get?_ofFirst, List.flatMap_singleton, hentries,
    TextMap.get?, if_pos rfl]

end Note

namespace Notes

/-- The value of a note is its text up to the first pipe behind no backslash, where a line is cut at
    the first pipe behind an even number of them. So the note has the value that the cut of a line
    gives exactly if the pipe of that cut, if there is one, stands behind no backslash; it always has
    if no pipe stands behind two backslashes. -/
theorem get?_spelled_iff {key w part : Text} (hkey : Note.IsKey key)
    (hpart : Physical.MainText w part) :
    (∃ value, Text.UpToPipe (fun front => front.slashes = 0) w value ∧
      (ofComments [Note.spelled key w]).get? key = some (Note.clean value)) ∧
    Text.UpToPipe (fun front => Even front.slashes) w part ∧
    ((ofComments [Note.spelled key w]).get? key = some (Note.clean part) ↔
      ∀ back, w = part ++ '|' :: back → part.slashes = 0) ∧
    (¬ ['\\', '\\', '|'] <:+: w →
      (ofComments [Note.spelled key w]).get? key = some (Note.clean part)) := by
  obtain rfl := hpart.eq_beforePipe
  have hvalue := Note.upToPipe_untilPipe w
  have hcut := Physical.upToPipe_beforePipe w
  have hfree : ∀ front : Text, front.slashes = 0 → Even front.slashes :=
    fun front h => h ▸ Even.zero
  have hagree := hcut.eq_iff hvalue hfree
  have hiff : (ofComments [Note.spelled key w]).get? key =
        some (Note.clean (Physical.beforePipe false w)) ↔
      ∀ back, w = Physical.beforePipe false w ++ '|' :: back →
        (Physical.beforePipe false w).slashes = 0 := by
    rw [Note.get?_spelled hkey, ← hagree, Option.some.injEq]
    constructor
    · intro hclean
      by_contra hne
      obtain ⟨hback, more, hmore⟩ := hcut.exists_of_ne hvalue hfree hne
      rw [hmore] at hclean
      exact Note.clean_append_pipe_ne hback more hclean.symm
    · intro heq
      rw [heq]
  refine ⟨⟨_, hvalue, Note.get?_spelled hkey w⟩, hcut, hiff, fun hnone => hiff.2 fun back hback => ?_⟩
  by_contra hslashes
  obtain ⟨rest, hrest⟩ := Text.exists_of_even_slashes hslashes (hcut.of_pipe hback)
  refine hnone ⟨rest, back, ?_⟩
  rw [hback, hrest]
  simp

/-- A value with pipes behind one and behind three backslashes, and one behind a blank. -/
def escapedValue : Text := "x \\| y \\\\\\| z | %{k}: w"

theorem get?_spelled_escapedValue :
    Note.IsKey "k".toList ∧
    Physical.MainText escapedValue "x \\| y \\\\\\| z " ∧
    (ofComments [Note.spelled "k" escapedValue]).get? "k" = some "x | y \\\\| z".toList := by
  have hkey : Note.IsKey "k".toList :=
    ⟨by decide, by decide, by decide, by decide, by decide⟩
  have hpart : Physical.MainText escapedValue "x \\| y \\\\\\| z " := by decide
  refine ⟨hkey, hpart, ?_⟩
  exact (get?_spelled_iff hkey hpart).2.2.1.2 fun back hback => by decide

/-- A pipe behind two backslashes cuts the line and not the value. -/
theorem get?_spelled_doubledBackslash :
    Note.IsKey "k".toList ∧
    Note.spelled "k" "a\\\\|b" = "| %{k}: a\\\\|b".toList ∧
    Physical.pipeOffset? "a\\\\|b" = some 3 ∧
    Physical.MainText "a\\\\|b" "a\\\\" ∧
    (ofComments [Note.spelled "k" "a\\\\|b"]).get? "k" = some "a\\|b".toList ∧
    (ofComments [Note.spelled "k" "a\\\\|b"]).get? "k" ≠ some (Note.clean "a\\\\") := by
  refine ⟨⟨by decide, by decide, by decide, by decide, by decide⟩, ?_⟩
  decide

end Notes

end PlanGraph
