import PlanGraph.Proofs.Note
import PlanGraph.Proofs.Position.Spelling
import PlanGraph.Reindex

set_option autoImplicit false

/-! # Reading a comment with a position tag behind it

A tag that is put at the end of a comment, with a blank in front of it, is read as one further tag,
and nothing else in the comment is read differently: no note of the comment runs into the tag, and
no key that the comment leaves open is closed by it (`keyedEntries_append_tag`,
`tagEntries_append_tag`). -/

namespace PlanGraph

namespace Reindex

/-- A position tag as it is put behind a line. -/
def tag (position : Text) : Text := '|' :: ' ' :: (tagOpening ++ ' ' :: position)

theorem tagOpening_eq :
    tagOpening = ['?', '{', 'p', 'o', 's', 'i', 't', 'i', 'o', 'n', '}', ':'] := rfl

theorem appendTag_eq (position body : Text) :
    appendTag position body = body.trimEnd ++ ' ' :: tag position := by
  simp [appendTag, tag]

/-- What is left behind a note once a tag stands behind the comment. -/
def behind (position left : Text) : Text :=
  if left = [] then tag position else left ++ ' ' :: tag position

theorem behind_suffix {left rest : Text} (position : Text) (h : left <:+ rest) :
    behind position left <:+ rest ++ ' ' :: tag position := by
  rw [behind]
  split
  · exact ⟨rest ++ [' '], by simp⟩
  · obtain ⟨taken, rfl⟩ := h
    exact ⟨taken, by simp⟩

/-- A reader that ends its matches in front of the tag finds what it found without the tag, and then
    what it finds in the tag. -/
theorem allMatches_append_tag {α : Type} {reader : Text → Option (α × Text)} (position : Text)
    (hnil : reader [] = none)
    (hsuffix : ∀ {c rest a left}, reader (c :: rest) = some (a, left) → left <:+ rest)
    (hread : ∀ t, reader (t ++ ' ' :: tag position) =
      (reader t).map fun (a, left) => (a, behind position left)) (t : Text) :
    Text.allMatches reader (t ++ ' ' :: tag position) =
      Text.allMatches reader t ++ Text.allMatches reader (tag position) := by
  -- on the length of the text, because a match may leave any shorter end of it
  induction hlen : t.length using Nat.strong_induction_on generalizing t with
  | h n ih =>
      have hread := hread t
      cases t with
      | nil =>
          rw [hnil] at hread
          exact Text.allMatches_of_none hread
      | cons c rest =>
          cases hc : reader (c :: rest) with
          | none =>
              rw [hc, List.cons_append] at hread
              rw [List.cons_append, Text.allMatches_of_none hread, Text.allMatches_of_none hc]
              exact ih rest.length (by simp [← hlen]) rest rfl
          | some found =>
              obtain ⟨a, left⟩ := found
              have hleft := hsuffix hc
              rw [hc, List.cons_append] at hread
              rw [List.cons_append, Text.allMatches_of_some hread (behind_suffix position hleft),
                Text.allMatches_of_some hc hleft, List.cons_append, List.cons.injEq]
              refine ⟨rfl, ?_⟩
              rw [behind]
              split
              · next hnone => rw [hnone, Text.allMatches_nil, List.nil_append]
              · have := hleft.length_le
                exact ih left.length (by simp [← hlen]; omega) left rfl

end Reindex

namespace Note

open Reindex (tag behind)

/-! ## Keys and values in front of a tag -/

theorem keyed?_append_tag (position t : Text) :
    keyed? (t ++ ' ' :: tag position) =
      (keyed? t).map fun (key, rest) => (key, rest ++ ' ' :: tag position) := by
  have hcut := List.takeWhile_append_dropWhile (p := inKey) (l := t)
  rw [keyed?_eq, keyed?_eq, List.takeWhile_append, List.dropWhile_append]
  by_cases hopen : t.dropWhile inKey = []
  · -- the key is still open where the tag begins, and the tag opens a bracket of its own first
    rw [hopen, List.append_nil] at hcut
    have htag : Text.after? ((' ' :: tag position).dropWhile inKey) ['}', ':'] = none := rfl
    rw [hopen, hcut, if_pos List.isEmpty_nil, htag]
    simp
  · have hshort : ¬ (t.takeWhile inKey).length = t.length := by
      intro hlen
      have := congrArg List.length hcut
      rw [List.length_append, hlen] at this
      exact hopen (List.length_eq_zero_iff.1 (by omega))
    rw [if_neg hshort, if_neg (fun h => hopen (List.isEmpty_iff.1 h)),
      Text.after?_append_cons _ _ (by decide)]
    split
    · rfl
    · cases Text.after? (t.dropWhile inKey) ['}', ':'] <;> rfl

/-- A value in front of a tag is longer by blanks at most. -/
theorem untilPipe_append_tag (position t : Text) :
    (untilPipe (t ++ ' ' :: tag position)).2 = behind position (untilPipe t).2 ∧
      ∃ b, Text.AllBlank b ∧
        (untilPipe (t ++ ' ' :: tag position)).1 = (untilPipe t).1 ++ b := by
  fun_induction untilPipe t with
  | case1 => exact ⟨rfl, [' '], Text.AllBlank.space, rfl⟩
  | case2 rest ih =>
      obtain ⟨hleft, b, hb, hvalue⟩ := ih
      refine ⟨hleft, b, hb, ?_⟩
      simp [untilPipe, hvalue]
  | case3 rest => exact ⟨rfl, [], Text.AllBlank.nil, by simp [untilPipe]⟩
  | case4 c rest hesc hpipe ih =>
      obtain ⟨hleft, b, hb, hvalue⟩ := ih
      have hstep : untilPipe (c :: rest ++ ' ' :: tag position) =
          (c :: (untilPipe (rest ++ ' ' :: tag position)).1,
            (untilPipe (rest ++ ' ' :: tag position)).2) := by
        rw [List.cons_append, untilPipe, if_neg hpipe]
        rintro rest' rfl hrest
        cases rest with
        | nil => simp at hrest
        | cons d rest =>
            rw [List.cons_append, List.cons.injEq] at hrest
            exact hesc rest rfl (by rw [hrest.1])
      rw [hstep]
      exact ⟨hleft, b, hb, by simp [hvalue]⟩

theorem pair?_append_tag (position t : Text) :
    pair? (t ++ ' ' :: tag position) =
      (pair? t).map fun (e, left) => (e, behind position left) := by
  simp only [pair?, keyed?_append_tag]
  cases keyed? t with
  | none => rfl
  | some found =>
      obtain ⟨key, rest⟩ := found
      obtain ⟨hleft, b, hb, hvalue⟩ := untilPipe_append_tag position rest
      simp [hleft, hvalue, clean_append_blank _ hb]

/-! ## The notes of a comment with a tag -/

theorem keyedPair?_append_tag (position t : Text) :
    keyedPair? (t ++ ' ' :: tag position) =
      (keyedPair? t).map fun (e, left) => (e, behind position left) := by
  cases t with
  | nil => rfl
  | cons c rest =>
      by_cases hc : c = '|'
      · subst hc
        have hopening : (Text.trimStart (rest ++ ' ' :: tag position)).after? ['%', '{'] =
            ((Text.trimStart rest).after? ['%', '{']).map (· ++ ' ' :: tag position) := by
          rw [Text.trimStart, Text.trimStart, List.dropWhile_append]
          split
          · next h =>
              rw [List.isEmpty_iff.1 h]
              rfl
          · exact Text.after?_append_cons _ _ (by decide)
        show ((Text.trimStart (rest ++ ' ' :: tag position)).after? ['%', '{']).bind pair? =
          (((Text.trimStart rest).after? ['%', '{']).bind pair?).map _
        rw [hopening]
        cases (Text.trimStart rest).after? ['%', '{'] with
        | none => rfl
        | some t => exact pair?_append_tag position t
      · have hnone : ∀ more, keyedPair? (c :: more) = none := by
          intro more
          simp [keyedPair?, hc]
        rw [List.cons_append, hnone, hnone]
        rfl

theorem tagPair?_append_tag (position t : Text) :
    tagPair? (t ++ ' ' :: tag position) =
      (tagPair? t).map fun (e, left) => (e, behind position left) := by
  rw [tagPair?, Text.after?_append_cons _ _ (by decide), tagPair?]
  cases t.after? ['?', '{'] with
  | none => rfl
  | some t => exact pair?_append_tag position t

section Position

variable {position : Text} (hplain : ∀ c ∈ position, c = '.' ∨ c.isDigit = true)
include hplain

theorem no_pipe_of_plain : '|' ∉ position := by
  intro h
  rcases hplain _ h with h | h
  · exact absurd h (by decide)
  · exact absurd h (by decide)

theorem tight_of_plain : Text.Tight position := by
  refine Text.tight_of_forall ?_
  intro c hc
  rcases hplain c hc with rfl | hd
  · decide
  · exact isBlank_of_isDigit hd

theorem keyedEntries_tag : keyedEntries (tag position) = [] := by
  have hopening : '|' ∉ Reindex.tagOpening := by decide
  have hfree : '|' ∉ ' ' :: (Reindex.tagOpening ++ ' ' :: position) := by
    simp [hopening, no_pipe_of_plain hplain]
  have hnone : keyedPair? (tag position) = none := rfl
  rw [keyedEntries, tag, Text.allMatches_of_none hnone]
  exact keyedEntries_of_no_pipe hfree

theorem clean_of_plain : clean (' ' :: position) = position := by
  have htrim : Text.trim (' ' :: position) = position := by
    simpa using Text.trim_between Text.AllBlank.space (tight_of_plain hplain) Text.AllBlank.nil
  rw [clean, htrim, unescape_of_no_pipe (no_pipe_of_plain hplain)]

theorem tagEntries_tag : tagEntries (tag position) = [("position".toList, position)] := by
  have huntil : untilPipe (' ' :: position) = (' ' :: position, []) :=
    untilPipe_of_no_pipe (by simp [no_pipe_of_plain hplain])
  have hentry : tagPair? (Reindex.tagOpening ++ ' ' :: position) =
      some (("position".toList, position), []) := by
    have hkey : keyed? ("position".toList ++ ['}', ':'] ++ ' ' :: position) =
        some ("position".toList, ' ' :: position) := rfl
    show pair? ("position".toList ++ ['}', ':'] ++ ' ' :: position) = _
    rw [pair?, hkey]
    simp only [Option.bind_eq_bind, Option.bind_some, huntil, clean_of_plain hplain]
    rfl
  have hpipe : tagPair? (tag position) = none := rfl
  have hblank : tagPair? (' ' :: (Reindex.tagOpening ++ ' ' :: position)) = none := rfl
  rw [tagEntries, tag, Text.allMatches_of_none hpipe, Text.allMatches_of_none hblank]
  rw [Reindex.tagOpening_eq] at hentry ⊢
  exact Text.allMatches_of_some hentry List.nil_suffix

/-- No keyed note of a comment changes by a tag behind it. -/
theorem keyedEntries_append_tag (comment : Text) :
    keyedEntries (comment ++ ' ' :: tag position) = keyedEntries comment := by
  have h := Reindex.allMatches_append_tag position rfl suffix_of_keyedPair?
    (keyedPair?_append_tag position) comment
  have htag := keyedEntries_tag hplain
  rw [keyedEntries] at htag
  rw [keyedEntries, h, htag, List.append_nil, keyedEntries]

/-- A tag behind a comment is one further tag. -/
theorem tagEntries_append_tag (comment : Text) :
    tagEntries (comment ++ ' ' :: tag position) =
      tagEntries comment ++ [("position".toList, position)] := by
  have h := Reindex.allMatches_append_tag position rfl suffix_of_tagPair?
    (tagPair?_append_tag position) comment
  rw [← tagEntries_tag hplain]
  exact h

end Position

end Note

end PlanGraph
