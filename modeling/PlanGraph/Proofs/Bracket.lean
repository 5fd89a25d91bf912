import PlanGraph.Bracket.Basic
import PlanGraph.Concept.Token
import PlanGraph.Proofs.Note

set_option autoImplicit false

/-! # Brackets around a trimmed name

What a closed bracket encloses may be trimmed and put into brackets again: the bracket is then
closed by its last character and encloses the trimmed text (`close?_trim`). For a proposition this
needs more than counting, since a `>` closes it only if no later one does and no tag stands between
them. A concept that was read from a closed bracket is therefore found again by its name in brackets
(`bareName_enclose`). -/

namespace PlanGraph

namespace Bracket

theorem map_cons_eq_some {cut : Option (Text × Text)} {x : Char} {u left : Text} :
    cut.map (fun (inner, left) => (x :: inner, left)) = some (x :: u, left) ↔
      cut = some (u, left) := by
  cases cut <;> simp [Prod.ext_iff]

/-- Blanks in front of what is cut stay in front of it. -/
theorem cut_of_blank_append {cut : Text → Option (Text × Text)}
    (hblank : ∀ x rest, isBlank x = true →
      cut (x :: rest) = (cut rest).map fun (inner, left) => (x :: inner, left))
    {a t u left : Text} (ha : Text.AllBlank a) (h : cut (a ++ t) = some (a ++ u, left)) :
    cut t = some (u, left) := by
  induction a with
  | nil => exact h
  | cons x a ih =>
      rw [List.cons_append, hblank x _ (ha x List.mem_cons_self), List.cons_append,
        map_cons_eq_some] at h
      exact ih (fun c hc => ha c (List.mem_cons_of_mem _ hc)) h

/-! ## Counted pairs -/

section Pair

variable {o c : Char} (ho : isBlank o = false) (hc : isBlank c = false)
include ho hc

theorem splitPair_blank (depth : Nat) (x : Char) (rest : Text) (hx : isBlank x = true) :
    splitPair o c depth (x :: rest) =
      (splitPair o c depth rest).map fun (inner, left) => (x :: inner, left) := by
  have hxo : x ≠ o := by rintro rfl; rw [ho] at hx; cases hx
  have hxc : x ≠ c := by rintro rfl; rw [hc] at hx; cases hx
  rw [splitPair, if_neg hxo, if_neg hxc]

/-- A pair is closed as well without the blanks in front of its end, and without what follows. -/
theorem splitPair_tighten (hne : c ≠ o) {m b left : Text} (hb : Text.AllBlank b) {depth : Nat}
    (h : splitPair o c depth (m ++ (b ++ c :: left)) = some (m ++ b, left)) :
    splitPair o c depth (m ++ [c]) = some (m, []) := by
  induction m generalizing depth with
  | nil =>
      have hend : splitPair o c depth (c :: left) = some ([], left) :=
        cut_of_blank_append (splitPair_blank ho hc depth) hb (by simpa using h)
      rw [splitPair, if_neg hne, if_pos rfl] at hend
      split at hend
      · next hdepth => simp [splitPair, hne, hdepth]
      · obtain ⟨⟨inner, rest⟩, -, heq⟩ := Option.map_eq_some_iff.1 hend
        simp at heq
  | cons x m ih =>
      rw [List.cons_append, splitPair] at h ⊢
      split at h
      · next hx => rw [if_pos hx]; exact map_cons_eq_some.2 (ih (map_cons_eq_some.1 h))
      · next hxo =>
          rw [if_neg hxo]
          split at h
          · next hxc =>
              rw [if_pos hxc]
              split at h
              · simp at h
              · next hdepth => rw [if_neg hdepth]; exact map_cons_eq_some.2 (ih (map_cons_eq_some.1 h))
          · next hxc => rw [if_neg hxc]; exact map_cons_eq_some.2 (ih (map_cons_eq_some.1 h))

end Pair

/-! ## Propositions -/

theorem splitProposition_blank (depth : Nat) (seen : Bool) (x : Char) (rest : Text)
    (hx : isBlank x = true) :
    splitProposition depth seen (x :: rest) =
      (splitProposition depth seen rest).map fun (inner, left) => (x :: inner, left) := by
  have hne : ∀ d : Char, isBlank d = false → x ≠ d := by
    rintro d hd rfl
    rw [hx] at hd
    cases hd
  rw [splitProposition, if_neg, if_neg, if_neg, if_neg]
  · exact fun h => hne '<' (by decide) h.1
  · exact fun h => hne '>' (by decide) h.1
  · rintro (h | h | h)
    · exact hne ')' (by decide) h
    · exact hne ']' (by decide) h
    · exact hne '}' (by decide) h
  · rintro (h | h | h)
    · exact hne '(' (by decide) h
    · exact hne '[' (by decide) h
    · exact hne '{' (by decide) h

theorem startsWith_append_cons {p : Text} {x : Char} (t s : Text) (hx : x ∉ p) :
    Text.startsWith (t ++ x :: s) p = Text.startsWith t p := by
  have hiff : ∀ u : Text, Text.startsWith u p = (Text.after? u p).isSome := by
    intro u
    rw [Bool.eq_iff_iff, Option.isSome_iff_exists, Text.startsWith, List.isPrefixOf_iff_prefix]
    constructor
    · rintro ⟨rest, hrest⟩
      exact ⟨rest, Text.after?_eq_some_iff.2 hrest.symm⟩
    · rintro ⟨rest, hrest⟩
      exact ⟨rest, (Text.after?_eq_some_iff.1 hrest).symm⟩
  rw [hiff, hiff, Text.after?_append_cons _ _ hx, Option.isSome_map]

/-- A tag is not seen across a blank or the end of the proposition. -/
theorem any_suffixTags_append {b : Text} (t left : Text) (hb : Text.AllBlank b) :
    suffixTags.any (Text.startsWith (t ++ (b ++ '>' :: left))) =
      suffixTags.any (Text.startsWith t) := by
  have hfree : ∀ x : Char, isBlank x = true ∨ x = '>' → ∀ p ∈ suffixTags, x ∉ p := by
    rintro x (hx | rfl) p hp hmem
    · have htight : suffixTags.all (·.all (!isBlank ·)) = true := rfl
      have hnot := List.all_eq_true.1 (List.all_eq_true.1 htight p hp) x hmem
      rw [hx] at hnot
      cases hnot
    · have hnone : ∀ p ∈ suffixTags, '>' ∉ p := by decide
      exact hnone p hp hmem
  obtain ⟨x, s, hs, hx⟩ : ∃ x s, b ++ '>' :: left = x :: s ∧ (isBlank x = true ∨ x = '>') := by
    cases b with
    | nil => exact ⟨_, _, rfl, Or.inr rfl⟩
    | cons x b => exact ⟨_, _, rfl, Or.inl (hb x List.mem_cons_self)⟩
  rw [hs, Bool.eq_iff_iff, List.any_eq_true, List.any_eq_true]
  constructor
  · rintro ⟨p, hp, h⟩
    rw [startsWith_append_cons t s (hfree x hx p hp)] at h
    exact ⟨p, hp, h⟩
  · rintro ⟨p, hp, h⟩
    refine ⟨p, hp, ?_⟩
    rw [startsWith_append_cons t s (hfree x hx p hp)]
    exact h

/-- A proposition is closed as well without the blanks in front of its end, and without what
    follows. -/
theorem splitProposition_tighten {m b left : Text} (hb : Text.AllBlank b) {depth : Nat}
    {seen : Bool}
    (h : splitProposition depth seen (m ++ (b ++ '>' :: left)) = some (m ++ b, left)) :
    splitProposition depth seen (m ++ ['>']) = some (m, []) := by
  induction m generalizing depth seen with
  | nil =>
      have hend : splitProposition depth seen ('>' :: left) = some ([], left) :=
        cut_of_blank_append (splitProposition_blank depth seen) hb (by simpa using h)
      rw [splitProposition, if_neg (by decide), if_neg (by decide)] at hend
      split at hend
      · next hdepth => simp [splitProposition, hdepth]
      · -- inside other brackets the `>` is part of the text
        rw [if_neg (fun hx => absurd hx.1 (by decide))] at hend
        obtain ⟨⟨inner, rest⟩, -, heq⟩ := Option.map_eq_some_iff.1 hend
        simp at heq
  | cons x m ih =>
      have htags : suffixTags.any (Text.startsWith (x :: (m ++ ['>']))) =
          suffixTags.any (Text.startsWith (x :: (m ++ (b ++ '>' :: left)))) := by
        have hshort := any_suffixTags_append (x :: m) [] Text.AllBlank.nil
        have hlong := any_suffixTags_append (x :: m) left hb
        rw [List.nil_append, List.cons_append] at hshort
        rw [List.cons_append] at hlong
        rw [hshort, hlong]
      rw [List.cons_append, splitProposition] at h ⊢
      rw [htags]
      split at h
      · next hx => rw [if_pos hx]; exact map_cons_eq_some.2 (ih (map_cons_eq_some.1 h))
      · next hopening =>
          rw [if_neg hopening]
          split at h
          · next hx => rw [if_pos hx]; exact map_cons_eq_some.2 (ih (map_cons_eq_some.1 h))
          · next hclosing =>
              rw [if_neg hclosing]
              split at h
              · next hx =>
                  -- an earlier `>`: a later one is found in the shorter text too
                  rw [if_pos hx]
                  split at h
                  · next inner rest hcut =>
                      simp only [List.cons_append, Option.some.injEq, Prod.mk.injEq, List.cons.injEq,
                        true_and] at h
                      obtain ⟨rfl, rfl⟩ := h
                      rw [ih hcut]
                  · simp at h
              · next hx =>
                  rw [if_neg hx]
                  split at h
                  · simp at h
                  · next htag => rw [if_neg htag]; exact map_cons_eq_some.2 (ih (map_cons_eq_some.1 h))

/-! ## Names in brackets -/

theorem isBlank_opening (b : Bracket) : isBlank b.opening = false := by cases b <;> decide

theorem isBlank_closing (b : Bracket) : isBlank b.closing = false := by cases b <;> decide

/-- What a closed bracket encloses, once trimmed, is what it encloses if it is closed right
    behind. -/
theorem close?_trim {b : Bracket} {t inner left : Text} (h : b.close? t = some (inner, left)) :
    b.close? (inner.trim ++ [b.closing]) = some (inner.trim, []) := by
  obtain ⟨front, back, hfront, hback, hinner⟩ := Text.exists_margins inner
  have ht : t = front ++ (inner.trim ++ (back ++ b.closing :: left)) := by
    rw [close?_append h]
    conv_lhs => rw [hinner]
    simp
  have hcut : b.close? (front ++ (inner.trim ++ (back ++ b.closing :: left))) =
      some (front ++ (inner.trim ++ back), left) := by
    rw [← ht, h, ← List.append_assoc, ← hinner]
  cases b with
  | angle =>
      exact splitProposition_tighten hback
        (cut_of_blank_append (splitProposition_blank 0 false) hfront hcut)
  | round =>
      exact splitPair_tighten (by decide) (by decide) (by decide) hback
        (cut_of_blank_append (splitPair_blank (by decide) (by decide) 0) hfront hcut)
  | square =>
      exact splitPair_tighten (by decide) (by decide) (by decide) hback
        (cut_of_blank_append (splitPair_blank (by decide) (by decide) 0) hfront hcut)
  | curly =>
      exact splitPair_tighten (by decide) (by decide) (by decide) hback
        (cut_of_blank_append (splitPair_blank (by decide) (by decide) 0) hfront hcut)

theorem tight_enclosed (b : Bracket) (name : Text) :
    Text.Tight (b.opening :: (name ++ [b.closing])) := by
  constructor
  · intro c hc
    obtain rfl : b.opening = c := by simpa using hc
    exact isBlank_opening b
  · intro c hc
    rw [← List.cons_append, List.getLast?_append_of_ne_nil _ (by simp)] at hc
    obtain rfl : b.closing = c := by simpa using hc
    exact isBlank_closing b

/-- The name that was read from a closed bracket is the bare name of itself in brackets. -/
theorem bareName_enclose {b : Bracket} {t inner left : Text}
    (h : b.close? t = some (inner, left)) :
    bareName (b.opening :: (inner.trim ++ [b.closing])) = inner.trim := by
  have henclosed : enclosed? (b.opening :: (inner.trim ++ [b.closing])) =
      some (b, inner.trim, []) := by
    simp [enclosed?, ofOpening?_opening, close?_trim h]
  rw [bareName, Text.trim_of_tight (tight_enclosed b _), henclosed]
  exact Text.trim_of_tight (Text.tight_trim inner)

end Bracket

end PlanGraph
