import Mathlib.Data.List.Infix
import PlanGraph.Proofs.Bracket

set_option autoImplicit false

/-! # Matched and nested brackets

Two ways to say that the brackets of a text close. A text is `Matched` for one pair if no front of it
closes more than it opens and the whole closes all: this is what a search for the end of a bracket
counts (`splitPair_eq_some_iff`), and it decides whether a pair around the text is read as a pair
(`strip?_enclosed`). A text is `Nested` if its brackets of all four kinds close in order. Nested
texts are matched for every kind (`Nested.matched`), but not the other way round: the brackets of
`(a[b)c]` are matched for each kind and not nested. -/

namespace PlanGraph

namespace Bracket

/-! ## One pair -/

/-- A text that closes each `o` by a `c`, and no more. -/
structure Matched (o c : Char) (t : Text) : Prop where
  front : ∀ u, u <+: t → u.count c ≤ u.count o
  whole : t.count c = t.count o

instance (o c : Char) (t : Text) : Decidable (Matched o c t) :=
  decidable_of_iff ((∀ u ∈ t.inits, u.count c ≤ u.count o) ∧ t.count c = t.count o)
    ⟨fun h => ⟨fun u hu => h.1 u ((List.mem_inits u t).2 hu), h.2⟩,
      fun h => ⟨fun u hu => h.front u ((List.mem_inits u t).1 hu), h.whole⟩⟩

theorem forall_isPrefix_cons {α : Type} {p : List α → Prop} {x : α} {l : List α} :
    (∀ u, u <+: x :: l → p u) ↔ p [] ∧ ∀ v, v <+: l → p (x :: v) := by
  constructor
  · intro h
    exact ⟨h [] List.nil_prefix, fun v hv => h (x :: v) (List.cons_prefix_cons.2 ⟨rfl, hv⟩)⟩
  · rintro ⟨hnil, hcons⟩ u hu
    rcases List.prefix_cons_iff.1 hu with rfl | ⟨v, rfl, hv⟩
    · exact hnil
    · exact hcons v hv

/-- The end of a bracket is the first place where as many are closed as are opened. -/
theorem splitPair_eq_some_iff {o c : Char} (hne : c ≠ o) {depth : Nat} {t inner left : Text} :
    splitPair o c depth t = some (inner, left) ↔
      t = inner ++ c :: left ∧ (∀ u, u <+: inner → u.count c ≤ depth + u.count o) ∧
        inner.count c = depth + inner.count o := by
  induction t generalizing depth inner with
  | nil => simp [splitPair]
  | cons x rest ih =>
      cases inner with
      | nil =>
          rw [splitPair]
          by_cases hxo : x = o
          · simp [hxo, hne.symm]
          · by_cases hxc : x = c
            · by_cases hdepth : depth = 0
              · simp [hxc, hne, hdepth]
              · simp [hxc, hne, hdepth, Ne.symm hdepth]
            · simp [hxo, hxc]
      | cons y inner =>
          by_cases hxy : x = y
          · subst hxy
            rw [splitPair, forall_isPrefix_cons, List.cons_append, List.cons.injEq]
            by_cases hxo : x = o
            · rw [if_pos hxo, map_cons_eq_some, ih]
              simp only [hxo, List.count_cons_self, List.count_cons_of_ne hne.symm]
              grind
            · by_cases hxc : x = c
              · by_cases hdepth : depth = 0
                · -- the level ends here, so the text in front of its end does not go on with `c`
                  rw [if_neg hxo, if_pos hxc, if_pos hdepth]
                  have hnil := fun h : ∀ v, v <+: inner → (x :: v).count c ≤ depth + (x :: v).count o =>
                    h [] List.nil_prefix
                  simp only [hxc, hdepth, List.count_cons_self, List.count_cons_of_ne hne] at hnil ⊢
                  grind
                · rw [if_neg hxo, if_pos hxc, if_neg hdepth, map_cons_eq_some, ih]
                  simp only [hxc, List.count_cons_self, List.count_cons_of_ne hne]
                  grind
              · rw [if_neg hxo, if_neg hxc, map_cons_eq_some, ih]
                simp only [List.count_cons_of_ne hxo, List.count_cons_of_ne hxc]
                grind
          · constructor
            · intro h
              exact absurd (List.cons.inj (splitPair_append h)).1 hxy
            · rintro ⟨h, -⟩
              exact absurd (List.cons.inj h).1 hxy

theorem enclosed?_opening_cons (b : Bracket) (t : Text) :
    enclosed? (b.opening :: t) = (b.close? t).map fun cut => (b, cut.1, cut.2) := by
  rw [enclosed?, ofOpening?_opening]
  cases hclose : b.close? t <;> simp [hclose]

theorem close?_of_ne_angle {b : Bracket} (hb : b ≠ .angle) (t : Text) :
    b.close? t = splitPair b.opening b.closing 0 t := by
  cases b with
  | angle => exact absurd rfl hb
  | round | square | curly => rfl

/-- A bracket in front of a text ends where the text that it encloses is matched for it. -/
theorem enclosed?_of_matched {b : Bracket} (hb : b ≠ .angle) {inner : Text}
    (h : Matched b.opening b.closing inner) (rest : Text) :
    enclosed? (b.opening :: (inner ++ b.closing :: rest)) = some (b, inner, rest) := by
  have hne : b.closing ≠ b.opening := by cases b <;> decide
  have hsplit : splitPair b.opening b.closing 0 (inner ++ b.closing :: rest) = some (inner, rest) :=
    (splitPair_eq_some_iff hne).2 ⟨rfl, by simpa using h.front, by simpa using h.whole⟩
  rw [enclosed?_opening_cons, close?_of_ne_angle hb, hsplit, Option.map_some]

/-- A pair of brackets around a text is read as a pair if the text is matched for it. -/
theorem strip?_enclosed {b : Bracket} (hb : b ≠ .angle) (t : Text) :
    b.strip? (b.opening :: (t ++ [b.closing])) =
      if Matched b.opening b.closing t then some t else none := by
  have hne : b.closing ≠ b.opening := by cases b <;> decide
  rw [strip?, Text.trim_of_tight (tight_enclosed b t), enclosed?_opening_cons,
    close?_of_ne_angle hb]
  split
  · next found inner hfound =>
      obtain ⟨rfl, hsplit⟩ : b = found ∧
          splitPair b.opening b.closing 0 (t ++ [b.closing]) = some (inner, []) := by
        simpa [and_comm] using hfound
      obtain ⟨ht, hfront, hwhole⟩ := (splitPair_eq_some_iff hne).1 hsplit
      obtain rfl : t = inner := List.append_cancel_right ht
      rw [if_pos rfl, if_pos]
      exact ⟨by simpa using hfront, by simpa using hwhole⟩
  · next hnone =>
      refine (if_neg fun hmatched => ?_).symm
      have hsplit : splitPair b.opening b.closing 0 (t ++ [b.closing]) = some (t, []) :=
        (splitPair_eq_some_iff hne).2
          ⟨rfl, by simpa using hmatched.front, by simpa using hmatched.whole⟩
      exact hnone b t (by simp [hsplit])

section Matched

variable {o c : Char}

theorem Matched.nil : Matched o c [] :=
  ⟨fun u hu => by simp [List.prefix_nil.1 hu], rfl⟩

theorem Matched.cons {x : Char} {t : Text} (ho : x ≠ o) (hc : x ≠ c) (ht : Matched o c t) :
    Matched o c (x :: t) := by
  constructor
  · refine forall_isPrefix_cons.2 ⟨Nat.le_refl _, fun v hv => ?_⟩
    rw [List.count_cons_of_ne hc, List.count_cons_of_ne ho]
    exact ht.front v hv
  · rw [List.count_cons_of_ne hc, List.count_cons_of_ne ho]
    exact ht.whole

theorem Matched.append {t s : Text} (ht : Matched o c t) (hs : Matched o c s) :
    Matched o c (t ++ s) := by
  constructor
  · intro u hu
    rcases List.prefix_or_prefix_of_prefix hu (List.prefix_append t s) with hfront | ⟨v, rfl⟩
    · exact ht.front u hfront
    · have hv : v <+: s := (List.prefix_append_right_inj t).1 hu
      rw [List.count_append, List.count_append, ht.whole]
      exact Nat.add_le_add_left (hs.front v hv) _
  · rw [List.count_append, List.count_append, ht.whole, hs.whole]

theorem matched_flatten {ts : List Text} (h : ∀ t ∈ ts, Matched o c t) : Matched o c ts.flatten := by
  induction ts with
  | nil => exact .nil
  | cons t ts ih =>
      exact (h t List.mem_cons_self).append (ih fun s hs => h s (List.mem_cons_of_mem _ hs))

theorem Matched.enclosed (hne : c ≠ o) {t : Text} (ht : Matched o c t) :
    Matched o c (o :: (t ++ [c])) := by
  have hwhole : (o :: (t ++ [c])).count c = (o :: (t ++ [c])).count o := by
    simp [hne, hne.symm, ht.whole]
  refine ⟨forall_isPrefix_cons.2 ⟨Nat.le_refl _, fun v hv => ?_⟩, hwhole⟩
  rcases List.prefix_concat_iff.1 hv with rfl | hv
  · exact hwhole.le
  · rw [List.count_cons_of_ne hne.symm, List.count_cons_self]
    exact Nat.le_succ_of_le (ht.front v hv)

/-- Other characters do not count. -/
theorem matched_filter {p : Char → Bool} (ho : p o = true) (hc : p c = true) {t : Text} :
    Matched o c (t.filter p) ↔ Matched o c t := by
  have hcount : ∀ u : Text, (u.filter p).count c = u.count c ∧ (u.filter p).count o = u.count o :=
    fun u => ⟨List.count_filter hc, List.count_filter ho⟩
  constructor
  · intro h
    refine ⟨fun u hu => ?_, by simpa only [hcount t] using h.whole⟩
    simpa only [hcount u] using h.front _ (hu.filter p)
  · intro h
    refine ⟨fun u hu => ?_, by simpa only [hcount t] using h.whole⟩
    obtain ⟨v, hv, rfl⟩ := List.prefix_filter_iff.1 hu
    simpa only [hcount v] using h.front v hv

end Matched

/-! ## All four pairs -/

/-- A text whose brackets close in order, each by its own kind. -/
inductive Nested : Text → Prop where
  | nil : Nested []
  | plain {x : Char} {t : Text} (hopening : ofOpening? x = none) (hclosing : ofClosing? x = none)
      (ht : Nested t) : Nested (x :: t)
  | group (b : Bracket) {inner t : Text} (hinner : Nested inner) (ht : Nested t) :
      Nested (b.opening :: (inner ++ b.closing :: t))

theorem ofClosing?_closing (b : Bracket) : ofClosing? b.closing = some b := by
  cases b <;> rfl

theorem opening_ne_closing (b d : Bracket) : b.opening ≠ d.closing := by
  cases b <;> cases d <;> decide

theorem Nested.matched {t : Text} (h : Nested t) (b : Bracket) : Matched b.opening b.closing t := by
  induction h with
  | nil => exact Matched.nil
  | plain hopening hclosing _ ih =>
      refine ih.cons ?_ ?_
      · rintro rfl
        rw [ofOpening?_opening] at hopening
        cases hopening
      · rintro rfl
        rw [ofClosing?_closing] at hclosing
        cases hclosing
  | @group d inner t _ _ ihinner iht =>
      by_cases hd : d = b
      · subst hd
        simpa using (ihinner.enclosed (opening_ne_closing d d).symm).append iht
      · -- brackets of another kind do not count
        have hopening : d.opening ≠ b.opening := fun heq =>
          hd (Option.some.inj (by rw [← ofOpening?_opening, heq, ofOpening?_opening]))
        have hclosing : d.closing ≠ b.closing := fun heq =>
          hd (Option.some.inj (by rw [← ofClosing?_closing, heq, ofClosing?_closing]))
        exact (ihinner.append (iht.cons (opening_ne_closing b d).symm hclosing)).cons hopening
          (opening_ne_closing d b)

theorem Nested.of_plain {t : Text}
    (h : t.all (fun x => (ofOpening? x).isNone && (ofClosing? x).isNone) = true) : Nested t := by
  induction t with
  | nil => exact .nil
  | cons x t ih =>
      rw [List.all_cons, Bool.and_eq_true, Bool.and_eq_true] at h
      exact .plain (Option.isNone_iff_eq_none.1 h.1.1) (Option.isNone_iff_eq_none.1 h.1.2) (ih h.2)

theorem Nested.append {t s : Text} (ht : Nested t) (hs : Nested s) : Nested (t ++ s) := by
  induction ht with
  | nil => exact hs
  | plain hopening hclosing _ ih => exact .plain hopening hclosing ih
  | group b hinner _ _ ih => simpa using Nested.group b hinner ih

theorem Nested.enclosed {t : Text} (b : Bracket) (ht : Nested t) :
    Nested (b.opening :: (t ++ [b.closing])) :=
  .group b ht .nil

end Bracket

end PlanGraph
