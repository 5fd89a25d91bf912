import Mathlib.Order.Bounds.Image
import PlanGraph.Proofs.Nesting

set_option autoImplicit false

/-! # The end of a bracket

Where a bracket ends, said without the search for it. A round, square or curly bracket ends at the
first character through which as many of its kind are closed as are opened (`BalancedAt`). A
proposition may compare, so it ends at the last `>` outside other brackets (`ClosesAt`) that stands
before each tag which follows such a `>` (`StopsAt`, `EndsAt`). The search answers with the byte
offset of that place, and with nothing only where there is none (`matchingOffset?_exact`).

Places are counted in characters. What a place is depends on the characters in front of it only, so
both searches are followed one character at a time (`endsAt_cons_succ`). -/

namespace PlanGraph

namespace Text

/-- The byte offset of a place in a text that starts at byte offset `start`. -/
def offset (start : Nat) (t : Text) (n : Nat) : Nat := start + byteSize (t.take n)

theorem monotone_offset (start : Nat) (t : Text) : Monotone (offset start t) := by
  intro m n hmn
  obtain ⟨more, hmore⟩ := (List.take_prefix_take_left hmn : t.take m <+: t.take n)
  rw [offset, offset, ← hmore, byteSize_append]
  omega

end Text

namespace Bracket

open Text (offset)

/-! ## Counted pairs -/

/-- Through the character at place `n`, a text closes as many brackets of a kind as it opens. -/
def BalancedAt (b : Bracket) (t : Text) (n : Nat) : Prop :=
  n < t.length ∧ (t.take (n + 1)).count b.closing = (t.take (n + 1)).count b.opening

theorem count_le_of_splitPair_eq_none {o c : Char} (hne : c ≠ o) {depth : Nat} {t : Text}
    (h : splitPair o c depth t = none) : ∀ u, u <+: t → u.count c ≤ depth + u.count o := by
  induction t generalizing depth with
  | nil => simp
  | cons x rest ih =>
      refine forall_isPrefix_cons.2 ⟨by simp, fun v hv => ?_⟩
      rw [splitPair] at h
      split at h
      · next hx =>
          have hrest := ih (Option.map_eq_none_iff.1 h) v hv
          rw [hx, List.count_cons_of_ne hne.symm, List.count_cons_self]
          omega
      · next hxo =>
          split at h
          · next hx =>
              split at h
              · exact absurd h (by simp)
              · next hdepth =>
                  have hrest := ih (Option.map_eq_none_iff.1 h) v hv
                  rw [hx, List.count_cons_of_ne hne, List.count_cons_self]
                  omega
          · next hxc =>
              rw [List.count_cons_of_ne hxo, List.count_cons_of_ne hxc]
              exact ih (Option.map_eq_none_iff.1 h) v hv

/-- A counted bracket ends at its first balanced place. -/
theorem isLeast_of_splitPair {b : Bracket} {rest inner left : Text}
    (h : splitPair b.opening b.closing 0 rest = some (inner, left)) :
    IsLeast {n | BalancedAt b (b.opening :: rest) n} (inner.length + 1) := by
  have hne := (opening_ne_closing b b).symm
  obtain ⟨rfl, hfront, hwhole⟩ := (splitPair_eq_some_iff hne).1 h
  constructor
  · have htake : (inner ++ b.closing :: left).take (inner.length + 1) = inner ++ [b.closing] := by
      simp [List.take_append]
    refine ⟨by simp, ?_⟩
    rw [List.take_succ_cons, htake]
    simp [hne, hne.symm, hwhole]
  · rintro n ⟨-, hbalanced⟩
    by_contra hlt
    rw [List.take_succ_cons, List.take_append_of_le_length (by omega),
      List.count_cons_of_ne hne.symm, List.count_cons_self] at hbalanced
    have hle := hfront _ (List.take_prefix n inner)
    omega

theorem not_balancedAt_of_splitPair {b : Bracket} {rest : Text}
    (h : splitPair b.opening b.closing 0 rest = none) (n : Nat) :
    ¬ BalancedAt b (b.opening :: rest) n := by
  have hne := (opening_ne_closing b b).symm
  rintro ⟨-, hbalanced⟩
  rw [List.take_succ_cons, List.count_cons_of_ne hne.symm, List.count_cons_self] at hbalanced
  have hle := count_le_of_splitPair_eq_none hne h _ (List.take_prefix n rest)
  omega

/-- Up to its first balanced place a bracket never closes more than it opens. -/
theorem count_closing_le {b : Bracket} {rest : Text} {n : Nat}
    (h : ∀ m < n, ¬ BalancedAt b (b.opening :: rest) m) :
    ((b.opening :: rest).take n).count b.closing ≤ ((b.opening :: rest).take n).count b.opening := by
  have hne := (opening_ne_closing b b).symm
  cases n with
  | zero => simp
  | succ n =>
      have hrest : (rest.take n).count b.closing ≤ 0 + (rest.take n).count b.opening := by
        cases hsplit : splitPair b.opening b.closing 0 rest with
        | none => exact count_le_of_splitPair_eq_none hne hsplit _ (List.take_prefix n rest)
        | some cut =>
            -- the bracket is not closed yet, so `n` lies in what it encloses
            obtain ⟨inner, left⟩ := cut
            have hend : n ≤ inner.length := by
              by_contra hlt
              exact h (inner.length + 1) (by omega) (isLeast_of_splitPair hsplit).1
            obtain ⟨rfl, hfront, -⟩ := (splitPair_eq_some_iff hne).1 hsplit
            rw [List.take_append_of_le_length hend]
            exact hfront _ (List.take_prefix n inner)
      rw [List.take_succ_cons, List.count_cons_of_ne hne.symm, List.count_cons_self]
      omega

/-! ## Propositions -/

/-- The depth behind a character. Angle brackets do not count, and a closing bracket does not if
    none is open. -/
def nesting (depth : Nat) (x : Char) : Nat :=
  if x = '(' ∨ x = '[' ∨ x = '{' then depth + 1
  else if x = ')' ∨ x = ']' ∨ x = '}' then depth - 1
  else depth

/-- A `>` outside other brackets, `depth` of which are open in front of the text. -/
def ClosesAt (depth : Nat) (t : Text) (n : Nat) : Prop :=
  (t.take n).foldl nesting depth = 0 ∧ t[n]? = some '>'

/-- A tag outside other brackets. -/
def TagAt (depth : Nat) (t : Text) (n : Nat) : Prop :=
  (t.take n).foldl nesting depth = 0 ∧ ∃ tag ∈ suffixTags, tag <+: t.drop n

/-- A tag that follows a proposition: a `>` stands before it, here or in front of the text, where
    one was `seen`. -/
def StopsAt (depth : Nat) (seen : Bool) (t : Text) (n : Nat) : Prop :=
  TagAt depth t n ∧ (seen = true ∨ ∃ m < n, ClosesAt depth t m)

/-- A place where a proposition may end: no tag that follows one stands before it. -/
def EndsAt (depth : Nat) (seen : Bool) (t : Text) (n : Nat) : Prop :=
  ClosesAt depth t n ∧ ∀ k, StopsAt depth seen t k → n < k

section Step

variable {depth : Nat} {seen : Bool} {x : Char} {t : Text}

theorem closesAt_cons_zero : ClosesAt depth (x :: t) 0 ↔ depth = 0 ∧ x = '>' := by
  simp [ClosesAt]

theorem closesAt_cons_succ {n : Nat} :
    ClosesAt depth (x :: t) (n + 1) ↔ ClosesAt (nesting depth x) t n := by
  simp [ClosesAt]

theorem tagAt_cons_succ {n : Nat} :
    TagAt depth (x :: t) (n + 1) ↔ TagAt (nesting depth x) t n := by
  simp [TagAt]

theorem stopsAt_cons_zero :
    StopsAt depth seen (x :: t) 0 ↔
      depth = 0 ∧ seen = true ∧ ∃ tag ∈ suffixTags, tag <+: x :: t := by
  simp [StopsAt, TagAt]
  tauto

theorem stopsAt_cons_succ {n : Nat} :
    StopsAt depth seen (x :: t) (n + 1) ↔
      StopsAt (nesting depth x) (seen || decide (depth = 0 ∧ x = '>')) t n := by
  have hseen : (∃ m < n + 1, ClosesAt depth (x :: t) m) ↔
      (depth = 0 ∧ x = '>') ∨ ∃ m < n, ClosesAt (nesting depth x) t m := by
    rw [Nat.exists_lt_succ_left, closesAt_cons_zero]
    simp only [closesAt_cons_succ]
  rw [StopsAt, tagAt_cons_succ, hseen, StopsAt, Bool.or_eq_true, decide_eq_true_eq, or_assoc]

theorem head_of_tag {tag : Text} (htag : tag ∈ suffixTags) (h : tag <+: x :: t) : x = '<' := by
  have hheads : suffixTags.all (fun tag => tag.head? == some '<') = true := rfl
  have hhead : tag.head? = some '<' := by simpa using List.all_eq_true.1 hheads tag htag
  obtain ⟨more, hmore⟩ := h
  cases tag with
  | nil => cases hhead
  | cons y tag =>
      obtain rfl : y = '<' := Option.some.inj hhead
      exact (List.cons.inj hmore).1.symm

theorem endsAt_cons_zero : EndsAt depth seen (x :: t) 0 ↔ depth = 0 ∧ x = '>' := by
  rw [EndsAt, closesAt_cons_zero]
  refine ⟨And.left, fun h => ⟨h, fun k hk => Nat.pos_of_ne_zero ?_⟩⟩
  rintro rfl
  obtain ⟨-, -, tag, htag, hprefix⟩ := stopsAt_cons_zero.1 hk
  rw [h.2] at hprefix
  exact absurd (head_of_tag htag hprefix) (by decide)

theorem endsAt_cons_succ {n : Nat} :
    EndsAt depth seen (x :: t) (n + 1) ↔
      ¬ StopsAt depth seen (x :: t) 0 ∧
        EndsAt (nesting depth x) (seen || decide (depth = 0 ∧ x = '>')) t n := by
  rw [EndsAt, closesAt_cons_succ, EndsAt]
  constructor
  · rintro ⟨hcloses, hstops⟩
    refine ⟨fun hzero => absurd (hstops 0 hzero) (by omega), hcloses, fun k hk => ?_⟩
    exact Nat.lt_of_succ_lt_succ (hstops (k + 1) (stopsAt_cons_succ.2 hk))
  · rintro ⟨hzero, hcloses, hstops⟩
    refine ⟨hcloses, fun k hk => ?_⟩
    cases k with
    | zero => exact absurd hk hzero
    | succ k => exact Nat.succ_lt_succ (hstops k (stopsAt_cons_succ.1 hk))

theorem splitProposition_of_stopsAt (h : StopsAt depth seen (x :: t) 0) :
    splitProposition depth seen (x :: t) = none := by
  obtain ⟨hdepth, hseen, tag, htag, hprefix⟩ := stopsAt_cons_zero.1 h
  have hx := head_of_tag htag hprefix
  have hany : suffixTags.any (Text.startsWith (x :: t)) = true :=
    List.any_eq_true.2 ⟨tag, htag, List.isPrefixOf_iff_prefix.2 hprefix⟩
  rw [splitProposition, if_neg (by simp [hx]), if_neg (by simp [hx]), if_neg (by simp [hx]),
    if_pos ⟨hx, hdepth, hseen, hany⟩]

/-- One step of the search: it goes on behind the character, and comes back to a `>` only if nothing
    is found there. -/
theorem splitProposition_of_not_stopsAt (h : ¬ StopsAt depth seen (x :: t) 0) :
    splitProposition depth seen (x :: t) =
      ((splitProposition (nesting depth x) (seen || decide (depth = 0 ∧ x = '>')) t).map
        fun (inner, left) => (x :: inner, left)).or
      (if depth = 0 ∧ x = '>' then some ([], t) else none) := by
  by_cases hclose : depth = 0 ∧ x = '>'
  · have hdepth : nesting depth x = depth := by rw [hclose.2]; rfl
    rw [splitProposition, if_neg (by simp [hclose.2]), if_neg (by simp [hclose.2]),
      if_pos hclose.symm, hdepth, if_pos hclose, decide_eq_true hclose, Bool.or_true]
    cases splitProposition depth true t <;> rfl
  · rw [if_neg hclose, decide_eq_false hclose, Bool.or_false, Option.or_none, splitProposition,
      nesting]
    split
    · rfl
    · split
      · rfl
      · have htag : ¬ (x = '<' ∧ depth = 0 ∧ seen = true ∧
            suffixTags.any (Text.startsWith (x :: t)) = true) := by
          rintro ⟨-, hdepth, hseen, hany⟩
          obtain ⟨tag, htag, hprefix⟩ := List.any_eq_true.1 hany
          exact h (stopsAt_cons_zero.2
            ⟨hdepth, hseen, tag, htag, List.isPrefixOf_iff_prefix.1 hprefix⟩)
        rw [if_neg fun hx => hclose hx.symm, if_neg htag]

end Step

/-- A proposition ends at the last place where it may. -/
theorem splitProposition_exact (depth : Nat) (seen : Bool) (t : Text) :
    (∀ inner left, splitProposition depth seen t = some (inner, left) →
      IsGreatest {n | EndsAt depth seen t n} inner.length) ∧
    (splitProposition depth seen t = none → ∀ n, ¬ EndsAt depth seen t n) := by
  induction t generalizing depth seen with
  | nil => simp [splitProposition, EndsAt, ClosesAt]
  | cons x t ih =>
      by_cases hstop : StopsAt depth seen (x :: t) 0
      · rw [splitProposition_of_stopsAt hstop]
        refine ⟨by simp, fun _ n hn => ?_⟩
        have := hn.2 0 hstop
        omega
      · rw [splitProposition_of_not_stopsAt hstop]
        obtain ⟨hsome, hnone⟩ :=
          ih (nesting depth x) (seen || decide (depth = 0 ∧ x = '>'))
        cases hcut : splitProposition (nesting depth x) (seen || decide (depth = 0 ∧ x = '>')) t with
        | some cut =>
            -- a later place prevails over this one, whatever stands here
            obtain ⟨inner, left⟩ := cut
            obtain ⟨hends, hlast⟩ := hsome inner left hcut
            refine ⟨?_, by simp⟩
            rintro _ _ ⟨⟩
            refine ⟨endsAt_cons_succ.2 ⟨hstop, hends⟩, ?_⟩
            rintro (_ | n) hn
            · exact Nat.zero_le _
            · exact Nat.succ_le_succ (hlast (endsAt_cons_succ.1 hn).2)
        | none =>
            have hlater : ∀ n, ¬ EndsAt depth seen (x :: t) (n + 1) :=
              fun n hn => hnone hcut n (endsAt_cons_succ.1 hn).2
            rw [Option.map_none, Option.none_or]
            constructor
            · intro inner left hhere
              split at hhere
              · next hclose =>
                  cases hhere
                  refine ⟨endsAt_cons_zero.2 hclose, ?_⟩
                  rintro (_ | n) hn
                  · exact Nat.le_refl _
                  · exact absurd hn (hlater n)
              · cases hhere
            · intro hhere n hn
              cases n with
              | zero => simp [endsAt_cons_zero.1 hn] at hhere
              | succ n => exact hlater n hn

/-! ## The answer of the search -/

theorem utf8Size_opening (b : Bracket) : b.opening.utf8Size = 1 := by cases b <;> rfl

theorem matchingOffset?_eq {t rest : Text} {start : Nat} {b : Bracket}
    (h : t.fromByte? start = some (b.opening :: rest)) :
    matchingOffset? t start = (b.close? rest).map fun cut => start + 1 + cut.1.byteSize := by
  rw [matchingOffset?, h, Option.bind_eq_bind, Option.bind_some, enclosed?_opening_cons]
  cases b.close? rest <;> rfl

/-- An answer that has a property which only one number can have, and which is missing only if there
    is none to give, is the number with that property. -/
theorem answer_iff {answer : Option Nat} {p q : Nat → Prop} (hsome : ∀ e, answer = some e → p e)
    (hnone : answer = none → ∀ n, ¬ q n) (hunique : ∀ d e, p d → p e → d = e)
    (hexists : ∀ e, p e → ∃ n, q n) :
    (∀ e, answer = some e ↔ p e) ∧ (answer = none ↔ ∀ n, ¬ q n) := by
  cases answer with
  | none =>
      have hnot := hnone rfl
      refine ⟨fun e => ⟨hsome e, fun he => ?_⟩, ⟨hnone, fun _ => rfl⟩⟩
      obtain ⟨n, hn⟩ := hexists e he
      exact absurd hn (hnot n)
  | some d =>
      have hd := hsome d rfl
      refine ⟨fun e => ⟨hsome e, fun he => congrArg some (hunique d e hd he)⟩, ⟨hnone, fun h => ?_⟩⟩
      obtain ⟨n, hn⟩ := hexists d hd
      exact absurd hn (h n)

/-- A counted bracket is closed at its first balanced place. -/
theorem matchingOffset?_pair {t rest : Text} {start : Nat} {b : Bracket} (hb : b ≠ .angle)
    (h : t.fromByte? start = some (b.opening :: rest)) :
    (∀ e, matchingOffset? t start = some e ↔
      IsLeast (offset start (b.opening :: rest) '' {n | BalancedAt b (b.opening :: rest) n}) e) ∧
    (matchingOffset? t start = none ↔ ∀ n, ¬ BalancedAt b (b.opening :: rest) n) := by
  rw [matchingOffset?_eq h, close?_of_ne_angle hb]
  refine answer_iff ?_ ?_ (fun d e hd he => hd.unique he) ?_
  · intro e he
    obtain ⟨⟨inner, left⟩, hsplit, rfl⟩ := Option.map_eq_some_iff.1 he
    have hplace : offset start (b.opening :: rest) (inner.length + 1) =
        start + 1 + inner.byteSize := by
      rw [offset, List.take_succ_cons, splitPair_append hsplit, List.take_left,
        Text.byteSize_cons, utf8Size_opening]
      omega
    rw [← hplace]
    exact (Text.monotone_offset _ _).map_isLeast (isLeast_of_splitPair hsplit)
  · exact fun hnone => not_balancedAt_of_splitPair (Option.map_eq_none_iff.1 hnone)
  · rintro e ⟨⟨n, hn, -⟩, -⟩
    exact ⟨n, hn⟩

/-- A proposition is closed at the last place where it may end. -/
theorem matchingOffset?_proposition {t rest : Text} {start : Nat}
    (h : t.fromByte? start = some ('<' :: rest)) :
    (∀ e, matchingOffset? t start = some e ↔
      IsGreatest (offset (start + 1) rest '' {n | EndsAt 0 false rest n}) e) ∧
    (matchingOffset? t start = none ↔ ∀ n, ¬ EndsAt 0 false rest n) := by
  have heq : matchingOffset? t start =
      (splitProposition 0 false rest).map fun cut => start + 1 + cut.1.byteSize :=
    matchingOffset?_eq (b := .angle) h
  obtain ⟨hsome, hnone⟩ := splitProposition_exact 0 false rest
  rw [heq]
  refine answer_iff ?_ ?_ (fun d e hd he => hd.unique he) ?_
  · intro e he
    obtain ⟨⟨inner, left⟩, hsplit, rfl⟩ := Option.map_eq_some_iff.1 he
    have hplace : offset (start + 1) rest inner.length = start + 1 + inner.byteSize := by
      rw [offset, splitProposition_append hsplit, List.take_left]
    rw [← hplace]
    exact (Text.monotone_offset _ _).map_isGreatest (hsome inner left hsplit)
  · exact fun h => hnone (Option.map_eq_none_iff.1 h)
  · rintro e ⟨⟨n, hn, -⟩, -⟩
    exact ⟨n, hn⟩

/-- The bracket that closes another one. For a round, square or curly bracket it is the first
    character through which as many of this kind are closed as are opened; up to there no more are
    closed. For an angle bracket it is the last `>` outside other brackets that no tag which follows
    such a `>` stands before. There is no answer only if there is no such character. -/
theorem matchingOffset?_exact {t rest : Text} {start : Nat} {b : Bracket}
    (h : t.fromByte? start = some (b.opening :: rest)) :
    (b ≠ .angle →
      (∀ e, matchingOffset? t start = some e ↔
        IsLeast (offset start (b.opening :: rest) '' {n | BalancedAt b (b.opening :: rest) n}) e) ∧
      (matchingOffset? t start = none ↔ ∀ n, ¬ BalancedAt b (b.opening :: rest) n) ∧
      ∀ n, (∀ m < n, ¬ BalancedAt b (b.opening :: rest) m) →
        ((b.opening :: rest).take n).count b.closing ≤
          ((b.opening :: rest).take n).count b.opening) ∧
    (b = .angle →
      (∀ e, matchingOffset? t start = some e ↔
        IsGreatest (offset (start + 1) rest '' {n | EndsAt 0 false rest n}) e) ∧
      (matchingOffset? t start = none ↔ ∀ n, ¬ EndsAt 0 false rest n)) := by
  constructor
  · intro hb
    obtain ⟨hsome, hnone⟩ := matchingOffset?_pair hb h
    exact ⟨hsome, hnone, fun n hn => count_closing_le hn⟩
  · rintro rfl
    exact matchingOffset?_proposition h

/-- A name that opens a bracket of another kind, and a comparison with a binding behind it. -/
def tangledText : Text := "é {sum of {a} and (b} <x < (>) > 5 <:{1}> 6>"

theorem matchingOffset?_tangledText :
    (tangledText.fromByte? 3 = some (opening .curly :: tangledText.drop 3) ∧
      IsLeast (offset 3 (opening .curly :: tangledText.drop 3) ''
        {n | BalancedAt .curly (opening .curly :: tangledText.drop 3) n}) 21) ∧
    (tangledText.fromByte? 19 = some (opening .round :: tangledText.drop 19) ∧
      ∀ n, ¬ BalancedAt .round (opening .round :: tangledText.drop 19) n) ∧
    (tangledText.fromByte? 23 = some (opening .angle :: tangledText.drop 23) ∧
      IsGreatest (offset 24 (tangledText.drop 23) ''
        {n | EndsAt 0 false (tangledText.drop 23) n}) 32) := by
  have hcurly : tangledText.fromByte? 3 = some (opening .curly :: tangledText.drop 3) := by decide
  have hround : tangledText.fromByte? 19 = some (opening .round :: tangledText.drop 19) := by decide
  have hangle : tangledText.fromByte? 23 = some (opening .angle :: tangledText.drop 23) := by decide
  refine ⟨⟨hcurly, ?_⟩, ⟨hround, ?_⟩, hangle, ?_⟩
  · exact (((matchingOffset?_exact hcurly).1 (by decide)).1 21).1 (by decide)
  · exact ((matchingOffset?_exact hround).1 (by decide)).2.1.1 (by decide)
  · exact (((matchingOffset?_exact hangle).2 rfl).1 32).1 (by decide)

end Bracket

end PlanGraph
