import PlanGraph.Interpretation.Operation
import PlanGraph.Proofs.Bracket
import PlanGraph.Proofs.Line.Physical

set_option autoImplicit false

/-! # The condition of a judgement

A judgement is known by a combinator behind its round bracket, whatever follows, and its condition
is read from a combinator at the end of the text, unless the words `ALL True` stand anywhere in it.
So what the combinator encloses is the condition of a judgement that ends in it and holds those
words nowhere else (`ofText?_judgement`). -/

namespace PlanGraph

namespace Text

/-- A literal without the character `x` stands on one side of each `x`. -/
theorem contains_append_cons {x : Char} {p : Text} (w rest : Text) (hx : x ∉ p) :
    contains (w ++ x :: rest) p = (contains w p || contains rest p) := by
  induction w with
  | nil =>
      have hstart : startsWith (x :: rest) p = startsWith [] p :=
        Bracket.startsWith_append_cons [] rest hx
      show (startsWith (x :: rest) p || contains rest p) =
        (startsWith [] p || false || contains rest p)
      rw [hstart, Bool.or_false]
  | cons d w ih =>
      have hstart := Bracket.startsWith_append_cons (d :: w) rest hx
      rw [List.cons_append] at hstart ⊢
      rw [contains, hstart, ih, contains, Bool.or_assoc]

theorem contains_nil {p : Text} (h : p ≠ []) : contains [] p = false := by
  cases p with
  | nil => exact absurd rfl h
  | cons c p => rfl

/-- A literal stands on one side of a text that has no character of it. -/
theorem contains_between {p w : Text} (a b : Text) (hw : w.all (· ∉ p) = true)
    (hne : w ≠ []) (hp : p ≠ []) : contains (a ++ w ++ b) p = (contains a p || contains b p) := by
  induction w generalizing a with
  | nil => exact absurd rfl hne
  | cons x w ih =>
      rw [List.all_cons, Bool.and_eq_true] at hw
      have hx : x ∉ p := by simpa using hw.1
      have hrest : contains (w ++ b) p = contains b p := by
        cases w with
        | nil => rfl
        | cons y w =>
            have hbetween := ih [] hw.2 (List.cons_ne_nil _ _)
            rwa [List.nil_append, contains_nil hp, Bool.false_or] at hbetween
      rw [List.append_assoc, List.cons_append, contains_append_cons a _ hx, hrest]

theorem exists_trimEnd_append (t : Text) : ∃ gap, AllBlank gap ∧ t = trimEnd t ++ gap :=
  ⟨t.rtakeWhile isBlank, fun _ hc => List.mem_rtakeWhile_imp hc,
    List.rdropWhile_append_rtakeWhile.symm⟩

end Text

/-! ## Combinators -/

/-- The two spellings of a combinator. -/
inductive Spelling where
  | current
  | older
deriving DecidableEq, Repr, Inhabited

namespace Spelling

/-- What opens a combinator. -/
def opening : Spelling → Text
  | current => ['<', '{']
  | older => ['{', '<']

/-- What closes a combinator. -/
def closing : Spelling → Text
  | current => ['}', '>']
  | older => ['>', '}']

/-- A text in words with a combinator behind it. -/
def judgement (s : Spelling) (body condition : Text) : Text :=
  "::(".toList ++ body ++ ')' :: (s.opening ++ condition ++ s.closing)

theorem tight_closing (s : Spelling) : Text.Tight s.closing ∧ s.closing ≠ [] := by
  cases s <;> decide

theorem trimEnd_append_closing (s : Spelling) (t : Text) {gap : Text} (hgap : Text.AllBlank gap) :
    Text.trimEnd (t ++ s.closing ++ gap) = t ++ s.closing :=
  Text.trimEnd_between s.tight_closing.2 s.tight_closing.1 hgap

theorem trimEnd_closing (s : Spelling) (t : Text) :
    Text.trimEnd (t ++ s.closing) = t ++ s.closing := by
  simpa using s.trimEnd_append_closing t Text.AllBlank.nil

theorem judgement_eq (s : Spelling) (body condition : Text) :
    s.judgement body condition =
      ("::(".toList ++ body ++ ')' :: (s.opening ++ condition)) ++ s.closing := by
  simp [judgement]

end Spelling

namespace AssertedCondition

/-- What the combinator of one spelling at the end of a text encloses. -/
def combinatorBody? (s : Spelling) (t : Text) : Option Text :=
  (t.trimEnd.before? s.closing).bind (bodyFrom? s.opening)

theorem combinator?_eq (t : Text) :
    combinator? t = (combinatorBody? .current t).or (combinatorBody? .older t) :=
  Option.orElse_eq_or

theorem oneLine_iff {body : Text} : (!body.any (· == '\n')) = true ↔ '\n' ∉ body := by
  simp only [Bool.not_eq_true', List.any_eq_false, beq_iff_eq]
  exact ⟨fun h hmem => h _ hmem rfl, fun h c hc heq => h (heq ▸ hc)⟩

theorem isSome_bodyFrom?_iff {opening t : Text} :
    (bodyFrom? opening t).isSome = true ↔
      ∃ front body, t = front ++ opening ++ body ∧ '\n' ∉ body := by
  rw [bodyFrom?, Text.isSome_firstMatch_iff]
  constructor
  · rintro ⟨place, ⟨front, rfl⟩, hplace⟩
    obtain ⟨body, hbody⟩ := Option.isSome_iff_exists.1 hplace
    obtain ⟨hafter, hline⟩ := Option.filter_eq_some_iff.1 hbody
    refine ⟨front, body, ?_, oneLine_iff.1 hline⟩
    rw [Text.after?_eq_some_iff.1 hafter, List.append_assoc]
  · rintro ⟨front, body, rfl, hline⟩
    refine ⟨opening ++ body, ⟨front, (List.append_assoc _ _ _).symm⟩, ?_⟩
    refine Option.isSome_iff_exists.2 ⟨body, Option.filter_eq_some_iff.2 ?_⟩
    exact ⟨Text.after?_eq_some_iff.2 rfl, oneLine_iff.2 hline⟩

/-- A text that a combinator ends. -/
def EndsInCombinator (t : Text) : Prop :=
  ∃ (s : Spelling) (front body gap : Text),
    t = front ++ s.opening ++ body ++ s.closing ++ gap ∧ '\n' ∉ body ∧ Text.AllBlank gap

theorem isSome_combinatorBody?_iff {s : Spelling} {t : Text} :
    (combinatorBody? s t).isSome = true ↔ ∃ front body gap,
      t = front ++ s.opening ++ body ++ s.closing ++ gap ∧ '\n' ∉ body ∧ Text.AllBlank gap := by
  constructor
  · intro h
    obtain ⟨body, hbody⟩ := Option.isSome_iff_exists.1 h
    obtain ⟨inner, hinner, hbody⟩ := Option.bind_eq_some_iff.1 hbody
    have hsome : (bodyFrom? s.opening inner).isSome = true :=
      Option.isSome_iff_exists.2 ⟨body, hbody⟩
    obtain ⟨front, body, rfl, hline⟩ := isSome_bodyFrom?_iff.1 hsome
    obtain ⟨gap, hgap, ht⟩ := Text.exists_trimEnd_append t
    rw [Text.before?_eq_some_iff.1 hinner] at ht
    exact ⟨front, body, gap, ht, hline, hgap⟩
  · rintro ⟨front, body, gap, rfl, hline, hgap⟩
    rw [combinatorBody?, s.trimEnd_append_closing _ hgap, Text.before?_eq_some_iff.2 rfl,
      Option.bind_some, isSome_bodyFrom?_iff]
    exact ⟨front, body, rfl, hline⟩

/-- Exactly these texts have a condition, judgements or not. -/
theorem isSome_ofText?_iff (t : Text) :
    (ofText? t).isSome = true ↔ t.contains "ALL True" = true ∨ EndsInCombinator t := by
  have hcombinator : (combinator? t).isSome = true ↔ EndsInCombinator t := by
    rw [combinator?_eq, Option.isSome_or, Bool.or_eq_true, isSome_combinatorBody?_iff,
      isSome_combinatorBody?_iff]
    constructor
    · rintro (h | h)
      · exact ⟨.current, h⟩
      · exact ⟨.older, h⟩
    · rintro ⟨s, h⟩
      cases s with
      | current => exact Or.inl h
      | older => exact Or.inr h
  rw [ofText?]
  split
  · next h => exact iff_of_true rfl (Or.inl h)
  · next h => rw [Option.isSome_map, hcombinator, or_iff_right h]

/-! ## Judgements that end in their combinator -/

/-- The opening of a combinator is not found in front of a bracket that it does not reach beyond. -/
theorem bodyFrom?_append_cons {opening w : Text} {x : Char} (rest : Text) (hx : x ∉ opening)
    (hw : w.contains opening = false) :
    bodyFrom? opening (w ++ x :: rest) = bodyFrom? opening rest := by
  have hhere : Text.after? (w ++ x :: rest) opening = none := by
    rw [Text.after?_append_cons _ _ hx, Text.after?_eq_none_of_contains hw, Option.map_none]
  induction w with
  | nil =>
      rw [List.nil_append] at hhere ⊢
      rw [bodyFrom?, Text.firstMatch, hhere]
      rfl
  | cons d w ih =>
      rw [Text.contains, Bool.or_eq_false_iff] at hw
      rw [List.cons_append] at hhere ⊢
      rw [bodyFrom?, Text.firstMatch, hhere]
      refine ih hw.2 ?_
      rw [Text.after?_append_cons _ _ hx, Text.after?_eq_none_of_contains hw.2, Option.map_none]

theorem bodyFrom?_opening {opening body : Text} (hne : opening ≠ []) (hbody : '\n' ∉ body) :
    bodyFrom? opening (opening ++ body) = some body := by
  have hhere : ((opening ++ body).after? opening).filter (fun body => !body.any (· == '\n')) =
      some body :=
    Option.filter_eq_some_iff.2 ⟨Text.after?_eq_some_iff.2 rfl, oneLine_iff.2 hbody⟩
  cases hopening : opening with
  | nil => exact absurd hopening hne
  | cons d more =>
      rw [hopening] at hhere
      rw [List.cons_append] at hhere ⊢
      rw [bodyFrom?, Text.firstMatch, hhere]
      rfl

theorem combinatorBody?_judgement {s : Spelling} {body condition : Text}
    (hbody : body.contains s.opening = false) (hcondition : '\n' ∉ condition) :
    combinatorBody? s (s.judgement body condition) = some condition := by
  have hne : s.opening ≠ [] := by cases s <;> decide
  have hbracket : ')' ∉ s.opening := by cases s <;> decide
  have hfront : Text.contains ("::(".toList ++ body) s.opening = false := by
    have hbetween := Text.contains_between [] body (p := s.opening) (w := "::(".toList)
      (by cases s <;> decide) (by decide) hne
    rwa [List.nil_append, Text.contains_nil hne, hbody] at hbetween
  rw [combinatorBody?, s.judgement_eq, s.trimEnd_closing, Text.before?_eq_some_iff.2 rfl,
    Option.bind_some, bodyFrom?_append_cons _ hbracket hfront]
  exact bodyFrom?_opening hne hcondition

/-- A text that ends in one spelling does not end in the other. -/
theorem combinatorBody?_of_ne {s s' : Spelling} (h : s ≠ s') (t : Text) :
    combinatorBody? s (t ++ s'.closing) = none := by
  have hnone : Text.before? (t ++ s'.closing) s.closing = none := by
    rw [Option.eq_none_iff_forall_ne_some]
    intro front hfront
    have hclosing := List.append_inj_right' (Text.before?_eq_some_iff.1 hfront)
      (by cases s <;> cases s' <;> rfl)
    cases s <;> cases s' <;> first | exact h rfl | exact absurd hclosing (by decide)
  rw [combinatorBody?, s'.trimEnd_closing, hnone, Option.bind_none]

theorem combinator?_judgement {s : Spelling} {body condition : Text}
    (hbody : body.contains s.opening = false) (hcondition : '\n' ∉ condition) :
    combinator? (s.judgement body condition) = some condition := by
  rw [combinator?_eq]
  cases s with
  | current => rw [combinatorBody?_judgement hbody hcondition, Option.some_or]
  | older =>
      have hother : combinatorBody? .current (Spelling.older.judgement body condition) = none := by
        rw [Spelling.judgement_eq]
        exact combinatorBody?_of_ne (by decide) _
      rw [hother, Option.none_or, combinatorBody?_judgement hbody hcondition]

/-- The words of a quantifier stand in the body or in the condition. -/
theorem contains_judgement (s : Spelling) (body condition : Text) :
    (s.judgement body condition).contains "ALL True" =
      (body.contains "ALL True" || condition.contains "ALL True") := by
  have hne : ("ALL True" : Text) ≠ [] := by decide
  have hparts : s.judgement body condition =
      [] ++ "::(".toList ++ (body ++ (')' :: s.opening) ++ (condition ++ s.closing ++ [])) := by
    simp [Spelling.judgement]
  rw [hparts, Text.contains_between _ _ (by decide) (by decide) hne,
    Text.contains_between _ _ (by cases s <;> decide) (List.cons_ne_nil _ _) hne,
    Text.contains_between _ _ (by cases s <;> decide) s.tight_closing.2 hne,
    Text.contains_nil hne, Bool.false_or, Bool.or_false]

theorem ofText?_of_judgement {s : Spelling} {body condition : Text}
    (hbody : body.contains s.opening = false) (hcondition : '\n' ∉ condition) :
    ofText? (s.judgement body condition) =
      if body.contains "ALL True" || condition.contains "ALL True" then some ⟨some "all", "True"⟩
      else some ⟨none, condition.trim⟩ := by
  rw [ofText?, contains_judgement, combinator?_judgement hbody hcondition, Option.map_some]

end AssertedCondition

namespace Classification

/-! ## Judgements with anything behind them -/

theorem closesBefore_append {holds : Text → Bool} {body rest : Text} (hbody : '\n' ∉ body)
    (hrest : holds rest = true) : closesBefore holds (body ++ ')' :: rest) = true := by
  induction body with
  | nil => simp [closesBefore, hrest]
  | cons c body ih =>
      simp only [List.mem_cons, not_or] at hbody
      have hc : (c != '\n') = true := by simpa using Ne.symm hbody.1
      rw [List.cons_append, closesBefore, hc, ih hbody.2, Bool.or_true, Bool.and_true]

theorem opensCombinator_append (s : Spelling) {condition : Text} (rest : Text)
    (h : '\n' ∉ condition) :
    opensCombinator (s.opening ++ condition ++ s.closing ++ rest) = true := by
  have hstart : Text.trimStart (s.opening ++ condition ++ s.closing ++ rest) =
      s.opening ++ (condition ++ s.closing ++ rest) := by
    rw [Text.trimStart_of_head]
    · simp
    · cases s <;> exact fun c hc => by obtain rfl := Option.some.inj hc; decide
  have hline : Text.contains ((condition ++ s.closing ++ rest).takeWhile (· != '\n')) s.closing =
      true := by
    have hall : ∀ c ∈ condition ++ s.closing, (c != '\n') = true := by
      intro c hc
      rw [bne_iff_ne]
      rintro rfl
      rcases List.mem_append.1 hc with hc | hc
      · exact h hc
      · exact absurd hc (by cases s <;> decide)
    rw [List.takeWhile_append_of_pos hall, Text.contains_iff]
    exact ⟨condition, _, rfl⟩
  have hafter : Text.after? (s.opening ++ (condition ++ s.closing ++ rest)) s.opening =
      some (condition ++ s.closing ++ rest) := Text.after?_eq_some_iff.2 rfl
  simp only [opensCombinator, hstart, Bool.or_eq_true]
  cases s with
  | current =>
      left
      rw [show Text.after? _ ['<', '{'] = _ from hafter]
      exact hline
  | older =>
      right
      rw [show Text.after? _ ['{', '<'] = _ from hafter]
      exact hline

/-- A judgement is known whatever stands behind its combinator. -/
theorem isJudgement_append (s : Spelling) {body condition : Text} (rest : Text)
    (hbody : '\n' ∉ body) (hcondition : '\n' ∉ condition) :
    isJudgement (s.judgement body condition ++ rest) = true := by
  have hafter : Text.after? (s.judgement body condition ++ rest) "::(" =
      some (body ++ ')' :: (s.opening ++ condition ++ s.closing ++ rest)) :=
    Text.after?_eq_some_iff.2 (by simp [Spelling.judgement])
  rw [isJudgement, hafter]
  exact closesBefore_append hbody (opensCombinator_append s rest hcondition)

end Classification

namespace AssertedCondition

/-! ## The condition of a judgement -/

/-- The condition that a combinator spells. -/
def ofCombinator (condition : Text) : AssertedCondition :=
  if condition.trim = "ALL True" then ⟨some "all", "True"⟩ else ⟨none, condition.trim⟩

theorem contains_of_trim_eq {t p : Text} (h : t.trim = p) : t.contains p = true := by
  obtain ⟨a, b, -, -, ht⟩ := Text.exists_margins t
  rw [Text.contains_iff]
  exact ⟨a, b, by rw [← h, ← ht]⟩

/-- A judgement that ends in its combinator has the condition that the combinator spells exactly if
    the words `ALL True` are all that it encloses or stand nowhere; else they decide, wherever they
    stand. It is a judgement whatever follows, whereas a text has a condition only if it holds these
    words or ends in a combinator. -/
theorem ofText?_judgement (s : Spelling) {body condition : Text} (hbody : '\n' ∉ body)
    (hfree : body.contains s.opening = false) (hcondition : '\n' ∉ condition) :
    (ofText? (s.judgement body condition) = some (ofCombinator condition) ↔
      condition.trim = "ALL True" ∨
        (body.contains "ALL True" = false ∧ condition.contains "ALL True" = false)) ∧
    (body.contains "ALL True" = true ∨ condition.contains "ALL True" = true →
      ofText? (s.judgement body condition) = some ⟨some "all", "True"⟩) ∧
    (∀ rest, Classification.isJudgement (s.judgement body condition ++ rest) = true) ∧
    ∀ t, (ofText? t).isSome = true ↔ t.contains "ALL True" = true ∨ EndsInCombinator t := by
  have htext := ofText?_of_judgement hfree hcondition
  have hwords : body.contains "ALL True" = true ∨ condition.contains "ALL True" = true →
      ofText? (s.judgement body condition) = some ⟨some "all", "True"⟩ := by
    intro h
    rw [htext, if_pos (Bool.or_eq_true_iff.2 h)]
  refine ⟨?_, hwords, fun rest => Classification.isJudgement_append s rest hbody hcondition,
    isSome_ofText?_iff⟩
  by_cases hall : condition.trim = "ALL True"
  · rw [ofCombinator, if_pos hall]
    exact iff_of_true (hwords (Or.inr (contains_of_trim_eq hall))) (Or.inl hall)
  · rw [ofCombinator, if_neg hall, or_iff_right hall, ← Bool.or_eq_false_iff]
    constructor
    · intro h
      rw [← Bool.not_eq_true, Bool.or_eq_true]
      intro hsome
      rw [hwords hsome] at h
      cases h
    · intro h
      rw [htext, if_neg (by rw [h]; exact Bool.false_ne_true)]

theorem ofText?_judgement_spacedComparison :
    '\n' ∉ "the {rows} <hold>".toList ∧
    Text.contains "the {rows} <hold>" Spelling.older.opening = false ∧
    '\n' ∉ " count > 5 ".toList ∧
    ofText? (Spelling.older.judgement "the {rows} <hold>" " count > 5 ") =
      some ⟨none, "count > 5"⟩ := by
  have hfacts : '\n' ∉ "the {rows} <hold>".toList ∧
      Text.contains "the {rows} <hold>" Spelling.older.opening = false ∧
      '\n' ∉ " count > 5 ".toList ∧
      Text.contains "the {rows} <hold>" "ALL True" = false ∧
      Text.contains " count > 5 " "ALL True" = false ∧
      ofCombinator " count > 5 " = ⟨none, "count > 5"⟩ := by
    decide +kernel
  obtain ⟨hbody, hfree, hcondition, hwords, hwords', hcombinator⟩ := hfacts
  have hasserted := (ofText?_judgement .older hbody hfree hcondition).1.2 (Or.inr ⟨hwords, hwords'⟩)
  rw [hcombinator] at hasserted
  exact ⟨hbody, hfree, hcondition, hasserted⟩

/-- Words in the body decide the condition, and what stands behind the combinator hides it. -/
theorem ofText?_looseWords :
    (∀ t ∈ ["the log says ALL True".toList, "False".toList], '\n' ∉ t ∧
      ∀ s ∈ [Spelling.current, .older],
        Text.contains t s.opening = false ∧ Text.contains t s.closing = false) ∧
    ofText? (Spelling.current.judgement "the log says ALL True" "False") =
      some ⟨some "all", "True"⟩ ∧
    ofCombinator "False" = ⟨none, "False"⟩ ∧
    Classification.isJudgement "::(x)<{y}> later" = true ∧
    ofText? "::(x)<{y}> later" = none := by
  decide +kernel

end AssertedCondition

end PlanGraph
