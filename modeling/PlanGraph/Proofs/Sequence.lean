import PlanGraph.Proofs.Line.Concept
import PlanGraph.Sequence

set_option autoImplicit false

/-! # What tells the sequence of an operation

The sequence of an operation is looked for in its text, and the text was classified before by other
rules. Both find the same: the first character of an operator's symbol tells the sequence that it
runs (`Operator.sequence_eq_of_startsWith`), so the marks of a text that open it and the operator
that it is classified as never disagree, and a judgement is told from an imperative by one test.
Without a tag that names a sequence the kind of a parsed line decides, but for the marks of groups
and loops anywhere in the text (`resolve?_of_mem_parse`). -/

namespace PlanGraph

namespace Operator

/-! ## Symbols at the front of a text -/

/-- The sequence that the first character of a symbol tells. -/
def sequenceAt? : Char → Option Sequence
  | '$' => some .assigning
  | '&' => some .grouping
  | '@' => some .timing
  | '*' => some .looping
  | _ => none

theorem sequenceAt?_head (op : Operator) : op.symbol.head?.bind sequenceAt? = some op.sequence := by
  cases op <;> rfl

theorem sequenceAt?_of_startsWith {t : Text} {op : Operator} (h : t.startsWith op.symbol = true) :
    t.head?.bind sequenceAt? = some op.sequence := by
  rw [Text.startsWith, List.isPrefixOf_iff_prefix] at h
  obtain ⟨rest, rfl⟩ := h
  have hhead := sequenceAt?_head op
  cases hsymbol : op.symbol with
  | nil => rw [hsymbol] at hhead; cases hhead
  | cons c symbol => rw [hsymbol] at hhead; exact hhead

/-- Operators whose symbols open one text run the same sequence. -/
theorem sequence_eq_of_startsWith {t : Text} {op op' : Operator} (h : t.startsWith op.symbol = true)
    (h' : t.startsWith op'.symbol = true) : op.sequence = op'.sequence :=
  Option.some.inj ((sequenceAt?_of_startsWith h).symm.trans (sequenceAt?_of_startsWith h'))

theorem startsWith_of_opening? {t : Text} {op : Operator} (h : opening? t = some op) :
    t.startsWith op.symbol = true :=
  List.find?_some (p := fun op : Operator => t.startsWith op.symbol) h

theorem mem_all (op : Operator) : op ∈ all := by cases op <;> decide

/-- A text that the symbol of an operator opens is an operator of the same sequence. -/
theorem exists_opening? {t : Text} {op : Operator} (h : t.startsWith op.symbol = true) :
    ∃ found, opening? t = some found ∧ found.sequence = op.sequence := by
  have hsome : (opening? t).isSome = true := List.find?_isSome.2 ⟨op, mem_all op, h⟩
  obtain ⟨found, hfound⟩ := Option.isSome_iff_exists.1 hsome
  exact ⟨found, hfound, sequence_eq_of_startsWith (startsWith_of_opening? hfound) h⟩

theorem opening?_of_words {t : Text} (h : t.startsWith "::" = true) : opening? t = none := by
  rw [Option.eq_none_iff_forall_ne_some]
  intro op hop
  have hsequence := sequenceAt?_of_startsWith (startsWith_of_opening? hop)
  rw [Text.startsWith, List.isPrefixOf_iff_prefix] at h
  obtain ⟨rest, rfl⟩ := h
  cases hsequence

end Operator

/-! ## Kinds of operations -/

namespace Classification

theorem startsWith_of_isJudgement {t : Text} (h : isJudgement t = true) :
    t.startsWith "::" = true := by
  rw [isJudgement] at h
  split at h
  · next body hbody =>
      rw [Text.after?_eq_some_iff.1 hbody]
      rfl
  · cases h

theorem isJudgement_of_no_words {t : Text} (h : t.startsWith "::" = false) :
    isJudgement t = false := by
  rw [← Bool.not_eq_true] at h ⊢
  exact fun hjudgement => h (startsWith_of_isJudgement hjudgement)

/-- No operator is a judgement. -/
theorem isJudgement_of_opening? {t : Text} {op : Operator} (h : Operator.opening? t = some op) :
    isJudgement t = false := by
  refine isJudgement_of_no_words ?_
  rw [← Bool.not_eq_true]
  intro hwords
  rw [Operator.opening?_of_words hwords] at h
  cases h

/-- An operator is classified by its symbol. -/
theorem ofBody_of_opening? (role : Option Role) {body : Text} {op : Operator}
    (h : Operator.opening? body = some op) :
    (ofBody role body).kind = .operator ∧ (ofBody role body).operator = some op := by
  simp only [ofBody, h, and_self]

/-- An operation in words is a judgement or an imperative. -/
theorem ofBody_of_words (role : Option Role) {body : Text} (h : body.startsWith "::" = true) :
    (ofBody role body).kind = (if isJudgement body then .judgement else .imperative) ∧
      (ofBody role body).operator = none := by
  simp only [ofBody, Operator.opening?_of_words h, h, if_true, and_self]

/-- All else is no operation. -/
theorem ofBody_of_other (role : Option Role) {body : Text} (h : Operator.opening? body = none)
    (hwords : body.startsWith "::" = false) :
    (ofBody role body).kind.isFunctionLike = false ∧ (ofBody role body).operator = none := by
  have hoperator : ∀ found, bracketed? role body = some found →
      found.kind.isFunctionLike = false ∧ found.operator = none := by
    intro found hfound
    refine ⟨?_, ?_⟩
    · rw [← Bool.not_eq_true, ConceptKind.isFunctionLike_iff, (of_bracketed? hfound).2.1]
      decide
    · cases body with
      | nil => cases hfound
      | cons c rest =>
          obtain ⟨⟨kind, b⟩, -, hfound⟩ := Option.bind_eq_some_iff.1 hfound
          dsimp only at hfound
          split at hfound <;> cases hfound <;> rfl
  rw [ofBody, h, hwords]
  dsimp only
  rw [if_neg Bool.false_ne_true]
  split
  · exact ⟨rfl, rfl⟩
  · split
    · next found hfound => exact hoperator found hfound
    · split
      · exact ⟨rfl, rfl⟩
      · split <;> exact ⟨rfl, rfl⟩

theorem operator_ofBody (role : Option Role) (body : Text) :
    (ofBody role body).operator = Operator.opening? body := by
  cases hop : Operator.opening? body with
  | some op => exact (ofBody_of_opening? role hop).2
  | none =>
      cases hwords : body.startsWith "::" with
      | true => exact (ofBody_of_words role hwords).2
      | false => exact (ofBody_of_other role hop hwords).2

theorem kind_eq_operator_iff (role : Option Role) (body : Text) :
    (ofBody role body).kind = .operator ↔ (ofBody role body).operator.isSome = true := by
  cases hop : Operator.opening? body with
  | some op =>
      obtain ⟨hkind, hoperator⟩ := ofBody_of_opening? role hop
      simp [hkind, hoperator]
  | none =>
      cases hwords : body.startsWith "::" with
      | true =>
          obtain ⟨hkind, hoperator⟩ := ofBody_of_words role hwords
          rw [hkind, hoperator]
          cases isJudgement body <;> decide
      | false =>
          obtain ⟨hkind, hoperator⟩ := ofBody_of_other role hop hwords
          rw [hoperator]
          refine iff_of_false (fun h => ?_) Bool.false_ne_true
          rw [h] at hkind
          cases hkind

end Classification

/-- A parsed line is classified as the operator whose symbol opens its text. -/
theorem Line.WellRead.opening?_stripped {l : Line} (hl : l.WellRead) :
    Operator.opening? l.stripped = l.classification.operator := by
  obtain ⟨role, hclass⟩ := hl
  rw [hclass, Classification.operator_ofBody]

namespace Sequence

/-! ## Marks of a text -/

theorem looksAssigning_iff {t : Text} :
    looksAssigning t = true ↔ (Operator.opening? t).map Operator.sequence = some assigning := by
  constructor
  · intro h
    obtain ⟨op, hop, hstart⟩ := List.any_eq_true.1 h
    obtain ⟨found, hfound, hsequence⟩ := Operator.exists_opening? hstart
    have hassigning : op.sequence = assigning := by
      simp only [List.mem_cons, List.not_mem_nil, or_false] at hop
      rcases hop with rfl | rfl | rfl | rfl | rfl | rfl <;> rfl
    rw [hfound, Option.map_some, hsequence, hassigning]
  · intro h
    obtain ⟨op, hop, hsequence⟩ := Option.map_eq_some_iff.1 h
    refine List.any_eq_true.2 ⟨op, ?_, Operator.startsWith_of_opening? hop⟩
    cases op <;> first | decide | cases hsequence

theorem looksTiming_iff {t : Text} :
    looksTiming t = true ↔ (Operator.opening? t).map Operator.sequence = some timing := by
  constructor
  · intro h
    obtain ⟨op, hop, hstart⟩ := List.any_eq_true.1 h
    obtain ⟨found, hfound, hsequence⟩ := Operator.exists_opening? hstart
    have htiming : op.sequence = timing := by
      simp only [List.mem_cons, List.not_mem_nil, or_false] at hop
      rcases hop with rfl | rfl | rfl <;> rfl
    rw [hfound, Option.map_some, hsequence, htiming]
  · intro h
    obtain ⟨op, hop, hsequence⟩ := Option.map_eq_some_iff.1 h
    have hstart := Operator.startsWith_of_opening? hop
    -- the symbol `@if!` has no mark of its own, but it opens with `@if`
    have hmark : ∀ mark ∈ [Operator.timingIf, .timingAfter, .timingBy],
        mark.symbol <+: op.symbol → looksTiming t = true := by
      intro mark hmem hprefix
      refine List.any_eq_true.2 ⟨mark, hmem, ?_⟩
      rw [Text.startsWith, List.isPrefixOf_iff_prefix] at hstart ⊢
      exact hprefix.trans hstart
    cases op with
    | timingIfNot => exact hmark .timingIf (by decide) ⟨"!".toList, rfl⟩
    | timingIf => exact hmark .timingIf (by decide) (List.prefix_refl _)
    | timingAfter => exact hmark .timingAfter (by decide) (List.prefix_refl _)
    | timingBy => exact hmark .timingBy (by decide) (List.prefix_refl _)
    | _ => cases hsequence

theorem looksGrouping_of_opening? {t : Text}
    (h : (Operator.opening? t).map Operator.sequence = some grouping) : looksGrouping t = true := by
  obtain ⟨op, hop, hsequence⟩ := Option.map_eq_some_iff.1 h
  have hcontains : t.contains op.symbol = true := by
    have hstart := Operator.startsWith_of_opening? hop
    rw [Text.startsWith, List.isPrefixOf_iff_prefix] at hstart
    exact Text.contains_iff.2 hstart.isInfix
  rw [looksGrouping, Bool.or_eq_true]
  cases op with
  | groupIn => exact Or.inl hcontains
  | groupAcross => exact Or.inr hcontains
  | _ => cases hsequence

theorem ofText?_eq (t : Text) :
    ofText? t =
      if Classification.isJudgement t then some judgement
      else if looksGrouping t then some grouping
      else if looksLooping t then some looping
      else if looksAssigning t then some assigning
      else if looksTiming t then some timing
      else none := by
  simp only [ofText?, heuristics, List.find?_cons, List.find?_nil]
  repeat' split
  all_goals simp_all

/-! ## Tiers -/

theorem resolve?_of_no_tag {l : Line} (htag : (tag? l).bind ofTag? = none) :
    resolve? l =
      ((ofText? l.stripped).map (·, Tier.textHeuristic)).or
        ((l.classification.operator.map fun op => (op.sequence, Tier.operatorKind)).or
          (if l.stripped.startsWith "::" then some (imperative, .doubleColon) else none)) := by
  simp only [resolve?, tiers, List.findSome?_cons, List.findSome?_nil, ofTier?, htag,
    Option.map_none, Option.map_map]
  cases ofText? l.stripped with
  | some s => rfl
  | none =>
      cases l.classification.operator with
      | some op => rfl
      | none => cases l.stripped.startsWith "::" <;> rfl

/-- The sequence of a line that has no tag, by its kind, with the tier that tells it. The marks of a
    group or a loop may stand anywhere in the text. -/
def byKind? (l : Line) : Option (Sequence × Tier) :=
  if l.kind = .judgement then some (judgement, .textHeuristic)
  else if l.stripped.contains "&[{}]" ∨ l.stripped.contains "&[#]" then
    some (grouping, .textHeuristic)
  else if l.stripped.contains "*every" ∧ l.stripped.contains "%>(" then
    some (looping, .textHeuristic)
  else match l.kind with
    | .operator => l.classification.operator.map fun op =>
        (op.sequence, if op = .looping then .operatorKind else .textHeuristic)
    | .imperative => some (imperative, .doubleColon)
    | _ => none

theorem looksGrouping_iff {t : Text} :
    looksGrouping t = true ↔ t.contains "&[{}]" ∨ t.contains "&[#]" :=
  Bool.or_eq_true_iff

theorem looksLooping_iff {t : Text} :
    looksLooping t = true ↔ t.contains "*every" ∧ t.contains "%>(" :=
  Bool.and_eq_true_iff

/-- The text of an operator without marks of a group or a loop tells the sequence that the operator
    runs, unless that is a loop. -/
theorem ofText?_of_opening? {t : Text} {op : Operator} (hop : Operator.opening? t = some op)
    (hgroup : looksGrouping t = false) (hloop : looksLooping t = false) :
    ofText? t = if op = .looping then none else some op.sequence := by
  have hne : op.sequence ≠ grouping := by
    intro h
    rw [looksGrouping_of_opening? (by rw [hop, Option.map_some, h])] at hgroup
    cases hgroup
  have hassigning : looksAssigning t = decide (op.sequence = assigning) := by
    rw [Bool.eq_iff_iff, looksAssigning_iff, hop, decide_eq_true_iff, Option.map_some,
      Option.some.injEq]
  have htiming : looksTiming t = decide (op.sequence = timing) := by
    rw [Bool.eq_iff_iff, looksTiming_iff, hop, decide_eq_true_iff, Option.map_some,
      Option.some.injEq]
  rw [ofText?_eq, Classification.isJudgement_of_opening? hop, hgroup, hloop, hassigning, htiming]
  cases op with
  | groupIn => exact absurd rfl hne
  | groupAcross => exact absurd rfl hne
  | _ => rfl

/-- The text of a line that is no operator tells its sequence only by a combinator or by the marks
    of a group or a loop. -/
theorem ofText?_of_no_opening? {t : Text} (hop : Operator.opening? t = none) :
    ofText? t =
      if Classification.isJudgement t then some judgement
      else if looksGrouping t then some grouping
      else if looksLooping t then some looping
      else none := by
  have hassigning : ¬ looksAssigning t = true := by
    rw [looksAssigning_iff, hop]
    exact nofun
  have htiming : ¬ looksTiming t = true := by
    rw [looksTiming_iff, hop]
    exact nofun
  rw [ofText?_eq, if_neg hassigning, if_neg htiming]

/-- Without a tag that names a sequence, the kind of a line decides. -/
theorem resolve?_eq_byKind? {l : Line} (hl : l.WellRead) (htag : (tag? l).bind ofTag? = none) :
    resolve? l = byKind? l := by
  obtain ⟨role, hclass⟩ := hl
  rw [resolve?_of_no_tag htag]
  simp only [byKind?, Line.kind, ← looksGrouping_iff, ← looksLooping_iff]
  cases hop : Operator.opening? l.stripped with
  | some op =>
      obtain ⟨hkind, hoperator⟩ := Classification.ofBody_of_opening? (some role) hop
      rw [← hclass] at hkind hoperator
      have hjudgement := Classification.isJudgement_of_opening? hop
      rw [hkind, hoperator, if_neg (show ¬ ConceptKind.operator = .judgement by decide)]
      cases hgroup : looksGrouping l.stripped with
      | true => rw [ofText?_eq, hjudgement, hgroup]; rfl
      | false =>
          cases hloop : looksLooping l.stripped with
          | true => rw [ofText?_eq, hjudgement, hgroup, hloop]; rfl
          | false =>
              rw [ofText?_of_opening? hop hgroup hloop]
              cases op <;> rfl
  | none =>
      rw [ofText?_of_no_opening? hop]
      cases hwords : l.stripped.startsWith "::" with
      | true =>
          obtain ⟨hkind, hoperator⟩ := Classification.ofBody_of_words (some role) hwords
          rw [← hclass] at hkind hoperator
          rw [hkind, hoperator]
          cases Classification.isJudgement l.stripped <;>
            cases looksGrouping l.stripped <;> cases looksLooping l.stripped <;> rfl
      | false =>
          obtain ⟨hkind, hoperator⟩ := Classification.ofBody_of_other (some role) hop hwords
          rw [← hclass] at hkind hoperator
          rw [Classification.isJudgement_of_no_words hwords, hoperator]
          cases hl : l.classification.kind with
          | operator => rw [hl] at hkind; cases hkind
          | judgement => rw [hl] at hkind; cases hkind
          | imperative => rw [hl] at hkind; cases hkind
          | _ => cases looksGrouping l.stripped <;> cases looksLooping l.stripped <;> rfl

/-- All that the kind of a line can tell. -/
theorem byKind?_cases {l : Line} {s : Sequence} {tier : Tier} (h : byKind? l = some (s, tier)) :
    (l.kind = .judgement ∧ s = judgement ∧ tier = .textHeuristic) ∨
    (l.kind ≠ .judgement ∧ (s = grouping ∨ s = looping) ∧ tier = .textHeuristic) ∨
    (∃ op, l.kind = .operator ∧ l.classification.operator = some op ∧ s = op.sequence ∧
      tier = if op = .looping then .operatorKind else .textHeuristic) ∨
    (l.kind = .imperative ∧ s = imperative ∧ tier = .doubleColon) := by
  rw [byKind?] at h
  split at h
  · next hkind =>
      cases h
      exact Or.inl ⟨hkind, rfl, rfl⟩
  · next hkind =>
      refine Or.inr ?_
      split at h
      · cases h
        exact Or.inl ⟨hkind, Or.inl rfl, rfl⟩
      · split at h
        · cases h
          exact Or.inl ⟨hkind, Or.inr rfl, rfl⟩
        · refine Or.inr ?_
          split at h
          · next hoperator =>
              obtain ⟨op, hop, hsome⟩ := Option.map_eq_some_iff.1 h
              obtain ⟨rfl, rfl⟩ := Prod.mk.inj hsome
              exact Or.inl ⟨op, hoperator, hop, rfl, rfl⟩
          · next himperative =>
              cases h
              exact Or.inr ⟨himperative, rfl, rfl⟩
          · cases h

theorem judgement_byKind?_iff (l : Line) :
    (byKind? l).map Prod.fst = some judgement ↔ l.kind = .judgement := by
  constructor
  · intro h
    obtain ⟨⟨s, tier⟩, hs, rfl⟩ := Option.map_eq_some_iff.1 h
    rcases byKind?_cases hs with
      ⟨hkind, -⟩ | ⟨-, hmark | hmark, -⟩ | ⟨op, -, -, hop, -⟩ | ⟨-, hwords, -⟩
    · exact hkind
    · cases hmark
    · cases hmark
    · cases op <;> cases hop
    · cases hwords
  · intro hkind
    rw [byKind?, if_pos hkind]
    rfl

theorem operator_of_byKind? {l : Line} {s : Sequence} (h : byKind? l = some (s, .operatorKind)) :
    l.classification.operator = some .looping := by
  rcases byKind?_cases h with ⟨-, -, htier⟩ | ⟨-, -, htier⟩ | ⟨op, -, hop, -, htier⟩ | ⟨-, -, htier⟩
  · cases htier
  · cases htier
  · split at htier
    · next hlooping => rw [hop, hlooping]
    · cases htier
  · cases htier

theorem kind_of_byKind? {l : Line} {s : Sequence} (h : byKind? l = some (s, .doubleColon)) :
    l.kind = .imperative := by
  rcases byKind?_cases h with ⟨-, -, htier⟩ | ⟨-, -, htier⟩ | ⟨op, -, -, -, htier⟩ | ⟨hkind, -, -⟩
  · cases htier
  · cases htier
  · split at htier <;> cases htier
  · exact hkind

/-- The kind of a parsed line decides its sequence where no tag names one: a judgement is one by its
    kind and by nothing else; the marks of groups and loops come next, wherever they stand; else an
    operator runs its own sequence, an imperative is one, and no other line has a sequence. Only
    loops are left to the operator that a line was classified as, and only imperatives to the
    colons. -/
theorem resolve?_of_mem_parse {width : Nat} {source : Text} {l : Line}
    (hl : l ∈ Line.parse width source) (htag : (tag? l).bind ofTag? = none) :
    resolve? l = byKind? l ∧
    ((resolve? l).map Prod.fst = some judgement ↔ l.kind = .judgement) ∧
    (l.kind = .operator ↔ l.classification.operator.isSome = true) ∧
    (∀ s, resolve? l = some (s, .operatorKind) → l.classification.operator = some .looping) ∧
    (∀ s, resolve? l = some (s, .doubleColon) → l.kind = .imperative) := by
  have hread := Line.wellRead_of_mem_parse hl
  rw [resolve?_eq_byKind? hread htag]
  refine ⟨rfl, judgement_byKind?_iff l, ?_, fun s => operator_of_byKind?, fun s => kind_of_byKind?⟩
  obtain ⟨role, hclass⟩ := hread
  rw [Line.kind, hclass]
  exact Classification.kind_eq_operator_iff (some role) l.stripped

/-- Operations whose marks are not where they seem: a loop without a source and with a tag that
    names nothing, a judgement about groups, an assignment that names a loop, a thing called as a
    group, an imperative and an assignment about a time. -/
def disguisedOperations : Text :=
  ":<: {r}\n    <= *every([items]) | ?{sequence}: teleport\n" ++
    "    <= ::(pairs &[#] fit)<{ALL True}>\n    <= $. %>({*every})\n" ++
    "    <= [of &[#]]\n    <= ::(wait @if)\n    <= $=(@by)\n"

theorem resolve?_of_mem_parse_disguisedOperations :
    (Line.parse 4 disguisedOperations).map resolve? =
      [none, some (looping, .operatorKind), some (judgement, .textHeuristic),
        some (looping, .textHeuristic), some (grouping, .textHeuristic),
        some (imperative, .doubleColon), some (assigning, .textHeuristic)] ∧
    ∀ l ∈ Line.parse 4 disguisedOperations,
      (tag? l).bind ofTag? = none ∧ resolve? l = byKind? l ∧
        ((resolve? l).map Prod.fst = some judgement ↔ l.kind = .judgement) := by
  have hfacts : (Line.parse 4 disguisedOperations).map resolve? =
      [none, some (looping, .operatorKind), some (judgement, .textHeuristic),
        some (looping, .textHeuristic), some (grouping, .textHeuristic),
        some (imperative, .doubleColon), some (assigning, .textHeuristic)] ∧
      ∀ l ∈ Line.parse 4 disguisedOperations, (tag? l).bind ofTag? = none := by
    decide +kernel
  refine ⟨hfacts.1, fun l hl => ?_⟩
  have htag := hfacts.2 l hl
  obtain ⟨hkind, hjudgement, -⟩ := resolve?_of_mem_parse hl htag
  exact ⟨htag, hkind, hjudgement⟩

end Sequence

end PlanGraph
