import PlanGraph.Classification
import PlanGraph.Proofs.Bracket

set_option autoImplicit false

/-! # The form of a concept

The kinds of concepts are written in five forms: as an operation, as a subject, in brackets, as a
comment, or in no form at all. `Written` says which form a text has and what it names, and
classification finds it (`written_ofBody`). A text has one form and one name (`Written.unique`), and
outside brackets a name written in its form has that form again and names the same
(`Written.again`). Two concepts outside brackets that are written alike are therefore the same. -/

namespace PlanGraph

/-- The forms in which concepts are written. -/
inductive Form where
  | operation
  | subject
  | bracketed
  | comment
  | informal
deriving DecidableEq, Repr, Inhabited

/-- The form of a kind. -/
def ConceptKind.form : ConceptKind → Form
  | .operator | .judgement | .imperative => .operation
  | .subject => .subject
  | .proposition | .relation | .object => .bracketed
  | .comment => .comment
  | .informal => .informal

/-- A name as it is written in a form outside brackets. -/
def Form.wrap : Form → Text → Text
  | .subject, name => name ++ [':']
  | _, name => name

theorem ConceptKind.isFunctionLike_iff {kind : ConceptKind} :
    kind.isFunctionLike = true ↔ kind.form = .operation := by
  cases kind <;> decide

theorem ConceptKind.wrap_eq {kind : ConceptKind} (h : kind.form ≠ .bracketed) (name : Text) :
    kind.wrap name = kind.form.wrap name := by
  cases kind <;> first | rfl | exact absurd rfl h

theorem ConceptKind.exists_wrap_eq {kind : ConceptKind} (h : kind.form = .bracketed) :
    ∃ b : Bracket, ∀ name, kind.wrap name = b.opening :: (name ++ [b.closing]) := by
  cases kind with
  | proposition => exact ⟨.angle, fun _ => rfl⟩
  | relation => exact ⟨.square, fun _ => rfl⟩
  | object => exact ⟨.curly, fun _ => rfl⟩
  | _ => cases h

/-- What stands in brackets is read off from the whole, whatever the brackets. -/
theorem ConceptKind.name_eq_of_wrap_eq {kind kind' : ConceptKind} {name name' : Text}
    (hkind : kind.form = .bracketed) (hkind' : kind'.form = .bracketed)
    (h : kind.wrap name = kind'.wrap name') : name = name' := by
  obtain ⟨b, hwrap⟩ := exists_wrap_eq hkind
  obtain ⟨b', hwrap'⟩ := exists_wrap_eq hkind'
  rw [hwrap, hwrap', List.cons.injEq] at h
  exact List.append_inj_left' h.2 rfl

namespace Classification

/-! ## Openings -/

theorem any_startsWith_append {openings : List Text} {t : Text} (s : Text)
    (h : openings.any t.startsWith = true) : openings.any (Text.startsWith (t ++ s)) = true := by
  rw [List.any_eq_true] at h ⊢
  obtain ⟨p, hp, hstart⟩ := h
  refine ⟨p, hp, ?_⟩
  rw [Text.startsWith, List.isPrefixOf_iff_prefix] at hstart ⊢
  exact hstart.trans (List.prefix_append t s)

/-- The openings of an operation. -/
def operationOpenings : List Text := "::" :: Operator.all.map Operator.symbol

/-- Whether a text opens as an operation. -/
def opensOperation (t : Text) : Bool := operationOpenings.any t.startsWith

theorem opensOperation_eq (t : Text) :
    opensOperation t = ((Operator.opening? t).isSome || t.startsWith "::") := by
  have hsymbol :
      (Operator.opening? t).isSome = (Operator.all.map Operator.symbol).any t.startsWith := by
    rw [Operator.opening?, List.isSome_find?, List.any_map]
    rfl
  rw [hsymbol, opensOperation, operationOpenings, List.any_cons, Bool.or_comm]

/-- What holds of the first character of each opening holds of the first one of an operation. -/
theorem head_of_opensOperation (holds : Char → Bool)
    (hopenings : operationOpenings.all (·.head?.any holds) = true) {c : Char} {rest : Text}
    (h : opensOperation (c :: rest) = true) : holds c = true := by
  rw [opensOperation, List.any_eq_true] at h
  obtain ⟨p, hp, hstart⟩ := h
  have hhead := List.all_eq_true.1 hopenings p hp
  cases p with
  | nil => cases hhead
  | cons d u =>
      rw [Text.startsWith, List.isPrefixOf_iff_prefix, List.cons_prefix_cons] at hstart
      rw [← hstart.1]
      simpa using hhead

/-- Whether a text opens with the bracket of a thing. -/
def opensBracket (t : Text) : Bool := t.head?.any fun c => (bracketedKind? c).isSome

theorem opensBracket_cons (c : Char) (rest : Text) :
    opensBracket (c :: rest) = (c == '{' || c == '[' || c == '<') := by
  rw [opensBracket, List.head?_cons, Option.any_some, bracketedKind?.eq_def]
  split
  · rfl
  · rfl
  · rfl
  · next hangle hsquare hcurly => simpa using ⟨⟨hcurly, hsquare⟩, hangle⟩

theorem bracketedKind?_eq_some {c : Char} {kind : ConceptKind} {b : Bracket}
    (h : bracketedKind? c = some (kind, b)) :
    c = b.opening ∧ kind.form = .bracketed ∧
      ∀ name, kind.wrap name = b.opening :: (name ++ [b.closing]) := by
  unfold bracketedKind? at h
  split at h
  · cases h; exact ⟨rfl, rfl, fun _ => rfl⟩
  · cases h; exact ⟨rfl, rfl, fun _ => rfl⟩
  · cases h; exact ⟨rfl, rfl, fun _ => rfl⟩
  · cases h

/-- A text that opens with a bracket has no form that is tried before brackets. -/
theorem plain_of_opensBracket {t : Text} (h : opensBracket t = true) :
    opensOperation t = false ∧ subject? t = none := by
  cases t with
  | nil => simp [opensBracket] at h
  | cons c rest =>
      have hsome : (bracketedKind? c).isSome = true := by simpa [opensBracket] using h
      constructor
      · rw [← Bool.not_eq_true]
        intro hoperation
        have hnone : (!(bracketedKind? c).isSome) = true :=
          head_of_opensOperation (fun d => !(bracketedKind? d).isSome) rfl hoperation
        rw [hsome] at hnone
        cases hnone
      · unfold bracketedKind? at hsome
        split at hsome
        · rfl
        · rfl
        · rfl
        · cases hsome

/-! ## Subjects -/

theorem subject?_append {c : Char} {w more : Text} (hc : opensSubject c = true)
    (hw : ∀ d ∈ w, continuesSubject d = true)
    (hmore : (more.head?.map isBlank).getD true = true) :
    subject? (c :: (w ++ ':' :: more)) = some (Text.trim (c :: w), Text.trim more) := by
  have hcolon : ¬ continuesSubject ':' = true := by decide
  have hdrop : (w ++ ':' :: more).dropWhile continuesSubject = ':' :: more := by
    rw [List.dropWhile_append_of_pos hw, List.dropWhile_cons_of_neg hcolon]
  have htake : (w ++ ':' :: more).takeWhile continuesSubject = w := by
    rw [List.takeWhile_append_of_pos hw, List.takeWhile_cons_of_neg hcolon, List.append_nil]
  simp only [subject?, hc, if_true, hdrop, htake, hmore]

theorem exists_of_subject? {t name suffix : Text} (h : subject? t = some (name, suffix)) :
    ∃ c w more, t = c :: (w ++ ':' :: more) ∧ opensSubject c = true ∧
      (∀ d ∈ w, continuesSubject d = true) ∧ (more.head?.map isBlank).getD true = true ∧
        name = Text.trim (c :: w) := by
  cases t with
  | nil => simp [subject?] at h
  | cons c rest =>
      rw [subject?] at h
      split at h
      · next hc =>
          split at h
          · next more hmore =>
              split at h
              · next hblank =>
                  simp only [Option.some.injEq, Prod.mk.injEq] at h
                  have hcut := List.takeWhile_append_dropWhile (p := continuesSubject) (l := rest)
                  rw [hmore] at hcut
                  exact ⟨c, _, more, by rw [hcut], hc, fun d hd => List.mem_takeWhile_imp hd,
                    hblank, h.1.symm⟩
              · cases h
          · cases h
      · cases h

theorem isBlank_of_le_toNat {c : Char} (hlo : 65 ≤ c.toNat) (hhi : c.toNat ≤ 122) :
    isBlank c = false := by
  simp only [isBlank, Bool.or_eq_false_iff, Bool.and_eq_false_iff, decide_eq_false_iff_not,
    beq_eq_false_iff_ne]
  omega

theorem isBlank_of_opensSubject {c : Char} (h : opensSubject c = true) : isBlank c = false := by
  have hletter : (c.isUpper || c.isLower || c == '_') = true := h
  rw [Bool.or_eq_true, Bool.or_eq_true, beq_iff_eq] at hletter
  rcases hletter with (hupper | hlower) | rfl
  · obtain ⟨hlo, hhi⟩ : 65 ≤ c.toNat ∧ c.toNat ≤ 90 := of_decide_eq_true hupper
    exact isBlank_of_le_toNat hlo (by omega)
  · obtain ⟨hlo, hhi⟩ := Bool.and_eq_true_iff.1 hlower
    have hlo : 97 ≤ c.toNat := of_decide_eq_true hlo
    have hhi : c.toNat ≤ 122 := of_decide_eq_true hhi
    exact isBlank_of_le_toNat (by omega) hhi
  · decide

theorem opensOperation_of_opensSubject {c : Char} (rest : Text) (h : opensSubject c = true) :
    opensOperation (c :: rest) = false := by
  rw [← Bool.not_eq_true]
  intro hoperation
  have hnot : (!opensSubject c) = true :=
    head_of_opensOperation (fun d => !opensSubject d) rfl hoperation
  rw [h] at hnot
  cases hnot

/-! ## Brackets -/

theorem bracketed?_eq_none {role : Option Role} {t : Text} (h : bracketed? role t = none) :
    opensBracket t = false := by
  cases t with
  | nil => rfl
  | cons c rest =>
      cases hkind : bracketedKind? c with
      | none => simp [opensBracket, hkind]
      | some found =>
          obtain ⟨kind, b⟩ := found
          simp only [bracketed?, hkind, Option.bind_eq_bind, Option.bind_some] at h
          split at h <;> cases h

/-- A concept in brackets is called by its name in brackets. If they are closed, the name can be
    read from that. -/
theorem of_bracketed? {role : Option Role} {t : Text} {found : Classification}
    (h : bracketed? role t = some found) :
    opensBracket t = true ∧ found.kind.form = .bracketed ∧
      (unclosedBracket ∉ found.warnings → bareName found.formattedName = found.name) := by
  cases t with
  | nil => simp [bracketed?] at h
  | cons c rest =>
      cases hkind : bracketedKind? c with
      | none => simp [bracketed?, hkind] at h
      | some found =>
          obtain ⟨kind, b⟩ := found
          obtain ⟨-, hform, hwrap⟩ := bracketedKind?_eq_some hkind
          have hopens : opensBracket (c :: rest) = true := by simp [opensBracket, hkind]
          simp only [bracketed?, hkind, Option.bind_eq_bind, Option.bind_some] at h
          split at h
          · next inner left hclose =>
              cases h
              refine ⟨hopens, hform, fun _ => ?_⟩
              rw [formattedName, hwrap]
              exact Bracket.bareName_enclose hclose
          · cases h
            exact ⟨hopens, hform, fun hclosed => absurd List.mem_cons_self hclosed⟩

/-! ## Forms -/

/-- A text is written in a form and names a concept. The forms are tried in order. -/
inductive Written (t : Text) : Form → Text → Prop where
  | operation (h : opensOperation t = true) : Written t .operation t
  | subject {name suffix : Text} (hoperation : opensOperation t = false)
      (h : subject? t = some (name, suffix)) : Written t .subject name
  | bracketed {name : Text} (h : opensBracket t = true) : Written t .bracketed name
  | comment (hoperation : opensOperation t = false) (hsubject : subject? t = none)
      (hbracket : opensBracket t = false) (h : opensComment t = true) : Written t .comment t
  | informal (hoperation : opensOperation t = false) (hsubject : subject? t = none)
      (hbracket : opensBracket t = false) (hcomment : opensComment t = false) :
      Written t .informal t.firstWord

theorem Written.unique {t : Text} {form form' : Form} {name name' : Text} (hne : form ≠ .bracketed)
    (h : Written t form name) (h' : Written t form' name') : form' = form ∧ name' = name := by
  cases h' with
  | bracketed hbracket =>
      obtain ⟨hoperation, hsubject⟩ := plain_of_opensBracket hbracket
      cases h <;> simp_all
  | _ => cases h <;> simp_all

/-- An operation is named by its whole text. -/
theorem Written.eq_of_operation {t name : Text} (h : Written t .operation name) : name = t := by
  cases h
  rfl

/-- A text outside brackets does not open with one. -/
theorem Written.opensBracket {t : Text} {form : Form} {name : Text} (hne : form ≠ .bracketed)
    (h : Written t form name) : opensBracket t = false := by
  rw [← Bool.not_eq_true]
  intro hbracket
  obtain ⟨hoperation, hsubject⟩ := plain_of_opensBracket hbracket
  cases h <;> simp_all

/-- Classification finds the form of a text. -/
theorem written_ofBody (role : Role) (body : Text) :
    Written body (ofBody (some role) body).kind.form (ofBody (some role) body).name := by
  have hopens := opensOperation_eq body
  rw [ofBody]
  split
  · next op hop => exact .operation (by simp [hopens, hop])
  · next hop =>
      rw [Option.eq_none_iff_forall_ne_some.2 hop, Option.isSome_none, Bool.false_or] at hopens
      split
      · next hwords =>
          have hform : (if isJudgement body then ConceptKind.judgement else .imperative).form =
              .operation := by split <;> rfl
          simp only [hform]
          exact .operation (by rw [hopens, hwords])
      · next hwords =>
          have hoperation : opensOperation body = false := by rw [hopens]; simpa using hwords
          split
          · next name suffix hsubject => exact .subject hoperation hsubject
          · next hsubject =>
              have hnone : subject? body = none := by
                rw [Option.eq_none_iff_forall_ne_some]
                rintro ⟨name, suffix⟩
                exact hsubject name suffix
              split
              · next found hfound =>
                  obtain ⟨hbracket, hform, -⟩ := of_bracketed? hfound
                  rw [hform]
                  exact .bracketed hbracket
              · next hfound =>
                  have hbracket := bracketed?_eq_none (Option.eq_none_iff_forall_ne_some.2 hfound)
                  split
                  · next hcomment => exact .comment hoperation hnone hbracket hcomment
                  · next hcomment =>
                      rw [Option.isSome_some, if_pos rfl]
                      exact .informal hoperation hnone hbracket (by simpa using hcomment)

theorem ofBody_of_opensBracket (role : Option Role) {body : Text} (h : opensBracket body = true) :
    bracketed? role body = some (ofBody role body) := by
  obtain ⟨hoperation, hsubject⟩ := plain_of_opensBracket h
  rw [opensOperation_eq, Bool.or_eq_false_iff] at hoperation
  have hop : Operator.opening? body = none := by simpa using hoperation.1
  cases hfound : bracketed? role body with
  | none =>
      rw [bracketed?_eq_none hfound] at h
      cases h
  | some found => simp only [ofBody, hop, hoperation.2, hsubject, hfound, Bool.false_eq_true, if_false]

/-- The name of a concept in closed brackets can be read from its name in brackets. -/
theorem bareName_ofBody {role : Role} {body : Text}
    (hform : (ofBody (some role) body).kind.form = .bracketed)
    (hclosed : unclosedBracket ∉ (ofBody (some role) body).warnings) :
    bareName (ofBody (some role) body).formattedName = (ofBody (some role) body).name := by
  have hwritten := written_ofBody role body
  rw [hform] at hwritten
  cases hwritten with
  | bracketed h => exact (of_bracketed? (ofBody_of_opensBracket (some role) h)).2.2 hclosed

/-! ## Names in their form -/

theorem firstWord_append (t : Text) (ht : Text.Tight t) :
    ∃ more, t = t.firstWord ++ more ∧ (more.head?.map isBlank).getD true = true := by
  have hstart : Text.trimStart t = t := Text.trimStart_of_head ht.1
  refine ⟨t.dropWhile (!isBlank ·), ?_, ?_⟩
  · rw [Text.firstWord, hstart]
    exact List.takeWhile_append_dropWhile.symm
  · have hhead := List.head?_dropWhile_not (!isBlank ·) t
    cases hd : (t.dropWhile (!isBlank ·)).head? with
    | none => rfl
    | some d =>
        rw [hd] at hhead
        simpa using hhead

theorem isBlank_of_mem_firstWord {t : Text} {c : Char} (h : c ∈ t.firstWord) :
    isBlank c = false := by
  simpa using List.mem_takeWhile_imp h

theorem firstWord_firstWord (t : Text) : t.firstWord.firstWord = t.firstWord := by
  have htight : Text.Tight t.firstWord := Text.tight_of_forall fun _ => isBlank_of_mem_firstWord
  rw [Text.firstWord, Text.trimStart_of_head htight.1, List.takeWhile_eq_self_iff]
  intro c hc
  simpa using isBlank_of_mem_firstWord hc

/-- The first word of a text is no subject unless the text is one. -/
theorem subject?_firstWord {t : Text} (ht : Text.Tight t) (h : subject? t = none) :
    subject? t.firstWord = none := by
  obtain ⟨more, hcut, hmore⟩ := firstWord_append t ht
  rw [Option.eq_none_iff_forall_ne_some]
  rintro ⟨name, suffix⟩ hsome
  obtain ⟨c, w, left, hword, hc, hw, hleft, -⟩ := exists_of_subject? hsome
  -- a word has no blanks, so it ends with the colon
  have hnil : left = [] := by
    cases left with
    | nil => rfl
    | cons d left =>
        have hd : d ∈ t.firstWord := by rw [hword]; simp
        rw [List.head?_cons, Option.map_some, Option.getD_some, isBlank_of_mem_firstWord hd] at hleft
        cases hleft
  rw [hword, hnil, List.cons_append, List.append_assoc, List.cons_append, List.nil_append] at hcut
  rw [hcut, subject?_append hc hw hmore] at h
  cases h

theorem opensBracket_firstWord {t : Text} (ht : Text.Tight t) (h : opensBracket t = false) :
    opensBracket t.firstWord = false := by
  obtain ⟨more, hcut, -⟩ := firstWord_append t ht
  cases hword : t.firstWord with
  | nil => rfl
  | cons c word =>
      rw [hcut, hword] at h
      exact h

/-- The name of a subject with a colon behind it is a subject of that name. -/
theorem subject?_again {t name suffix : Text} (h : subject? t = some (name, suffix)) :
    Text.Tight (name ++ [':']) ∧ opensOperation (name ++ [':']) = false ∧
      subject? (name ++ [':']) = some (name, []) := by
  obtain ⟨c, w, more, rfl, hc, hw, -, rfl⟩ := exists_of_subject? h
  have hblank := isBlank_of_opensSubject hc
  -- the blanks in front of the colon are gone
  have hname : Text.trim (c :: w) = c :: Text.trimEnd w := by
    rw [Text.trim, Text.trimStart_of_head (by simpa using hblank), ← List.singleton_append,
      Text.trimEnd_append_of_last _ (by simpa using hblank)]
    rfl
  have htrimmed : ∀ d ∈ Text.trimEnd w, continuesSubject d = true :=
    fun d hd => hw d ((List.rdropWhile_prefix isBlank (l := w)).subset hd)
  have hagain : subject? (c :: (Text.trimEnd w ++ [':'])) =
      some (Text.trim (c :: Text.trimEnd w), []) := subject?_append hc htrimmed rfl
  have htight : Text.Tight (c :: Text.trimEnd w) := hname ▸ Text.tight_trim (c :: w)
  rw [Text.trim_of_tight htight] at hagain
  rw [hname]
  refine ⟨⟨?_, ?_⟩, opensOperation_of_opensSubject _ hc, hagain⟩
  · simpa using hblank
  · intro d hd
    rw [List.getLast?_append_of_ne_nil _ (by simp)] at hd
    obtain rfl : ':' = d := by simpa using hd
    decide

/-- Outside brackets, a name in its form is written in that form and names the same. -/
theorem Written.again {t : Text} {form : Form} {name : Text} (ht : Text.Tight t)
    (hne : form ≠ .bracketed) (h : Written t form name) :
    Text.Tight (form.wrap name) ∧ Written (form.wrap name) form name := by
  cases h with
  | operation h => exact ⟨ht, .operation h⟩
  | subject _ h =>
      obtain ⟨htight, hoperation, hagain⟩ := subject?_again h
      exact ⟨htight, .subject hoperation hagain⟩
  | bracketed _ => exact absurd rfl hne
  | comment hoperation hsubject hbracket h =>
      exact ⟨ht, .comment hoperation hsubject hbracket h⟩
  | informal hoperation hsubject hbracket hcomment =>
      obtain ⟨more, hcut, -⟩ := firstWord_append t ht
      have hnot : ∀ openings : List Text, openings.any t.startsWith = false →
          openings.any (Text.startsWith t.firstWord) = false := by
        intro openings hany
        rw [← Bool.not_eq_true] at hany ⊢
        intro hword
        rw [hcut] at hany
        exact hany (any_startsWith_append more hword)
      have hword := Written.informal (hnot _ hoperation) (subject?_firstWord ht hsubject)
        (opensBracket_firstWord ht hbracket) (hnot _ hcomment)
      rw [firstWord_firstWord] at hword
      exact ⟨Text.tight_of_forall fun _ => isBlank_of_mem_firstWord, hword⟩

end Classification

end PlanGraph
