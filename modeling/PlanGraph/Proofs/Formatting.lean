import PlanGraph.Proofs.Classification
import PlanGraph.Proofs.Line.Physical

set_option autoImplicit false

/-! # Names in their brackets are read back

A concept is shown by its name in the brackets of its kind, or with a colon behind it. Behind any role
symbol this text is classified as the concept that it came from, and nothing is left over
(`ofText_formattedName`). The role decides nothing but itself (`ofBody_withRole`), a bracket that was
closed once is closed again by its last character, and the name of a subject is a subject of that
name. -/

namespace PlanGraph

namespace Role

/-- No symbol opens another one. -/
theorem strip_symbol_append (s : Role) (t : Text) : strip (s.symbol ++ t) = (some s, t.trimStart) := by
  cases s <;> rfl

end Role

namespace Classification

theorem bracketed?_withRole (role role' : Option Role) (t : Text) :
    bracketed? role' t = (bracketed? role t).map ({ · with role := role' }) := by
  cases t with
  | nil => rfl
  | cons c rest =>
      cases hkind : bracketedKind? c with
      | none => simp [bracketed?, hkind]
      | some found =>
          simp only [bracketed?, hkind, Option.bind_eq_bind, Option.bind_some]
          cases found.2.close? rest <;> rfl

/-- A text that fits some form is classified in the same way behind any role symbol. -/
theorem ofBody_withRole {role : Option Role} {body : Text}
    (h : (ofBody role body).kind ≠ .informal) (role' : Option Role) :
    ofBody role' body = { ofBody role body with role := role' } := by
  have hbracket := bracketed?_withRole role role' body
  cases hop : Operator.opening? body with
  | some op => simp only [ofBody, hop]
  | none =>
      cases hwords : body.startsWith "::" with
      | true => simp only [ofBody, hop, hwords, if_true]
      | false =>
          cases hsubject : subject? body with
          | some found => simp only [ofBody, hop, hwords, hsubject, Bool.false_eq_true, if_false]
          | none =>
              cases hfound : bracketed? role body with
              | some found =>
                  rw [hfound, Option.map_some] at hbracket
                  simp only [ofBody, hop, hwords, hsubject, hfound, hbracket, Bool.false_eq_true,
                    if_false]
              | none =>
                  rw [hfound, Option.map_none] at hbracket
                  simp only [ofBody, hop, hwords, hsubject, hfound, hbracket, Bool.false_eq_true,
                    if_false] at h ⊢
                  split at h
                  · next hcomment => simp only [hcomment, if_true]
                  · split at h <;> exact absurd rfl h

/-- What a closed bracket encloses is read again from its name in brackets. -/
theorem bracketed?_formattedName {role : Option Role} {t : Text} {found : Classification}
    (h : bracketed? role t = some found) (hclosed : found.warnings = []) (role' : Option Role) :
    Text.Tight found.formattedName ∧ opensBracket found.formattedName = true ∧
      bracketed? role' found.formattedName =
        some ⟨role', found.kind, none, found.name, [], []⟩ := by
  cases t with
  | nil => cases h
  | cons c rest =>
      cases hkind : bracketedKind? c with
      | none => simp [bracketed?, hkind] at h
      | some kinds =>
          obtain ⟨kind, b⟩ := kinds
          obtain ⟨rfl, -, hwrap⟩ := bracketedKind?_eq_some hkind
          simp only [bracketed?, hkind, Option.bind_eq_bind, Option.bind_some] at h
          split at h
          · next inner left hclose =>
              cases h
              have htrim : inner.trim.trim = inner.trim := Text.trim_of_tight (Text.tight_trim inner)
              rw [formattedName, hwrap]
              refine ⟨Bracket.tight_enclosed b _, ?_, ?_⟩
              · simp [opensBracket, hkind]
              · simp [bracketed?, hkind, Bracket.close?_trim hclose, htrim,
                  Text.trim_of_tight Text.Tight.nil]
          · cases h
            cases hclosed

theorem ofBody_of_subject? {t name suffix : Text} (hoperation : opensOperation t = false)
    (h : subject? t = some (name, suffix)) (role : Option Role) :
    ofBody role t = ⟨role, .subject, none, name, suffix, []⟩ := by
  rw [opensOperation_eq, Bool.or_eq_false_iff] at hoperation
  have hop : Operator.opening? t = none := by simpa using hoperation.1
  simp only [ofBody, hop, hoperation.2, h, Bool.false_eq_true, if_false]

/-- The kinds of concepts that are shown by a name in brackets or with a colon. -/
def namedKinds : List ConceptKind := [.object, .relation, .proposition, .subject]

theorem form_of_mem_namedKinds {kind : ConceptKind} (h : kind ∈ namedKinds) (hne : kind ≠ .subject) :
    kind.form = .bracketed := by
  simp only [namedKinds, List.mem_cons, List.not_mem_nil, or_false, hne] at h
  rcases h with rfl | rfl | rfl <;> rfl

theorem ofBody_formattedName {s : Role} {body : Text}
    (hkind : (ofBody (some s) body).kind ∈ namedKinds)
    (hwarnings : (ofBody (some s) body).warnings = []) :
    Text.Tight (ofBody (some s) body).formattedName ∧
      ofBody (some s) (ofBody (some s) body).formattedName =
        ⟨some s, (ofBody (some s) body).kind, none, (ofBody (some s) body).name, [], []⟩ := by
  have hwritten := written_ofBody s body
  generalize hc : ofBody (some s) body = c at hkind hwarnings hwritten ⊢
  by_cases hsubject : c.kind = .subject
  · rw [hsubject] at hwritten
    cases hwritten with
    | subject _ h =>
        obtain ⟨htight, hoperation, hagain⟩ := subject?_again h
        rw [formattedName, hsubject]
        exact ⟨htight, ofBody_of_subject? hoperation hagain (some s)⟩
  · rw [form_of_mem_namedKinds hkind hsubject] at hwritten
    cases hwritten with
    | bracketed hopens =>
        have hfound := ofBody_of_opensBracket (some s) hopens
        rw [hc] at hfound
        obtain ⟨htight, hagain, hread⟩ := bracketed?_formattedName hfound hwarnings (some s)
        rw [ofBody_of_opensBracket (some s) hagain, Option.some.injEq] at hread
        exact ⟨htight, hread⟩

/-- What stands behind a role symbol and a space is classified by itself. -/
theorem ofText_symbol_append (s : Role) {t : Text} (ht : Text.Tight t) :
    ofText (s.symbol ++ ' ' :: t) = ofBody (some s) t := by
  have hbody : Text.trim (Text.trimStart (Text.trimEnd (' ' :: t))) = t := by
    by_cases hne : t = []
    · rw [hne]
      rfl
    · have hend : Text.trimEnd (' ' :: t) = [' '] ++ t := by
        simpa using Text.trimEnd_between (a := [' ']) hne ht Text.AllBlank.nil
      rw [hend, Text.trimStart_append t Text.AllBlank.space, Text.trimStart_of_head ht.1,
        Text.trim_of_tight ht]
  have htrim := Role.trim_symbol_append Text.AllBlank.nil s (' ' :: t)
  rw [List.nil_append] at htrim
  simp only [ofText, htrim, Role.strip_symbol_append, hbody]

/-- **Classification undoes formatting.** A concept in closed brackets or a subject, found in any text,
    is shown in a way that reads back behind every role symbol: the same kind and name, nothing behind
    the name and no warnings. For brackets the bare name of what is shown is the name. -/
theorem ofText_formattedName {content : Text} (hkind : (ofText content).kind ∈ namedKinds)
    (hwarnings : (ofText content).warnings = []) :
    (∀ s : Role, ofText (s.symbol ++ ' ' :: (ofText content).formattedName) =
      ⟨some s, (ofText content).kind, none, (ofText content).name, [], []⟩) ∧
    ((ofText content).kind ≠ .subject →
      bareName (ofText content).formattedName = (ofText content).name) := by
  obtain ⟨role, body, hread⟩ : ∃ role body, ofText content = ofBody role body := ⟨_, _, rfl⟩
  rw [hread] at hkind hwarnings ⊢
  have hinformal : (ofBody role body).kind ≠ .informal := by
    intro h
    rw [h] at hkind
    exact absurd hkind (by decide)
  have hrole := ofBody_withRole hinformal
  constructor
  · intro s
    have hkind' : (ofBody (some s) body).kind ∈ namedKinds := by rw [hrole]; exact hkind
    have hwarnings' : (ofBody (some s) body).warnings = [] := by rw [hrole]; exact hwarnings
    obtain ⟨htight, hagain⟩ := ofBody_formattedName hkind' hwarnings'
    rw [hrole] at htight hagain
    rw [← hagain]
    exact ofText_symbol_append s htight
  · intro hsubject
    have hform : (ofBody (some .value) body).kind.form = .bracketed := by
      rw [hrole]
      exact form_of_mem_namedKinds hkind hsubject
    have hwarnings' : (ofBody (some .value) body).warnings = [] := by rw [hrole]; exact hwarnings
    have hclosed : unclosedBracket ∉ (ofBody (some .value) body).warnings := by simp [hwarnings']
    have hname := bareName_ofBody hform hclosed
    rw [hrole] at hname
    exact hname

theorem ofText_formattedName_comparison :
    let c := ofText "<- < rate > 5 [<:{1}] ><:{2}>"
    c.kind ∈ namedKinds ∧ c.warnings = [] ∧ c.suffix = "<:{2}>".toList ∧
    c.formattedName = "<rate > 5 [<:{1}]>".toList ∧
    ofText (Role.operator.symbol ++ ' ' :: c.formattedName) =
      ⟨some .operator, c.kind, none, c.name, [], []⟩ ∧
    bareName c.formattedName = c.name := by
  intro c
  have hfacts : c.kind ∈ namedKinds ∧ c.warnings = [] ∧ c.kind ≠ .subject ∧
      c.suffix = "<:{2}>".toList ∧
      c.formattedName = "<rate > 5 [<:{1}]>".toList := by
    decide +kernel
  obtain ⟨hkind, hwarnings, hsubject, hsuffix, hformatted⟩ := hfacts
  obtain ⟨hagain, hbare⟩ := ofText_formattedName hkind hwarnings
  exact ⟨hkind, hwarnings, hsuffix, hformatted, hagain .operator, hbare hsubject⟩

end Classification

end PlanGraph
