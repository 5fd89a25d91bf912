import PlanGraph.Proofs.Classification
import PlanGraph.Proofs.Line.Parse
import PlanGraph.Proofs.Line.Physical

set_option autoImplicit false

/-! # The concept of a parsed line

A line of a plan is read from a text that opens with a role symbol, and its concept from what stands
behind the symbol (`wellRead_of_mem_parse`). What the line is called is then its name in its form
(`WellRead.reference_eq`): in brackets, or a text that has the same form and names the same when it
is read again (`WellRead.written_reference`). -/

namespace PlanGraph

namespace Line

/-! ## Parsed lines -/

/-- The main text of a role line is trimmed and keeps the role symbol. -/
theorem splitComment_role {raw : Text} (h : Role.opens raw.trim = true) :
    Text.Tight (Physical.splitComment raw.trim).1 ∧
      ∃ role t, (Physical.splitComment raw.trim).1 = Role.symbol role ++ t := by
  obtain ⟨a, role, t, ha, rfl⟩ := Role.exists_of_opens_trim h
  rw [Role.trim_symbol_append ha, Physical.splitComment,
    Physical.splitPipe?_append_plain _ role.symbol_plain.1 role.symbol_plain.2.1]
  have hmain : ∀ t : Text, Text.Tight (Text.trim (role.symbol ++ t)) ∧
      ∃ r u, Text.trim (role.symbol ++ t) = Role.symbol r ++ u := by
    intro t
    exact ⟨Text.tight_trim _, role, t.trimEnd, by
      simpa using Role.trim_symbol_append Text.AllBlank.nil role t⟩
  cases Physical.splitPipe? false t.trimEnd with
  | none => exact hmain _
  | some cut => exact hmain _

/-- A line whose concept is read from its own text behind a role symbol. -/
def WellRead (l : Line) : Prop := ∃ role, l.classification = .ofBody (some role) l.stripped

theorem wellRead_of_mem_parse {width : Nat} {source : Text} {l : Line}
    (h : l ∈ parse width source) : l.WellRead := by
  rw [parse_eq_readFrom] at h
  obtain ⟨n, cursor, raw, followers, -, hrole, rfl⟩ := exists_ofRole_of_mem_readFrom h
  obtain ⟨htight, role, t, hmain⟩ := splitComment_role hrole
  have hcontent := content_ofRole width n cursor raw followers
  have hopens : Role.opens (ofRole width n cursor raw followers).content = true := by
    rw [hcontent, hmain, Note.unescape_append _ role.symbol_plain.2.1]
    exact Role.opens_append _ role.symbol_plain.2.2.2
  have htrim : (ofRole width n cursor raw followers).content.trim =
      (ofRole width n cursor raw followers).content := by
    rw [hcontent]
    exact Text.trim_of_tight (Note.tight_unescape htight)
  obtain ⟨role, hstrip⟩ := Option.isSome_iff_exists.1 hopens
  refine ⟨role, ?_⟩
  rw [classification_ofRole, Classification.ofText, htrim, stripped, ← hstrip]

/-! ## What a line is called -/

theorem reference_eq_formattedName {l : Line} (h : l.kind.form = .bracketed) :
    l.reference = l.classification.formattedName := by
  rw [reference, if_neg]
  rw [ConceptKind.isFunctionLike_iff, h]
  decide

theorem exists_reference_eq {v : Line} (h : v.kind.form = .bracketed) :
    ∃ b : Bracket, v.reference = b.opening :: (v.name ++ [b.closing]) := by
  obtain ⟨b, hwrap⟩ := ConceptKind.exists_wrap_eq h
  exact ⟨b, (reference_eq_formattedName h).trans (hwrap v.name)⟩

section WellRead

variable {l : Line} (hl : l.WellRead)
include hl

theorem WellRead.written : Classification.Written l.stripped l.kind.form l.name := by
  obtain ⟨role, hclass⟩ := hl
  rw [kind, name, hclass]
  exact Classification.written_ofBody role l.stripped

/-- Operations too are called by their name. -/
theorem WellRead.reference_eq : l.reference = l.kind.wrap l.name := by
  rw [reference]
  split
  · next hoperation =>
      have hform := ConceptKind.isFunctionLike_iff.1 hoperation
      have hwritten := hl.written
      rw [hform] at hwritten
      rw [ConceptKind.wrap_eq (by rw [hform]; decide), hform, hwritten.eq_of_operation]
      rfl
  · rfl

/-- Outside brackets, what a line is called has its form and names its concept. -/
theorem WellRead.written_reference (h : l.kind.form ≠ .bracketed) :
    Text.Tight l.reference ∧ Classification.Written l.reference l.kind.form l.name := by
  rw [hl.reference_eq, ConceptKind.wrap_eq h]
  exact hl.written.again (Text.tight_trim _) h

theorem WellRead.reference_of_bracketed (h : l.kind.form = .bracketed) :
    Text.Tight l.reference ∧ Classification.opensBracket l.reference = true := by
  rw [hl.reference_eq]
  cases hkind : l.kind with
  | proposition => exact ⟨Bracket.tight_enclosed .angle _, rfl⟩
  | relation => exact ⟨Bracket.tight_enclosed .square _, rfl⟩
  | object => exact ⟨Bracket.tight_enclosed .curly _, rfl⟩
  | _ => rw [hkind] at h; cases h

theorem WellRead.tight_reference : Text.Tight l.reference := by
  by_cases h : l.kind.form = .bracketed
  · exact (hl.reference_of_bracketed h).1
  · exact (hl.written_reference h).1

theorem WellRead.opensBracket_reference :
    Classification.opensBracket l.reference = true ↔ l.kind.form = .bracketed := by
  constructor
  · intro hopens
    by_contra hform
    rw [(hl.written_reference hform).2.opensBracket hform] at hopens
    cases hopens
  · exact fun hform => (hl.reference_of_bracketed hform).2

/-- Lines that are called the same have one form and one name. -/
theorem WellRead.eq_of_reference_eq {f : Line} (hf : f.WellRead) (h : f.reference = l.reference) :
    f.kind.form = l.kind.form ∧ f.name = l.name := by
  have hbrackets : f.kind.form = .bracketed ↔ l.kind.form = .bracketed := by
    rw [← hf.opensBracket_reference, h, hl.opensBracket_reference]
  by_cases hform : l.kind.form = .bracketed
  · have hfform := hbrackets.2 hform
    rw [hf.reference_eq, hl.reference_eq] at h
    exact ⟨by rw [hfform, hform], ConceptKind.name_eq_of_wrap_eq hfform hform h⟩
  · -- both are read from the same text, which has one form and one name
    have hwritten := (hf.written_reference fun hfform => hform (hbrackets.1 hfform)).2
    rw [h] at hwritten
    exact (hl.written_reference hform).2.unique hform hwritten

/-- The name of a concept in closed brackets is found in what it is called. -/
theorem WellRead.bareName_reference (hform : l.kind.form = .bracketed)
    (hclosed : Classification.unclosedBracket ∉ l.classification.warnings) :
    bareName l.reference = l.name := by
  obtain ⟨role, hclass⟩ := hl
  have hreference := reference_eq_formattedName hform
  rw [kind, hclass] at hform
  rw [hclass] at hclosed
  rw [hreference, name, hclass]
  exact Classification.bareName_ofBody hform hclosed

end WellRead

end Line

end PlanGraph
