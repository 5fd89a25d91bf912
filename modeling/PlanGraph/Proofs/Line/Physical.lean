import PlanGraph.Line.Physical
import PlanGraph.Proofs.Text
import PlanGraph.Role

set_option autoImplicit false

/-! # Longer lines

What stands behind a line does not change what its front says: its role (`Role.opens_append`), its
first pipe (`Physical.splitPipe?_append_of_some`) and its depth (`Physical.depth_append`). -/

namespace PlanGraph

namespace Text

theorem contains_iff {t p : Text} : contains t p = true ↔ p <:+: t := by
  induction t with
  | nil =>
      rw [contains, Bool.or_false, startsWith, List.isPrefixOf_iff_prefix, List.prefix_nil,
        List.infix_nil]
  | cons c rest ih =>
      rw [contains, Bool.or_eq_true, startsWith, List.isPrefixOf_iff_prefix, List.infix_cons_iff,
        ih]

theorem after?_eq_none_of_contains {t p : Text} (h : contains t p = false) : after? t p = none := by
  rw [Option.eq_none_iff_forall_ne_some]
  intro behind hbehind
  have hinfix : p <:+: t := by
    rw [after?_eq_some_iff.1 hbehind]
    exact (List.prefix_append _ _).isInfix
  rw [contains_iff.2 hinfix] at h
  exact absurd h (by simp)

end Text

namespace Role

/-- What follows a role line does not take away its role. -/
theorem opens_append {t : Text} (s : Text) (h : opens t = true) : opens (t ++ s) = true := by
  rw [opens_eq, opening?, List.findSome?_isSome_iff] at h ⊢
  obtain ⟨r, hr, hsome⟩ := h
  refine ⟨r, hr, ?_⟩
  rw [Option.isSome_map, Option.isSome_iff_exists] at hsome ⊢
  obtain ⟨rest, hrest⟩ := hsome
  have hstart := Text.after?_eq_some_iff.1 hrest
  have hne : (t.dropWhile isBlank).isEmpty = false := by
    show t.trimStart.isEmpty = false
    rw [hstart]
    cases r <;> rfl
  refine ⟨rest ++ s, Text.after?_eq_some_iff.2 ?_⟩
  rw [Text.trimStart, List.dropWhile_append, hne]
  show t.trimStart ++ s = _
  rw [hstart, List.append_assoc]

theorem symbol_plain (role : Role) :
    '|' ∉ role.symbol ∧ '\\' ∉ role.symbol ∧ '\n' ∉ role.symbol ∧ opens role.symbol = true := by
  cases role <;> decide

theorem tight_symbol (role : Role) : Text.Tight role.symbol := by
  cases role <;> decide

theorem symbol_ne_nil (role : Role) : role.symbol ≠ [] := by
  cases role <;> decide

/-- A role line is a margin, the symbol and what follows it. -/
theorem exists_of_opens_trim {body : Text} (h : opens body.trim = true) :
    ∃ a role t, Text.AllBlank a ∧ body = a ++ symbol role ++ t := by
  obtain ⟨a, b, ha, -, hcut⟩ := Text.exists_margins body
  rw [opens_eq, Text.trimStart_of_head (Text.tight_trim body).1, opening?,
    List.findSome?_isSome_iff] at h
  obtain ⟨role, -, hsome⟩ := h
  rw [Option.isSome_map, Option.isSome_iff_exists] at hsome
  obtain ⟨rest, hrest⟩ := hsome
  refine ⟨a, role, rest ++ b, ha, ?_⟩
  rw [Text.after?_eq_some_iff.1 hrest] at hcut
  rw [hcut]
  simp

theorem trim_symbol_append {a : Text} (ha : Text.AllBlank a) (role : Role) (t : Text) :
    (a ++ symbol role ++ t).trim = symbol role ++ t.trimEnd := by
  have hhead : Text.trimStart (symbol role ++ t) = symbol role ++ t := by
    refine Text.trimStart_of_head ?_
    rw [List.head?_append_of_ne_nil _ (symbol_ne_nil role)]
    exact (tight_symbol role).1
  rw [List.append_assoc, Text.trim, Text.trimStart_append _ ha, hhead,
    Text.trimEnd_append_of_last _ (tight_symbol role).2]

theorem opens_trim_symbol_append {a : Text} (ha : Text.AllBlank a) (role : Role) (t : Text) :
    opens (a ++ symbol role ++ t).trim = true := by
  rw [trim_symbol_append ha]
  exact opens_append _ (symbol_plain role).2.2.2

end Role

namespace Physical

/-! ## The pipe of a longer line -/

theorem splitPipe?_append_of_some {escaped : Bool} {t front back : Text} (s : Text)
    (h : splitPipe? escaped t = some (front, back)) :
    splitPipe? escaped (t ++ s) = some (front, back ++ s) := by
  induction t generalizing escaped front with
  | nil => simp [splitPipe?] at h
  | cons c rest ih =>
      rw [splitPipe?] at h
      rw [List.cons_append, splitPipe?]
      split at h
      · next hc =>
          obtain ⟨⟨a, b⟩, hab, heq⟩ := Option.map_eq_some_iff.1 h
          cases heq
          rw [if_pos hc, ih hab]
          rfl
      · next hc =>
          rw [if_neg hc]
          split at h
          · next hpipe =>
              cases h
              rw [if_pos hpipe]
              rfl
          · next hpipe =>
              obtain ⟨⟨a, b⟩, hab, heq⟩ := Option.map_eq_some_iff.1 h
              cases heq
              rw [if_neg hpipe, ih hab]
              rfl

/-- Behind a text without a pipe, a blank is not escaped in any way that matters. -/
theorem splitPipe?_append_of_none {escaped : Bool} {t : Text} (s : Text)
    (h : splitPipe? escaped t = none) :
    splitPipe? escaped (t ++ ' ' :: s) =
      (splitPipe? false s).map fun (front, back) => (t ++ ' ' :: front, back) := by
  induction t generalizing escaped with
  | nil => rfl -- the blank uses up a backslash at the end of the text
  | cons c rest ih =>
      rw [splitPipe?] at h
      rw [List.cons_append, splitPipe?]
      split at h
      · next hc =>
          rw [if_pos hc, ih (Option.map_eq_none_iff.1 h), Option.map_map]
          rfl
      · next hc =>
          rw [if_neg hc]
          split at h
          · exact absurd h (by simp)
          · next hpipe =>
              rw [if_neg hpipe, ih (Option.map_eq_none_iff.1 h), Option.map_map]
              rfl

theorem splitPipe?_append_plain {s : Text} (t : Text) (hpipe : '|' ∉ s) (hback : '\\' ∉ s) :
    splitPipe? false (s ++ t) = (splitPipe? false t).map fun (front, back) => (s ++ front, back) := by
  induction s with
  | nil => simp
  | cons c rest ih =>
      simp only [List.mem_cons, not_or] at hpipe hback
      rw [List.cons_append, splitPipe?, if_neg (Ne.symm hback.1),
        if_neg (fun hc => hpipe.1 hc.1.symm), ih hpipe.2 hback.2, Option.map_map]
      rfl

theorem exists_of_splitPipe? {escaped : Bool} {t front back : Text}
    (h : splitPipe? escaped t = some (front, back)) : ∃ rest, back = '|' :: rest := by
  induction t generalizing escaped front with
  | nil => simp [splitPipe?] at h
  | cons c rest ih =>
      rw [splitPipe?] at h
      split at h
      · obtain ⟨⟨a, b⟩, hab, heq⟩ := Option.map_eq_some_iff.1 h
        cases heq
        exact ih hab
      · split at h
        · next hpipe =>
            cases h
            exact ⟨rest, by rw [hpipe.1]⟩
        · obtain ⟨⟨a, b⟩, hab, heq⟩ := Option.map_eq_some_iff.1 h
          cases heq
          exact ih hab

/-- What follows the pipe does not matter for where it stands. -/
theorem splitPipe?_pipe {escaped : Bool} {front back : Text}
    (h : splitPipe? escaped (front ++ '|' :: back) = some (front, '|' :: back)) (back' : Text) :
    splitPipe? escaped (front ++ '|' :: back') = some (front, '|' :: back') := by
  induction front generalizing escaped with
  | nil =>
      cases escaped with
      | false => rfl
      | true =>
          rw [List.nil_append, splitPipe?, if_neg (by decide), if_neg (by simp)] at h
          obtain ⟨⟨a, b⟩, -, hab⟩ := Option.map_eq_some_iff.1 h
          simp at hab
  | cons c front ih =>
      rw [List.cons_append, splitPipe?] at h ⊢
      split at h
      · next hc =>
          obtain ⟨⟨a, b⟩, hab, heq⟩ := Option.map_eq_some_iff.1 h
          cases heq
          rw [if_pos hc, ih hab]
          rfl
      · next hc =>
          rw [if_neg hc]
          split at h
          · simp at h
          · next hpipe =>
              obtain ⟨⟨a, b⟩, hab, heq⟩ := Option.map_eq_some_iff.1 h
              cases heq
              rw [if_neg hpipe, ih hab]
              rfl

/-- A line from its pipe on. -/
def fromPipe? (line : Text) : Option Text := (splitPipe? false line).map Prod.snd

theorem tight_of_splitPipe? {t front back : Text} (ht : Text.Tight t)
    (h : splitPipe? false t = some (front, back)) : Text.Tight back := by
  obtain ⟨rest, rfl⟩ := exists_of_splitPipe? h
  have hline := splitPipe?_append h
  refine ⟨by simp; decide, ?_⟩
  rw [hline, Text.Tight, List.getLast?_append_of_ne_nil _ (by simp)] at ht
  exact ht.2

/-- The comment of a trimmed line is all from its pipe on, unless that is a pipe alone. -/
theorem splitComment_eq {t : Text} (ht : Text.Tight t) :
    (splitComment t).2 = (fromPipe? t).filter (1 < ·.length) := by
  unfold splitComment fromPipe?
  cases hpipe : splitPipe? false t with
  | none => rfl
  | some cut =>
      obtain ⟨front, back⟩ := cut
      simp only [Text.trim_of_tight (tight_of_splitPipe? ht hpipe), Option.map_some,
        Option.filter_some, decide_eq_true_eq]

/-- A pipe with anything behind it opens a comment. -/
theorem splitComment_of_fromPipe? {t comment : Text} (ht : Text.Tight t)
    (h : fromPipe? t = some comment) (hmore : comment ≠ ['|']) :
    (splitComment t).2 = some comment := by
  obtain ⟨⟨front, back⟩, hcut, rfl⟩ := Option.map_eq_some_iff.1 h
  obtain ⟨rest, hrest⟩ := exists_of_splitPipe? hcut
  have hlong : 1 < back.length := by
    cases rest with
    | nil => exact absurd hrest hmore
    | cons d rest => rw [hrest]; simp
  rw [splitComment_eq ht, h, Option.filter_some, if_pos (by simpa using hlong)]

/-! ## The depth of a longer line -/

/-- The depth of a line is settled by its first character that is no blank. -/
theorem indentation_append (width : Nat) (a s : Text) {m : Text} (hne : m ≠ [])
    (hm : Text.Tight m) : indentation width (a ++ m ++ s) = indentation width (a ++ m) := by
  have hzero : ∀ (d : Char) (t : Text), d ≠ ' ' → d ≠ '\t' → indentation width (d :: t) = 0 := by
    intro d t hspace htab
    simp [indentation, hspace, htab]
  induction a with
  | nil =>
      obtain ⟨d, m, rfl⟩ := List.exists_cons_of_ne_nil hne
      have hd : isBlank d = false := hm.1 d rfl
      have hspace : d ≠ ' ' := by rintro rfl; exact absurd hd (by decide)
      have htab : d ≠ '\t' := by rintro rfl; exact absurd hd (by decide)
      rw [List.nil_append, List.cons_append, hzero d _ hspace htab, hzero d _ hspace htab]
  | cons d a ih =>
      by_cases hspace : d = ' '
      · subst hspace
        simp only [List.cons_append, indentation, ih]
      · by_cases htab : d = '\t'
        · subst htab
          simp only [List.cons_append, indentation, ih]
        · simp only [List.cons_append, hzero d _ hspace htab]

/-- What stands behind the text of a line does not count for its depth. -/
theorem depth_append_of_tight (width : Nat) (a s : Text) {m : Text} (hne : m ≠ [])
    (hm : Text.Tight m) : depth width (a ++ m ++ s) = depth width (a ++ m) := by
  rw [depth, indentation_append width a s hne hm, depth]

theorem depth_append (width : Nat) {body : Text} (hbody : body.trim ≠ []) (s : Text) :
    depth width body = depth width (body ++ s) := by
  obtain ⟨a, b, -, -, hcut⟩ := Text.exists_margins body
  have hm := Text.tight_trim body
  rw [hcut, List.append_assoc (a ++ body.trim) b s, depth_append_of_tight width a _ hbody hm,
    depth_append_of_tight width a _ hbody hm]

end Physical

end PlanGraph
