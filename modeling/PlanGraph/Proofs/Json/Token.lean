import PlanGraph.Json.Printer
import PlanGraph.Json.Reader
import PlanGraph.Proofs.Position.Spelling

set_option autoImplicit false

/-! # Tokens of printed values

A printed string, number or word is one token again. A string ends at its closing quote
(`stringBody?_quote`). A number has no such end: it ends where the text behind it cannot go on with
it, which is what `Ends` says. -/

namespace PlanGraph

namespace Json

namespace Token

/-! ## Strings -/

theorem stringBody?_simpleEscape {letter c : Char} (h : simpleEscape? letter = some c)
    (rest : Text) :
    stringBody? ('\\' :: letter :: rest) =
      (stringBody? rest).map fun (s, left) => (c :: s, left) := by
  have hu : letter ≠ 'u' := by
    rintro rfl
    cases h
  rw [stringBody?]
  · simp only [h]
  · intro a b c d more he
    exact absurd he hu

theorem hexValue?_hexDigit {n : Nat} (h : n < 16) : hexValue? (hexDigit n) = some n := by
  have hall : ∀ n < 16, hexValue? (hexDigit n) = some n := by decide
  exact hall n h

/-- A control character is spelled by its number. -/
theorem stringBody?_control {c : Char} (h : c.toNat < 0x20) (rest : Text) :
    stringBody? ('\\' :: 'u' :: '0' :: '0' :: hexDigit (c.toNat / 16) ::
        hexDigit (c.toNat % 16) :: rest) =
      (stringBody? rest).map fun (s, left) => (c :: s, left) := by
  have hvalue : hexValue4? '0' '0' (hexDigit (c.toNat / 16)) (hexDigit (c.toNat % 16)) =
      some c.toNat := by
    have hzero : hexValue? '0' = some 0 := by decide
    have hsum : ((0 * 16 + 0) * 16 + c.toNat / 16) * 16 + c.toNat % 16 = c.toNat := by omega
    simp only [hexValue4?, hzero, hexValue?_hexDigit (show c.toNat / 16 < 16 by omega),
      hexValue?_hexDigit (show c.toNat % 16 < 16 by omega), Option.bind_eq_bind, Option.bind_some,
      Option.pure_def, hsum]
  have hhigh : isHighSurrogate c.toNat = false := by
    rw [isHighSurrogate, Bool.and_eq_false_iff, decide_eq_false_iff_not]
    omega
  have hlow : isLowSurrogate c.toNat = false := by
    rw [isLowSurrogate, Bool.and_eq_false_iff, decide_eq_false_iff_not]
    omega
  rw [stringBody?]
  simp only [hvalue, hhigh, hlow, Bool.false_eq_true, if_false, Char.ofNat_toNat]

theorem stringBody?_plain {c : Char} (hquote : c ≠ '"') (hslash : c ≠ '\\')
    (hcontrol : ¬ c.toNat < 0x20) (rest : Text) :
    stringBody? (c :: rest) = (stringBody? rest).map fun (s, left) => (c :: s, left) := by
  rw [stringBody?]
  · simp [hcontrol, hslash]
  · exact hquote
  · intro a b d e more he
    exact absurd he hslash
  · intro letter more he
    exact absurd he hslash

theorem stringBody?_escape (c : Char) (rest : Text) :
    stringBody? (escape c ++ rest) =
      (stringBody? rest).map fun (s, left) => (c :: s, left) := by
  unfold escape
  split_ifs with hquote hslash h h h h h hcontrol
  · subst hquote
    exact stringBody?_simpleEscape rfl rest
  · subst hslash
    exact stringBody?_simpleEscape rfl rest
  · exact h ▸ stringBody?_simpleEscape rfl rest
  · exact h ▸ stringBody?_simpleEscape rfl rest
  · exact h ▸ stringBody?_simpleEscape rfl rest
  · exact h ▸ stringBody?_simpleEscape rfl rest
  · exact h ▸ stringBody?_simpleEscape rfl rest
  · exact stringBody?_control hcontrol rest
  · exact stringBody?_plain hquote hslash hcontrol rest

theorem stringBody?_flatMap_escape (s rest : Text) :
    stringBody? (s.flatMap escape ++ '"' :: rest) = some (s, rest) := by
  induction s with
  | nil => rfl
  | cons c s ih => rw [List.flatMap_cons, List.append_assoc, stringBody?_escape, ih, Option.map_some]

/-! ## Numbers -/

/-- No number goes on with this text. -/
def Ends (rest : Text) : Prop :=
  ∀ c ∈ rest.head?, c.isDigit = false ∧ c ≠ '.' ∧ c ≠ 'e' ∧ c ≠ 'E'

theorem digits?_append {ds rest : Text} (hne : ds ≠ []) (hds : ∀ c ∈ ds, c.isDigit = true)
    (hrest : ∀ c ∈ rest.head?, c.isDigit = false) : digits? (ds ++ rest) = some (ds, rest) := by
  have hnone : rest.takeWhile Char.isDigit = [] ∧ rest.dropWhile Char.isDigit = rest := by
    cases rest with
    | nil => exact ⟨rfl, rfl⟩
    | cons c rest =>
        have hc : ¬ c.isDigit = true := by simp [hrest c rfl]
        exact ⟨List.takeWhile_cons_of_neg hc, List.dropWhile_cons_of_neg hc⟩
  rw [digits?, List.takeWhile_append_of_pos hds, List.dropWhile_append_of_pos hds, hnone.1, hnone.2,
    List.append_nil]
  cases ds with
  | nil => exact absurd rfl hne
  | cons d ds => rfl

theorem exists_decimal_cons (n : Nat) :
    ∃ d ds, Numeral.decimal n = d :: ds ∧ d.isDigit = true := by
  obtain ⟨d, ds, hds⟩ := List.exists_cons_of_ne_nil (Numeral.decimal_ne_nil n)
  exact ⟨d, ds, hds, Numeral.isDigit_of_mem_decimal (by rw [hds]; exact List.mem_cons_self)⟩

/-- A number other than zero starts with another digit. -/
theorem head_decimal_ne_zero {n : Nat} (h : 0 < n) : (Numeral.decimal n).head? ≠ some '0' := by
  induction n using Nat.strongRecOn with
  | _ n ih =>
      by_cases hlt : n < 10
      · have hall : ∀ n < 10, 0 < n → (Numeral.decimal n).head? ≠ some '0' := by decide
        exact hall n hlt h
      · have hle : 10 ≤ n := Nat.le_of_not_lt hlt
        have hdigits : Numeral.decimal n = Numeral.decimal (n / 10) ++ [(n % 10).digitChar] :=
          Nat.toDigits_of_base_le (by decide) hle
        rw [hdigits, List.head?_append_of_ne_nil _ (Numeral.decimal_ne_nil _)]
        exact ih (n / 10) (by omega) (by omega)

theorem wholeDigits?_decimal (n : Nat) {rest : Text}
    (hrest : ∀ c ∈ rest.head?, c.isDigit = false) :
    wholeDigits? (Numeral.decimal n ++ rest) = some (Numeral.decimal n, rest) := by
  rcases Nat.eq_zero_or_pos n with rfl | hn
  · rfl
  · rw [wholeDigits?]
    · exact digits?_append (Numeral.decimal_ne_nil n)
        (fun _ hc => Numeral.isDigit_of_mem_decimal hc) hrest
    · intro more he
      obtain ⟨d, ds, hds, -⟩ := exists_decimal_cons n
      rw [hds] at he
      obtain ⟨rfl, -⟩ := List.cons.inj he
      exact head_decimal_ne_zero hn (by rw [hds]; rfl)

theorem fraction?_of_ends {rest : Text} (h : ∀ c ∈ rest.head?, c ≠ '.') :
    fraction? rest = some (none, rest) := by
  rw [fraction?]
  intro more he
  exact absurd rfl (h '.' (by rw [he]; rfl))

theorem exponent?_of_ends {rest : Text} (h : ∀ c ∈ rest.head?, c ≠ 'e' ∧ c ≠ 'E') :
    exponent? rest = some (none, rest) := by
  cases rest with
  | nil => rfl
  | cons c rest =>
      obtain ⟨he, hE⟩ := h c rfl
      simp [exponent?, he, hE]

/-- The sign of a number. -/
def sign (negative : Bool) : Text := if negative then ['-'] else []

/-- A whole number and what may stand behind it. -/
theorem number?_decimal (negative : Bool) (n : Nat) {tail rest : Text} {exponent : Option Int}
    (htail : ∀ c ∈ tail.head?, c.isDigit = false ∧ c ≠ '.')
    (hexponent : exponent? tail = some (exponent, rest)) :
    number? (sign negative ++ (Numeral.decimal n ++ tail)) =
      some (numberOf negative (Numeral.decimal n) none exponent, rest) := by
  have hwhole := wholeDigits?_decimal n fun c hc => (htail c hc).1
  have hfraction := fraction?_of_ends fun c hc => (htail c hc).2
  cases negative with
  | true =>
      simp only [number?, sign, if_true, List.singleton_append, hwhole, hfraction, hexponent,
        Option.bind_eq_bind, Option.bind_some, Option.pure_def]
  | false =>
      obtain ⟨d, ds, hds, hd⟩ := exists_decimal_cons n
      have hminus : ∀ t, d :: (ds ++ tail) ≠ '-' :: t := by
        intro t he
        obtain ⟨rfl, -⟩ := List.cons.inj he
        exact absurd hd (by decide)
      simp only [sign, Bool.false_eq_true, if_false, List.nil_append]
      unfold number?
      rw [hds, List.cons_append] at hwhole ⊢
      split
      next negative body he =>
        split at he
        · next t ht => exact absurd ht (hminus t)
        · cases he
          simp only [hwhole, hfraction, hexponent, Option.bind_eq_bind, Option.bind_some,
            Option.pure_def]

theorem number?_integer (n : Int) {rest : Text} (h : Ends rest) :
    number? (integer n ++ rest) = some (int n, rest) := by
  have htail : ∀ c ∈ rest.head?, c.isDigit = false ∧ c ≠ '.' := fun c hc =>
    ⟨(h c hc).1, (h c hc).2.1⟩
  have hexponent := exponent?_of_ends fun c hc => (h c hc).2.2
  cases n with
  | ofNat n =>
      have hread := number?_decimal false n htail hexponent
      rw [numberOf, Numeral.value_decimal] at hread
      exact hread
  | negSucc n =>
      have hread := number?_decimal true (n + 1) htail hexponent
      rw [numberOf, Numeral.value_decimal, if_neg (Nat.succ_ne_zero n)] at hread
      exact hread

theorem exponent?_integer (n : Int) {rest : Text} (h : Ends rest) :
    exponent? ('e' :: (integer n ++ rest)) = some (some n, rest) := by
  have hdigits : ∀ n, digits? (Numeral.decimal n ++ rest) = some (Numeral.decimal n, rest) :=
    fun n => digits?_append (Numeral.decimal_ne_nil n)
      (fun _ hc => Numeral.isDigit_of_mem_decimal hc) (fun c hc => (h c hc).1)
  cases n with
  | ofNat n =>
      obtain ⟨d, ds, hds, hd⟩ := exists_decimal_cons n
      have hvalue := hdigits n
      simp only [integer, exponent?, decide_true, Bool.true_or, if_true]
      rw [hds, List.cons_append] at hvalue ⊢
      split
      · next t he =>
          obtain ⟨rfl, -⟩ := List.cons.inj he
          exact absurd hd (by decide)
      · next t he =>
          obtain ⟨rfl, -⟩ := List.cons.inj he
          exact absurd hd (by decide)
      · rw [hvalue, Option.map_some, ← hds, Numeral.value_decimal]
        rfl
  | negSucc n =>
      simp only [integer, exponent?, decide_true, Bool.true_or, if_true, List.cons_append, hdigits,
        Option.map_some, Numeral.value_decimal]
      rfl

theorem number?_scientific (negative : Bool) (digits : Nat) (exponent : Int) {rest : Text}
    (h : Ends rest) :
    number? (scientific negative digits exponent ++ rest) =
      some (decimal negative digits exponent, rest) := by
  have htail : ∀ c ∈ ('e' :: (integer exponent ++ rest)).head?, c.isDigit = false ∧ c ≠ '.' := by
    intro c hc
    obtain rfl : 'e' = c := by simpa using hc
    decide
  have hread := number?_decimal negative digits htail (exponent?_integer exponent h)
  have htext : sign negative ++ (Numeral.decimal digits ++ 'e' :: (integer exponent ++ rest)) =
      scientific negative digits exponent ++ rest := by
    cases negative <;> simp [sign, scientific]
  have hvalue : numberOf negative (Numeral.decimal digits) none (some exponent) =
      decimal negative digits exponent := by
    cases negative <;> simp [numberOf, Numeral.value_decimal]
  rw [← htext, hread, hvalue]

/-! ## One token in front -/

section ReadFrom

variable {rest : Text} {ts : List Token}

/-- Of the token at the front nothing is read again. -/
theorem readFrom?_append {c : Char} {t : Text} {token : Token} (hgap : isGap c = false)
    (hread : read? (c :: (t ++ rest)) = some (token, rest)) (h : readFrom? 0 rest = some ts) :
    readFrom? 0 (c :: (t ++ rest)) = some (token :: ts) := by
  have hskip : ∀ t : Text, readFrom? t.length (t ++ rest) = readFrom? 0 rest := by
    intro t
    induction t with
    | nil => rfl
    | cons d t ih => rw [List.length_cons, List.cons_append, readFrom?, ih]
  have hlength : (t ++ rest).length - rest.length = t.length := by simp
  rw [readFrom?, hgap, hread]
  simp only [Bool.false_eq_true, if_false, hlength, hskip, h, Option.map_some]

/-- A token of one character. -/
theorem readFrom?_mark {c : Char} {token : Token} (hgap : isGap c = false)
    (hread : read? (c :: rest) = some (token, rest)) (h : readFrom? 0 rest = some ts) :
    readFrom? 0 (c :: rest) = some (token :: ts) :=
  readFrom?_append (t := []) hgap hread h

theorem readFrom?_gaps {t : Text} (hgaps : ∀ c ∈ t, isGap c = true) (h : readFrom? 0 rest = some ts) :
    readFrom? 0 (t ++ rest) = some ts := by
  induction t with
  | nil => exact h
  | cons c t ih =>
      rw [List.cons_append, readFrom?, if_pos (hgaps c List.mem_cons_self)]
      exact ih fun d hd => hgaps d (List.mem_cons_of_mem _ hd)

theorem readFrom?_quote (s : Text) (h : readFrom? 0 rest = some ts) :
    readFrom? 0 (quote s ++ rest) = some (scalar (string s) :: ts) := by
  have htext : quote s ++ rest = '"' :: (s.flatMap escape ++ ['"'] ++ rest) := rfl
  rw [htext]
  refine readFrom?_append rfl ?_ h
  rw [read?, List.append_assoc, List.singleton_append, stringBody?_flatMap_escape]
  rfl

/-- What starts with a digit or a minus sign is a number. -/
theorem read?_number {c : Char} {t : Text} {value : Json} (hc : c.isDigit = true ∨ c = '-')
    (h : number? (c :: t) = some (value, rest)) : read? (c :: t) = some (scalar value, rest) := by
  have hother : ∀ (d : Char) (more : Text), d.isDigit = false → d ≠ '-' → c :: t ≠ d :: more := by
    intro d more hd hminus he
    obtain ⟨rfl, -⟩ := List.cons.inj he
    rcases hc with hc | hc
    · rw [hd] at hc
      cases hc
    · exact hminus hc
  rw [read?]
  · rw [h]
    rfl
  all_goals
    intro more
    exact hother _ _ (by decide) (by decide)

theorem readFrom?_number {c : Char} {t : Text} {value : Json} (hc : c.isDigit = true ∨ c = '-')
    (hnumber : number? (c :: t ++ rest) = some (value, rest)) (h : readFrom? 0 rest = some ts) :
    readFrom? 0 (c :: t ++ rest) = some (scalar value :: ts) := by
  have hgap : isGap c = false := by
    rcases hc with hc | rfl
    · simp only [isGap, Bool.or_eq_false_iff, beq_eq_false_iff_ne]
      refine ⟨⟨⟨?_, ?_⟩, ?_⟩, ?_⟩
      all_goals
        rintro rfl
        exact absurd hc (by decide)
    · rfl
  exact readFrom?_append hgap (read?_number hc hnumber) h

theorem readFrom?_integer (n : Int) (hends : Ends rest) (h : readFrom? 0 rest = some ts) :
    readFrom? 0 (integer n ++ rest) = some (scalar (int n) :: ts) := by
  have hnumber := number?_integer n hends
  cases n with
  | ofNat n =>
      obtain ⟨d, ds, hds, hd⟩ := exists_decimal_cons n
      rw [integer, hds] at hnumber ⊢
      exact readFrom?_number (Or.inl hd) hnumber h
  | negSucc n => exact readFrom?_number (Or.inr rfl) hnumber h

theorem readFrom?_scientific (negative : Bool) (digits : Nat) (exponent : Int) (hends : Ends rest)
    (h : readFrom? 0 rest = some ts) :
    readFrom? 0 (scientific negative digits exponent ++ rest) =
      some (scalar (decimal negative digits exponent) :: ts) := by
  have hnumber := number?_scientific negative digits exponent hends
  cases negative with
  | true => exact readFrom?_number (Or.inr rfl) hnumber h
  | false =>
      obtain ⟨d, ds, hds, hd⟩ := exists_decimal_cons digits
      simp only [scientific, Bool.false_eq_true, if_false, hds, List.cons_append] at hnumber ⊢
      exact readFrom?_number (Or.inl hd) hnumber h

end ReadFrom

end Token

end Json

end PlanGraph
