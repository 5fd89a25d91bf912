import PlanGraph.Proofs.Json.Token

set_option autoImplicit false

/-! # Printed values are read back

Both layouts print the same tokens, with different gaps between them (`readFrom?_compact`,
`readFrom?_prettyAt`), and the machine makes the value of its tokens (`assemble_tokens`). So a printed
value is read back whatever its layout, and whatever gaps stand behind it (`read?_print`). -/

namespace PlanGraph

namespace Json

/-! ## The tokens of a value -/

mutual

/-- The tokens of a value. -/
def tokens : Json → List Token
  | null => [.scalar null]
  | bool b => [.scalar (bool b)]
  | int n => [.scalar (int n)]
  | decimal negative digits exponent => [.scalar (decimal negative digits exponent)]
  | string s => [.scalar (string s)]
  | array [] => [.openSquare, .closeSquare]
  | array (item :: items) => .openSquare :: (tokens item ++ moreItems items)
  | object [] => [.openCurly, .closeCurly]
  | object ((name, value) :: fields) =>
    .openCurly :: .scalar (string name) :: .colon :: (tokens value ++ moreFields fields)

/-- The tokens of the further items of an array and of its end. -/
def moreItems : List Json → List Token
  | [] => [.closeSquare]
  | item :: items => .comma :: (tokens item ++ moreItems items)

/-- The tokens of the further fields of an object and of its end. -/
def moreFields : List (Text × Json) → List Token
  | [] => [.closeCurly]
  | (name, value) :: fields =>
    .comma :: .scalar (string name) :: .colon :: (tokens value ++ moreFields fields)

end

/-! ## Values from their tokens -/

/-- The first item of an array is read like any other. -/
theorem assemble_itemOrEnd (j : Json) (stack : List Frame) (ts : List Token) :
    assemble .itemOrEnd stack (tokens j ++ ts) =
      assemble .value (.items [] :: stack) (tokens j ++ ts) := by
  rcases j with _ | _ | _ | _ | _ | (_ | _) | (_ | _)
  all_goals simp [tokens, assemble]

mutual

theorem assemble_tokens : ∀ (j : Json) (stack : List Frame) (ts : List Token),
    assemble .value stack (tokens j ++ ts) = assemble (.next j) stack ts
  | null, stack, ts => by simp [tokens, assemble]
  | bool b, stack, ts => by simp [tokens, assemble]
  | int n, stack, ts => by simp [tokens, assemble]
  | decimal negative digits exponent, stack, ts => by simp [tokens, assemble]
  | string s, stack, ts => by simp [tokens, assemble]
  | array [], stack, ts => by simp [tokens, assemble]
  | array (item :: items), stack, ts => by
      have hitem := assemble_tokens item (.items [] :: stack) (moreItems items ++ ts)
      have hitems := assemble_moreItems items item [] stack ts
      rw [tokens, List.cons_append, List.append_assoc, assemble, assemble_itemOrEnd, hitem, hitems]
      rfl
  | object [], stack, ts => by simp [tokens, assemble]
  | object ((name, value) :: fields), stack, ts => by
      have hvalue := assemble_tokens value (.fields [] name :: stack) (moreFields fields ++ ts)
      have hfields := assemble_moreFields fields name value [] stack ts
      simp only [tokens, List.cons_append, List.append_assoc, assemble]
      rw [hvalue, hfields]
      rfl

theorem assemble_moreItems : ∀ (items : List Json) (v : Json) (before : List Json)
    (stack : List Frame) (ts : List Token),
    assemble (.next v) (.items before :: stack) (moreItems items ++ ts) =
      assemble (.next (array (before.reverse ++ v :: items))) stack ts
  | [], v, before, stack, ts => by simp [moreItems, assemble]
  | item :: items, v, before, stack, ts => by
      have hitem := assemble_tokens item (.items (v :: before) :: stack) (moreItems items ++ ts)
      have hitems := assemble_moreItems items item (v :: before) stack ts
      rw [moreItems, List.cons_append, List.append_assoc, assemble, hitem, hitems,
        List.reverse_cons, List.append_assoc, List.singleton_append]

theorem assemble_moreFields : ∀ (fields : List (Text × Json)) (name : Text) (v : Json)
    (before : List (Text × Json)) (stack : List Frame) (ts : List Token),
    assemble (.next v) (.fields before name :: stack) (moreFields fields ++ ts) =
      assemble (.next (object (before.reverse ++ (name, v) :: fields))) stack ts
  | [], name, v, before, stack, ts => by simp [moreFields, assemble]
  | (name', value) :: fields, name, v, before, stack, ts => by
      have hvalue := assemble_tokens value (.fields ((name, v) :: before) name' :: stack)
        (moreFields fields ++ ts)
      have hfields := assemble_moreFields fields name' value ((name, v) :: before) stack ts
      simp only [moreFields, List.cons_append, List.append_assoc, assemble]
      rw [hvalue, hfields, List.reverse_cons, List.append_assoc, List.singleton_append]

end

/-! ## Tokens of the compact layout -/

open Token

theorem ends_cons {c : Char} {rest : Text}
    (h : c.isDigit = false ∧ c ≠ '.' ∧ c ≠ 'e' ∧ c ≠ 'E') : Ends (c :: rest) := by
  intro d hd
  obtain rfl : c = d := by simpa using hd
  exact h

/-- All items of an array and its end. -/
def itemTokens : List Json → List Token
  | [] => [.closeSquare]
  | item :: items => tokens item ++ moreItems items

/-- All fields of an object and its end. -/
def fieldTokens : List (Text × Json) → List Token
  | [] => [.closeCurly]
  | (name, value) :: fields =>
    .scalar (string name) :: .colon :: (tokens value ++ moreFields fields)

theorem tokens_array (items : List Json) : tokens (array items) = .openSquare :: itemTokens items := by
  cases items <;> simp [tokens, itemTokens]

theorem tokens_object (fields : List (Text × Json)) :
    tokens (object fields) = .openCurly :: fieldTokens fields := by
  rcases fields with _ | ⟨⟨name, value⟩, fields⟩ <;> simp [tokens, fieldTokens]

mutual

theorem readFrom?_compact : ∀ (j : Json) {rest : Text} {ts : List Token}, Ends rest →
    readFrom? 0 rest = some ts → readFrom? 0 (compact j ++ rest) = some (tokens j ++ ts)
  | null, rest, ts, _, h => readFrom?_append (t := ['u', 'l', 'l']) rfl rfl h
  | bool true, rest, ts, _, h => readFrom?_append (t := ['r', 'u', 'e']) rfl rfl h
  | bool false, rest, ts, _, h => readFrom?_append (t := ['a', 'l', 's', 'e']) rfl rfl h
  | int n, rest, ts, hends, h => readFrom?_integer n hends h
  | decimal negative digits exponent, rest, ts, hends, h =>
      readFrom?_scientific negative digits exponent hends h
  | string s, rest, ts, _, h => readFrom?_quote s h
  | array items, rest, ts, _, h => by
      rw [tokens_array]
      exact readFrom?_mark rfl rfl (readFrom?_compactItems items h)
  | object fields, rest, ts, _, h => by
      rw [tokens_object]
      exact readFrom?_mark rfl rfl (readFrom?_compactFields fields h)

theorem readFrom?_compactItems : ∀ (items : List Json) {rest : Text} {ts : List Token},
    readFrom? 0 rest = some ts →
      readFrom? 0 (compactItems items ++ rest) = some (itemTokens items ++ ts)
  | [], rest, ts, h => readFrom?_mark rfl rfl h
  | [item], rest, ts, h => by
      simp only [compactItems, itemTokens, moreItems, List.append_assoc, List.singleton_append]
      exact readFrom?_compact item (ends_cons (by decide)) (readFrom?_mark rfl rfl h)
  | item :: next :: items, rest, ts, h => by
      have hitems := readFrom?_compactItems (next :: items) h
      simp only [compactItems, itemTokens, moreItems, List.append_assoc, List.cons_append] at hitems ⊢
      exact readFrom?_compact item (ends_cons (by decide)) (readFrom?_mark rfl rfl hitems)

theorem readFrom?_compactFields : ∀ (fields : List (Text × Json)) {rest : Text} {ts : List Token},
    readFrom? 0 rest = some ts →
      readFrom? 0 (compactFields fields ++ rest) = some (fieldTokens fields ++ ts)
  | [], rest, ts, h => readFrom?_mark rfl rfl h
  | [(name, value)], rest, ts, h => by
      simp only [compactFields, fieldTokens, moreFields, List.append_assoc, List.cons_append,
        List.nil_append]
      refine readFrom?_quote name (readFrom?_mark rfl rfl ?_)
      exact readFrom?_compact value (ends_cons (by decide)) (readFrom?_mark rfl rfl h)
  | (name, value) :: next :: fields, rest, ts, h => by
      have hfields := readFrom?_compactFields (next :: fields) h
      simp only [compactFields, fieldTokens, moreFields, List.append_assoc,
        List.cons_append] at hfields ⊢
      refine readFrom?_quote name (readFrom?_mark rfl rfl ?_)
      exact readFrom?_compact value (ends_cons (by decide)) (readFrom?_mark rfl rfl hfields)

end

/-! ## Tokens of the pretty layout -/

theorem readFrom?_newLine (level : Nat) {rest : Text} {ts : List Token}
    (h : readFrom? 0 rest = some ts) : readFrom? 0 (newLine level ++ rest) = some ts := by
  refine readFrom?_gaps ?_ h
  intro c hc
  rcases List.mem_cons.1 hc with rfl | hc
  · rfl
  · rw [List.eq_of_mem_replicate hc]
    rfl

theorem ends_prettyItems (level : Nat) (items : List Json) (rest : Text) :
    Ends (prettyItems level items ++ rest) := by
  cases items <;> exact ends_cons (by decide)

theorem ends_prettyFields (level : Nat) (fields : List (Text × Json)) (rest : Text) :
    Ends (prettyFields level fields ++ rest) := by
  cases fields <;> exact ends_cons (by decide)

mutual

theorem readFrom?_prettyAt : ∀ (j : Json) (level : Nat) {rest : Text} {ts : List Token}, Ends rest →
    readFrom? 0 rest = some ts → readFrom? 0 (prettyAt level j ++ rest) = some (tokens j ++ ts)
  | null, level, rest, ts, _, h => readFrom?_append (t := ['u', 'l', 'l']) rfl rfl h
  | bool true, level, rest, ts, _, h => readFrom?_append (t := ['r', 'u', 'e']) rfl rfl h
  | bool false, level, rest, ts, _, h => readFrom?_append (t := ['a', 'l', 's', 'e']) rfl rfl h
  | int n, level, rest, ts, hends, h => readFrom?_integer n hends h
  | decimal negative digits exponent, level, rest, ts, hends, h =>
      readFrom?_scientific negative digits exponent hends h
  | string s, level, rest, ts, _, h => readFrom?_quote s h
  | array [], level, rest, ts, _, h => readFrom?_mark rfl rfl (readFrom?_mark rfl rfl h)
  | array (item :: items), level, rest, ts, _, h => by
      have hitems := readFrom?_prettyItems items level h
      simp only [prettyAt, tokens, List.append_assoc, List.cons_append]
      refine readFrom?_mark rfl rfl (readFrom?_newLine _ ?_)
      exact readFrom?_prettyAt item _ (ends_prettyItems level items rest) hitems
  | object [], level, rest, ts, _, h => readFrom?_mark rfl rfl (readFrom?_mark rfl rfl h)
  | object ((name, value) :: fields), level, rest, ts, _, h => by
      have hfields := readFrom?_prettyFields fields level h
      simp only [prettyAt, tokens, List.append_assoc, List.cons_append]
      refine readFrom?_mark rfl rfl (readFrom?_newLine _ (readFrom?_quote name ?_))
      refine readFrom?_mark rfl rfl (readFrom?_gaps (t := [' ']) (by simp [isGap]) ?_)
      exact readFrom?_prettyAt value _ (ends_prettyFields level fields rest) hfields

theorem readFrom?_prettyItems : ∀ (items : List Json) (level : Nat) {rest : Text} {ts : List Token},
    readFrom? 0 rest = some ts →
      readFrom? 0 (prettyItems level items ++ rest) = some (moreItems items ++ ts)
  | [], level, rest, ts, h => by
      simp only [prettyItems, moreItems, List.append_assoc, List.singleton_append]
      exact readFrom?_newLine _ (readFrom?_mark rfl rfl h)
  | item :: items, level, rest, ts, h => by
      have hitems := readFrom?_prettyItems items level h
      simp only [prettyItems, moreItems, List.append_assoc, List.cons_append]
      refine readFrom?_mark rfl rfl (readFrom?_newLine _ ?_)
      exact readFrom?_prettyAt item _ (ends_prettyItems level items rest) hitems

theorem readFrom?_prettyFields : ∀ (fields : List (Text × Json)) (level : Nat) {rest : Text}
    {ts : List Token}, readFrom? 0 rest = some ts →
      readFrom? 0 (prettyFields level fields ++ rest) = some (moreFields fields ++ ts)
  | [], level, rest, ts, h => by
      simp only [prettyFields, moreFields, List.append_assoc, List.singleton_append]
      exact readFrom?_newLine _ (readFrom?_mark rfl rfl h)
  | (name, value) :: fields, level, rest, ts, h => by
      have hfields := readFrom?_prettyFields fields level h
      simp only [prettyFields, moreFields, List.append_assoc, List.cons_append]
      refine readFrom?_mark rfl rfl (readFrom?_newLine _ (readFrom?_quote name ?_))
      refine readFrom?_mark rfl rfl (readFrom?_gaps (t := [' ']) (by simp [isGap]) ?_)
      exact readFrom?_prettyAt value _ (ends_prettyFields level fields rest) hfields

end

/-! ## Both layouts -/

/-- A printed value is read back, whatever gaps stand behind it. -/
theorem read?_print (isPretty : Bool) (j : Json) {gaps : Text} (h : ∀ c ∈ gaps, isGap c = true) :
    read? (print isPretty j ++ gaps) = some j := by
  have hgaps : readFrom? 0 (gaps ++ []) = some [] := readFrom?_gaps h rfl
  rw [List.append_nil] at hgaps
  have hends : Ends gaps := by
    intro c hc
    have hgap := h c (List.mem_of_mem_head? hc)
    simp only [isGap, Bool.or_eq_true, beq_iff_eq] at hgap
    rcases hgap with ((rfl | rfl) | rfl) | rfl
    all_goals decide
  have htokens : readFrom? 0 (print isPretty j ++ gaps) = some (tokens j ++ []) := by
    cases isPretty with
    | true => exact readFrom?_prettyAt j 0 hends hgaps
    | false => exact readFrom?_compact j hends hgaps
  rw [read?, readAll?, htokens, Option.bind_some, assemble_tokens, assemble]

end Json

end PlanGraph
