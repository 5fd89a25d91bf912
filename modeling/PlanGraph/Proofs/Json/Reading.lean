import PlanGraph.Proofs.Items.Whole
import PlanGraph.Proofs.Json.Printing

set_option autoImplicit false

/-! # What is read was written

The other half of reading what is printed: a text gives a value only if its tokens are those of the
value (`readAll?_of_read?`). The machine keeps all that it took, on its stack and in what it waits
for (`taken`), and at the end that is one value. So a string in a value needs a quote in the text,
and a list in brackets that has no quotes is no array of strings (`texts?_read?_of_no_quote`); with
quotes around its items it is one (`read?_written_quote`). -/

namespace PlanGraph

namespace Json

/-! ## Tokens of a list and its last member -/

/-- The items of an array that is not finished, each with the comma behind it. -/
def itemsTaken (before : List Json) : List Token :=
  before.reverse.flatMap fun v => tokens v ++ [.comma]

/-- The fields of an object that is not finished, each with the comma behind it. -/
def fieldsTaken (before : List (Text × Json)) : List Token :=
  before.reverse.flatMap fun f => .scalar (string f.1) :: .colon :: (tokens f.2 ++ [.comma])

@[simp]
theorem itemsTaken_nil : itemsTaken [] = [] := rfl

@[simp]
theorem itemsTaken_cons (v : Json) (before : List Json) :
    itemsTaken (v :: before) = itemsTaken before ++ (tokens v ++ [.comma]) := by
  simp [itemsTaken]

@[simp]
theorem fieldsTaken_nil : fieldsTaken [] = [] := rfl

@[simp]
theorem fieldsTaken_cons (name : Text) (v : Json) (before : List (Text × Json)) :
    fieldsTaken ((name, v) :: before) =
      fieldsTaken before ++ .scalar (string name) :: .colon :: (tokens v ++ [.comma]) := by
  simp [fieldsTaken]

theorem itemTokens_concat (items : List Json) (v : Json) :
    itemTokens (items ++ [v]) =
      items.flatMap (fun v => tokens v ++ [.comma]) ++ (tokens v ++ [.closeSquare]) := by
  induction items with
  | nil => simp [itemTokens, moreItems]
  | cons item items ih =>
      cases items with
      | nil => simp [itemTokens, moreItems]
      | cons next items =>
          rw [List.cons_append, itemTokens] at ih
          rw [List.cons_append, List.cons_append, itemTokens, moreItems, ih]
          simp

theorem fieldTokens_concat (fields : List (Text × Json)) (name : Text) (v : Json) :
    fieldTokens (fields ++ [(name, v)]) =
      fields.flatMap (fun f => .scalar (string f.1) :: .colon :: (tokens f.2 ++ [.comma])) ++
        .scalar (string name) :: .colon :: (tokens v ++ [.closeCurly]) := by
  induction fields with
  | nil => simp [fieldTokens, moreFields]
  | cons field fields ih =>
      cases fields with
      | nil => simp [fieldTokens, moreFields]
      | cons next fields =>
          rw [List.cons_append, fieldTokens] at ih
          rw [List.cons_append, List.cons_append, fieldTokens, moreFields, ih]
          simp

theorem tokens_array_reverse (v : Json) (before : List Json) :
    tokens (array (v :: before).reverse) =
      .openSquare :: (itemsTaken before ++ (tokens v ++ [.closeSquare])) := by
  rw [tokens_array, List.reverse_cons, itemTokens_concat, itemsTaken]

theorem tokens_object_reverse (name : Text) (v : Json) (before : List (Text × Json)) :
    tokens (object ((name, v) :: before).reverse) =
      .openCurly :: (fieldsTaken before ++
        .scalar (string name) :: .colon :: (tokens v ++ [.closeCurly])) := by
  rw [tokens_object, List.reverse_cons, fieldTokens_concat, fieldsTaken]

/-! ## The machine -/

/-- The tokens of an unfinished array or object, up to the value that it waits for. -/
def Frame.taken : Frame → List Token
  | items before => .openSquare :: itemsTaken before
  | fields before name => .openCurly :: (fieldsTaken before ++ [.scalar (string name), .colon])

/-- The tokens that are in no frame of the stack. -/
def Expected.taken : Expected → List Token
  | value => []
  | itemOrEnd => [.openSquare]
  | fieldOrEnd => [.openCurly]
  | field before => .openCurly :: fieldsTaken before
  | colon before name => .openCurly :: (fieldsTaken before ++ [.scalar (string name)])
  | next v => tokens v

/-- The tokens that the frames of a stack hold, innermost last. -/
def stackTaken : List Frame → List Token
  | [] => []
  | frame :: stack => stackTaken stack ++ frame.taken

/-- All tokens that the machine has taken. -/
def taken (e : Expected) (stack : List Frame) : List Token := stackTaken stack ++ e.taken

/-- A value that is a single token. -/
def IsScalar (v : Json) : Prop := tokens v = [.scalar v]

/-- Each step moves one token from the text to what the machine has taken, so at the end the value
    has all of them. -/
theorem taken_of_assemble {e : Expected} {stack : List Frame} {ts : List Token} {j : Json}
    (hscalar : ∀ v, .scalar v ∈ ts → IsScalar v) (h : assemble e stack ts = some j) :
    taken e stack ++ ts = tokens j := by
  fun_induction assemble e stack ts with
  | case1 v =>
      obtain rfl := Option.some.inj h
      simp [taken, stackTaken, Expected.taken]
  -- a closing bracket turns a frame into one value, which has the tokens of the frame
  | case3 v before stack ts ih =>
      rw [← ih (fun w hw => hscalar w (List.mem_cons_of_mem _ hw)) h]
      simp only [taken, Expected.taken, tokens_array_reverse]
      simp [stackTaken, Frame.taken]
  | case5 v before name stack ts ih =>
      rw [← ih (fun w hw => hscalar w (List.mem_cons_of_mem _ hw)) h]
      simp only [taken, Expected.taken, tokens_object_reverse]
      simp [stackTaken, Frame.taken]
  -- a scalar is a value at once
  | case6 stack v ts ih | case10 stack v ts ih =>
      have hv : tokens v = [.scalar v] := hscalar v List.mem_cons_self
      rw [← ih (fun w hw => hscalar w (List.mem_cons_of_mem _ hw)) h]
      simp [taken, stackTaken, Expected.taken, Frame.taken, hv]
  | case17 => cases h
  | _ =>
      rename_i ih
      rw [← ih (fun w hw => hscalar w (List.mem_cons_of_mem _ hw)) h]
      simp [taken, stackTaken, Expected.taken, Frame.taken, tokens]

/-! ## The tokens of a text -/

namespace Token

theorem isScalar_numberOf (negative : Bool) (whole : Text) (fraction : Option Text)
    (exponent : Option Int) :
    IsScalar (numberOf negative whole fraction exponent) ∧
      ∀ s, numberOf negative whole fraction exponent ≠ string s := by
  unfold numberOf
  split
  · exact ⟨by simp [IsScalar, tokens], nofun⟩
  · split <;> exact ⟨by simp [IsScalar, tokens], nofun⟩
  · exact ⟨by simp [IsScalar, tokens], nofun⟩

theorem exists_of_number? {t left : Text} {v : Json} (h : number? t = some (v, left)) :
    ∃ negative whole fraction exponent, v = numberOf negative whole fraction exponent := by
  unfold number? at h
  simp only [Option.bind_eq_bind, Option.bind_eq_some_iff, Option.pure_def, Option.some.injEq,
    Prod.mk.injEq] at h
  obtain ⟨⟨whole, -⟩, -, ⟨fraction, -⟩, -, ⟨exponent, -⟩, -, rfl, -⟩ := h
  exact ⟨_, _, _, _, rfl⟩

/-- What the first character of a token tells: the end of an array is a bracket, and a string needs
    a quote. A value that is read as one token is a single token. -/
def Fits (c : Char) : Token → Prop
  | closeSquare => c = ']'
  | scalar v => IsScalar v ∧ ∀ s, v = string s → c = '"'
  | _ => True

theorem fits_of_read? {c : Char} {rest left : Text} {token : Token}
    (h : read? (c :: rest) = some (token, left)) : Fits c token := by
  unfold read? at h
  split at h
  case h_2 heq =>
      cases h
      exact (List.cons.inj heq).1
  case h_7 heq =>
      obtain ⟨⟨s, more⟩, -, hs⟩ := Option.map_eq_some_iff.1 h
      cases hs
      exact ⟨by simp [IsScalar, tokens], fun _ _ => (List.cons.inj heq).1⟩
  case h_11 =>
      obtain ⟨⟨v, more⟩, hv, hs⟩ := Option.map_eq_some_iff.1 h
      cases hs
      obtain ⟨negative, whole, fraction, exponent, rfl⟩ := exists_of_number? hv
      obtain ⟨hscalar, hstring⟩ := isScalar_numberOf negative whole fraction exponent
      exact ⟨hscalar, fun s hs => absurd hs (hstring s)⟩
  case h_8 | h_9 | h_10 =>
      cases h
      exact ⟨by simp [IsScalar, tokens], nofun⟩
  all_goals
    cases h
    trivial

/-- Each token is read at some place of the text. -/
theorem exists_read?_of_mem {skip : Nat} {t : Text} {ts : List Token} {token : Token}
    (h : readFrom? skip t = some ts) (hmem : token ∈ ts) :
    ∃ c rest left, c ∈ t ∧ read? (c :: rest) = some (token, left) := by
  fun_induction readFrom? skip t generalizing ts with
  | case1 skip =>
      cases h
      cases hmem
  | case2 skip c rest ih =>
      obtain ⟨d, more, left, hd, hread⟩ := ih h hmem
      exact ⟨d, more, left, List.mem_cons_of_mem _ hd, hread⟩
  | case3 c rest hgap ih =>
      obtain ⟨d, more, left, hd, hread⟩ := ih h hmem
      exact ⟨d, more, left, List.mem_cons_of_mem _ hd, hread⟩
  | case4 c rest hgap hnone => cases h
  | case5 c rest hgap first left hfirst ih =>
      obtain ⟨more, hmore, rfl⟩ := Option.map_eq_some_iff.1 h
      rcases List.mem_cons.1 hmem with rfl | hmem
      · exact ⟨c, rest, left, List.mem_cons_self, hfirst⟩
      · obtain ⟨d, others, left, hd, hread⟩ := ih hmore hmem
        exact ⟨d, others, left, List.mem_cons_of_mem _ hd, hread⟩

/-- What does not open with a gap opens with a token. -/
theorem exists_of_readFrom?_cons {c : Char} {rest : Text} {ts : List Token} (hgap : isGap c = false)
    (h : readFrom? 0 (c :: rest) = some ts) :
    ∃ token left more, read? (c :: rest) = some (token, left) ∧ ts = token :: more ∧
      readFrom? (rest.length - left.length) rest = some more := by
  rw [readFrom?, hgap, if_neg Bool.false_ne_true] at h
  split at h
  · cases h
  · next token left hread =>
      obtain ⟨more, hmore, rfl⟩ := Option.map_eq_some_iff.1 h
      exact ⟨token, left, more, hread, rfl, hmore⟩

end Token

/-! ## Values and their texts -/

/-- A text that is read has the tokens of its value. -/
theorem readAll?_of_read? {t : Text} {j : Json} (h : read? t = some j) :
    Token.readAll? t = some (tokens j) := by
  obtain ⟨ts, hts, hj⟩ := Option.bind_eq_some_iff.1 h
  have hscalar : ∀ v, .scalar v ∈ ts → IsScalar v := by
    intro v hv
    obtain ⟨c, rest, left, -, hread⟩ := Token.exists_read?_of_mem hts hv
    exact (Token.fits_of_read? hread).1
  rw [hts, ← taken_of_assemble hscalar hj]
  rfl

theorem texts?_ofTexts (ts : List Text) : (ofTexts ts).texts? = some ts :=
  mapM_map_of_read fun _ _ => rfl

theorem eq_ofTexts_of_texts? {j : Json} {ts : List Text} (h : j.texts? = some ts) :
    j = ofTexts ts := by
  cases j with
  | array items =>
      have hall : items.map text? = ts.map some := map_eq_of_mapM h
      have htext : ∀ item ∈ items, string (item.text?.getD []) = id item := by
        intro item hitem
        have hmem : item.text? ∈ ts.map some := hall ▸ List.mem_map_of_mem hitem
        obtain ⟨s, -, hs⟩ := List.mem_map.1 hmem
        cases item <;> cases hs
        rfl
      have hitems := congrArg (List.map fun o => string (o.getD [])) hall
      simp only [List.map_map, Function.comp_def, Option.getD_some] at hitems
      rw [List.map_congr_left htext, List.map_id] at hitems
      rw [hitems, ofTexts]
  | _ => cases h

/-- An array of strings needs quotes, but for an empty one. -/
theorem texts?_read?_of_no_quote {x : Char} {t : Text} (hgap : Token.isGap x = false)
    (hclose : x ≠ ']') (hquote : '"' ∉ x :: t) : (read? ('[' :: x :: t)).bind texts? = none := by
  rw [Option.eq_none_iff_forall_ne_some]
  intro ts hts
  obtain ⟨j, hj, hts⟩ := Option.bind_eq_some_iff.1 hts
  obtain rfl := eq_ofTexts_of_texts? hts
  have hread := readAll?_of_read? hj
  cases ts with
  | nil =>
      -- the bracket that ends the array would stand right behind the one that opens it
      obtain ⟨token, left, more, hfirst, hts, hmore⟩ := Token.exists_of_readFrom?_cons rfl hread
      cases hfirst
      rw [Nat.sub_self] at hmore
      obtain ⟨token, left, others, hsecond, rfl, -⟩ := Token.exists_of_readFrom?_cons hgap hmore
      cases hts
      exact hclose (Token.fits_of_read? hsecond)
  | cons s ts =>
      have hmem : .scalar (string s) ∈ tokens (ofTexts (s :: ts)) := by
        simp [ofTexts, tokens]
      obtain ⟨c, rest, left, hc, hread⟩ := Token.exists_read?_of_mem hread hmem
      obtain rfl := (Token.fits_of_read? hread).2 s rfl
      rcases List.mem_cons.1 hc with hbracket | hc
      · cases hbracket
      · exact hquote hc

/-- Strings in quotes, with a comma and a space between them and brackets around, are read as they
    are. -/
theorem read?_written_quote (ts : List Text) :
    read? (Items.written (ts.map quote)) = some (ofTexts ts) := by
  have hitems : Token.readFrom? 0 (Items.listed (ts.map quote) ++ [']']) =
      some (itemTokens (ts.map string)) := by
    induction ts with
    | nil => rfl
    | cons s ts ih =>
        cases ts with
        | nil => exact Token.readFrom?_quote s rfl
        | cons next ts =>
            have hmore : Token.readFrom? 0
                (' ' :: (Items.listed ((next :: ts).map quote) ++ [']'])) =
                  some (itemTokens ((next :: ts).map string)) :=
              Token.readFrom?_gaps (t := [' ']) (by simp [Token.isGap]) ih
            rw [List.map_cons, List.map_cons, Items.listed_cons_cons, List.append_assoc]
            exact Token.readFrom?_quote s (Token.readFrom?_mark rfl rfl hmore)
  have hall : Token.readAll? (Items.written (ts.map quote)) = some (tokens (ofTexts ts)) := by
    rw [ofTexts, tokens_array]
    exact Token.readFrom?_mark rfl rfl hitems
  have hvalue := assemble_tokens (ofTexts ts) [] []
  rw [List.append_nil] at hvalue
  rw [read?, hall, Option.bind_some, hvalue, assemble]

end Json

end PlanGraph
