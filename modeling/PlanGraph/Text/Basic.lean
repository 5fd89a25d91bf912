import PlanGraph.Text.Blank

set_option autoImplicit false

/-! # Text

The text of a plan is a list of characters. This module has the cuts that everything else is made
of: trimming blanks, taking a fixed literal off the front, finding the next place where something
stands, and the lengths and offsets of a text in UTF-8 bytes. -/

namespace PlanGraph

/-- A piece of a plan, as its list of characters. -/
abbrev Text := List Char

instance : Coe String Text := ⟨String.toList⟩

namespace Text

/-! ## Blanks at the ends -/

/-- Without the blanks at the front. -/
def trimStart (t : Text) : Text := t.dropWhile isBlank

/-- Without the blanks at the end. -/
def trimEnd (t : Text) : Text := (t.reverse.dropWhile isBlank).reverse

/-- Without the blanks at either end. -/
def trim (t : Text) : Text := trimEnd (trimStart t)

/-- The characters before the first blank, once the blanks at the front are gone. -/
def firstWord (t : Text) : Text := (trimStart t).takeWhile (!isBlank ·)

/-! ## Literals -/

/-- What follows the literal `p` at the front of a text, if the text starts with it. -/
def after? (t p : Text) : Option Text := p.isPrefixOf? t

/-- Whether a text starts with the literal `p`. -/
def startsWith (t p : Text) : Bool := p.isPrefixOf t

/-- Whether a text ends with the literal `p`. -/
def endsWith (t p : Text) : Bool := p.reverse.isPrefixOf t.reverse

/-- What comes before the literal `p` at the end of a text, if the text ends with it. -/
def before? (t p : Text) : Option Text := (p.reverse.isPrefixOf? t.reverse).map List.reverse

/-- Whether the literal `p` stands somewhere in a text. -/
def contains (t p : Text) : Bool :=
  startsWith t p || match t with
    | [] => false
    | _ :: rest => contains rest p

/-- The text cut at each `c`; there is one more piece than there are cuts. -/
def splitOn (c : Char) : Text → List Text
  | [] => [[]]
  | d :: rest =>
    if d = c then [] :: splitOn c rest
    else match splitOn c rest with
      | [] => [[d]]
      | piece :: pieces => (d :: piece) :: pieces

/-- The pieces put together again, with `c` between them. -/
def joinWith (c : Char) : List Text → Text
  | [] => []
  | [piece] => piece
  | piece :: pieces => piece ++ c :: joinWith c pieces

/-! ## Matches from left to right -/

/-- Every match of `reader` from left to right, none inside another. At each place `reader` is
    given the text from there on and answers with a value and what it leaves; `skip` characters
    still belong to the match before. -/
def matchesFrom {α : Type} (reader : Text → Option (α × Text)) : Nat → Text → List α
  | _, [] => []
  | skip + 1, _ :: rest => matchesFrom reader skip rest
  | 0, c :: rest =>
    match reader (c :: rest) with
    | some (value, left) => value :: matchesFrom reader (rest.length - left.length) rest
    | none => matchesFrom reader 0 rest

/-- Every match of `reader` in a text. -/
def allMatches {α : Type} (reader : Text → Option (α × Text)) (t : Text) : List α :=
  matchesFrom reader 0 t

/-- The first value that `reader` gives at some place of a text. -/
def firstMatch {α : Type} (reader : Text → Option α) : Text → Option α
  | [] => reader []
  | c :: rest => (reader (c :: rest)).orElse fun _ => firstMatch reader rest

/-! ## Case -/

/-- Each ASCII capital replaced by its small letter. -/
def lower (t : Text) : Text := t.map Char.toLower

/-! ## Bytes -/

/-- The length of a text in UTF-8 bytes. -/
def byteSize (t : Text) : Nat := t.foldl (fun n c => n + c.utf8Size) 0

/-- The text from byte offset `n` on, if a character starts there or the text ends there. -/
def fromByte? : Nat → Text → Option Text
  | 0, t => some t
  | _ + 1, [] => none
  | n + 1, c :: rest => if c.utf8Size ≤ n + 1 then fromByte? (n + 1 - c.utf8Size) rest else none

/-- The order of texts by their UTF-8 bytes, which is the order by code points. -/
def le : Text → Text → Bool
  | [], _ => true
  | _ :: _, [] => false
  | c :: s, d :: t => c.toNat < d.toNat || (c == d && le s t)

/-! ## Laws of the cuts -/

@[simp]
theorem after?_nil (t : Text) : t.after? [] = some t := rfl

@[simp]
theorem nil_after?_cons (c : Char) (p : Text) : after? [] (c :: p) = none := rfl

theorem cons_after?_cons (c d : Char) (t p : Text) :
    after? (d :: t) (c :: p) = if c = d then t.after? p else none := by
  show (if (c == d) = true then t.after? p else none) = _
  simp only [beq_iff_eq]

theorem after?_eq_some_iff {t p rest : Text} : t.after? p = some rest ↔ t = p ++ rest := by
  induction p generalizing t with
  | nil => simp [eq_comm]
  | cons c p ih =>
    cases t with
    | nil => simp
    | cons d t =>
      rw [cons_after?_cons]
      by_cases h : c = d
      · subst h; simp [ih]
      · simp [h, Ne.symm h]

theorem joinWith_splitOn (c : Char) (t : Text) : joinWith c (splitOn c t) = t := by
  induction t with
  | nil => rfl
  | cons d rest ih =>
    by_cases h : d = c
    · subst h
      cases hs : splitOn d rest with
      | nil => rw [hs] at ih; simp [joinWith] at ih; subst ih; simp [splitOn] at hs
      | cons piece pieces => rw [hs] at ih; simp [splitOn, joinWith, hs, ih]
    · cases hs : splitOn c rest with
      | nil => rw [hs] at ih; simp [joinWith] at ih; subst ih; simp [splitOn] at hs
      | cons piece pieces =>
        rw [hs] at ih
        cases pieces with
        | nil => simp [splitOn, h, hs, joinWith] at ih ⊢; exact ih
        | cons q qs => simp [splitOn, h, hs, joinWith] at ih ⊢; exact ih

end Text

end PlanGraph
