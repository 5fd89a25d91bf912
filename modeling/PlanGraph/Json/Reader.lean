import PlanGraph.Json.Basic
import PlanGraph.Numeral

set_option autoImplicit false

/-! # Reading JSON

The text is first cut into tokens; a machine with a stack of unfinished arrays and objects then
takes one token at a time. Nothing but a value and blanks may stand in the text. -/

namespace PlanGraph

namespace Json

/-- A token of a JSON text. -/
inductive Token where
  | openSquare
  | closeSquare
  | openCurly
  | closeCurly
  | comma
  | colon
  /-- A value that holds no others. -/
  | scalar (value : Json)
deriving Repr, Inhabited

namespace Token

/-! ## Strings -/

/-- The value of a hexadecimal digit. -/
def hexValue? (c : Char) : Option Nat :=
  if c.isDigit then some (c.toNat - '0'.toNat)
  else if 'a' ≤ c && c ≤ 'f' then some (c.toNat - 'a'.toNat + 10)
  else if 'A' ≤ c && c ≤ 'F' then some (c.toNat - 'A'.toNat + 10)
  else none

/-- The value of four hexadecimal digits. -/
def hexValue4? (a b c d : Char) : Option Nat := do
  let a ← hexValue? a
  let b ← hexValue? b
  let c ← hexValue? c
  let d ← hexValue? d
  return ((a * 16 + b) * 16 + c) * 16 + d

/-- The first half of a pair of code units that spell one character. -/
def isHighSurrogate (n : Nat) : Bool := 0xD800 ≤ n && n ≤ 0xDBFF

/-- The second half of such a pair. -/
def isLowSurrogate (n : Nat) : Bool := 0xDC00 ≤ n && n ≤ 0xDFFF

/-- The character that a backslash and this letter spell. -/
def simpleEscape? : Char → Option Char
  | '"' => some '"'
  | '\\' => some '\\'
  | '/' => some '/'
  | 'b' => some '\x08'
  | 'f' => some '\x0c'
  | 'n' => some '\n'
  | 'r' => some '\r'
  | 't' => some '\t'
  | _ => none

/-- The rest of a string behind its opening quote: its characters and what follows the closing
    quote. A lone half of a pair, an unknown escape and a control character are refused. -/
def stringBody? : Text → Option (Text × Text)
  | [] => none
  | '"' :: rest => some ([], rest)
  | '\\' :: 'u' :: a :: b :: c :: d :: rest =>
    match hexValue4? a b c d with
    | none => none
    | some high =>
      if isHighSurrogate high then
        match rest with
        | '\\' :: 'u' :: e :: f :: g :: h :: rest =>
          match hexValue4? e f g h with
          | none => none
          | some low =>
            if isLowSurrogate low then
              (stringBody? rest).map fun (s, left) =>
                (Char.ofNat (0x10000 + (high - 0xD800) * 0x400 + (low - 0xDC00)) :: s, left)
            else none
        | _ => none
      else if isLowSurrogate high then none
      else (stringBody? rest).map fun (s, left) => (Char.ofNat high :: s, left)
  | '\\' :: letter :: rest =>
    match simpleEscape? letter with
    | some c => (stringBody? rest).map fun (s, left) => (c :: s, left)
    | none => none
  | c :: rest =>
    if c.toNat < 0x20 || c = '\\' then none
    else (stringBody? rest).map fun (s, left) => (c :: s, left)

/-! ## Numbers -/

/-- The digits at the front of a text, of which there must be one, and what follows. -/
def digits? (t : Text) : Option (Text × Text) :=
  match t.takeWhile Char.isDigit with
  | [] => none
  | ds => some (ds, t.dropWhile Char.isDigit)

/-- The digits before the point: a single zero, or digits that start with another. -/
def wholeDigits? : Text → Option (Text × Text)
  | '0' :: rest => some (['0'], rest)
  | t => digits? t

/-- The digits behind a point, if there is one. -/
def fraction? : Text → Option (Option Text × Text)
  | '.' :: rest => (digits? rest).map fun (ds, left) => (some ds, left)
  | t => some (none, t)

/-- The exponent, if there is one. -/
def exponent? : Text → Option (Option Int × Text)
  | c :: rest =>
    if c = 'e' || c = 'E' then
      match rest with
      | '+' :: rest => (digits? rest).map fun (ds, left) => (some (Numeral.value ds : Int), left)
      | '-' :: rest => (digits? rest).map fun (ds, left) => (some (-(Numeral.value ds : Int)), left)
      | _ => (digits? rest).map fun (ds, left) => (some (Numeral.value ds : Int), left)
    else some (none, c :: rest)
  | [] => some (none, [])

/-- The value of a number from its parts. A zero with a minus sign is no whole number. -/
def numberOf (negative : Bool) (whole : Text) (fraction : Option Text) (exponent : Option Int) :
    Json :=
  match negative, fraction, exponent with
  | false, none, none => int (Numeral.value whole)
  | true, none, none =>
    if Numeral.value whole = 0 then decimal true 0 0 else int (-(Numeral.value whole : Int))
  | _, _, _ =>
    decimal negative (Numeral.value (whole ++ fraction.getD []))
      (exponent.getD 0 - (fraction.getD []).length)

/-- The number at the front of a text. -/
def number? (t : Text) : Option (Json × Text) := do
  let (negative, body) := match t with
    | '-' :: rest => (true, rest)
    | _ => (false, t)
  let (whole, rest) ← wholeDigits? body
  let (fraction, rest) ← fraction? rest
  let (exponent, rest) ← exponent? rest
  return (numberOf negative whole fraction exponent, rest)

/-! ## All tokens -/

/-- The blanks that may stand between tokens. -/
def isGap (c : Char) : Bool := c == ' ' || c == '\n' || c == '\t' || c == '\r'

/-- The token at the front of a text, and what follows it. -/
def read? : Text → Option (Token × Text)
  | '[' :: rest => some (openSquare, rest)
  | ']' :: rest => some (closeSquare, rest)
  | '{' :: rest => some (openCurly, rest)
  | '}' :: rest => some (closeCurly, rest)
  | ',' :: rest => some (comma, rest)
  | ':' :: rest => some (colon, rest)
  | '"' :: rest => (stringBody? rest).map fun (s, left) => (scalar (string s), left)
  | 'n' :: 'u' :: 'l' :: 'l' :: rest => some (scalar null, rest)
  | 't' :: 'r' :: 'u' :: 'e' :: rest => some (scalar (bool true), rest)
  | 'f' :: 'a' :: 'l' :: 's' :: 'e' :: rest => some (scalar (bool false), rest)
  | t => (number? t).map fun (n, left) => (scalar n, left)

/-- The tokens of a text, of which `skip` characters still belong to the token before. -/
def readFrom? : Nat → Text → Option (List Token)
  | _, [] => some []
  | skip + 1, _ :: rest => readFrom? skip rest
  | 0, c :: rest =>
    if isGap c then readFrom? 0 rest
    else
      match read? (c :: rest) with
      | none => none
      | some (token, left) => (readFrom? (rest.length - left.length) rest).map (token :: ·)

/-- The tokens of a text. -/
def readAll? (t : Text) : Option (List Token) := readFrom? 0 t

end Token

/-! ## Values -/

/-- An array or object that is not finished. What it holds so far stands last first. -/
inductive Frame where
  | items (before : List Json)
  | fields (before : List (Text × Json)) (name : Text)
deriving Repr, Inhabited

/-- What the machine waits for. -/
inductive Expected where
  /-- A value. -/
  | value
  /-- The first item of an array, or its end. -/
  | itemOrEnd
  /-- The first field of an object, or its end. -/
  | fieldOrEnd
  /-- A further field behind the given ones. -/
  | field (before : List (Text × Json))
  /-- The colon behind the name of a field. -/
  | colon (before : List (Text × Json)) (name : Text)
  /-- What may follow this finished value. -/
  | next (value : Json)
deriving Repr, Inhabited

/-- Takes the tokens one at a time; the stack holds the unfinished arrays and objects, innermost
    first. -/
def assemble : Expected → List Frame → List Token → Option Json
  | .next v, [], [] => some v
  | .next v, .items before :: stack, .comma :: ts =>
    assemble .value (.items (v :: before) :: stack) ts
  | .next v, .items before :: stack, .closeSquare :: ts =>
    assemble (.next (array (v :: before).reverse)) stack ts
  | .next v, .fields before name :: stack, .comma :: ts =>
    assemble (.field ((name, v) :: before)) stack ts
  | .next v, .fields before name :: stack, .closeCurly :: ts =>
    assemble (.next (object ((name, v) :: before).reverse)) stack ts
  | .value, stack, .scalar v :: ts => assemble (.next v) stack ts
  | .value, stack, .openSquare :: ts => assemble .itemOrEnd stack ts
  | .value, stack, .openCurly :: ts => assemble .fieldOrEnd stack ts
  | .itemOrEnd, stack, .closeSquare :: ts => assemble (.next (array [])) stack ts
  | .itemOrEnd, stack, .scalar v :: ts => assemble (.next v) (.items [] :: stack) ts
  | .itemOrEnd, stack, .openSquare :: ts => assemble .itemOrEnd (.items [] :: stack) ts
  | .itemOrEnd, stack, .openCurly :: ts => assemble .fieldOrEnd (.items [] :: stack) ts
  | .fieldOrEnd, stack, .closeCurly :: ts => assemble (.next (object [])) stack ts
  | .fieldOrEnd, stack, .scalar (string name) :: ts => assemble (.colon [] name) stack ts
  | .field before, stack, .scalar (string name) :: ts => assemble (.colon before name) stack ts
  | .colon before name, stack, .colon :: ts => assemble .value (.fields before name :: stack) ts
  | _, _, _ => none

/-- The value that a text spells. -/
def read? (t : Text) : Option Json := (Token.readAll? t).bind (assemble .value [])

end Json

end PlanGraph
