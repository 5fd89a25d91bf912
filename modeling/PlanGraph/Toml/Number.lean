import PlanGraph.Numeral
import PlanGraph.Settings.Value
import PlanGraph.Toml.Lexeme

set_option autoImplicit false

/-! # Numbers of TOML

Whole numbers of 64 bits in four bases, and numbers with a fraction or an exponent. Underscores may
stand between digits. -/

namespace PlanGraph

namespace Toml

/-- Whether underscores stand only between two digits. -/
def isDigitRun (isDigit : Char → Bool) : Text → Bool
  | [] => false
  | [c] => isDigit c
  | '_' :: _ => false
  | c :: '_' :: rest => isDigit c && isDigitRun isDigit rest
  | c :: rest => isDigit c && isDigitRun isDigit rest

/-- The digits at the front of a text, without their underscores, and what follows. -/
def digits? (isDigit : Char → Bool) (t : Text) : Option (Text × Text) :=
  let run := t.takeWhile fun c => isDigit c || c == '_'
  if isDigitRun isDigit run then
    some (run.filter (· != '_'), t.dropWhile fun c => isDigit c || c == '_')
  else none

/-- Decimal digits that do not start with a zero, unless it is the only one. -/
def wholeDigits? (t : Text) : Option (Text × Text) :=
  match t with
  | '0' :: rest => some (['0'], rest)
  | _ => digits? Char.isDigit t

/-- A sign at the front of a text; true for minus. -/
def sign : Text → Bool × Text
  | '-' :: rest => (true, rest)
  | '+' :: rest => (false, rest)
  | t => (false, t)

/-- The digits behind a decimal point. -/
def fraction? : Text → Option (Option Text × Text)
  | '.' :: rest => (digits? Char.isDigit rest).map fun (ds, left) => (some ds, left)
  | t => some (none, t)

/-- The exponent of a number. -/
def exponent? : Text → Option (Option Int × Text)
  | c :: rest =>
    if c = 'e' || c = 'E' then
      let (negative, body) := sign rest
      (digits? Char.isDigit body).map fun (ds, left) =>
        (some (if negative then -(Numeral.value ds : Int) else Numeral.value ds), left)
    else some (none, c :: rest)
  | [] => some (none, [])

/-- A number that is not finite. -/
def special? (negative : Bool) (t : Text) : Option (SettingValue × Text) :=
  if let some rest := t.after? "inf" then some (.real (.infinite negative), rest)
  else if let some rest := t.after? "nan" then some (.real .nan, rest)
  else none

/-- A number that fits in 64 bits with a sign. -/
def int64? (negative : Bool) (n : Nat) : Option SettingValue :=
  if negative then if n ≤ 0x8000000000000000 then some (.int (-(n : Int))) else none
  else if n < 0x8000000000000000 then some (.int n) else none

/-- A number with a fraction or an exponent. One that is too large is refused. -/
def real? (negative : Bool) (whole : Text) (fraction : Option Text) (exponent : Option Int) :
    Option SettingValue :=
  let digits := Numeral.value (whole ++ fraction.getD [])
  let x := Binary64.ofDecimal negative digits (exponent.getD 0 - (fraction.getD []).length)
  if x = .infinite false then none else some (.real x)

/-- A decimal number behind its sign. -/
def decimal? (negative : Bool) (t : Text) : Option (SettingValue × Text) := do
  let (whole, rest) ← wholeDigits? t
  let (fraction, rest) ← fraction? rest
  let (exponent, rest) ← exponent? rest
  let value ← if fraction.isNone && exponent.isNone then int64? negative (Numeral.value whole)
    else real? negative whole fraction exponent
  return (value, rest)

/-- The value of digits in a base. -/
def valueIn (base : Nat) (digits : Text) : Nat :=
  digits.foldl (fun n c => base * n + (hexValue? c).getD 0) 0

/-- A whole number in a base, behind the letter that names the base. -/
def radix? (base : Nat) (t : Text) : Option (SettingValue × Text) := do
  let isDigit (c : Char) : Bool := (hexValue? c).any (· < base)
  let (ds, rest) ← digits? isDigit t
  let value ← int64? false (valueIn base ds)
  return (value, rest)

/-- The number at the front of a text. -/
def number? (t : Text) : Option (SettingValue × Text) :=
  match t with
  | '0' :: 'x' :: rest => radix? 16 rest
  | '0' :: 'o' :: rest => radix? 8 rest
  | '0' :: 'b' :: rest => radix? 2 rest
  | _ =>
    let (negative, body) := sign t
    (special? negative body).orElse fun _ => decimal? negative body

end Toml

end PlanGraph
