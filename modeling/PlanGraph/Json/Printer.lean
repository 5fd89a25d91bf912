import PlanGraph.Json.Basic
import PlanGraph.Numeral

set_option autoImplicit false

/-! # JSON text

Two layouts: compact, without a blank, and pretty, with each item and field on a line of its own,
indented by two spaces a level. An empty array or object is written without a break in both. -/

namespace PlanGraph

namespace Json

/-! ## Strings -/

/-- The hexadecimal digit of a number below sixteen. -/
def hexDigit (n : Nat) : Char := Nat.digitChar n

/-- A character inside a string: quotes, backslashes and control characters are escaped. -/
def escape (c : Char) : Text :=
  if c = '"' then ['\\', '"']
  else if c = '\\' then ['\\', '\\']
  else if c = '\x08' then ['\\', 'b']
  else if c = '\x0c' then ['\\', 'f']
  else if c = '\n' then ['\\', 'n']
  else if c = '\r' then ['\\', 'r']
  else if c = '\t' then ['\\', 't']
  else if c.toNat < 0x20 then
    ['\\', 'u', '0', '0', hexDigit (c.toNat / 16), hexDigit (c.toNat % 16)]
  else [c]

/-- A text as a JSON string. -/
def quote (s : Text) : Text := '"' :: (s.flatMap escape ++ ['"'])

/-! ## Numbers -/

/-- A whole number in decimal. -/
def integer : Int → Text
  | .ofNat n => Numeral.decimal n
  | .negSucc n => '-' :: Numeral.decimal (n + 1)

/-- A number with an exponent. -/
def scientific (negative : Bool) (digits : Nat) (exponent : Int) : Text :=
  let body := Numeral.decimal digits ++ 'e' :: integer exponent
  if negative then '-' :: body else body

/-! ## The compact layout -/

mutual

/-- A value without any blanks. -/
def compact : Json → Text
  | null => "null"
  | bool true => "true"
  | bool false => "false"
  | int n => integer n
  | decimal negative digits e => scientific negative digits e
  | string s => quote s
  | array items => '[' :: compactItems items
  | object fields => '{' :: compactFields fields

/-- The items of an array and the bracket that closes it. -/
def compactItems : List Json → Text
  | [] => [']']
  | [item] => compact item ++ [']']
  | item :: items => compact item ++ ',' :: compactItems items

/-- The fields of an object and the bracket that closes it. -/
def compactFields : List (Text × Json) → Text
  | [] => ['}']
  | [(name, value)] => quote name ++ ':' :: (compact value ++ ['}'])
  | (name, value) :: fields => quote name ++ ':' :: (compact value ++ ',' :: compactFields fields)

end

/-! ## The pretty layout -/

/-- A line break and the indentation of a level. -/
def newLine (level : Nat) : Text := '\n' :: List.replicate (2 * level) ' '

mutual

/-- A value that stands at the given level of indentation. -/
def prettyAt (level : Nat) : Json → Text
  | null => "null"
  | bool true => "true"
  | bool false => "false"
  | int n => integer n
  | decimal negative digits e => scientific negative digits e
  | string s => quote s
  | array [] => "[]"
  | array (item :: items) =>
    '[' :: (newLine (level + 1) ++ prettyAt (level + 1) item ++ prettyItems level items)
  | object [] => ['{', '}']
  | object ((name, value) :: fields) =>
    '{' :: (newLine (level + 1) ++ quote name ++ ':' :: ' ' :: prettyAt (level + 1) value ++
      prettyFields level fields)

/-- The further items of an array at `level` and the bracket that closes it. -/
def prettyItems (level : Nat) : List Json → Text
  | [] => newLine level ++ [']']
  | item :: items =>
    ',' :: (newLine (level + 1) ++ prettyAt (level + 1) item ++ prettyItems level items)

/-- The further fields of an object at `level` and the bracket that closes it. -/
def prettyFields (level : Nat) : List (Text × Json) → Text
  | [] => newLine level ++ ['}']
  | (name, value) :: fields =>
    ',' :: (newLine (level + 1) ++ quote name ++ ':' :: ' ' :: prettyAt (level + 1) value ++
      prettyFields level fields)

end

/-- A value with line breaks and indentation. -/
def pretty (j : Json) : Text := prettyAt 0 j

/-- A value in the layout that the settings ask for. -/
def print (isPretty : Bool) (j : Json) : Text := if isPretty then pretty j else compact j

end Json

end PlanGraph
