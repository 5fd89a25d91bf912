import PlanGraph.Text.Basic

set_option autoImplicit false

/-! # JSON values

The tables are written as JSON and the clusters can be read back from it. The fields of an object
keep their order. A whole number is kept apart from one written with a fraction or an exponent,
because only the first can stand for a count. -/

namespace PlanGraph

/-- A JSON value. -/
inductive Json where
  | null
  | bool (b : Bool)
  | int (n : Int)
  /-- The number `digits * 10 ^ exponent`, with a sign that zero has too. -/
  | decimal (negative : Bool) (digits : Nat) (exponent : Int)
  | string (s : Text)
  | array (items : List Json)
  | object (fields : List (Text × Json))
deriving Repr, Inhabited

namespace Json

/-- A count. -/
def ofNat (n : Nat) : Json := int n

/-- An optional value: `null` for none. -/
def ofOption {α : Type} (encode : α → Json) : Option α → Json
  | none => null
  | some a => encode a

/-- The field of an optional value; no field for none. -/
def optionalField {α : Type} (name : Text) (encode : α → Json) : Option α → List (Text × Json)
  | none => []
  | some a => [(name, encode a)]

/-- A list of texts. -/
def ofTexts (ts : List Text) : Json := array (ts.map string)

/-- The value of a field; the last one of that name counts. -/
def field? (name : Text) : Json → Option Json
  | object fields => (fields.reverse.find? fun f => f.1 == name).map Prod.snd
  | _ => none

/-- The text of a string value. -/
def text? : Json → Option Text
  | string s => some s
  | _ => none

/-- The items of an array. -/
def items? : Json → Option (List Json)
  | array items => some items
  | _ => none

/-- The texts of an array of strings. -/
def texts? (j : Json) : Option (List Text) := do
  let items ← j.items?
  items.mapM text?

/-- A count that fits in 64 bits. -/
def nat? : Json → Option Nat
  | int (.ofNat n) => if n ≤ 0xFFFFFFFFFFFFFFFF then some n else none
  | _ => none

end Json

end PlanGraph
