import PlanGraph.Bracket.Items
import PlanGraph.Cluster.Basic
import PlanGraph.Json.Basic
import PlanGraph.Text.Digit

set_option autoImplicit false

/-! # Operations in words

An imperative or a judgement uses its values in an order: the one that its `value_order` note gives,
else the numbers bound to the values by tags `<:{1}>`, else the order of the lines. Each value may
carry notes that select a part of it. A judgement ends in a combinator, which holds the condition
that it asserts. -/

namespace PlanGraph

/-- What the notes of a value select from it. -/
structure ValueSelector where
  source : Option Text
  key : Option Text
  index : Option Int
  packed : Bool
  unpack : Bool
deriving DecidableEq, Repr, Inhabited

/-- The condition that a judgement asserts. -/
structure AssertedCondition where
  quantifier : Option Text
  condition : Text
deriving DecidableEq, Repr, Inhabited

/-- How an operation in words uses its values. -/
structure Operation where
  valueOrder : TextMap Nat
  valueSelectors : TextMap ValueSelector
  condition : Option AssertedCondition
deriving DecidableEq, Repr, Inhabited

/-! ## Bindings -/

/-- The number in a binding tag `<:{1}>` at the front of a text. -/
def Binding.digits? (t : Text) : Option Text := do
  let rest ← t.after? ['<', ':', '{']
  let digits := rest.takeWhile isDecimalDigit
  if digits.isEmpty then none
  else if Text.startsWith (rest.dropWhile isDecimalDigit) ['}', '>'] then some digits
  else none

/-- The number that the first binding tag of a line gives. -/
def Line.binding? (l : Line) : Option Nat :=
  (l.content.firstMatch Binding.digits?).bind (Numeral.natural? Numeral.max64)

/-! ## Selectors -/

/-- The selector in the notes of a value, if they select anything. -/
def ValueSelector.ofNotes? (notes : Notes) : Option ValueSelector :=
  let selector : ValueSelector := {
    source := notes.get? "selector_source"
    key := notes.get? "selector_key"
    index := (notes.get? "selector_index").bind fun i => Numeral.integer? i.trim
    packed := notes.flag "selector_packed"
    unpack := notes.flag "selector_unpack" }
  if selector = ⟨none, none, none, false, false⟩ then none else some selector

/-! ## Conditions -/

namespace AssertedCondition

/-- What stands between the first `opening` that no line break follows and the end of a text. -/
def bodyFrom? (opening t : Text) : Option Text :=
  t.firstMatch fun place => (place.after? opening).filter fun body => !body.any (· == '\n')

/-- What the combinator at the end of a text encloses, in either spelling. -/
def combinator? (t : Text) : Option Text :=
  ((t.trimEnd.before? ['}', '>']).bind (bodyFrom? ['<', '{'])).orElse fun _ =>
    (t.trimEnd.before? ['>', '}']).bind (bodyFrom? ['{', '<'])

/-- The condition in the text of a judgement. -/
def ofText? (t : Text) : Option AssertedCondition :=
  if t.contains "ALL True" then some ⟨some "all", "True"⟩
  else (combinator? t).map fun body => ⟨none, body.trim⟩

end AssertedCondition

namespace Operation

/-! ## The order of the values -/

/-- Each of the texts with its number in the list, from one on. -/
def numbered (ts : List Text) : List (Text × Nat) := ts.zip (List.range' 1 ts.length)

/-- The order that a note lists. -/
def listedOrder (note : Text) : TextMap Nat :=
  let inner := (Bracket.square.strip? note).getD note
  .ofLast (numbered ((Items.split ',' inner).map fun item => (Note.unquote item).trim))

/-- The values that a binding gives a number, with that number. -/
def boundValues (values : List Line) : List (Text × Nat) :=
  values.filterMap fun v => v.binding?.map fun n => (v.reference, n)

/-- The order of the values of a cluster. As soon as one value is bound, only bound ones count. -/
def orderOf (c : Cluster) : TextMap Nat :=
  match c.function.notes.get? "value_order" with
  | some note => listedOrder note
  | none =>
    if (boundValues c.values).isEmpty then .ofLast (numbered (c.values.map (·.reference)))
    else .ofLast (boundValues c.values)

/-- How many values are left out because others are bound. -/
def excluded (c : Cluster) : Nat :=
  if (c.function.notes.get? "value_order").isSome || (boundValues c.values).isEmpty then 0
  else c.values.length - (boundValues c.values).length

/-- The selectors of the values of a cluster. -/
def selectorsOf (c : Cluster) : TextMap ValueSelector :=
  .ofLast (c.values.filterMap fun v =>
    (ValueSelector.ofNotes? v.notes).map fun s => (v.reference, s))

/-- A cluster read as an operation in words; only a judgement has a condition. -/
def ofCluster (isJudgement : Bool) (c : Cluster) : Operation where
  valueOrder := orderOf c
  valueSelectors := selectorsOf c
  condition := if isJudgement then AssertedCondition.ofText? c.function.stripped else none

end Operation

/-! ## JSON -/

/-- A selector as JSON; what is not given is left out. -/
def ValueSelector.toJson (s : ValueSelector) : Json :=
  .object (Json.optionalField "source" .string s.source ++ Json.optionalField "key" .string s.key ++
    Json.optionalField "index" .int s.index ++
    [("packed".toList, .bool s.packed), ("unpack".toList, .bool s.unpack)])

/-- An asserted condition as JSON. -/
def AssertedCondition.toJson (a : AssertedCondition) : Json :=
  .object (Json.optionalField "quantifier" .string a.quantifier ++
    [("condition".toList, .string a.condition)])

/-- An operation as JSON; empty selectors and a missing condition are left out. -/
def Operation.toJson (o : Operation) : Json :=
  let selectors := if o.valueSelectors.isEmpty then none else some o.valueSelectors
  .object ([("value_order".toList, .object (o.valueOrder.map fun (k, n) => (k, .ofNat n)))] ++
    Json.optionalField "value_selectors"
      (fun m => .object (m.map fun (k, s) => (k, s.toJson))) selectors ++
    Json.optionalField "assertion_condition" AssertedCondition.toJson o.condition)

end PlanGraph
