import PlanGraph.Numeral
import PlanGraph.Settings.Value

set_option autoImplicit false

/-! # Keys of settings

A single setting is named by a path such as `output.pretty` or `list[0]`: a name, then further names
behind dots and indices in square brackets. -/

namespace PlanGraph

/-- One step of a path into a tree of values. -/
inductive SettingStep where
  | child (name : Text)
  /-- An item of a list; a negative index counts from the end. -/
  | item (index : Int)
deriving DecidableEq, Repr, Inhabited

/-- The path of a single setting. -/
structure SettingKey where
  name : Text
  steps : List SettingStep
deriving DecidableEq, Repr, Inhabited

namespace SettingKey

/-! ## Reading -/

/-- The characters of a name. -/
def isNameChar (c : Char) : Bool := c.isAlphanum || c == ' ' || c == '_' || c == '-'

/-- A blank around an index. -/
def isIndexGap (c : Char) : Bool := c == ' ' || c == '\t'

/-- The name at the front of a text, which is not empty, and what follows. -/
def name? (t : Text) : Option (Text × Text) :=
  match t.takeWhile isNameChar with
  | [] => none
  | name => some (name, t.dropWhile isNameChar)

/-- The index in front of a closing bracket, and what follows the bracket. -/
def index? (t : Text) : Option (Int × Text) := do
  let t := t.dropWhile isIndexGap
  let (sign, t) := match t with
    | '-' :: rest => (['-'], rest)
    | _ => ([], t)
  let index ← Numeral.integer? (sign ++ t.takeWhile Char.isDigit)
  let rest ← Text.after? ((t.dropWhile Char.isDigit).dropWhile isIndexGap) "]"
  return (index, rest)

/-- The step at the front of a text, and what follows. -/
def step? : Text → Option (SettingStep × Text)
  | '.' :: rest => (name? rest).map fun (name, left) => (.child name, left)
  | '[' :: rest => (index? rest).map fun (index, left) => (.item index, left)
  | _ => none

/-- The steps that make up a whole text, of which `skip` characters still belong to the step
    before. -/
def stepsFrom? : Nat → Text → Option (List SettingStep)
  | _, [] => some []
  | skip + 1, _ :: rest => stepsFrom? skip rest
  | 0, c :: rest =>
    match step? (c :: rest) with
    | none => none
    | some (step, left) => (stepsFrom? (rest.length - left.length) rest).map (step :: ·)

/-- The key that a text spells. -/
def ofText? (t : Text) : Option SettingKey := do
  let (name, rest) ← name? t
  let steps ← stepsFrom? 0 rest
  return ⟨name, steps⟩

/-! ## Setting -/

/-- Changes the item of a list at an index. The list is filled up with missing items, at its end or,
    for a negative index beyond its start, at its front. -/
def changeItem (index : Int) (change : SettingValue → SettingValue) (items : List SettingValue) :
    List SettingValue :=
  if 0 ≤ index then
    let filled := items ++ List.replicate (index.toNat + 1 - items.length) .missing
    filled.modify index.toNat change
  else
    let back := (-index).toNat
    let filled := List.replicate (back - items.length) .missing ++ items
    filled.modify (filled.length - back) change

/-- Changes the value behind some steps. What is not there yet is made; what is no table or list
    where one is needed becomes one. -/
def change (final : SettingValue → SettingValue) : List SettingStep → SettingValue → SettingValue
  | [], value => final value
  | .child name :: steps, value =>
    let old := (value.entries.get? name.lower).getD .missing
    .table (value.entries.insert name.lower (change final steps old))
  | .item index :: steps, value => .list (changeItem index (change final steps) value.items)

/-- Gives a key its value in a tree. -/
def assign (key : SettingKey) (root value : SettingValue) : SettingValue :=
  match key.steps.getLast? with
  | none => root.setKey key.name value
  | some (.child last) =>
    change (·.setKey last value) (.child key.name :: key.steps.dropLast) root
  | some (.item index) =>
    change (fun list => .list (changeItem index (fun _ => value) list.items))
      (.child key.name :: key.steps.dropLast) root

end SettingKey

end PlanGraph
