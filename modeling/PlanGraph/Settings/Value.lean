import PlanGraph.Binary64.Basic
import PlanGraph.Text.Map

set_option autoImplicit false

/-! # Values of settings

Settings come as trees of values, from files and from single keys, in several layers. A later layer
wins, but tables are merged key by key. Keys are compared in small letters. -/

namespace PlanGraph

/-- A value in a layer of settings. -/
inductive SettingValue where
  /-- A place in a list that was never given. -/
  | missing
  | bool (b : Bool)
  | int (n : Int)
  | real (x : Binary64)
  | text (t : Text)
  | list (items : List SettingValue)
  | table (entries : List (Text × SettingValue))
deriving Repr, Inhabited

namespace SettingValue

/-- The entries of a table; none for any other value. -/
def entries : SettingValue → TextMap SettingValue
  | table es => es
  | _ => []

/-- The items of a list; none for any other value. -/
def items : SettingValue → List SettingValue
  | list vs => vs
  | _ => []

/-! ## Merging -/

mutual

/-- Gives a key of `root` a value. A table is merged into what is there, any other value replaces
    it; where `root` is no table it becomes one. -/
def setKey (root : SettingValue) (key : Text) : SettingValue → SettingValue
  | table incoming =>
    let target := (root.entries.get? key.lower).getD (table [])
    table (root.entries.insert key.lower (setAll target incoming))
  | value => table (root.entries.insert key.lower value)

/-- Gives several keys of `root` their values, one after another. -/
def setAll (root : SettingValue) : List (Text × SettingValue) → SettingValue
  | [] => root
  | (key, value) :: rest => setAll (setKey root key value) rest

end

end SettingValue

end PlanGraph
