import PlanGraph.Binary64.Shortest
import PlanGraph.Settings.Basic
import PlanGraph.Settings.Key
import PlanGraph.Toml.Document

set_option autoImplicit false

/-! # Layers of settings

Settings are put together from layers, the lowest first: what is built in, the file beside the plan,
further files, and single keys. The result is then read as settings, where a value may also be given
in another type that can stand for it. -/

namespace PlanGraph

/-- Why settings cannot be used. -/
inductive SettingsError where
  /-- The key of a single setting is no path. -/
  | badKey
  /-- A file that was asked for cannot be read. -/
  | unreadable
  /-- A file is no TOML document. -/
  | badSyntax
  /-- A value cannot stand for the type of its setting. -/
  | wrongType
  /-- A section is no table, a setting is not there, or a choice is none of those offered. -/
  | wrongShape
deriving DecidableEq, Repr, Inhabited

namespace SettingValue

/-! ## Conversions -/

/-- A value as a number of 64 bits: words for on and off count, a fraction is rounded. -/
def toNat? : SettingValue → Option Nat
  | int n => if 0 ≤ n ∧ n ≤ Numeral.max64 then some n.toNat else none
  | bool b => some b.toNat
  | real x => some (x.toNat Numeral.max64)
  | text t =>
    if ["true".toList, "on".toList, "yes".toList].contains t.lower then some 1
    else if ["false".toList, "off".toList, "no".toList].contains t.lower then some 0
    else Numeral.natural? Numeral.max64 t
  | _ => none

/-- A value as a number of 32 bits. -/
def toNat32? (v : SettingValue) : Option UInt32 :=
  (v.toNat?.filter (· ≤ Numeral.max32)).map Nat.toUInt32

/-- A value as a switch. -/
def toBool? : SettingValue → Option Bool
  | bool b => some b
  | int n => some (n != 0)
  | real x => some x.isNonzero
  | text t =>
    if ["1".toList, "true".toList, "on".toList, "yes".toList].contains t.lower then some true
    else if ["0".toList, "false".toList, "off".toList, "no".toList].contains t.lower then some false
    else none
  | _ => none

/-- A whole number in decimal. -/
def decimalText : Int → Text
  | .ofNat n => Numeral.decimal n
  | .negSucc n => '-' :: Numeral.decimal (n + 1)

/-- A value as a text. -/
def toText? : SettingValue → Option Text
  | text t => some t
  | bool b => some (if b then "true" else "false")
  | int n => some (decimalText n)
  | real x => some x.toText
  | _ => none

/-- The level that a name means, in any case. -/
def levelNamed? (name : Text) : Option UnresolvedLevel :=
  if name.lower = "warn".toList then some .warn
  else if name.lower = "debug".toList then some .debug
  else none

/-- A value as a level: its name, or a table with that name as its only key. -/
def toLevel? : SettingValue → Option UnresolvedLevel
  | text t => levelNamed? t
  | table [(name, _)] => levelNamed? name
  | _ => none

end SettingValue

namespace Settings

/-! ## Reading settings -/

/-- A section of a tree of values, which is a table or a list. -/
def section? (root : SettingValue) (name : Text) : Option SettingValue :=
  (root.entries.get? name).filter fun
    | .table _ => true
    | .list _ => true
    | _ => false

/-- The value of a setting in a section: a table has it by its name, a list at its place. -/
def setting? (name : Text) (place : Nat) : SettingValue → Option SettingValue
  | .table entries => TextMap.get? entries name
  | .list items => items[place]?
  | _ => none

/-- A converted value, or an error where there is none. -/
def orError {α : Type} (e : SettingsError) : Option α → Except SettingsError α
  | some a => .ok a
  | none => .error e

/-- The settings in a tree of values. A value that cannot be converted is found before one that is
    not there. -/
def ofValue (root : SettingValue) : Except SettingsError Settings := do
  let parser ← orError .wrongShape (section? root "parser")
  let tables ← orError .wrongShape (section? root "tables")
  let inference ← orError .wrongShape (section? root "inference")
  let output ← orError .wrongShape (section? root "output")
  let width ← (setting? "indent_width" 0 parser).mapM (orError .wrongType ·.toNat?)
  let axis ← (setting? "none_axis" 0 tables).mapM (orError .wrongType ·.toText?)
  let dummy ← (setting? "dummy_reference" 1 tables).mapM (orError .wrongType ·.toText?)
  let first ← (setting? "disambiguator_start" 2 tables).mapM (orError .wrongType ·.toNat32?)
  let level ← (setting? "unresolved" 0 inference).mapM (orError .wrongShape ·.toLevel?)
  let pretty ← (setting? "pretty" 0 output).mapM (orError .wrongType ·.toBool?)
  return {
    indentWidth := ← orError .wrongShape width
    noneAxis := ← orError .wrongShape axis
    dummyReference := ← orError .wrongShape dummy
    firstId := ← orError .wrongShape first
    unresolved := ← orError .wrongShape level
    pretty := ← orError .wrongShape pretty }

/-- The name of a level in a settings file. -/
def levelName : UnresolvedLevel → Text
  | .warn => "warn"
  | .debug => "debug"

/-- Settings as a tree of values. -/
def toValue (s : Settings) : SettingValue :=
  .table [("inference", .table [("unresolved", .text (levelName s.unresolved))]),
    ("output", .table [("pretty", .bool s.pretty)]),
    ("parser", .table [("indent_width", .int s.indentWidth)]),
    ("tables", .table [("disambiguator_start", .int s.firstId.toNat),
      ("dummy_reference", .text s.dummyReference), ("none_axis", .text s.noneAxis)])]

/-! ## Layers -/

/-- One file of settings, as what is known of it. -/
inductive Layer where
  /-- A file that need not be there, and is not. -/
  | absent
  /-- A file that should be there, and cannot be read. -/
  | unreadable
  | content (t : Text)
deriving DecidableEq, Repr, Inhabited

/-- Puts a key of a file into a tree; a key that reads as a path is one. -/
def addEntry (root : SettingValue) (entry : Text × SettingValue) : SettingValue :=
  match SettingKey.ofText? entry.1 with
  | some key => key.assign root entry.2
  | none => root.setKey entry.1 entry.2

/-- Puts a file on top of a tree of values. -/
def addLayer (root : SettingValue) : Layer → Except SettingsError SettingValue
  | .absent => .ok root
  | .unreadable => .error .unreadable
  | .content t =>
    match Toml.read? t with
    | some entries => .ok (entries.foldl addEntry root)
    | none => .error .badSyntax

/-- Reads the keys of single settings. -/
def readKeys (overrides : List (Text × SettingValue)) :
    Except SettingsError (List (SettingKey × SettingValue)) :=
  overrides.mapM fun (key, v) => do
    let key ← orError .badKey (SettingKey.ofText? key)
    return (key, v)

/-- Settings from the built-in ones, files and single keys. The keys are read before any file. -/
def load (layers : List Layer) (overrides : List (Text × SettingValue)) :
    Except SettingsError Settings := do
  let keys ← readKeys overrides
  let root ← layers.foldlM addLayer (toValue {})
  ofValue (keys.foldl (fun root (key, v) => key.assign root v) root)

end Settings

end PlanGraph
