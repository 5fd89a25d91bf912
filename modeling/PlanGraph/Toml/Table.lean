import PlanGraph.Settings.Value
import PlanGraph.Toml.Date

set_option autoImplicit false

/-! # Tables of TOML

A table can be opened by a header, be implied by a header below it, be made by a dotted key, or
stand in curly brackets. Each may be opened by a header only once, a dotted key may only go into
tables that dotted keys made or that are implied on the way, and nothing is added to curly brackets.

The entries of a table are kept in the order in which their keys came, because a table whose first
key is `dateKey` stands for a date. -/

namespace PlanGraph

namespace Toml

/-- What made a table. -/
inductive TableForm where
  /-- A header of its own. -/
  | headed
  /-- The header of a table below it. -/
  | implied
  /-- A dotted key. -/
  | dotted
  /-- Curly brackets. -/
  | inline
deriving DecidableEq, Repr, Inhabited

/-- What a key of a document stands for. -/
inductive Node where
  /-- A value that holds no others, and is no date. -/
  | value (v : SettingValue)
  /-- A date or time, in its standard spelling. -/
  | date (spelling : Text)
  | list (items : List Node)
  | table (form : TableForm) (entries : List (Text × Node))
  /-- A list of tables, each opened by a header, the last one first. -/
  | tables (elements : List (List (Text × Node)))
deriving Repr, Inhabited

/-! ## Entries -/

/-- The entries of a table, in the order in which their keys came. -/
abbrev Entries := List (Text × Node)

namespace Entries

/-- Gives a key its node: in its place if it has one, else at the end. -/
def put : Entries → Text → Node → Entries
  | [], key, node => [(key, node)]
  | (k, old) :: rest, key, node =>
    if key = k then (key, node) :: rest else (k, old) :: put rest key node

/-- The entries without a key. -/
def erase (entries : Entries) (key : Text) : Entries := entries.filter (·.1 != key)

end Entries

/-! ## Building -/

/-- Gives a new key its node in a table, behind a path of dotted keys. -/
def putKey (path : List Text) (key : Text) (node : Node) (entries : Entries) : Option Entries :=
  match path with
  | [] => if (entries.lookup key).isSome then none else some (entries.put key node)
  | step :: path =>
    match entries.lookup step with
    | none => (putKey path key node []).map fun sub => entries.put step (.table .dotted sub)
    | some (.table form sub) =>
      if form = .headed ∨ form = .inline ∨ (path.isEmpty ∧ form ≠ .dotted) then none
      else (putKey path key node sub).map fun sub => entries.put step (.table form sub)
    | some (.tables (last :: before)) =>
      if path.isEmpty then none
      else (putKey path key node last).map fun last => entries.put step (.tables (last :: before))
    | some _ => none

/-- Changes the table at a path. Tables on the way are implied; of a list of tables the last one is
    meant. -/
def changeTable (path : List Text) (change : Entries → Option Entries) (entries : Entries) :
    Option Entries :=
  match path with
  | [] => change entries
  | step :: path =>
    match entries.lookup step with
    | none => (changeTable path change []).map fun sub => entries.put step (.table .implied sub)
    | some (.table form sub) =>
      if form = .inline then none
      else (changeTable path change sub).map fun sub => entries.put step (.table form sub)
    | some (.tables (last :: before)) =>
      (changeTable path change last).map fun last => entries.put step (.tables (last :: before))
    | some _ => none

/-- Opens a table by its header: it must be new or only implied so far. Its key comes anew. -/
def openTable (key : Text) (entries : Entries) : Option Entries :=
  match entries.lookup key with
  | none => some (entries.put key (.table .headed []))
  | some (.table .implied sub) => some ((entries.erase key).put key (.table .headed sub))
  | some _ => none

/-- Opens the next table of a list of tables by its header. -/
def openListed (key : Text) (entries : Entries) : Option Entries :=
  match entries.lookup key with
  | none => some (entries.put key (.tables [[]]))
  | some (.tables elements) => some (entries.put key (.tables ([] :: elements)))
  | some _ => none

/-! ## Meaning -/

/-- The key that makes a table a date, if it comes first; its text spells the date. -/
def dateKey : Text := "$__toml_private_datetime"

/-- The date that the text at `dateKey` spells. -/
def Node.toDate? : Node → Option SettingValue
  | .value (.text t) => (wholeDateTime? t).map .text
  | _ => none

mutual

/-- What a node means; nothing if a date is no date. -/
def Node.toValue? : Node → Option SettingValue
  | .value v => some v
  | .date spelling => some (.text spelling)
  | .list items => (Node.toValues? items).map .list
  | .table _ entries => Node.ofTable? entries
  | .tables elements => (Node.ofTables? elements).map fun vs => .list vs.reverse

/-- What the nodes of a list mean. -/
def Node.toValues? : List Node → Option (List SettingValue)
  | [] => some []
  | node :: rest => do return (← node.toValue?) :: (← Node.toValues? rest)

/-- What the entries of a table mean, one by one. -/
def Node.toEntries? : List (Text × Node) → Option (List (Text × SettingValue))
  | [] => some []
  | (key, node) :: rest => do return (key, ← node.toValue?) :: (← Node.toEntries? rest)

/-- What a table means: a date if `dateKey` comes first, whatever follows it. -/
def Node.ofTable? : List (Text × Node) → Option SettingValue
  | [] => some (.table [])
  | (key, node) :: rest =>
    if key = dateKey then node.toDate?
    else do return .table (TextMap.ofLast ((key, ← node.toValue?) :: (← Node.toEntries? rest)))

/-- What a list of tables means, in the order in which it is given. -/
def Node.ofTables? : List (List (Text × Node)) → Option (List SettingValue)
  | [] => some []
  | entries :: rest => do return (← Node.ofTable? entries) :: (← Node.ofTables? rest)

end

end Toml

end PlanGraph
