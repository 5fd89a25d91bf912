import PlanGraph.Numeral

set_option autoImplicit false

/-! # Positions

Each role line has a position, a path of numbers such as `1.2.1`. Its text is kept as it was
written; the numbers in it give the order of the tables. A row without a position comes last. -/

namespace PlanGraph

/-- A position, as its text. -/
structure Position where
  text : Text
deriving DecidableEq, Repr, Inhabited

/-- How two values compare in an order. -/
def compareBy {α : Type} (le : α → α → Bool) (a b : α) : Ordering :=
  if le a b then if le b a then .eq else .lt else .gt

/-- What rows are sorted by. -/
inductive SortKey where
  | path (components : List Nat)
  | missing
deriving DecidableEq, Repr, Inhabited

/-- The order of paths: number by number, a path before its extensions. -/
def pathLe : List Nat → List Nat → Bool
  | [], _ => true
  | _ :: _, [] => false
  | m :: p, n :: q => m < n || (m == n && pathLe p q)

namespace SortKey

/-- The order of sort keys. -/
def le : SortKey → SortKey → Bool
  | path p, path q => pathLe p q
  | path _, missing => true
  | missing, path _ => false
  | missing, missing => true

end SortKey

namespace Position

/-- The position that a text spells. -/
def ofText (t : Text) : Position := ⟨t.trim⟩

/-- The position of what comes before every role line. -/
def absent : Position := ⟨[]⟩

/-- Whether there is no position. -/
def isAbsent (p : Position) : Bool := p.text.isEmpty

/-- The number that one part of a position spells; zero if it spells none. -/
def component (part : Text) : Nat := (Numeral.natural? Numeral.max64 part.trim).getD 0

/-- The numbers of a position. -/
def components (p : Position) : List Nat :=
  if p.isAbsent then [] else (Text.splitOn '.' p.text).map component

theorem component_le (part : Text) : component part ≤ Numeral.max64 := by
  rw [component]
  cases h : Numeral.natural? Numeral.max64 part.trim with
  | none => exact Nat.zero_le _
  | some n => exact Numeral.le_of_natural? h

theorem components_le (p : Position) : ∀ n ∈ p.components, n ≤ Numeral.max64 := by
  intro n hn
  rw [components] at hn
  split at hn
  · simp at hn
  · obtain ⟨part, -, rfl⟩ := List.mem_map.1 hn
    exact component_le part

/-- The key that a position is sorted by. -/
def sortKey (p : Position) : SortKey := if p.isAbsent then .missing else .path p.components

/-- The position whose numbers these are. -/
def ofComponents (path : List Nat) : Position := ⟨Text.joinWith '.' (path.map Numeral.decimal)⟩

/-- Compares two positions by key, and where the keys are the same by text. -/
def cmp (p q : Position) : Ordering :=
  (compareBy SortKey.le p.sortKey q.sortKey).then (compareBy Text.le p.text q.text)

/-- The order of positions. -/
def le (p q : Position) : Bool := (p.cmp q).isLE

/-- Puts a position into an ascending list of positions, unless one there compares as equal. -/
def insert (p : Position) : List Position → List Position
  | [] => [p]
  | q :: rest =>
    match p.cmp q with
    | .lt => p :: q :: rest
    | .eq => q :: rest
    | .gt => q :: insert p rest

/-- The distinct positions of a list, in ascending order. -/
def setOf (ps : List Position) : List Position := ps.foldl (fun set p => p.insert set) []

end Position

/-- The key of a row by its first position, if it has one. -/
def SortKey.ofPosition? (p : Option Position) : SortKey := (p.map Position.sortKey).getD .missing

end PlanGraph
