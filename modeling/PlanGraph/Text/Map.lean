import PlanGraph.Text.Basic

set_option autoImplicit false

/-! # Maps from texts

A map from texts is the list of its entries in the order of their keys. `get?` is its view: each
operation below comes with the equation that says what it does to `get?`. -/

namespace PlanGraph

/-- The entries of a map, in the order of their keys. -/
abbrev TextMap (α : Type) := List (Text × α)

namespace TextMap

variable {α : Type}

/-- The value of a key. -/
def get? : TextMap α → Text → Option α
  | [], _ => none
  | (k, v) :: rest, key => if key = k then some v else get? rest key

/-- Whether a key has a value. -/
def contains (m : TextMap α) (key : Text) : Bool := (m.get? key).isSome

/-- Gives `key` the value `v`, whatever it had before. -/
def insert : TextMap α → Text → α → TextMap α
  | [], key, v => [(key, v)]
  | (k, w) :: rest, key, v =>
    if key = k then (key, v) :: rest
    else if key.le k then (key, v) :: (k, w) :: rest
    else (k, w) :: insert rest key v

/-- Gives `key` the value `v` unless it has one. -/
def insertNew (m : TextMap α) (key : Text) (v : α) : TextMap α :=
  if m.contains key then m else m.insert key v

/-- The map of a list of entries, of which the first for a key counts. -/
def ofFirst (entries : List (Text × α)) : TextMap α :=
  entries.foldl (fun m e => m.insertNew e.1 e.2) []

/-- The map of a list of entries, of which the last for a key counts. -/
def ofLast (entries : List (Text × α)) : TextMap α :=
  entries.foldl (fun m e => m.insert e.1 e.2) []

@[simp]
theorem get?_insert (m : TextMap α) (key other : Text) (v : α) :
    (m.insert key v).get? other = if other = key then some v else m.get? other := by
  induction m with
  | nil => simp [insert, get?]
  | cons e rest ih =>
    obtain ⟨k, w⟩ := e
    rw [insert]
    split
    · next h => subst h; by_cases ho : other = key <;> simp [get?, ho]
    · next h =>
      split
      · by_cases ho : other = key <;> simp [get?, ho]
      · by_cases ho : other = k
        · subst ho
          have : ¬ other = key := fun hk => h hk.symm
          simp [get?, this]
        · simp [get?, ho, ih]

@[simp]
theorem get?_insertNew (m : TextMap α) (key other : Text) (v : α) :
    (m.insertNew key v).get? other =
      if other = key then some ((m.get? key).getD v) else m.get? other := by
  by_cases hc : (m.get? key).isSome
  · obtain ⟨w, hw⟩ := Option.isSome_iff_exists.1 hc
    by_cases ho : other = key
    · subst ho; simp [insertNew, contains, hw]
    · simp [insertNew, contains, hw, ho]
  · have hn : m.get? key = none := by simpa using hc
    by_cases ho : other = key <;> simp [insertNew, contains, hn, ho]

end TextMap

end PlanGraph
