import PlanGraph.Position.Basic

set_option autoImplicit false

/-! # Counting positions

Role lines are numbered by one count for each depth: a line at some depth raises that count, keeps
the ones above it and drops the deeper ones. Depths that were passed over count zero. A count is a
number of 64 bits and starts over behind the largest, so that every count can be read back from
the text of a position. -/

namespace PlanGraph

/-- The counts of all depths, the outermost first. -/
structure Counter where
  counts : List Nat
  /-- Each count is a number of 64 bits. -/
  counts_le : ∀ n ∈ counts, n ≤ Numeral.max64
deriving DecidableEq, Repr

namespace Counter

/-- No line yet. -/
def start : Counter := ⟨[], by simp⟩

instance : Inhabited Counter := ⟨start⟩

/-- One more than a count, or zero behind the largest. -/
def raise (n : Nat) : Nat := (n + 1) % (Numeral.max64 + 1)

theorem raise_le (n : Nat) : raise n ≤ Numeral.max64 := by
  have : raise n < Numeral.max64 + 1 := Nat.mod_lt _ (Nat.succ_pos _)
  omega

/-- The counter after one more line at a depth. -/
def advance (c : Counter) (depth : Nat) : Counter where
  counts := c.counts.take depth ++ List.replicate (depth - c.counts.length) 0 ++
    [raise (c.counts.getD depth 0)]
  counts_le := by
    intro n hn
    simp only [List.mem_append, List.mem_replicate, List.mem_singleton] at hn
    rcases hn with (hn | ⟨-, rfl⟩) | rfl
    · exact c.counts_le n (List.mem_of_mem_take hn)
    · exact Nat.zero_le _
    · exact raise_le _

/-- The position of the line that was counted last. -/
def position (c : Counter) : Position := .ofComponents c.counts

/-- The counter that goes on from a position. -/
def resetTo (p : Position) : Counter := ⟨p.components, p.components_le⟩

/-- One more line leaves one count for each depth up to its own. -/
@[simp]
theorem length_advance (c : Counter) (depth : Nat) :
    (c.advance depth).counts.length = depth + 1 := by
  simp only [advance, List.length_append, List.length_take, List.length_replicate,
    List.length_singleton]
  omega

end Counter

end PlanGraph
