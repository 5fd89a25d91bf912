import PlanGraph.Text.Basic

set_option autoImplicit false

/-! # Numerals

Whole numbers as they are read from plans and settings: an optional sign, then at least one ASCII
digit and nothing else. A number past the given bound is no number. -/

namespace PlanGraph

namespace Numeral

/-- The largest number of 64 bits. -/
def max64 : Nat := 0xFFFFFFFFFFFFFFFF

/-- The largest number of 32 bits. -/
def max32 : Nat := 0xFFFFFFFF

/-- The value of a run of ASCII digits, most significant first. -/
def value (digits : Text) : Nat :=
  digits.foldl (fun n c => 10 * n + (c.toNat - '0'.toNat)) 0

/-- At least one ASCII digit and nothing else. -/
def digits? (t : Text) : Option Nat :=
  if !t.isEmpty && t.all Char.isDigit then some (value t) else none

/-- A number from zero to `bound`, with an optional plus sign. -/
def natural? (bound : Nat) (t : Text) : Option Nat :=
  let body := match t with
    | '+' :: rest => rest
    | _ => t
  (digits? body).filter (· ≤ bound)

theorem le_of_natural? {bound n : Nat} {t : Text} (h : natural? bound t = some n) : n ≤ bound := by
  simp only [natural?] at h
  simpa using (Option.filter_eq_some_iff.1 h).2

/-- A signed number of 64 bits. -/
def integer? (t : Text) : Option Int :=
  match t with
  | '-' :: rest => ((digits? rest).filter (· ≤ 0x8000000000000000)).map fun n => -(n : Int)
  | _ => (natural? 0x7FFFFFFFFFFFFFFF t).map fun n => (n : Int)

/-- A number in decimal. -/
def decimal (n : Nat) : Text := Nat.toDigits 10 n

end Numeral

end PlanGraph
