import PlanGraph.Numeral
import PlanGraph.Text.Basic

set_option autoImplicit false

/-! # Dates and times of TOML

A settings file may hold dates and times. No setting is one, but as a text each is kept in its
standard spelling: `T` between date and time, no zeros at the end of a fraction, `Z` or offset. -/

namespace PlanGraph

namespace Toml

/-- Exactly `count` digits at the front of a text, with a value from `low` to `high`. -/
def fixedDigits? (count low high : Nat) (t : Text) : Option (Nat × Text) :=
  let ds := t.take count
  let n := Numeral.value ds
  if ds.length = count ∧ ds.all Char.isDigit ∧ low ≤ n ∧ n ≤ high then some (n, t.drop count)
  else none

/-- A number with at least `width` digits. -/
def padded (width n : Nat) : Text :=
  let ds := Numeral.decimal n
  List.replicate (width - ds.length) '0' ++ ds

/-- The number of days of a month. -/
def daysIn (year month : Nat) : Nat :=
  if month = 2 then
    if year % 4 = 0 ∧ (year % 100 ≠ 0 ∨ year % 400 = 0) then 29 else 28
  else if month = 4 ∨ month = 6 ∨ month = 9 ∨ month = 11 then 30
  else 31

/-- A date. -/
def date? (t : Text) : Option (Text × Text) := do
  let (year, t) ← fixedDigits? 4 0 9999 t
  let t ← t.after? "-"
  let (month, t) ← fixedDigits? 2 1 12 t
  let t ← t.after? "-"
  let (day, t) ← fixedDigits? 2 1 (daysIn year month) t
  return (padded 4 year ++ '-' :: padded 2 month ++ '-' :: padded 2 day, t)

/-- A fraction of a second, of which nine digits count; empty if it is nothing. -/
def secondFraction (t : Text) : Text × Text :=
  match t with
  | '.' :: rest =>
    if (rest.takeWhile Char.isDigit).isEmpty then ([], t)
    else
      let ds := (((rest.takeWhile Char.isDigit).take 9).reverse.dropWhile (· == '0')).reverse
      (if ds.isEmpty then [] else '.' :: ds, rest.dropWhile Char.isDigit)
  | _ => ([], t)

/-- A time of day. -/
def time? (t : Text) : Option (Text × Text) := do
  let (hour, t) ← fixedDigits? 2 0 23 t
  let t ← t.after? ":"
  let (minute, t) ← fixedDigits? 2 0 59 t
  let t ← t.after? ":"
  let (second, t) ← fixedDigits? 2 0 60 t
  let (fraction, t) := secondFraction t
  return (padded 2 hour ++ ':' :: padded 2 minute ++ ':' :: padded 2 second ++ fraction, t)

/-- The hours and minutes of an offset behind its sign. An offset of zero is written as positive. -/
def offsetBehind? (isPositive : Bool) (t : Text) : Option (Text × Text) := do
  let (hour, t) ← fixedDigits? 2 0 23 t
  let t ← t.after? ":"
  let (minute, t) ← fixedDigits? 2 0 59 t
  let mark := if isPositive || (hour == 0 && minute == 0) then '+' else '-'
  return (mark :: padded 2 hour ++ ':' :: padded 2 minute, t)

/-- The offset of a time zone. -/
def offset? : Text → Option (Text × Text)
  | 'Z' :: rest => some (['Z'], rest)
  | 'z' :: rest => some (['Z'], rest)
  | '+' :: rest => offsetBehind? true rest
  | '-' :: rest => offsetBehind? false rest
  | _ => none

/-- The time behind a date, with its offset if there is one. -/
def timeBehind? : Text → Option (Text × Text)
  | c :: rest => do
    if c = 'T' || c = 't' || c = ' ' then
      let (time, rest) ← time? rest
      let (zone, rest) := (offset? rest).getD ([], rest)
      return ('T' :: time ++ zone, rest)
    else none
  | [] => none

/-- The date or time at the front of a text, in its standard spelling. Only a date with a time has
    an offset. -/
def dateTime? (t : Text) : Option (Text × Text) :=
  match date? t with
  | some (date, rest) =>
    match timeBehind? rest with
    | some (time, left) => some (date ++ time, left)
    | none => some (date, rest)
  | none => time? t

/-- The standard spelling of a text that is a date or time as a whole. -/
def wholeDateTime? (t : Text) : Option Text :=
  match dateTime? t with
  | some (spelling, []) => some spelling
  | _ => none

end Toml

end PlanGraph
