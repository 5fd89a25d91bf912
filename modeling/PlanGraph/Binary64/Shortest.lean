import PlanGraph.Binary64.Basic
import PlanGraph.Numeral

set_option autoImplicit false

/-! # The shortest decimal of a number

A number is written with the fewest decimal digits that read back as it, and of those with the
nearest. The digits stand around a decimal point, without an exponent. -/

namespace PlanGraph

namespace Binary64

/-- The numbers that read back as `mantissa * 2 ^ exponent`: the mantissas from `low` to `high` in
    units of `2 ^ exponent / 4`. The ends belong to them if the mantissa is even. -/
structure Interval where
  low : Nat
  high : Nat
  closed : Bool
deriving DecidableEq, Repr, Inhabited

/-- The interval of a number. Just above a power of two the numbers below lie twice as close. -/
def intervalOf (mantissa : Nat) (exponent : Int) : Interval where
  low :=
    if mantissa = Nat.pow 2 52 ∧ minExponent < exponent then 4 * mantissa - 1 else 4 * mantissa - 2
  high := 4 * mantissa + 2
  closed := mantissa % 2 == 0

/-- Whether `digits * 10 ^ power` lies in an interval in units of `2 ^ exponent / 4`. -/
def Interval.holds (i : Interval) (exponent : Int) (digits : Nat) (power : Int) : Bool :=
  let (n, d) := if 0 ≤ power then (digits * Nat.pow 10 power.toNat, 1)
    else (digits, Nat.pow 10 (-power).toNat)
  let (n, d) := scaled n d (exponent - 2)
  if i.closed then i.low * d ≤ n && n ≤ i.high * d else i.low * d < n && n < i.high * d

/-- The exponent of the greatest power of ten that is not above `num / den`, found by counting down
    from a power that is above it. -/
def floorLog10 (num den : Nat) : Nat → Int → Int
  | 0, power => power
  | fuel + 1, power =>
    let reached := if 0 ≤ power then Nat.pow 10 power.toNat * den ≤ num
      else den ≤ num * Nat.pow 10 (-power).toNat
    if reached then power else floorLog10 num den fuel (power - 1)

/-- The decimal with digits down to the given power of ten that lies in the interval and is nearest
    to the number, the upper one of two; none if neither neighbour of the number lies in it. -/
def onGrid? (i : Interval) (mantissa : Nat) (exponent power : Int) : Option Nat :=
  let (n, d) := scaled mantissa 1 (-exponent)
  let (n, d) :=
    if 0 ≤ power then (n, d * Nat.pow 10 power.toNat) else (n * Nat.pow 10 (-power).toNat, d)
  let below := n / d
  let holds := i.holds exponent
  match holds below power, holds (below + 1) power with
  | true, true => some (if d ≤ 2 * (n % d) then below + 1 else below)
  | true, false => some below
  | false, true => some (below + 1)
  | false, false => none

/-- The shortest decimal of a positive number, as digits and a power of ten: the grids are tried
    from the coarsest on. -/
def shortestFrom (i : Interval) (mantissa : Nat) (exponent : Int) : Nat → Int → Nat × Int
  | 0, power => (0, power)
  | fuel + 1, power =>
    match onGrid? i mantissa exponent power with
    | some digits => (digits, power)
    | none => shortestFrom i mantissa exponent fuel (power - 1)

/-- The shortest decimal of `mantissa * 2 ^ exponent`. Seventeen digits always suffice. -/
def shortest (mantissa : Nat) (exponent : Int) : Nat × Int :=
  let (n, d) := scaled mantissa 1 (-exponent)
  shortestFrom (intervalOf mantissa exponent) mantissa exponent 18 (floorLog10 n d 700 310)

/-- `digits * 10 ^ power` written around a decimal point, without zeros at either end that say
    nothing. -/
def positional (digits : Nat) (power : Int) : Text :=
  let ds := Numeral.decimal digits
  if 0 ≤ power then ds ++ List.replicate power.toNat '0'
  else
    let places := (-power).toNat
    let padded := List.replicate (places + 1 - ds.length) '0' ++ ds
    let whole := padded.take (padded.length - places)
    let fraction := ((padded.drop (padded.length - places)).reverse.dropWhile (· == '0')).reverse
    if fraction.isEmpty then whole else whole ++ '.' :: fraction

/-- The text of a number. -/
def toText : Binary64 → Text
  | nan => "NaN"
  | infinite negative => if negative then "-inf" else "inf"
  | finite negative mantissa exponent =>
    let body := if mantissa = 0 then ['0'] else
      let (digits, power) := shortest mantissa exponent
      positional digits power
    if negative then '-' :: body else body

end Binary64

end PlanGraph
