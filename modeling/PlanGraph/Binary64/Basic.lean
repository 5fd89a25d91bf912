import PlanGraph.Text.Basic

set_option autoImplicit false

/-! # Numbers with a binary point of 64 bits

Settings may be given with a fraction. Such a number is kept with 53 binary digits, as
`mantissa * 2 ^ exponent`; a decimal is rounded to the nearest of these, and to the one with an even
mantissa where two are equally near. All arithmetic is exact, on natural numbers. -/

namespace PlanGraph

/-- A number of 64 bits. -/
inductive Binary64 where
  | nan
  | infinite (negative : Bool)
  /-- The number `mantissa * 2 ^ exponent`, with a sign that zero has too. -/
  | finite (negative : Bool) (mantissa : Nat) (exponent : Int)
deriving DecidableEq, Repr, Inhabited

namespace Binary64

/-- The least exponent. -/
def minExponent : Int := -1074

/-- The greatest exponent. -/
def maxExponent : Int := 971

/-- `num / den * 2 ^ (-exponent)` as a fraction of natural numbers. -/
def scaled (num den : Nat) (exponent : Int) : Nat × Nat :=
  if 0 ≤ exponent then (num, den * Nat.pow 2 exponent.toNat)
  else (num * Nat.pow 2 (-exponent).toNat, den)

/-- The exponent of the greatest power of two that is not above `num / den`, both positive. -/
def floorLog2 (num den : Nat) : Int :=
  let guess : Int := Nat.log2 num - Nat.log2 den
  let (n, d) := scaled num den guess
  if d ≤ n then guess else guess - 1

/-- The natural number nearest to `num / den`; of two equally near ones the even one. -/
def roundEven (num den : Nat) : Nat :=
  let q := num / den
  let r := num % den
  if den < 2 * r || (2 * r == den && q % 2 == 1) then q + 1 else q

/-- The number nearest to `num / den`. -/
def ofFraction (negative : Bool) (num den : Nat) : Binary64 :=
  if num = 0 then finite negative 0 minExponent
  else
    let exponent := max (floorLog2 num den - 52) minExponent
    let (n, d) := scaled num den exponent
    let mantissa := roundEven n d
    let (mantissa, exponent) :=
      if mantissa = Nat.pow 2 53 then (Nat.pow 2 52, exponent + 1) else (mantissa, exponent)
    if maxExponent < exponent then infinite negative else finite negative mantissa exponent

/-- The number nearest to `digits * 10 ^ exponent`. Far beyond the range of numbers, the result is
    known without computing the power. -/
def ofDecimal (negative : Bool) (digits : Nat) (exponent : Int) : Binary64 :=
  let magnitude : Int := (Nat.toDigits 10 digits).length + exponent
  if digits = 0 then ofFraction negative 0 1
  else if 400 < magnitude then infinite negative
  else if magnitude < -400 then ofFraction negative 0 1
  else if 0 ≤ exponent then ofFraction negative (digits * Nat.pow 10 exponent.toNat) 1
  else ofFraction negative digits (Nat.pow 10 (-exponent).toNat)

/-- Whether a number differs from zero. -/
def isNonzero : Binary64 → Bool
  | finite _ mantissa _ => mantissa != 0
  | _ => true

/-- The natural number nearest to a number, away from zero where two are equally near. Below zero it
    is zero, and it is at most `bound`. -/
def toNat (bound : Nat) : Binary64 → Nat
  | nan => 0
  | infinite negative => if negative then 0 else bound
  | finite negative mantissa exponent =>
    if negative then 0
    else
      let (n, d) := scaled mantissa 1 (-exponent)
      min bound ((2 * n + d) / (2 * d))

end Binary64

end PlanGraph
