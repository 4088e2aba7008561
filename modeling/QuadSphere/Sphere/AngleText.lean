import QuadSphere.Binary64
import QuadSphere.Sphere.Angle

/-!
# Angles as text

An angle is written in degrees, with the fewest digits that read back.

`shortest x` is a decimal number with as few digits as any that reads back to the finite number
`x`, and of those the nearest to `x`.  A decimal reads back to `x` if it lies in the interval
between the middles to the two neighbours of `x`; the ends belong to the interval if the
significand of `x` is even.

All numbers are counted in quarters of the unit in the last place of `x`, so that the ends of the
interval are whole, and compared with decimals by cross multiplication.
-/

namespace QuadSphere.Decimal

/-- The number `coefficient * 10 ^ exponent`. -/
structure Scaled where
  coefficient : Nat
  exponent : Int

/-- The interval from `low` to `high` around `value`, all three over `denominator`. -/
structure ReadingInterval where
  low : Nat
  value : Nat
  high : Nat
  denominator : Nat
  closed : Bool

namespace ReadingInterval

def ofFloat (x : Float) : ReadingInterval :=
  let m := Binary64.significand x
  let e := Binary64.exponent x - 2
  let (num, den) := (1 <<< e.toNat, 1 <<< (-e).toNat)
  let below := if Binary64.isBinadeStart x then 1 else 2
  ⟨(4 * m - below) * num, 4 * m * num, (4 * m + 2) * num, den, m % 2 = 0⟩

/-- The number of digits of the value before the point; zero and less if it starts with zeros. -/
def magnitude (r : ReadingInterval) : Int :=
  (Nat.toDigits 10 (r.value * Nat.pow 10 400 / r.denominator)).length - 400

/-- The interval measured in units of `10 ^ e`. -/
def rescale (r : ReadingInterval) (e : Int) : ReadingInterval :=
  let up := Nat.pow 10 (-e).toNat
  ⟨r.low * up, r.value * up, r.high * up, r.denominator * Nat.pow 10 e.toNat, r.closed⟩

def holds (r : ReadingInterval) (n : Nat) : Bool :=
  let m := n * r.denominator
  if r.closed then r.low ≤ m && m ≤ r.high else r.low < m && m < r.high

/-- The whole number in the interval nearest to the value, the larger of two equally near. -/
def nearest? (r : ReadingInterval) : Option Nat :=
  let n := r.value / r.denominator
  match r.holds n, r.holds (n + 1) with
  | true, true =>
    if r.value - n * r.denominator < (n + 1) * r.denominator - r.value then some n else some (n + 1)
  | true, false => some n
  | false, true => some (n + 1)
  | false, false => none

end ReadingInterval

/-- Seventeen digits are always enough. -/
def mostDigits : Nat := 17

/-- The shortest decimal of a positive number. -/
def shortest (x : Float) : Scaled :=
  let r := ReadingInterval.ofFloat x
  let found := (List.range mostDigits).findSome? fun k =>
    let e := r.magnitude - (k + 1 : Nat)
    ((r.rescale e).nearest?).map (Scaled.mk · e)
  found.getD ⟨0, 0⟩

/-- A decimal written with a point and without an exponent. -/
def Scaled.positional (d : Scaled) : String :=
  let digits := Nat.toDigits 10 d.coefficient
  if 0 ≤ d.exponent then
    String.ofList (digits ++ List.replicate d.exponent.toNat '0')
  else
    let places := (-d.exponent).toNat
    let padded := List.replicate (places + 1 - digits.length) '0' ++ digits
    let split := padded.length - places
    let fraction := ((padded.drop split).reverse.dropWhile (· = '0')).reverse
    String.ofList (padded.take split ++ if fraction = [] then [] else '.' :: fraction)

/-- Numbers are written with the fewest digits that read back, never with an exponent, and whole
ones without a point. -/
def text (x : Float) : String :=
  if x.isNaN then "NaN"
  else
    let sign := if Binary64.isNegative x then "-" else ""
    if x.isInf then sign ++ "inf"
    else if x == 0 then sign ++ "0"
    else sign ++ (shortest x).positional

end QuadSphere.Decimal

namespace QuadSphere.Angle

/-- An angle is written in degrees. -/
def text (a : Angle) : String :=
  Decimal.text a.degrees ++ "°"

end QuadSphere.Angle
