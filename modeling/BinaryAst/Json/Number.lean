/-!
# BinaryAst.Json.Number

The magnitude of a number written in JSON, as far as it decides whether the
number can be represented.

A reader of numbers keeps the digits in a 64-bit significand and counts those
that no longer fit in the exponent. The number is the significand times a power
of ten, both rounded to fifty-three bits, and it is out of range when the product
rounds to infinity.
-/

namespace BinaryAst.Json

/-- The magnitude `significand * 10 ^ exponent`. -/
structure Magnitude where
  significand : Nat
  exponent : Int
  deriving DecidableEq, Repr

namespace Magnitude

/-- The significand with one more digit still fits 64 bits. -/
def fits (m : Magnitude) (digit : Nat) : Bool := m.significand * 10 + digit < 1 <<< 64

/-- Takes up digits before the point. From the first that does not fit on, each
only raises the exponent. -/
def addIntegral (m : Magnitude) : List Nat → Magnitude
  | [] => m
  | digit :: digits =>
    if m.fits digit then
      { m with significand := m.significand * 10 + digit }.addIntegral digits
    else
      { m with exponent := m.exponent + (digit :: digits).length }

/-- Takes up digits after the point. From the first that does not fit on, they are
dropped. -/
def addFraction (m : Magnitude) : List Nat → Magnitude
  | [] => m
  | digit :: digits =>
    if m.fits digit then
      (Magnitude.mk (m.significand * 10 + digit) (m.exponent - 1)).addFraction digits
    else m

/-- A natural number rounded to fifty-three significant bits, a tie to even. -/
def roundToPlaces (n : Nat) : Nat :=
  let dropped := n.log2 - 52
  let unit := 1 <<< dropped
  let floor := n / unit
  let twice := 2 * (n % unit)
  if twice > unit ∨ (twice = unit ∧ floor % 2 = 1) then (floor + 1) * unit else floor * unit

/-- The first magnitude that rounds to infinity. -/
def infinite : Nat := (1 <<< 1024) - (1 <<< 970)

/-- The largest power of ten below infinity. -/
def maxPower : Nat := 308

/-- The number is too large to be represented. -/
def isOutOfRange (m : Magnitude) : Bool :=
  m.significand != 0 &&
    (maxPower < m.exponent ||
      (0 ≤ m.exponent &&
        infinite ≤ roundToPlaces m.significand * roundToPlaces (Nat.pow 10 m.exponent.toNat)))

/-- The magnitude of the digits before and after the point and the exponent. -/
def ofDigits (integral fraction : List Nat) (exponent : Int) : Magnitude :=
  let m := ((⟨0, 0⟩ : Magnitude).addIntegral integral).addFraction fraction
  { m with exponent := m.exponent + exponent }

end Magnitude

end BinaryAst.Json
