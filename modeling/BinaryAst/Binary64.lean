/-!
# BinaryAst.Binary64

Binary64 numbers, kept as their bit patterns.

The bits are the value: reading and writing lose nothing, every NaN included,
and a number's exact value is `± significand * 2 ^ scale`, in integers.
-/

namespace BinaryAst

/-- A binary64 number, by its bit pattern. -/
structure Binary64 where
  bits : UInt64
  deriving DecidableEq, Repr

namespace Binary64

/-- The sign bit is set. -/
def isNegative (x : Binary64) : Bool := 1 <<< 63 ≤ x.bits.toNat

/-- The eleven bits of the exponent. -/
def exponentField (x : Binary64) : Nat := x.bits.toNat / (1 <<< 52) % (1 <<< 11)

/-- The fifty-two bits of the fraction. -/
def fraction (x : Binary64) : Nat := x.bits.toNat % (1 <<< 52)

/-- The number is neither infinite nor NaN. -/
def isFinite (x : Binary64) : Bool := x.exponentField != 2047

/-- The bits stand for no number. -/
def isNaN (x : Binary64) : Bool := x.exponentField == 2047 && x.fraction != 0

/-- The number is zero, of either sign. -/
def isZero (x : Binary64) : Bool := x.exponentField == 0 && x.fraction == 0

/-- The integer whose multiple of `2 ^ scale` a finite number is. -/
def significand (x : Binary64) : Nat :=
  if x.exponentField = 0 then x.fraction else (1 <<< 52) + x.fraction

/-- The weight of the last place, as an exponent of two. -/
def scale (x : Binary64) : Int := max x.exponentField 1 - 1075

/-- The gap to the next smaller number is half the gap to the next larger one. -/
def isNarrowBelow (x : Binary64) : Bool := x.fraction == 0 && 1 < x.exponentField

/-- Equality as numbers: NaN equals nothing, and the two zeros equal each other. -/
def numericEq (x y : Binary64) : Bool :=
  !x.isNaN && !y.isNaN && (x.bits == y.bits || (x.isZero && y.isZero))

/-- The NaN with no payload. -/
def nan : Binary64 := ⟨0x7FF8000000000000⟩

end Binary64

end BinaryAst
