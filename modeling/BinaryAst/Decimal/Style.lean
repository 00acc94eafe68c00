import BinaryAst.Decimal.Shortest
/-!
# BinaryAst.Decimal.Style

How a decimal is written out: with all its places, or with an exponent.
-/

namespace BinaryAst.Decimal

/-- The choices of a number format. -/
structure Style where
  /-- Which of two equally near shortest decimals is written. -/
  tie : Tie
  /-- Whether a number whose leading digit has this exponent of ten is written
  with all its places. -/
  isPositional : Int → Bool
  /-- An integral number written with all its places ends in `.0`. -/
  pointZero : Bool

/-- A run of zeros. -/
def zeros (count : Nat) : String := String.ofList (List.replicate count '0')

/-- The digits, with the point where the exponent puts it. -/
def positional (style : Style) (d : Decimal) : String :=
  let digits := d.digits.repr.toList
  if 0 ≤ d.exponent then
    String.ofList digits ++ zeros d.exponent.toNat ++ if style.pointZero then ".0" else ""
  else
    let places := (-d.exponent).toNat
    if places < digits.length then
      String.ofList (digits.take (digits.length - places)) ++ "." ++
        String.ofList (digits.drop (digits.length - places))
    else
      "0." ++ zeros (places - digits.length) ++ String.ofList digits

/-- The exponent of ten of the leading digit. -/
def leadingExponent (d : Decimal) : Int := d.digits.repr.length - 1 + d.exponent

/-- The leading digit, the others after a point, and an exponent with its sign. -/
def scientific (d : Decimal) : String :=
  let fraction := match d.digits.repr.toList with
    | leading :: second :: rest => [leading, '.', second] ++ rest
    | digits => digits
  let exponent := d.leadingExponent
  String.ofList fraction ++ "e" ++ (if exponent < 0 then "-" else "+") ++ exponent.natAbs.repr

/-- A decimal in a style. -/
def write (style : Style) (d : Decimal) : String :=
  if d.digits = 0 ∨ style.isPositional d.leadingExponent then d.positional style
  else d.scientific

/-- A finite number in a style; the sign of zero is kept. -/
def Style.text (style : Style) (x : Binary64) : String :=
  (if x.isNegative then "-" else "") ++ (shortest style.tie x).write style

end BinaryAst.Decimal
