import BinaryAst.Binary64
/-!
# BinaryAst.Decimal.Shortest

The shortest decimal that reads back as a given binary64 number.

A number is read back from every real that is nearer to it than to its
neighbours, and from the two midpoints when its significand is even. The search
goes through the grids of multiples of `10 ^ k`, coarsest first, and looks at the
two multiples around the number. The first grid with one of them in reach gives
the fewest digits; of two in reach the nearer is taken.

All comparisons are between natural numbers: quarters of the last binary place
and multiples of the grid are both counted in a common unit.
-/

namespace BinaryAst

/-- The number `digits * 10 ^ exponent`. -/
structure Decimal where
  digits : Nat
  exponent : Int
  deriving DecidableEq, Repr

namespace Decimal

/-- Which of two equally near decimals is taken. -/
inductive Tie
  | toEven
  | up
  deriving DecidableEq, Repr

/-- The reals that read back as a positive number, counted in quarters of its
last place. -/
structure Reach where
  low : Nat
  value : Nat
  high : Nat
  /-- The ends `low` and `high` belong to the reach. -/
  closed : Bool
  /-- A quarter is `2 ^ scale`. -/
  scale : Int
  deriving Repr

/-- The reach of a positive number. -/
def Reach.ofBinary64 (x : Binary64) : Reach where
  low := 4 * x.significand - if x.isNarrowBelow then 1 else 2
  value := 4 * x.significand
  high := 4 * x.significand + 2
  closed := x.significand % 2 == 0
  scale := x.scale - 2

namespace Reach

/-- The size of `10 ^ k` in the common unit. -/
def step (reach : Reach) (k : Int) : Nat := Nat.pow 10 k.toNat <<< (-reach.scale).toNat

/-- The size of a quarter in the common unit. -/
def quarter (reach : Reach) (k : Int) : Nat := Nat.pow 10 (-k).toNat <<< reach.scale.toNat

/-- Whether `digits * 10 ^ k` reads back as the number. -/
def holds (reach : Reach) (k : Int) (digits : Nat) : Bool :=
  let point := digits * reach.step k
  let low := reach.low * reach.quarter k
  let high := reach.high * reach.quarter k
  (low < point && point < high) || (reach.closed && (point == low || point == high))

/-- Whether `digits * 10 ^ k`, just below the number, is taken rather than the
next multiple, when both are in reach. -/
def prefersLower (reach : Reach) (tie : Tie) (k : Int) (digits : Nat) : Bool :=
  let middle := (2 * digits + 1) * reach.step k
  let value := 2 * reach.value * reach.quarter k
  value < middle || (value == middle && tie == .toEven && digits % 2 == 0)

/-- The multiple of `10 ^ k` that stands for the number, if one reads back. -/
def onGrid? (reach : Reach) (tie : Tie) (k : Int) : Option Nat :=
  -- The number lies between this multiple and the next.
  let lower := reach.value * reach.quarter k / reach.step k
  match reach.holds k lower, reach.holds k (lower + 1) with
  | true, true => some (if reach.prefersLower tie k lower then lower else lower + 1)
  | true, false => some lower
  | false, true => some (lower + 1)
  | false, false => none

/-- An exponent of ten above the number: `2 ^ 100000 < 10 ^ 30103`. -/
def coarsestGrid (reach : Reach) : Int :=
  (reach.scale + reach.value.log2 + 1) * 30103 / 100000 + 1

/-- Searches `left` grids, from `10 ^ k` on to finer ones. -/
def search (reach : Reach) (tie : Tie) : (left : Nat) → (k : Int) → Decimal
  | 0, k => ⟨reach.value * reach.quarter k / reach.step k, k⟩
  | left + 1, k =>
    match reach.onGrid? tie k with
    | some digits => ⟨digits, k⟩
    | none => reach.search tie left (k - 1)

end Reach

/-- The shortest decimal that reads back as the magnitude of a finite number. The
first grid is coarser than the number by two digits at most, and seventeen digits
always read back, so the search ends at a hit. -/
def shortest (tie : Tie) (x : Binary64) : Decimal :=
  if x.significand = 0 then ⟨0, 0⟩
  else
    let reach := Reach.ofBinary64 x
    reach.search tie 20 reach.coarsestGrid

end Decimal

end BinaryAst
