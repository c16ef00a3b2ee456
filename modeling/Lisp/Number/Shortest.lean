import Lisp.Number.Binary64

/-!
# The shortest decimal of a double

Every double is the nearest double to all rationals of an interval around it.  Among the decimals
of that interval `shortest` takes one with the fewest digits, and of those the one nearest to the
double.  All comparisons are exact, in natural numbers.

The search walks down the grids `10 ^ p`.  If any multiple of `10 ^ p` lies in the interval, then so
does one of the two multiples beside the double itself, so two candidates per grid are enough.
-/

namespace Lisp.Number

-- Powers are those of the core library, also where others are in scope.
attribute [local instance(2000)] instPowNat

/-- A decimal magnitude `digits * 10 ^ exponent`. -/
structure Decimal where
  /-- The digits, read as one number. -/
  digits : Nat
  exponent : Int
deriving DecidableEq, Repr

/-- The rationals that round to a double: `low`, `value` and `high` are whole multiples of
`2 ^ unit`, and the two ends belong to the interval when `closed` holds. -/
structure RoundingInterval where
  low : Nat
  value : Nat
  high : Nat
  /-- The power of two that the three are multiples of. -/
  unit : Int
  /-- Whether the ends round to the double too. -/
  closed : Bool
deriving DecidableEq, Repr

namespace RoundingInterval

/-- The interval of a positive magnitude.  Half a step reaches to either side, but below a power of
two the steps are half as long.  An end is a tie, and ties go to the even mantissa. -/
def ofDyadic (d : Dyadic) : RoundingInterval :=
  let atPower := d.mantissa = 2 ^ (52 : Nat) ∧ Binary64.leastExponent < d.exponent
  { low := 4 * d.mantissa - (if atPower then 1 else 2)
    value := 4 * d.mantissa
    high := 4 * d.mantissa + 2
    unit := d.exponent - 2
    closed := d.mantissa % 2 = 0 }

/-- What one step of the grid `10 ^ p` weighs when whole numbers are compared. -/
def gridWeight (interval : RoundingInterval) (p : Int) : Nat :=
  10 ^ p.toNat * 2 ^ (-interval.unit).toNat

def unitWeight (interval : RoundingInterval) (p : Int) : Nat :=
  2 ^ interval.unit.toNat * 10 ^ (-p).toNat

def contains (interval : RoundingInterval) (p : Int) (digits : Nat) : Bool :=
  let point := digits * interval.gridWeight p
  let low := interval.low * interval.unitWeight p
  let high := interval.high * interval.unitWeight p
  if interval.closed then low ≤ point && point ≤ high else low < point && point < high

/-- The multiple of `10 ^ p` in the interval that lies nearest to the double, the greater one of
two that lie equally near. -/
def pick (interval : RoundingInterval) (p : Int) : Option Nat :=
  let grid := interval.gridWeight p
  let value := interval.value * interval.unitWeight p
  let below := value / grid
  let above := below + 1
  match interval.contains p below, interval.contains p above with
  | true, true => some (if value - below * grid < above * grid - value then below else above)
  | true, false => some below
  | false, true => some above
  | false, false => none

def search (interval : RoundingInterval) : Nat → Int → Decimal
  | 0, p => ⟨interval.value * interval.unitWeight p / interval.gridWeight p, p⟩
  | fuel + 1, p =>
    match interval.pick p with
    | some digits => ⟨digits, p⟩
    | none => search interval fuel (p - 1)

end RoundingInterval

def tenAbove (e : Int) : Int :=
  e * 30103 / 100000 + 1

/-- The shortest decimal that reads back as the double, nearest to it among those.  Seventeen
digits always suffice, so the search ends well within its allowance. -/
def shortest (d : Dyadic) : Decimal :=
  (RoundingInterval.ofDyadic d).search 24 (tenAbove (d.mantissa.log2 + 1 + d.exponent))

end Lisp.Number
