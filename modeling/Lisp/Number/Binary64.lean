/-!
# Doubles as dyadic rationals

The exact side of 64-bit floating point: which rational number the bits of a double stand for, and
which double lies nearest to a rational number.  Both are stated on natural numbers, so the order
of the bits of the non-negative doubles is the order of their values.
-/

namespace Lisp.Number

-- Powers are those of the core library, also where others are in scope.
attribute [local instance(2000)] instPowNat

/-- A finite magnitude `mantissa * 2 ^ exponent`. -/
structure Dyadic where
  mantissa : Nat
  exponent : Int
deriving DecidableEq, Repr

namespace Binary64

def infinityBits : Nat := 0x7ff0000000000000

def leastExponent : Int := -1074

def roundHalfEven (numerator denominator : Nat) : Nat :=
  let quotient := numerator / denominator
  let twice := 2 * (numerator % denominator)
  if twice < denominator then quotient
  else if denominator < twice then quotient + 1
  else quotient + quotient % 2

/-- Whether `2 ^ e` is at most the quotient. -/
def powerLe (e : Int) (numerator denominator : Nat) : Bool :=
  denominator * 2 ^ e.toNat ≤ numerator * 2 ^ (-e).toNat

def floorLog2 (numerator denominator : Nat) : Int :=
  let estimate := (numerator.log2 : Int) - (denominator.log2 : Int)
  if powerLe estimate numerator denominator then estimate else estimate - 1

/-- The bits of the double nearest to a quotient, ties to even, too great a quotient giving
infinity.  The fraction field and the exponent field lie side by side, so a mantissa that rounds
up to the next power of two carries into the exponent by itself. -/
def nearestBits (numerator denominator : Nat) : Nat :=
  if numerator = 0 then 0
  else
    let exponent := max (floorLog2 numerator denominator - 52) leastExponent
    let mantissa :=
      roundHalfEven (numerator * 2 ^ (-exponent).toNat) (denominator * 2 ^ exponent.toNat)
    min ((exponent - leastExponent).toNat * 2 ^ (52 : Nat) + mantissa) infinityBits

def nearest (negative : Bool) (numerator denominator : Nat) : Float :=
  let magnitude := Float.ofBits (UInt64.ofNat (nearestBits numerator denominator))
  if negative then -magnitude else magnitude

def ofInt64 (n : Int64) : Float :=
  nearest (n.toInt < 0) n.toInt.natAbs 1

def signBit (x : Float) : Bool :=
  2 ^ (63 : Nat) ≤ x.toBits.toNat

def magnitude (x : Float) : Dyadic :=
  let bits := x.toBits.toNat
  let fraction := bits % 2 ^ (52 : Nat)
  let biased := bits / 2 ^ (52 : Nat) % 2 ^ (11 : Nat)
  if biased = 0 then ⟨fraction, leastExponent⟩
  else ⟨2 ^ (52 : Nat) + fraction, leastExponent + (biased - 1 : Nat)⟩

end Binary64

end Lisp.Number
