import Lisp.Number.Radix
import Lisp.Number.Binary64

/-!
# Numeric literals

The number that a token denotes.  Five notations share the token's letters: integers with an
optional base prefix, radix integers such as `16rff`, decimals with a point, and scientific
notation.  The letters present decide which one is meant, and `Literal.read` answers `none` for a
token that the chosen notation refuses.
-/

namespace Lisp.Number

-- Powers are those of the core library, also where others are in scope.
attribute [local instance(2000)] instPowNat

inductive Literal where
  | int (n : Int64)
  | float (x : Float)

/-- The parts of a text between the characters that satisfy the test; always one part more than
there are such characters. -/
def splitAt (isSeparator : Char → Bool) : List Char → List (List Char)
  | [] => [[]]
  | c :: rest =>
    if isSeparator c then [] :: splitAt isSeparator rest
    else
      match splitAt isSeparator rest with
      | [] => [[c]]
      | part :: parts => (c :: part) :: parts

namespace Literal

/-- The base that a prefix of an integer names, and the digits behind it.  A zero in front of
anything else means octal. -/
def basePrefix : List Char → Nat × List Char
  | '0' :: 'x' :: digits => (16, digits)
  | '0' :: 'X' :: digits => (16, digits)
  | '0' :: 'b' :: digits => (2, digits)
  | '0' :: 'B' :: digits => (2, digits)
  | '0' :: 'o' :: digits => (8, digits)
  | '0' :: 'O' :: digits => (8, digits)
  | '0' :: c :: digits => (8, c :: digits)
  | digits => (10, digits)

/-- An integer of the given sign.  Underscores may stand anywhere and mean nothing. -/
def integer (negative : Bool) (body : List Char) : Option Int64 :=
  let (base, digits) := basePrefix (body.filter (· ≠ '_'))
  int64OfDigits negative base digits

/-- A base from 2 to 36 in decimal, the letter `r`, and digits in that base.  The sign stands in
front of the base and counts for the whole number. -/
def radixInteger (token : List Char) : Option Int64 :=
  match splitAt (fun c => c = 'r' || c = 'R') token with
  | [base, digits] =>
    match decimalInteger base with
    | some base =>
      if 2 ≤ base.natAbs ∧ base.natAbs ≤ 36 then
        int64OfDigits (base < 0) base.natAbs digits
      else none
    | none => none
  | _ => none

def decimalMagnitude (negative : Bool) (body : List Char) : Option Float :=
  match splitAt (· = '.') body with
  | [whole] => (natOfDigits 10 whole).map fun n => Binary64.nearest negative n 1
  | [whole, fraction] =>
    (natOfDigits 10 (whole ++ fraction)).map fun n =>
      Binary64.nearest negative n (10 ^ fraction.length)
  | _ => none

/-- A double without an exponent: at most one sign, then decimal digits or the name of infinity or
of not-a-number in any case. -/
def decimal (text : List Char) : Option Float :=
  let (negative, body) := splitSign text
  let lower := String.ofList (body.map Char.toLower)
  if lower = "inf" || lower = "infinity" then
    some (Float.ofBits (if negative then 0xfff0000000000000 else 0x7ff0000000000000))
  else if lower = "nan" then some (Float.ofBits 0x7ff8000000000000)
  else decimalMagnitude negative body

/-- Multiplies `result` by `power ^ e`, by repeated squaring: the bits of `e` decide, from the
lowest, which squares count.  The last square that no bit asks for is never formed. -/
def powerLoop : Nat → Float → Float → Nat → Float
  | 0, result, _, _ => result
  | fuel + 1, result, power, e =>
    let result := if e % 2 = 1 then result * power else result
    if e / 2 = 0 then result else powerLoop fuel result (power * power) (e / 2)

/-- Ten to an exponent of at most 32 bits, in doubles; a negative exponent gives the reciprocal of
the positive power. -/
def powerOfTen (e : Int) : Float :=
  let power := powerLoop 32 1.0 10.0 e.natAbs
  if e < 0 then 1.0 / power else power

def exponent (text : List Char) : Option Int :=
  (decimalInteger text).filter fun e =>
    Int32.minValue.toInt ≤ e ∧ e ≤ Int32.maxValue.toInt

/-- A mantissa times a power of ten.  The product is formed in doubles, so an exponent beyond their
range gives zero, infinity, or not-a-number where a zero meets an infinity. -/
def scientific (negative : Bool) (lower : List Char) : Option Float :=
  match splitAt (· = 'e') lower with
  | [mantissa, e] =>
    match decimal (if negative then '-' :: mantissa else mantissa), exponent e with
    | some m, some e => some (m * powerOfTen e)
    | _, _ => none
  | _ => none

/-- Whether a lower-case body names its base by a prefix, which settles the notation. -/
def hasBasePrefix : List Char → Bool
  | '0' :: c :: _ => c = 'x' || c = 'b' || c = 'o'
  | _ => false

def read (token : List Char) : Option Literal :=
  let (negative, body) := splitSign token
  let lower := body.map Char.toLower
  if hasBasePrefix lower then (integer negative body).map .int
  else
    let isRadix := lower.contains 'r'
    let isDecimal := lower.contains '.'
    let isScientific := lower.contains 'e'
    if isRadix && (isDecimal || isScientific) then none
    else if isScientific then (scientific negative lower).map .float
    else if isDecimal then (decimal token).map .float
    else if isRadix then (radixInteger token).map .int
    else (integer negative body).map .int

end Literal

end Lisp.Number
