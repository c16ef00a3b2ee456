import Lisp.Number.Shortest

/-!
# Floats as text

How a double is laid out once its shortest decimal is known.  A `FloatLayout` holds the decisions of
one output format: whether a whole number keeps a fraction, where positional notation ends, and the
names of the values that are no numbers.
-/

namespace Lisp.Number

structure FloatLayout where
  /-- Whether a whole number is written with a fraction of one zero. -/
  wholeHasFraction : Bool
  /-- The magnitudes written positionally, as a half-open range of the exponent of their first
  digit; without a range all are. -/
  positional : Option (Int × Int)
  notANumber : String
  infinity : String
  negativeInfinity : String

namespace FloatLayout

def positionalText (wholeHasFraction : Bool) (d : Decimal) : List Char :=
  let digits := Nat.toDigits 10 d.digits
  let places := (-d.exponent).toNat
  if places = 0 then
    digits ++ List.replicate d.exponent.toNat '0' ++ (if wholeHasFraction then ['.', '0'] else [])
  else if places < digits.length then
    digits.take (digits.length - places) ++ '.' :: digits.drop (digits.length - places)
  else
    '0' :: '.' :: (List.replicate (places - digits.length) '0' ++ digits)

def exponentialText (d : Decimal) : List Char :=
  let digits := Nat.toDigits 10 d.digits
  let exponent := d.exponent + (digits.length - 1 : Nat)
  let fraction := digits.drop 1
  digits.take 1 ++ (if fraction.isEmpty then [] else '.' :: fraction) ++
    'e' :: (toString exponent).toList

def magnitudeText (layout : FloatLayout) (d : Decimal) : List Char :=
  match layout.positional with
  | none => positionalText layout.wholeHasFraction d
  | some (low, high) =>
    let first := d.exponent + ((Nat.toDigits 10 d.digits).length - 1 : Nat)
    if d.digits = 0 || (low ≤ first && first < high) then
      positionalText layout.wholeHasFraction d
    else
      exponentialText d

def decimalOf (x : Float) : Decimal :=
  let d := Binary64.magnitude x
  if d.mantissa = 0 then ⟨0, 0⟩ else shortest d

def text (layout : FloatLayout) (x : Float) : List Char :=
  if x.isNaN then layout.notANumber.toList
  else if x.isInf then
    (if Binary64.signBit x then layout.negativeInfinity else layout.infinity).toList
  else
    let digits := layout.magnitudeText (decimalOf x)
    if Binary64.signBit x then '-' :: digits else digits

end FloatLayout

end Lisp.Number
