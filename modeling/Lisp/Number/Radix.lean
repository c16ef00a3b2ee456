import Lisp.Text.Class

/-!
# Numerals in a base

Digit sequences in any base from 2 to 36, letters in either case standing for ten and above, and
the signed 64-bit integers they denote.  A numeral that does not fit is refused: nothing wraps.
-/

namespace Lisp.Number

-- Powers are those of the core library, also where others are in scope.
attribute [local instance(2000)] instPowNat

/-- The value of a digit; the letters of both cases go on after nine. -/
def digitValue (c : Char) : Option Nat :=
  let code := c.toNat
  if Text.isDigit c then some (code - 0x30)
  else if 0x61 ≤ code && code ≤ 0x7a then some (code - 0x61 + 10)
  else if 0x41 ≤ code && code ≤ 0x5a then some (code - 0x41 + 10)
  else none

def digitIn (base : Nat) (c : Char) : Option Nat :=
  (digitValue c).filter (· < base)

def appendDigit (base : Nat) (value : Nat) (c : Char) : Option Nat :=
  (digitIn base c).map (value * base + ·)

def natOfDigits (base : Nat) (digits : List Char) : Option Nat :=
  if digits.isEmpty then none else digits.foldlM (appendDigit base) 0

def int64OfMagnitude (negative : Bool) (magnitude : Nat) : Option Int64 :=
  if negative then
    if magnitude ≤ 2 ^ (63 : Nat) then some (Int64.ofInt (-(magnitude : Int))) else none
  else
    if magnitude < 2 ^ (63 : Nat) then some (Int64.ofInt magnitude) else none

def int64OfDigits (negative : Bool) (base : Nat) (digits : List Char) : Option Int64 :=
  (natOfDigits base digits).bind (int64OfMagnitude negative)

/-- The sign of a text and what follows it; a text without a sign counts as positive. -/
def splitSign : List Char → Bool × List Char
  | '-' :: rest => (true, rest)
  | '+' :: rest => (false, rest)
  | text => (false, text)

def decimalInteger (text : List Char) : Option Int :=
  let (negative, digits) := splitSign text
  (natOfDigits 10 digits).map fun n => if negative then -(n : Int) else n

def decimalOfInt64 (n : Int64) : List Char :=
  let value := n.toInt
  if value < 0 then '-' :: Nat.toDigits 10 value.natAbs else Nat.toDigits 10 value.natAbs

/-- The lower-case hexadecimal digits of a number, with zeros in front up to a width. -/
def hexadecimal (width n : Nat) : List Char :=
  let digits := Nat.toDigits 16 n
  List.replicate (width - digits.length) '0' ++ digits

end Lisp.Number
