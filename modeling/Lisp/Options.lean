import Lisp.Error
import Lisp.Number.Radix

/-!
# Limits set from outside

The stack limit may come as text from the environment of the process.  A text that is no number, or
no text at all, leaves the usual limit.
-/

namespace Lisp.Options

def defaultMaxDepth : Nat := 10000

/-- An unsigned 64-bit number in decimal, with a plus sign in front or without. -/
def unsignedOfText (text : List Char) : Option Nat :=
  let digits := match text with
    | '+' :: digits => digits
    | digits => digits
  (Number.natOfDigits 10 digits).filter (· < UInt64.size)

/-- The stack limit that a text sets; white space around the number does not matter. -/
def maxDepthOfText (text : Option String) : Nat :=
  (text.bind fun t => unsignedOfText (Text.trim t.toList)).getD defaultMaxDepth

/-- The limit of an environment that takes what it is given: the global frame always has room. -/
def effectiveMaxDepth (requested : Nat) : Nat := max requested 1

def checkedMaxDepth (requested : Nat) : Except Error Nat :=
  if requested = 0 then .error .zeroMaxDepth else .ok requested

end Lisp.Options
