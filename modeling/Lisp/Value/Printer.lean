import Lisp.Number.Layout
import Lisp.Number.Radix
import Lisp.Text.Escape
import Lisp.Value.Basic

/-!
# Printed form of a value

`Value.sexpr` is the text of a value.  For the readable kinds it is source text: reading it gives
the value back.  Callables and host objects are shown in angle brackets behind a number sign, which
no reader table takes back.

The text is built from its end: `write v tail` puts the text of `v` in front of `tail`, so nested
lists cost no repeated copying.
-/

namespace Lisp

/-- Printed doubles keep a fraction and never use an exponent; the special values have names that
the reader knows. -/
def printedFloat : Number.FloatLayout where
  wholeHasFraction := true
  positional := none
  notANumber := "##NaN"
  infinity := "##Inf"
  negativeInfinity := "##-Inf"

namespace Value

/-- A character literal: the character behind a backslash, or its name, or its code if it is a
control character. -/
def charText (c : Char) : List Char :=
  match Text.characterName c with
  | some name => '\x5c' :: name.toList
  | none =>
    if Text.isControl c then '\x5c' :: 'u' :: Number.hexadecimal 4 c.toNat
    else ['\x5c', c]

def stringText (text : String) : List Char :=
  '\x22' :: (text.toList.flatMap Text.escaped ++ ['\x22'])

def bracketed (what name : String) : List Char :=
  "#<".toList ++ what.toList ++ ' ' :: name.toList ++ ['>']

def atomText : Value → List Char
  | .nil => "nil".toList
  | .bool true => "true".toList
  | .bool false => "false".toList
  | .int n => Number.decimalOfInt64 n
  | .float x => printedFloat.text x
  | .char c => charText c
  | .string text => stringText text
  | .symbol name => name.toList
  | .keyword name => ':' :: name.toList
  | .rewriter _ name _ _ => bracketed "macro" name
  | .native f => bracketed "fn" f.name
  | .invokable f => bracketed "invokable" f.name
  | .object o => o.text.toList
  | .list _ | .vector _ => []

mutual

/-- Puts the text of a value in front of a tail. -/
def write : Value → List Char → List Char
  | .list items, tail => '(' :: writeItems items (')' :: tail)
  | .vector items, tail => '[' :: writeItems items (']' :: tail)
  | atom, tail => atom.atomText ++ tail

def writeItems : List Value → List Char → List Char
  | [], tail => tail
  | v :: rest, tail => v.write (writeRest rest tail)

def writeRest : List Value → List Char → List Char
  | [], tail => tail
  | v :: rest, tail => ' ' :: v.write (writeRest rest tail)

end

def sexpr (v : Value) : String :=
  String.ofList (v.write [])

end Value

end Lisp
