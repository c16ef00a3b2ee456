import Lisp.Number.Binary64
import Lisp.Value.Basic

/-!
# Equality and order of values

`Value.equals` is the equality that programs see.  An integer is compared with a double by the double
nearest to it; lists and vectors item by item; macros and callables by identity.  Of two objects of the
host the first one is asked.

`Value.compare` orders numbers, characters, strings, symbols and keywords.  Two values of other
kinds, of different kinds, or with a not-a-number among them have no order.
-/

namespace Lisp

namespace Number

def compareFloats (a b : Float) : Option Ordering :=
  if a < b then some .lt
  else if b < a then some .gt
  else if a == b then some .eq
  else none

end Number

namespace Value

mutual

def equals : Value → Value → Bool
  | .nil, .nil => true
  | .bool a, .bool b => a == b
  | .int a, .int b => a == b
  | .float a, .float b => a == b
  | .int a, .float b => Number.Binary64.ofInt64 a == b
  | .float a, .int b => Number.Binary64.ofInt64 b == a
  | .char a, .char b => a == b
  | .string a, .string b => a == b
  | .symbol a, .symbol b => a == b
  | .keyword a, .keyword b => a == b
  | .list as, .list bs => equalItems as bs
  | .vector as, .vector bs => equalItems as bs
  | .rewriter a .., .rewriter b .. => a == b
  | .native a, .native b => a.id == b.id
  | .invokable a, .invokable b => a.id == b.id
  | .object a, .object b => a.equals b.toObjectData
  | _, _ => false

def equalItems : List Value → List Value → Bool
  | [], [] => true
  | a :: as, b :: bs => equals a b && equalItems as bs
  | _, _ => false

end

def order : Value → Value → Option Ordering
  | .int a, .int b => some (Ord.compare a b)
  | .float a, .float b => Number.compareFloats a b
  | .int a, .float b => Number.compareFloats (Number.Binary64.ofInt64 a) b
  | .float a, .int b => Number.compareFloats a (Number.Binary64.ofInt64 b)
  | .char a, .char b => some (Ord.compare a b)
  | .string a, .string b => some (Ord.compare a b)
  | .symbol a, .symbol b => some (Ord.compare a b)
  | .keyword a, .keyword b => some (Ord.compare a b)
  | _, _ => none

def compare (a b : Value) : Except Error Ordering :=
  match order a b with
  | some o => .ok o
  | none => .error (.incomparableTypes a.typeName b.typeName)

def lt (a b : Value) : Except Error Bool :=
  (compare a b).map (· == .lt)

def gt (a b : Value) : Except Error Bool :=
  (compare a b).map (· == .gt)

def le (a b : Value) : Except Error Bool :=
  (compare a b).map (· != .gt)

def ge (a b : Value) : Except Error Bool :=
  (compare a b).map (· != .lt)

end Value

end Lisp
