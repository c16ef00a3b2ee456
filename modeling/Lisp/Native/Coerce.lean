import Lisp.Number.Binary64
import Lisp.Value.Basic

/-!
# Arguments of native functions

Before a native function runs, its arguments are counted and each is converted to the type of its
parameter.  `Signature.accept` does both and answers with the converted arguments, in their order,
or with the error of the first thing that is wrong: the count, or else the leftmost argument that
does not convert.
-/

namespace Lisp

namespace ParamType

/-- The value as an argument of the type.  Integers and doubles convert into each other, doubles by
dropping the fraction and keeping to the range; all else converts to its own type only. -/
def convert : ParamType → Value → Option Value
  | .any, v => some v
  | .int, .int n => some (.int n)
  | .int, .float x => some (.int x.toInt64)
  | .float, .int n => some (.float (Number.Binary64.ofInt64 n))
  | .float, .float x => some (.float x)
  | .string, .string text => some (.string text)
  | .bool, .bool b => some (.bool b)
  | .char, .char c => some (.char c)
  | .list, .list items => some (.list items)
  | _, _ => none

def mismatch (wanted : ParamType) (v : Value) : Error :=
  .invalidArgumentType wanted.name v.typeName

def coerce (target : ParamType) (v : Value) : Except Error Value :=
  match target.convert v with
  | some converted => .ok converted
  | none => .error (target.mismatch v)

end ParamType

namespace Signature

def fixed (params : List ParamType) : Signature := ⟨params, none⟩

def isVariadic (s : Signature) : Bool := s.variadic.isSome

def arityError (s : Signature) (count : Nat) : Option Error :=
  match s.variadic with
  | none =>
    if count = s.params.length then none
    else some (.invalidArgumentCount (.exactly s.params.length) count)
  | some _ =>
    if s.params.length ≤ count then none
    else some (.invalidArgumentCount (.atLeast s.params.length) count)

/-- Converts arguments one by one: first to the fixed types, then to the variadic one.  Where the
signature names no type every value passes. -/
def coerceAll : List ParamType → Option ParamType → List Value → Except Error (List Value)
  | _, _, [] => .ok []
  | [], variadic, v :: rest => do
    let first ← (variadic.getD .any).coerce v
    let others ← coerceAll [] variadic rest
    return first :: others
  | t :: types, variadic, v :: rest => do
    let first ← t.coerce v
    let others ← coerceAll types variadic rest
    return first :: others

def accept (s : Signature) (args : List Value) : Except Error (List Value) :=
  match s.arityError args.length with
  | some e => .error e
  | none => coerceAll s.params s.variadic args

end Signature

end Lisp
