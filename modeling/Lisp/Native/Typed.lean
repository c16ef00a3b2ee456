import Lisp.Native.Coerce

/-!
# Typed native functions

A native function is most easily written on the types that its parameters stand for.  `Carrier`
names those types, `ParamType.take` reads an argument as one of them, and `Native.ofFunction` and
`Native.ofItems` turn a typed function into a `Native`: a signature and a body on argument lists.
-/

namespace Lisp

inductive Reply where
  | value (v : Value)
  | error (e : Error)
  /-- A panic, with its message if it has one. -/
  | panic (message : Option String)

def Reply.after {α : Type} (result : Except Error α) (next : α → Reply) : Reply :=
  match result with
  | .ok a => next a
  | .error e => .error e

namespace ParamType

def Carrier : ParamType → Type
  | .int => Int64
  | .float => Float
  | .string => String
  | .bool => Bool
  | .char => Char
  | .list => List Value
  | .any => Value

def take (t : ParamType) (v : Value) : Except Error t.Carrier :=
  match t, v with
  | .any, v => .ok v
  | .int, .int n => .ok n
  | .int, .float x => .ok x.toInt64
  | .float, .int n => .ok (Number.Binary64.ofInt64 n)
  | .float, .float x => .ok x
  | .string, .string text => .ok text
  | .bool, .bool b => .ok b
  | .char, .char c => .ok c
  | .list, .list items => .ok items
  | t, v => .error (t.mismatch v)

def give : (t : ParamType) → t.Carrier → Value
  | .int, n => .int n
  | .float, x => .float x
  | .string, text => .string text
  | .bool, b => .bool b
  | .char, c => .char c
  | .list, items => .list items
  | .any, v => v

end ParamType

structure Native where
  signature : Signature
  body : List Value → Reply

namespace Native

def call (f : Native) (args : List Value) : Reply :=
  Reply.after (f.signature.accept args) f.body

def Curried : List ParamType → Type
  | [] => Reply
  | t :: types => t.Carrier → Curried types

/-- Feeds arguments to a typed function.  Were there fewer than parameters, the error would give
their count. -/
def feed (count : Nat) : (types : List ParamType) → Curried types → List Value → Reply
  | [], reply, _ => reply
  | _ :: _, _, [] => .error (.invalidArgumentCount .more count)
  | t :: types, f, v :: rest =>
    match t.take v with
    | .ok a => feed count types (f a) rest
    | .error e => .error e

def ofFunction (types : List ParamType) (f : Curried types) : Native where
  signature := .fixed types
  body := fun args => feed args.length types f args

def takeAll (t : ParamType) : List Value → Except Error (List t.Carrier)
  | [] => .ok []
  | v :: rest => do
    let first ← t.take v
    let others ← takeAll t rest
    return first :: others

def ofItems (t : ParamType) (f : List t.Carrier → Reply) : Native where
  signature := ⟨[], some t⟩
  body := fun args => Reply.after (takeAll t args) f

end Native

end Lisp
