import Lisp.Error

/-!
# Values

The one type of data that is read, evaluated and printed.  Forms are values too: a program is a list
of them.

Callables and host objects are references.  What a callable does is given by the host that owns it
(`Lisp.Host`); the value holds what every program can observe of it, namely its identity, its name
and, for a native function, its signature.
-/

namespace Lisp

inductive ParamType where
  | int
  | float
  | string
  | bool
  | char
  | list
  | any
deriving DecidableEq, Repr

def ParamType.name : ParamType → String
  | .int => "int"
  | .float => "float"
  | .string => "string"
  | .bool => "bool"
  | .char => "char"
  | .list => "list"
  | .any => "any"

/-- The parameters of a native function: the fixed ones, and the type of all further arguments if
further arguments are taken. -/
structure Signature where
  params : List ParamType
  variadic : Option ParamType
deriving DecidableEq, Repr

structure NativeRef where
  /-- The identity; two references are the same function iff it agrees. -/
  id : Nat
  name : String
  signature : Signature
deriving DecidableEq, Repr

structure InvokableRef where
  /-- The identity; two references are the same callable iff it agrees. -/
  id : Nat
  name : String
deriving DecidableEq, Repr

/-- What an object of the host shows to other objects: its type, its text, and a number for whatever
else the host keeps in it. -/
structure ObjectData where
  typeName : String
  text : String
  content : Int

/-- An object of the host.  Which other objects it is equal to is up to the host, and nothing is asked
of that: the other one need not agree, and an object need not be equal to itself. -/
structure HostObject extends ObjectData where
  equals : ObjectData → Bool

inductive Value where
  | nil
  | bool (b : Bool)
  | int (n : Int64)
  | float (x : Float)
  | char (c : Char)
  | string (text : String)
  | symbol (name : String)
  /-- A keyword; the name does not hold the colon. -/
  | keyword (name : String)
  /-- A list, which as a form is a call. -/
  | list (items : List Value)
  | vector (items : List Value)
  /-- A macro: its identity, its name, its parameters and the form that computes the replacement. -/
  | rewriter (id : Nat) (name : String) (params : List String) (body : Value)
  | native (f : NativeRef)
  | invokable (f : InvokableRef)
  | object (o : HostObject)

namespace Value

instance : Inhabited Value := ⟨.nil⟩

def typeName : Value → String
  | .nil => "nil"
  | .bool _ => "bool"
  | .int _ => "int"
  | .float _ => "float"
  | .char _ => "char"
  | .string _ => "string"
  | .symbol _ => "symbol"
  | .keyword _ => "keyword"
  | .list _ => "list"
  | .vector _ => "vector"
  | .rewriter .. => "macro"
  | .native _ => "fn"
  | .invokable _ => "invokable"
  | .object o => o.typeName

/-- Everything but nil and false counts as true, zero included. -/
def isTruthy : Value → Bool
  | .nil => false
  | .bool b => b
  | _ => true

def isNil : Value → Bool
  | .nil => true
  | _ => false

end Value

end Lisp
