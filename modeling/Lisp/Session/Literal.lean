import Lisp.Reader.Basic

/-!
# Literals of a host

How a host writes down the values that it hands to the interpreter.  Most are values as they stand;
a source text stands for its first form, a name for the value it has in an environment, and a macro
is a new one each time, so it needs an identity.
-/

namespace Lisp.Session

inductive Literal where
  | value (v : Value)
  | list (items : List Literal)
  | vector (items : List Literal)
  | rewriter (name : String) (params : List String) (body : Literal)
  | source (text : String)
  | named (name : String)

namespace Literal

def firstForm (text : String) : Value :=
  match Reader.readText text with
  | .ok (some v) => v
  | _ => .nil

mutual

/-- The value of a literal, given the values of names and the next identity; also the identity after
it. -/
def realize (names : String → Option Value) : Literal → Nat → Value × Nat
  | .value v, next => (v, next)
  | .list items, next =>
    let (items, next) := realizeAll names items next
    (.list items, next)
  | .vector items, next =>
    let (items, next) := realizeAll names items next
    (.vector items, next)
  | .rewriter name params body, next =>
    let (body, next) := realize names body next
    (.rewriter next name params body, next + 1)
  | .source text, next => (firstForm text, next)
  | .named name, next => ((names name).getD .nil, next)

def realizeAll (names : String → Option Value) : List Literal → Nat → List Value × Nat
  | [], next => ([], next)
  | item :: rest, next =>
    let (v, next) := realize names item next
    let (others, next) := realizeAll names rest next
    (v :: others, next)

end

def realizeNamed (names : String → Option Value) :
    List (String × Literal) → Nat → List (String × Value) × Nat
  | [], next => ([], next)
  | (name, item) :: rest, next =>
    let (v, next) := realize names item next
    let (others, next) := realizeNamed names rest next
    ((name, v) :: others, next)

end Literal

end Lisp.Session
