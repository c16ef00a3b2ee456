import Lisp.Host

/-!
# Libraries

A `Library` lists what a host binds, in the order in which it is bound.  The place of an entry in the
list is the identity of its callable, so a library gives both the bindings and the `Host` that they
refer to.
-/

namespace Lisp

inductive Entry where
  | native (f : Native)
  /-- A native function without parameters that counts its calls. -/
  | counter
  | invokable (act : List Value → Procedure Value)
  | value (v : Value)

abbrev Library := List (String × Entry)

namespace Library

def refer (id : Nat) (name : String) : Entry → Value
  | .native f => .native ⟨id, name, f.signature⟩
  | .counter => .native ⟨id, name, .fixed []⟩
  | .invokable _ => .invokable ⟨id, name⟩
  | .value v => v

def bindingsFrom (first : Nat) : Library → List (String × Value)
  | [] => []
  | (name, entry) :: rest => (name, refer first name entry) :: bindingsFrom (first + 1) rest

def bindings (library : Library) : List (String × Value) := bindingsFrom 0 library

def answer : Option (String × Entry) → String → List Value → Nat → Reply × Nat
  | some (_, .native f), _, args, memory => (f.body args, memory)
  | some (_, .counter), _, _, memory => (.value (.int (Int64.ofNat memory)), memory + 1)
  | _, name, _, memory => (.error (.notFound name), memory)

def act : Option (String × Entry) → String → List Value → Procedure Value
  | some (_, .invokable act), _, args => act args
  | _, name, _ => .fail (.notFound name)

def host (library : Library) : Host where
  native f args memory := answer library[f.id]? f.name args memory
  invokable f args := act library[f.id]? f.name args

end Library

end Lisp
