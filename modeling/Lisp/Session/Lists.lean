import Lisp.Value.Order

/-!
# Named lists

Lists never change: an operation on one makes another, which the host keeps under a name.
-/

namespace Lisp.Session.Lists

def next (items : List Value) : List Value := items.tail

/-- The list with items put in front one after the other, so that the last of them comes first. -/
def conj (items : List Value) (more : List Value) : List Value :=
  more.foldl (fun items v => v :: items) items

inductive Operation where
  | ofItems (items : List Value)
  /-- A list with a value put in front. -/
  | cons (source : String) (v : Value)
  /-- A list with values put in front one after the other. -/
  | conj (source : String) (more : List Value)
  | next (source : String)

/-- Lists by name, the latest first. -/
abbrev Named := List (String × List Value)

def get (lists : Named) (name : String) : List Value :=
  (lists.lookup name).getD []

def result (lists : Named) : Operation → List Value
  | .ofItems items => items
  | .cons source v => v :: get lists source
  | .conj source more => conj (get lists source) more
  | .next source => next (get lists source)

def put (lists : Named) (name : String) (items : List Value) : Named :=
  (name, items) :: lists.filter (·.1 ≠ name)

def sorted (lists : Named) : Named :=
  lists.mergeSort fun a b => decide (a.1 ≤ b.1)

end Lisp.Session.Lists
