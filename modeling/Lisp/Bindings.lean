import Lisp.Value.Basic

/-!
# Bindings

A finite table from names to values.  A later binding of a name replaces the earlier one in its
place, so every name occurs at most once and names keep the order in which they first appeared.

`get?` is the view: `get?_set` says what a binding does to it.
-/

namespace Lisp

structure Bindings where
  /-- The names with their values, in the order in which the names appeared. -/
  entries : List (String × Value)

namespace Bindings

def empty : Bindings := ⟨[]⟩

instance : EmptyCollection Bindings := ⟨empty⟩

instance : Inhabited Bindings := ⟨empty⟩

def get? (b : Bindings) (name : String) : Option Value :=
  b.entries.lookup name

def contains (b : Bindings) (name : String) : Bool :=
  (b.get? name).isSome

/-- Replaces the value of a name, or adds the name at the end. -/
def setEntry (name : String) (v : Value) : List (String × Value) → List (String × Value)
  | [] => [(name, v)]
  | (key, old) :: rest =>
    if key = name then (name, v) :: rest else (key, old) :: setEntry name v rest

def set (b : Bindings) (name : String) (v : Value) : Bindings :=
  ⟨setEntry name v b.entries⟩

def setAll (b : Bindings) (pairs : List (String × Value)) : Bindings :=
  pairs.foldl (fun b pair => b.set pair.1 pair.2) b

/-- The bindings of those names, where the last value of a repeated name counts. -/
def ofList (pairs : List (String × Value)) : Bindings :=
  empty.setAll pairs

def sorted (b : Bindings) : List (String × Value) :=
  b.entries.mergeSort fun x y => decide (x.1 ≤ y.1)

theorem lookup_cons_ite (key other : String) (v : Value) (rest : List (String × Value)) :
    ((key, v) :: rest).lookup other = if other = key then some v else rest.lookup other := by
  by_cases h : other = key
  · simp [h]
  · simp [List.lookup_cons, beq_eq_false_iff_ne.2 h, h]

theorem lookup_setEntry (name other : String) (v : Value) (entries : List (String × Value)) :
    (setEntry name v entries).lookup other =
      if other = name then some v else entries.lookup other := by
  induction entries with
  | nil => simp [setEntry, lookup_cons_ite]
  | cons entry rest ih =>
    obtain ⟨key, old⟩ := entry
    unfold setEntry
    split
    · rename_i same
      subst same
      by_cases h : other = key <;> simp [lookup_cons_ite, h]
    · rename_i different
      simp only [lookup_cons_ite, ih]
      by_cases h : other = key <;> by_cases h' : other = name <;> simp_all

@[simp] theorem get?_empty (name : String) : empty.get? name = none := rfl

@[simp] theorem get?_set (b : Bindings) (name other : String) (v : Value) :
    (b.set name v).get? other = if other = name then some v else b.get? other :=
  lookup_setEntry name other v b.entries

end Bindings

end Lisp
