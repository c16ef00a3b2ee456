import Lisp.Builtins
import Lisp.Proofs.Native.Calls

/-!
# What the library provides

A name of the library that stands for a function of any number of values is bound to a native
function, and to call that function is to apply the function of the library to all of the arguments,
as they are.
-/

namespace Lisp

namespace Library

variable {library : Library} {name : String} {entry : Entry} {i : Nat}

theorem getElem?_bindingsFrom (first : Nat) (h : library[i]? = some (name, entry)) :
    (bindingsFrom first library)[i]? = some (name, refer (first + i) name entry) := by
  induction library generalizing first i with
  | nil => cases h
  | cons head rest ih =>
    cases i with
    | zero =>
      cases h
      rfl
    | succ i =>
      have hrest := ih (first + 1) h
      rw [Nat.add_right_comm] at hrest
      exact hrest

theorem mem_bindings (h : library[i]? = some (name, entry)) :
    (name, refer i name entry) ∈ library.bindings := by
  have hbinding := getElem?_bindingsFrom 0 h
  rw [Nat.zero_add] at hbinding
  exact List.mem_of_getElem? hbinding

end Library

namespace Native

theorem coerceAll_any (args : List Value) :
    Signature.coerceAll [] (some .any) args = .ok args := by
  induction args with
  | nil => rfl
  | cons v rest ih =>
    rw [Signature.coerceAll, ih]
    rfl

theorem takeAll_any (args : List Value) : takeAll .any args = .ok args := by
  induction args with
  | nil => rfl
  | cons v rest ih =>
    rw [takeAll, ih]
    rfl

theorem ofItems_any_call (f : List Value → Reply) (args : List Value) :
    (ofItems .any f).call args = f args := by
  have haccept : (Signature.mk [] (some .any)).accept args = .ok args := by
    rw [Signature.accept, Signature.arityError_of_takes (s := ⟨[], some .any⟩) (Nat.zero_le _)]
    exact coerceAll_any args
  show Reply.after ((Signature.mk [] (some .any)).accept args)
    (fun accepted => Reply.after (takeAll .any accepted) f) = f args
  rw [haccept]
  show Reply.after (takeAll .any args) f = f args
  rw [takeAll_any]
  rfl

end Native

namespace Builtins

/-- The library binds the name to a native function that replies with the results of `f`. -/
def Provides (name : String) (f : List Value → Except Error Value) : Prop :=
  ∃ ref : NativeRef, (name, Value.native ref) ∈ library.bindings ∧
    ∀ args memory, library.host.call ref args memory = (replyOf id (f args), memory)

theorem provides_of_entry {i : Nat} {name : String} {f : List Value → Except Error Value}
    (h : library[i]? = some (name, ofValues fun args => replyOf id (f args))) : Provides name f := by
  refine ⟨⟨i, name, _⟩, Library.mem_bindings h, fun args memory => ?_⟩
  rw [Library.call_native h, Native.ofItems_any_call]

end Builtins

end Lisp
