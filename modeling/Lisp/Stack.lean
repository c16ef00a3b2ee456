import Lisp.Bindings

/-!
# The frame stack

Each call has a frame with its name, its arguments and its local bindings.  Below all calls lies the
global frame, which is never removed and holds no bindings of its own: names that no call binds are
looked up in the global table instead.

A `Stack` lists the frames from the innermost to the global one.
-/

namespace Lisp

structure Frame where
  name : String
  args : List Value
  vars : Bindings

def Frame.global : Frame := ⟨"<global>", [], ∅⟩

/-- Frames, the innermost first. -/
abbrev Stack := List Frame

namespace Stack

def base : Stack := [.global]

/-- The number of frames, the global one included. -/
def depth (stack : Stack) : Nat := stack.length

def push (maxDepth : Nat) (frame : Frame) (stack : Stack) : Except Error Stack :=
  if maxDepth ≤ depth stack then .error (.stackOverflow maxDepth) else .ok (frame :: stack)

/-- Removes the innermost frame.  The global frame stays. -/
def pop : Stack → Except Error (Frame × Stack)
  | frame :: below :: rest => .ok (frame, below :: rest)
  | _ => .error .emptyStack

def find? (name : String) : Stack → Option Value
  | [] => none
  | frame :: below =>
    if below.isEmpty then none
    else
      match frame.vars.get? name with
      | some v => some v
      | none => find? name below

/-- Binds a name in the innermost frame; the global frame takes no bindings. -/
def bind? (name : String) (v : Value) : Stack → Option Stack
  | frame :: below :: rest => some ({ frame with vars := frame.vars.set name v } :: below :: rest)
  | _ => none

def backtrace (stack : Stack) : List (String × List Value) :=
  stack.dropLast.map fun frame => (frame.name, frame.args)

end Stack

end Lisp
