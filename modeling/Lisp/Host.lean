import Lisp.Expr
import Lisp.Native.Typed
import Lisp.World

/-!
# Hosts

What the program around the interpreter provides: the behaviour of callables, and a choice of how
forms are rewritten and analyzed.

Host code that works on environments is a `Procedure`: instructions in sequence, each of which hands
its outcome to the rest.  It works on the environment that it was given and on forks that the host
holds, sees errors of its instructions, and may go on after them.
-/

namespace Lisp

inductive Target where
  /-- The one that the code was given. -/
  | own
  /-- A fork that the host holds, by its number. -/
  | fork (n : Nat)

inductive Instruction where
  | eval (form : Value)
  | compile (form : Value)
  | run (e : Expr)
  | push (frame : Frame)
  | pop
  | bind (name : String) (v : Value)
  | bindLocal (name : String) (v : Value)
  | lookup (name : String)
  | stack
  /-- Makes a fork, which the host holds from then on. -/
  | fork
  | spawn (body : Value)
  | interrupt
  /-- Sets or clears the interrupt flag, if there is one. -/
  | setInterrupt (on : Bool)
  /-- Takes an identity that no macro has yet. -/
  | freshIdentity
  /-- Asks what the host remembers. -/
  | remembered
  | remember (memory : Nat)

@[reducible] def Instruction.Outcome : Instruction → Type
  | .eval _ => Except Error Value
  | .compile _ => Except Error Expr
  | .run _ => Except Error Value
  | .push _ => Except Error Unit
  | .pop => Except Error Frame
  | .bind .. => Unit
  | .bindLocal .. => Unit
  | .lookup _ => Option Value
  | .stack => Stack
  | .fork => Nat
  | .spawn _ => Nat
  | .interrupt => Option Bool
  | .setInterrupt _ => Unit
  | .freshIdentity => Nat
  | .remembered => Nat
  | .remember _ => Unit

inductive Procedure (α : Type) where
  | done (a : α)
  | fail (e : Error)
  /-- A panic, with its message if it has one. -/
  | panic (message : Option String)
  | step (target : Target) (i : Instruction) (rest : i.Outcome → Procedure α)

namespace Procedure

variable {α : Type}

def ofExcept : Except Error α → Procedure α
  | .ok a => .done a
  | .error e => .fail e

/-! ## Instructions for the environment at hand -/

def eval (form : Value) (rest : Except Error Value → Procedure α) : Procedure α :=
  .step .own (.eval form) rest

def bind (name : String) (v : Value) (rest : Procedure α) : Procedure α :=
  .step .own (.bind name v) fun _ => rest

def bindLocal (name : String) (v : Value) (rest : Procedure α) : Procedure α :=
  .step .own (.bindLocal name v) fun _ => rest

def stack (rest : Stack → Procedure α) : Procedure α := .step .own .stack rest

def interrupt (rest : Option Bool → Procedure α) : Procedure α := .step .own .interrupt rest

def setInterrupt (on : Bool) (rest : Procedure α) : Procedure α :=
  .step .own (.setInterrupt on) fun _ => rest

def freshIdentity (rest : Nat → Procedure α) : Procedure α := .step .own .freshIdentity rest

end Procedure

structure Host where
  /-- What a native function answers to accepted arguments, given what the host remembers, and what
  it remembers afterwards. -/
  native : NativeRef → List Value → Nat → Reply × Nat
  /-- What a callable does, beginning in the environment that calls it. -/
  invokable : InvokableRef → List Value → Procedure Value

/-- Calls a native function: the arguments are accepted, or the function does not run. -/
def Host.call (host : Host) (f : NativeRef) (args : List Value) (memory : Nat) : Reply × Nat :=
  match f.signature.accept args with
  | .error e => (.error e, memory)
  | .ok accepted => host.native f accepted memory

/-- A parser of special forms, given the forms behind the symbol. -/
abbrev ParseSpecial := List Value → Procedure Expr

inductive Analyzer where
  /-- Special forms and calls; the host may add special forms or replace the usual ones. -/
  | standard (special : String → Option ParseSpecial)
  | custom (analyze : Value → Procedure Expr)

inductive Expander where
  /-- Calls of macros are replaced by what the macro computes. -/
  | standard
  /-- The host's own way; no answer means that the form stays. -/
  | custom (expand : Value → Procedure (Option Value))

/-- The unchanging part of an environment, common to all of its forks. -/
structure Config where
  host : Host
  /-- The greatest number of frames, the global one included. -/
  maxDepth : Nat
  analyzer : Analyzer
  expander : Expander

def noSpecials : String → Option ParseSpecial := fun _ => none

end Lisp
