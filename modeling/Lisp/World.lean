import Lisp.Stack
import Lisp.Task

/-!
# The state of evaluation

A `World` is what an environment shares with all of its forks: the global table, the tasks, the
interrupt flag, what the host remembers and the forks that it holds.  It also keeps a journal of what
evaluation did to it, so that effects and their order can be spoken about.

A `State` is a world seen by one environment, which has a frame stack of its own.  When the code of the
host turns to a fork that it holds, `State.visit?` makes that fork the environment at hand, and
`State.back` puts it back.
-/

namespace Lisp

inductive Callee where
  | native (f : NativeRef)
  | invokable (f : InvokableRef)
deriving DecidableEq

inductive Event where
  /-- The global table was asked for a name. -/
  | lookup (name : String)
  /-- A name was bound in the global table. -/
  | store (name : String) (v : Value)
  /-- Something was called, with these frames in place. -/
  | call (callee : Callee) (args : List Value) (stack : Stack)
  | spawn (id : Nat) (body : Value)

def Event.isStore : Event → Bool
  | .store .. => true
  | _ => false

structure Job where
  id : Nat
  stack : Stack
  body : Value

structure Fork where
  stack : Stack
  stack_ne_nil : stack ≠ []

def Fork.of? (stack : Stack) : Option Fork := if h : stack ≠ [] then some ⟨stack, h⟩ else none

structure World where
  globals : Bindings
  /-- The interrupt flag, if there is one. -/
  interrupt : Option Bool
  /-- What the functions of the host remember. -/
  memory : Nat
  nextIdentity : Nat
  tasks : Tracker
  /-- The tasks that have not run yet, the oldest first. -/
  waiting : List Job
  /-- The forks that the host holds, by number.  One that is at work is not among them meanwhile. -/
  forks : List (Option Fork)
  /-- What happened, the latest first. -/
  journal : List Event

namespace World

def empty : World := ⟨∅, none, 0, 0, .empty, [], [], []⟩

instance : Inhabited World := ⟨empty⟩

def note (w : World) (e : Event) : World := { w with journal := e :: w.journal }

def store (w : World) (name : String) (v : Value) : World :=
  note { w with globals := w.globals.set name v } (.store name v)

def storeAll (w : World) (pairs : List (String × Value)) : World :=
  pairs.foldl (fun w pair => w.store pair.1 pair.2) w

def storeCount (w : World) : Nat := w.journal.countP Event.isStore

def spawn (w : World) (stack : Stack) (body : Value) : Nat × World :=
  let (id, tasks) := w.tasks.issue
  let job : Job := ⟨id, stack, body⟩
  (id, note { w with tasks := tasks.register id, waiting := w.waiting ++ [job] } (.spawn id body))

def isInterrupted (w : World) : Bool := w.interrupt = some true

def held (w : World) : List Stack := w.forks.filterMap (·.map Fork.stack)

/-- Holds a fork with those frames under a number of its own. -/
def hold (w : World) (stack : Stack) : Nat × World :=
  (w.forks.length, { w with forks := w.forks ++ [Fork.of? stack] })

end World

structure State where
  stack : Stack
  world : World

namespace State

instance : Inhabited State := ⟨⟨.base, .empty⟩⟩

/-- The fork of that number goes to work, and nobody else can get at it. -/
def visit? (n : Nat) (s : State) : Option State :=
  s.world.forks[n]?.join.map fun fork =>
    ⟨fork.stack, { s.world with forks := s.world.forks.set n none }⟩

/-- The fork of that number is at rest again, and the environment with those frames is at hand. -/
def back (n : Nat) (home : Stack) (s : State) : State :=
  ⟨home, { s.world with forks := s.world.forks.set n (Fork.of? s.stack) }⟩

end State

end Lisp
