import Lisp.Value.Basic

/-!
# Tasks

Bookkeeping of evaluations that run beside the one that started them.  Every task has a `Handle`:
a channel that its thread sends the outcome into, and a cell that the first to receive it stores it
in.  The `Tracker` numbers tasks, keeps those that nobody has waited for, and records which errors
were reported.

Every operation here is one indivisible step.  What several callers make of them depends on the
order of their steps: waiting, for one, is to receive and then to store.
-/

namespace Lisp

abbrev Outcome := Except Error Value

structure Handle where
  /-- The outcome, sent and not yet received. -/
  message : Option Outcome
  /-- The outcome, received and stored. -/
  result : Option Outcome

namespace Handle

def running : Handle := ⟨none, none⟩

/-- Whether the outcome can be seen, in the cell or in the channel. -/
def isDone (h : Handle) : Bool := h.result.isSome || h.message.isSome

def send (h : Handle) (outcome : Outcome) : Handle := { h with message := some outcome }

def receive (h : Handle) : Option (Outcome × Handle) :=
  h.message.map fun outcome => (outcome, { h with message := none })

def store (h : Handle) (outcome : Outcome) : Handle := { h with result := some outcome }

end Handle

structure Tracker where
  /-- The handles of all tasks ever started; the task with number `n` is the `n`-th. -/
  handles : List Handle
  /-- The numbers of the tasks that are tracked, the oldest first. -/
  tracked : List Nat
  /-- The errors that tasks ended with, the latest first. -/
  reports : List Error

namespace Tracker

def empty : Tracker := ⟨[], [], []⟩

def handle? (t : Tracker) (id : Nat) : Option Handle :=
  if id = 0 then none else t.handles[id - 1]?

def setHandle (t : Tracker) (id : Nat) (h : Handle) : Tracker :=
  { t with handles := t.handles.set (id - 1) h }

def isDone (t : Tracker) (id : Nat) : Bool := (t.handle? id).any Handle.isDone

def issue (t : Tracker) : Nat × Tracker :=
  (t.handles.length + 1, { t with handles := t.handles ++ [.running] })

/-- Tracks a task, and drops the tasks whose outcome can be seen. -/
def register (t : Tracker) (id : Nat) : Tracker :=
  { t with tracked := t.tracked.filter (fun other => !t.isDone other) ++ [id] }

def takeAll (t : Tracker) : List Nat × Tracker :=
  (t.tracked, { t with tracked := [] })

def report (t : Tracker) (e : Error) : Tracker := { t with reports := e :: t.reports }

def send (t : Tracker) (id : Nat) (outcome : Outcome) : Tracker :=
  match t.handle? id with
  | some h => t.setHandle id (h.send outcome)
  | none => t

/-- A task ends: an error is reported before anyone can see it. -/
def finish (t : Tracker) (id : Nat) (outcome : Outcome) : Tracker :=
  match outcome with
  | .error e => (t.report e).send id outcome
  | .ok _ => t.send id outcome

/-- Waits for a task that has ended: the stored outcome, or else the one in the channel, which is
stored from now on. -/
def await (t : Tracker) (id : Nat) : Option (Outcome × Tracker) :=
  match t.handle? id with
  | none => none
  | some h =>
    match h.result with
    | some outcome => some (outcome, t)
    | none => h.receive.map fun (outcome, h) => (outcome, t.setHandle id (h.store outcome))

end Tracker

end Lisp
