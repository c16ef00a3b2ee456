import Lisp.Task

/-!
# Threads

Tasks run on threads of their own, beside the threads of the host, and all of them work on one
`Tracker`.  A `Threads` is the state of them all: the tracker, what each thread is doing, and what
the calls so far have come to.

`Step` says what a thread may do next.  A step touches what the threads share once, or not at all,
so the sequences of steps are the interleavings of the threads, and `Reachable` holds of every state
that some interleaving leads to.  A lock guards the list of tracked tasks: to take the list is one
step, and so is to drop from it what can be seen to have ended and to add to it.

* A task is started in three steps.  Its number is given out, its thread begins to run, and then it
  is tracked; by that time it may have started other tasks, and it may have ended.
* A task ends in three steps.  Its body ends in an outcome, an error is reported, and the outcome is
  sent.
* To wait for a task is to find the outcome stored, or else to receive it and then to store it.
* To join is to take all tracked tasks and to wait for them one by one, again and again until there
  are none to take.

What a body does in between is left open: a thread that is free may start a task, wait for one, or
join at any time, and a task that is free may end in any outcome.
-/

namespace Lisp

inductive Thread where
  | host (n : Nat)
  /-- The thread of the task with that number. -/
  | task (id : Nat)
deriving DecidableEq, Repr

inductive Purpose where
  /-- A call that waits for this task alone. -/
  | single
  /-- The call with that number, counted from zero, of those that join. -/
  | join (n : Nat)
deriving DecidableEq, Repr

inductive Activity where
  /-- The thread of a task that has not begun to run. -/
  | unborn
  /-- The thread runs code of its own. -/
  | free
  /-- It starts the task with that number, whose thread has not begun to run. -/
  | issued (id : Nat)
  /-- It starts the task with that number, which is not tracked yet. -/
  | started (id : Nat)
  | awaiting (id : Nat) (purpose : Purpose)
  /-- It has received the outcome of a task and not stored it yet. -/
  | storing (id : Nat) (outcome : Outcome) (purpose : Purpose)
  /-- It is between two waits of a call that joins. -/
  | joining (n : Nat)
  /-- The body of its task has ended. -/
  | ending (outcome : Outcome)
  /-- The outcome of its task is reported, if that is an error, and not sent yet. -/
  | sending (outcome : Outcome)
  /-- The outcome of its task is sent. -/
  | over (outcome : Outcome)

structure JoinCall where
  caller : Thread
  /-- The tasks that it has taken and not waited for to the end. -/
  batch : List Nat
  /-- The outcomes that it has found, each with its task. -/
  results : List (Nat × Outcome)

namespace JoinCall

def tasks (c : JoinCall) : List Nat := c.batch ++ c.results.map Prod.fst

def found (c : JoinCall) (id : Nat) (outcome : Outcome) : JoinCall :=
  { c with batch := c.batch.tail, results := c.results ++ [(id, outcome)] }

end JoinCall

structure Threads where
  tracker : Tracker
  doing : Thread → Activity
  /-- The calls that join, the earliest first. -/
  joins : List JoinCall
  /-- The numbers that were given out, the latest first, each with the thread that starts the
  task. -/
  issued : List (Nat × Thread)
  /-- The tasks that have been tracked, the latest first. -/
  spawned : List Nat
  /-- The tasks that were tracked until they were dropped. -/
  dropped : List Nat
  /-- The outcomes that calls for a single task have found, the latest first. -/
  awaited : List (Nat × Outcome)

namespace Threads

def initial : Threads where
  tracker := .empty
  doing
    | .host _ => .free
    | .task _ => .unborn
  joins := []
  issued := []
  spawned := []
  dropped := []
  awaited := []

def become (s : Threads) (who : Thread) (a : Activity) : Threads :=
  { s with doing := fun t => if t = who then a else s.doing t }

@[simp, grind =] theorem doing_become (s : Threads) (who : Thread) (a : Activity) (t : Thread) :
    (s.become who a).doing t = if t = who then a else s.doing t := rfl

@[simp, grind =] theorem tracker_become (s : Threads) (who : Thread) (a : Activity) :
    (s.become who a).tracker = s.tracker := rfl

@[simp, grind =] theorem joins_become (s : Threads) (who : Thread) (a : Activity) :
    (s.become who a).joins = s.joins := rfl

@[simp, grind =] theorem issued_become (s : Threads) (who : Thread) (a : Activity) :
    (s.become who a).issued = s.issued := rfl

@[simp, grind =] theorem spawned_become (s : Threads) (who : Thread) (a : Activity) :
    (s.become who a).spawned = s.spawned := rfl

@[simp, grind =] theorem dropped_become (s : Threads) (who : Thread) (a : Activity) :
    (s.become who a).dropped = s.dropped := rfl

@[simp, grind =] theorem awaited_become (s : Threads) (who : Thread) (a : Activity) :
    (s.become who a).awaited = s.awaited := rfl

/-! ## Starting tasks -/

def issue (s : Threads) (who : Thread) : Threads :=
  { s with
    tracker := s.tracker.issue.2
    issued := (s.tracker.issue.1, who) :: s.issued }.become who (.issued s.tracker.issue.1)

def start (s : Threads) (who : Thread) (id : Nat) : Threads :=
  (s.become (.task id) .free).become who (.started id)

def startError (reason : String) : Error := .host ("failed to spawn go task: " ++ reason)

/-- There is no thread for a task, which ends at once. -/
def refuse (s : Threads) (who : Thread) (id : Nat) (reason : String) : Threads :=
  let outcome : Outcome := .error (startError reason)
  let tracker := (s.tracker.report (startError reason)).setHandle id (Handle.running.store outcome)
  ({ s with tracker := tracker }.become (.task id) (.over outcome)).become who (.started id)

def register (s : Threads) (who : Thread) (id : Nat) : Threads :=
  { s with
    tracker := s.tracker.register id
    spawned := id :: s.spawned
    dropped := s.tracker.tracked.filter s.tracker.isDone ++ s.dropped }.become who .free

/-! ## Ending tasks -/

def report (s : Threads) (id : Nat) (outcome : Outcome) : Threads :=
  let tracker :=
    match outcome with
    | .error e => s.tracker.report e
    | .ok _ => s.tracker
  { s with tracker := tracker }.become (.task id) (.sending outcome)

def send (s : Threads) (id : Nat) (outcome : Outcome) : Threads :=
  { s with tracker := s.tracker.send id outcome }.become (.task id) (.over outcome)

/-! ## Waiting -/

def conclude (s : Threads) (who : Thread) (id : Nat) (outcome : Outcome) : Purpose → Threads
  | .single => { s with awaited := (id, outcome) :: s.awaited }.become who .free
  | .join n => { s with joins := s.joins.modify n (·.found id outcome) }.become who (.joining n)

def receive (s : Threads) (who : Thread) (id : Nat) (purpose : Purpose) (outcome : Outcome)
    (rest : Handle) : Threads :=
  { s with tracker := s.tracker.setHandle id rest }.become who (.storing id outcome purpose)

def store (s : Threads) (who : Thread) (id : Nat) (purpose : Purpose) (outcome : Outcome)
    (h : Handle) : Threads :=
  { s with tracker := s.tracker.setHandle id (h.store outcome) }.conclude who id outcome purpose

/-! ## Joining -/

def join (s : Threads) (who : Thread) : Threads :=
  { s with joins := s.joins ++ [(⟨who, [], []⟩ : JoinCall)] }.become who (.joining s.joins.length)

def take (s : Threads) (n : Nat) (c : JoinCall) : Threads :=
  { s with
    tracker := s.tracker.takeAll.2
    joins := s.joins.set n { c with batch := s.tracker.takeAll.1 } }

def leave (s : Threads) (who : Thread) : Threads :=
  { s with tracker := s.tracker.takeAll.2 }.become who .free

/-! ## Steps -/

inductive Step (who : Thread) (s : Threads) : Threads → Prop
  | issue (free : s.doing who = .free) : Step who s (s.issue who)
  | start {id : Nat} (issued : s.doing who = .issued id) : Step who s (s.start who id)
  | refuse {id : Nat} (issued : s.doing who = .issued id) (reason : String) :
      Step who s (s.refuse who id reason)
  | register {id : Nat} (started : s.doing who = .started id) : Step who s (s.register who id)
  /-- The body of a task may end in any outcome. -/
  | finish {id : Nat} (own : who = .task id) (free : s.doing who = .free) (outcome : Outcome) :
      Step who s (s.become who (.ending outcome))
  | report {id : Nat} {outcome : Outcome} (own : who = .task id)
      (ending : s.doing who = .ending outcome) : Step who s (s.report id outcome)
  | send {id : Nat} {outcome : Outcome} (own : who = .task id)
      (sending : s.doing who = .sending outcome) : Step who s (s.send id outcome)
  /-- Everyone may wait for a task once it has been tracked. -/
  | await {id : Nat} (free : s.doing who = .free) (spawned : id ∈ s.spawned) :
      Step who s (s.become who (.awaiting id .single))
  | look {id : Nat} {purpose : Purpose} {h : Handle} {outcome : Outcome}
      (awaiting : s.doing who = .awaiting id purpose) (handle : s.tracker.handle? id = some h)
      (result : h.result = some outcome) : Step who s (s.conclude who id outcome purpose)
  | receive {id : Nat} {purpose : Purpose} {h rest : Handle} {outcome : Outcome}
      (awaiting : s.doing who = .awaiting id purpose) (handle : s.tracker.handle? id = some h)
      (result : h.result = none) (message : h.receive = some (outcome, rest)) :
      Step who s (s.receive who id purpose outcome rest)
  | store {id : Nat} {purpose : Purpose} {h : Handle} {outcome : Outcome}
      (storing : s.doing who = .storing id outcome purpose)
      (handle : s.tracker.handle? id = some h) : Step who s (s.store who id purpose outcome h)
  | join (free : s.doing who = .free) : Step who s (s.join who)
  | take {n : Nat} {c : JoinCall} (joining : s.doing who = .joining n)
      (call : s.joins[n]? = some c) (done : c.batch = []) (more : s.tracker.takeAll.1 ≠ []) :
      Step who s (s.take n c)
  /-- The first task of the batch is waited for next. -/
  | next {n id : Nat} {c : JoinCall} (joining : s.doing who = .joining n)
      (call : s.joins[n]? = some c) (first : c.batch.head? = some id) :
      Step who s (s.become who (.awaiting id (.join n)))
  | leave {n : Nat} {c : JoinCall} (joining : s.doing who = .joining n)
      (call : s.joins[n]? = some c) (done : c.batch = []) (nothing : s.tracker.takeAll.1 = []) :
      Step who s (s.leave who)

inductive Reachable : Threads → Prop
  | initial : Reachable initial
  | step {s s' : Threads} (before : Reachable s) (who : Thread) (step : Step who s s') :
      Reachable s'

end Threads

end Lisp
