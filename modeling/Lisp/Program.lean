import Lisp.Builtins
import Lisp.Eval
import Lisp.Options
import Lisp.Reader.Basic

/-!
# Programs

A program is a text.  It is read completely before any of it is evaluated, and its last form gives
its result.

Tasks that a program starts are run when someone waits for them.  Since a task works on a fork of
the frames made when it was started, only the order of effects on what forks share depends on that.
-/

namespace Lisp.Program

def evalAll (below : Interpreter) (forms : List Value) : Eval Value :=
  forms.foldlM (fun _ form => below (.eval form)) .nil

def evalText (below : Interpreter) (text : String) : Eval Value :=
  match Reader.readAllText text with
  | .ok forms => evalAll below forms
  | .error stop => throw stop

/-! ## Tasks -/

/-- The outcome of a task whose body ended that way.  A panic counts as an error; a body that has
not ended has no outcome. -/
def outcomeOf : EStateM.Result Stop State Value → Option Outcome
  | .ok v _ => some (.ok v)
  | .error (.error e) _ => some (.error e)
  | .error (.panic message) _ => some (.error (.taskPanic (message.getD "panic occurred")))
  | .error .exhausted _ => none

def stateOf {α : Type} : EStateM.Result Stop State α → State
  | .ok _ s => s
  | .error _ s => s

def runJob (below : Interpreter) (job : Job) (w : World) : Option World :=
  let result := below (.eval job.body) ⟨job.stack, w⟩
  let after := (stateOf result).world
  (outcomeOf result).map fun outcome =>
    { after with tasks := after.tasks.finish job.id outcome }

def runTask (below : Interpreter) (id : Nat) (w : World) : Option World :=
  match w.waiting.find? (·.id = id) with
  | none => some w
  | some job => runJob below job { w with waiting := w.waiting.filter (·.id ≠ id) }

def await (below : Interpreter) (id : Nat) (w : World) : Option (Outcome × World) := do
  let w ← runTask below id w
  let (outcome, tasks) ← w.tasks.await id
  return (outcome, { w with tasks })

def awaitAll (below : Interpreter) : List Nat → World → Option (List Outcome × World)
  | [], w => some ([], w)
  | id :: rest, w => do
    let (outcome, w) ← await below id w
    let (others, w) ← awaitAll below rest w
    return (outcome :: others, w)

/-- Waits for all tracked tasks, and for those that start while waiting, at most that many times
over. -/
def joinAll (below : Interpreter) : Nat → World → Option (List Outcome × World)
  | 0, _ => none
  | rounds + 1, w =>
    let (batch, tasks) := w.tasks.takeAll
    if batch.isEmpty then some ([], w)
    else do
      let (outcomes, w) ← awaitAll below batch { w with tasks }
      let (others, w) ← joinAll below rounds w
      return (outcomes ++ others, w)

def join (below : Interpreter) (w : World) : Option (List Outcome × World) :=
  joinAll below Interpreter.ampleLevels w

/-! ## Whole programs -/

def standardConfig : Config where
  host := Builtins.library.host
  maxDepth := Options.effectiveMaxDepth (Options.maxDepthOfText none)
  analyzer := .standard noSpecials
  expander := .standard

def standardWorld : World := World.empty.storeAll Builtins.library.bindings

def runIn (config : Config) (w : World) (text : String) : Except Stop (Value × World) :=
  let below := Interpreter.ample config
  let result := evalText below text ⟨.base, w⟩
  match join below (stateOf result).world with
  | none => .error .exhausted
  | some (_, w) =>
    match result with
    | .ok v _ => .ok (v, w)
    | .error stop _ => .error stop

def run (text : String) : Except Stop Value :=
  (runIn standardConfig standardWorld text).map (·.1)

end Lisp.Program
