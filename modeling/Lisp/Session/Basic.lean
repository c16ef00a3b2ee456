import Lisp.Program
import Lisp.Sample.Bindings
import Lisp.Sample.SpecialForms
import Lisp.Session.Literal

/-!
# Sessions

A session is a family of environments that share a world: the main one and its forks, by name.  A
host drives it by `Step`s, each of which works on one of them and gets an `Answer`.

The frames of an environment change by its own steps only; everything else is shared.
-/

namespace Lisp

namespace Session

inductive AnalyzerKind where
  | standard
  | quoteAll
deriving DecidableEq, Repr

inductive ExpanderKind where
  | standard
  | nothing
  /-- Only by exchanging the two arguments of `swap`. -/
  | swap
deriving DecidableEq, Repr

structure Options where
  maxDepth : Nat := Options.defaultMaxDepth
  globals : List (String × Literal) := []
  builtins : Bool := true
  /-- Whether the sample host's bindings are bound. -/
  fixtures : Bool := false
  interrupt : Bool := false
  /-- Whether the errors of tasks are collected. -/
  hook : Bool := false
  /-- Whether changes of the global table are counted. -/
  counting : Bool := false
  specials : List (String × Sample.Special) := []
  analyzer : AnalyzerKind := .standard
  expander : ExpanderKind := .standard
  /-- The macros bound last, with their parameters and the text of their bodies. -/
  macros : List (String × List String × String) := []

inductive FormSource where
  | literal (l : Literal)
  | text (source : String)

inductive InterruptAction where
  | request
  | clear
  | check
deriving DecidableEq, Repr

structure FrameLiteral where
  name : String
  args : List Literal
  vars : List (String × Literal)

inductive Step where
  | eval (source : String)
  /-- Reads a text and evaluates its forms, going on after errors. -/
  | evalEach (source : String)
  | evalForm (form : FormSource)
  /-- Compiles a form and keeps the expression under a name. -/
  | compile (form : FormSource) (label : String)
  | run (label : String)
  /-- Analyzes a form without rewriting it, by the special forms of the session. -/
  | analyze (form : FormSource)
  /-- Rewrites a form once, if it is a call of a macro. -/
  | expand (form : FormSource)
  /-- Applies the macro of a name to forms. -/
  | applyMacro (name : String) (args : List Literal)
  /-- Asks whether a symbol names a special form. -/
  | isSpecial (name : String)
  | bind (name : String) (v : Literal)
  | bindLocal (name : String) (v : Literal)
  | lookup (name : String)
  /-- Looks a name up that has to have a value. -/
  | resolve (name : String)
  | push (frame : FrameLiteral)
  | pop
  | withFrame (frame : FrameLiteral) (source : String)
  | backtrace
  | maxDepth
  | globals
  | fork (name : String)
  | interrupt (action : InterruptAction)
  | spawn (form : FormSource) (label : String)
  | await (label : String)
  | pending
  | join
  /-- Waits for all tasks and counts the tracked ones. -/
  | joinQuiet
  | taskErrors
  | stores

inductive Answer where
  | nothing
  | value (v : Value)
  /-- A value, or none. -/
  | maybe (v : Option Value)
  | stopped (stop : Stop)
  | outcomes (all : List (Except Stop Value))
  | expr (e : Expr)
  | flag (b : Bool)
  | number (n : Nat)
  | frame (f : Frame)
  | trace (calls : List (String × List Value))
  /-- Names with values, in the order of the names. -/
  | table (entries : List (String × Value))
  /-- The flag, the environment's flag if it has one, and what checking it gives. -/
  | interrupt (flag : Bool) (own : Option Bool) (check : Option Error)
  /-- The outcome of a task, and whether its handle says that it has ended. -/
  | awaited (outcome : Outcome) (done : Bool)
  | messages (texts : List String)
  | unknown (name : String)

def library : Library := Builtins.library ++ Sample.library

def fixturesStart : Nat := Builtins.library.length

def builtinBindings : List (String × Value) := Builtins.library.bindings

def fixtureBindings : List (String × Value) := Sample.library.bindingsFrom fixturesStart

end Session

structure Session where
  /-- What the environments have in common for good. -/
  config : Config
  special : String → Option ParseSpecial
  /-- Whether the errors of tasks are collected. -/
  hook : Bool
  /-- Whether changes of the global table are counted. -/
  counting : Bool
  /-- The interrupt flag of the host; the environments share it if they have one. -/
  flag : Bool
  /-- The environments by name, the latest first. -/
  envs : List (String × Stack)
  world : World
  /-- The kept expressions, the latest first. -/
  exprs : List (String × Expr)
  /-- The numbers of named tasks, the latest first. -/
  tasks : List (String × Nat)

namespace Session

def mainName : String := "main"

def bindMacros : List (String × List String × String) → World → World
  | [], w => w
  | (name, params, body) :: rest, w =>
    let m := Value.rewriter w.nextIdentity name params (Literal.firstForm body)
    bindMacros rest ({ w with nextIdentity := w.nextIdentity + 1 }.store name m)

def initialWorld (o : Options) : World :=
  let (globals, next) := Literal.realizeNamed (fun _ => none) o.globals 0
  let w : World :=
    { World.empty with
      nextIdentity := next
      interrupt := if o.interrupt then some false else none }
  let w := w.storeAll globals
  let w := if o.builtins then w.storeAll builtinBindings else w
  let w := if o.fixtures then w.storeAll fixtureBindings else w
  bindMacros o.macros w

def start (o : Options) : Except Error Session := do
  let maxDepth ← Options.checkedMaxDepth o.maxDepth
  let special := Sample.specials o.specials
  return {
    config := {
      host := library.host
      maxDepth := maxDepth
      analyzer := match o.analyzer with
        | .standard => .standard special
        | .quoteAll => Sample.quoteAll
      expander := match o.expander with
        | .standard => .standard
        | .nothing => Sample.expandNothing
        | .swap => Sample.expandSwap }
    special := special
    hook := o.hook
    counting := o.counting
    flag := false
    envs := [(mainName, .base)]
    world := initialWorld o
    exprs := []
    tasks := [] }

def stackOf (s : Session) (env : String) : Stack :=
  (s.envs.lookup env).getD .base

def depthOf (s : Session) (env : String) : Nat := Stack.depth (s.stackOf env)

def setStack (s : Session) (env : String) (stack : Stack) : Session :=
  { s with envs := (env, stack) :: s.envs.filter (·.1 ≠ env) }

def inEnv {α : Type} (s : Session) (env : String) (act : Eval α) : Except Stop α × Session :=
  match act ⟨s.stackOf env, s.world⟩ with
  | .ok a after => (.ok a, { s.setStack env after.stack with world := after.world })
  | .error stop after => (.error stop, { s.setStack env after.stack with world := after.world })

def answering {α : Type} (s : Session) (env : String) (act : Eval α) (give : α → Answer) :
    Answer × Session :=
  match s.inEnv env act with
  | (.ok a, s) => (give a, s)
  | (.error stop, s) => (.stopped stop, s)

def interpreter (s : Session) : Interpreter := .ample s.config

def nameIn (s : Session) (env : String) (name : String) : Option Value :=
  match Stack.find? name (s.stackOf env) with
  | some v => some v
  | none => s.world.globals.get? name

def realize (s : Session) (env : String) (l : Literal) : Value × Session :=
  let (v, next) := l.realize (s.nameIn env) s.world.nextIdentity
  (v, { s with world := { s.world with nextIdentity := next } })

def realizeAll (s : Session) (env : String) (ls : List Literal) : List Value × Session :=
  let (vs, next) := Literal.realizeAll (s.nameIn env) ls s.world.nextIdentity
  (vs, { s with world := { s.world with nextIdentity := next } })

def realizeFrame (s : Session) (env : String) (f : FrameLiteral) : Frame × Session :=
  let (args, next) := Literal.realizeAll (s.nameIn env) f.args s.world.nextIdentity
  let (vars, next) := Literal.realizeNamed (s.nameIn env) f.vars next
  (⟨f.name, args, .ofList vars⟩, { s with world := { s.world with nextIdentity := next } })

/-- What a step does with the form that it names.  A text that cannot be read is the answer; a text
without a form counts as nil. -/
def withForm (s : Session) (env : String) (form : FormSource)
    (act : Session → Value → Answer × Session) : Answer × Session :=
  match form with
  | .literal l =>
    let (v, s) := s.realize env l
    act s v
  | .text source =>
    match Reader.readText source with
    | .ok v => act s (v.getD .nil)
    | .error stop => (.stopped stop, s)

def evalForms (env : String) : List Value → Session → List (Except Stop Value) × Session
  | [], s => ([], s)
  | form :: rest, s =>
    let (outcome, s) := s.inEnv env (s.interpreter (.eval form))
    let (others, s) := evalForms env rest s
    (outcome :: others, s)

def applyNamed (s : Session) (name : String) (args : List Value) : Eval Value := do
  match Interpreter.Rewriter.ofValue? (← Eval.resolve name) with
  | some m => Interpreter.applyMacro s.config s.interpreter m args
  | none => Eval.fail (.host ("not a macro: " ++ name))

def onTasks {α : Type} (s : Session) (act : Option (α × World)) (give : α → World → Answer) :
    Answer × Session :=
  match act with
  | some (a, w) => (give a w, { s with world := w })
  | none => (.stopped .exhausted, s)

def actOnFlag (s : Session) (action : InterruptAction) : Answer × Session :=
  let on := match action with
    | .request => true
    | .clear => false
    | .check => s.world.interrupt.getD s.flag
  let w := { s.world with interrupt := s.world.interrupt.map fun _ => on }
  let check := if w.isInterrupted then some Error.interrupted else none
  (.interrupt on w.interrupt check, { s with flag := on, world := w })

def reported (s : Session) : List String :=
  if s.hook then
    (s.world.tasks.reports.map Error.message).mergeSort fun a b => decide (a ≤ b)
  else []

def step (s : Session) (env : String) : Step → Answer × Session
  | .eval source => s.answering env (Program.evalText s.interpreter source) .value
  | .evalEach source =>
    match Reader.readAllText source with
    | .error stop => (.stopped stop, s)
    | .ok forms =>
      let (all, s) := evalForms env forms s
      (.outcomes all, s)
  | .evalForm form =>
    s.withForm env form fun s form => s.answering env (s.interpreter (.eval form)) .value
  | .compile form label =>
    s.withForm env form fun s form =>
      match s.inEnv env (s.interpreter (.compile form)) with
      | (.ok e, s) => (.expr e, { s with exprs := (label, e) :: s.exprs })
      | (.error stop, s) => (.stopped stop, s)
  | .run label =>
    match s.exprs.lookup label with
    | some e => s.answering env (s.interpreter (.run e)) .value
    | none => (.unknown label, s)
  | .analyze form =>
    s.withForm env form fun s form =>
      s.answering env (Interpreter.analyzeForm s.config s.special s.interpreter form) .expr
  | .expand form =>
    s.withForm env form fun s form =>
      s.answering env (Interpreter.expandOnce s.config s.interpreter form) .maybe
  | .applyMacro name args =>
    let (args, s) := s.realizeAll env args
    s.answering env (s.applyNamed name args) .value
  | .isSpecial name =>
    (.flag (Interpreter.specialOfHead s.special (.symbol name)).isSome, s)
  | .bind name v =>
    let (v, s) := s.realize env v
    s.answering env (Eval.bind name v) fun _ => .nothing
  | .bindLocal name v =>
    let (v, s) := s.realize env v
    s.answering env (Eval.bindLocal name v) fun _ => .nothing
  | .lookup name => s.answering env (Eval.lookup name) .maybe
  | .resolve name => s.answering env (Eval.resolve name) .value
  | .push frame =>
    let (frame, s) := s.realizeFrame env frame
    s.answering env (Eval.push s.config.maxDepth frame) fun _ => .nothing
  | .pop => s.answering env Eval.pop .frame
  | .withFrame frame source =>
    let (frame, s) := s.realizeFrame env frame
    s.answering env
      (Eval.withFrame s.config.maxDepth frame (Program.evalText s.interpreter source)) .value
  | .backtrace => (.trace (Stack.backtrace (s.stackOf env)), s)
  | .maxDepth => (.number s.config.maxDepth, s)
  | .globals => (.table s.world.globals.sorted, s)
  | .fork name => (.nothing, s.setStack name (s.stackOf env))
  | .interrupt action => s.actOnFlag action
  | .spawn form label =>
    s.withForm env form fun s form =>
      match s.inEnv env (Eval.spawn form) with
      | (.ok id, s) => (.number id, { s with tasks := (label, id) :: s.tasks })
      | (.error stop, s) => (.stopped stop, s)
  | .await label =>
    match s.tasks.lookup label with
    | some id =>
      s.onTasks (Program.await s.interpreter id s.world) fun outcome w =>
        .awaited outcome (w.tasks.isDone id)
    | none => (.unknown label, s)
  | .pending => (.number s.world.tasks.tracked.length, s)
  | .join =>
    s.onTasks (Program.join s.interpreter s.world) fun outcomes _ =>
      .outcomes (outcomes.map fun outcome => outcome.mapError Stop.error)
  | .joinQuiet =>
    s.onTasks (Program.join s.interpreter s.world) fun _ w => .number w.tasks.tracked.length
  | .taskErrors => (.messages s.reported, s)
  | .stores => (.number (if s.counting then s.world.storeCount else 0), s)

/-- Steps in order, each in an environment; with each answer goes the number of frames that the
environment has afterwards. -/
def run : List (String × Step) → Session → List (Answer × Nat) × Session
  | [], s => ([], s)
  | (env, act) :: rest, s =>
    let (answer, after) := s.step env act
    let (others, last) := run rest after
    ((answer, after.depthOf env) :: others, last)

end Session

end Lisp
