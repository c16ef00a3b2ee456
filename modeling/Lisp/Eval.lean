import Lisp.Host
import Lisp.Room
import Lisp.SpecialForm

/-!
# Evaluation

To evaluate a form is to compile it and to run the expression.  Compiling rewrites the form until no
macro applies and then analyzes it; running a special form evaluates its parts.  The three
activities call each other, so they are one function `interpret` of a `Request`.

`interpret` counts levels of nesting: each level is defined by `level` from the one below, and at
level zero nothing is answered.  A program may nest without bound, so no level is enough for all;
but an answer found at one level is the same at every higher one.

Every activity leaves a state behind, whether it succeeds or fails.
-/

namespace Lisp

abbrev Eval (α : Type) := EStateM Stop State α

namespace Eval

@[inline] def fail {α : Type} (e : Error) : Eval α := throw (.error e)

/-- The result of an activity as a value, so that what follows can look at an error. -/
def attempt {α : Type} (act : Eval α) : Eval (Except Error α) := fun s =>
  match act s with
  | .ok a s => .ok (.ok a) s
  | .error (.error e) s => .ok (.error e) s
  | .error stop s => .error stop s

def world {α : Type} (act : World → α × World) : Eval α := fun s =>
  let (a, w) := act s.world
  .ok a { s with world := w }

/-! ## Names -/

/-- The value of a name: the innermost local one, or else the global one. -/
def lookup (name : String) : Eval (Option Value) := fun s =>
  match Stack.find? name s.stack with
  | some v => .ok (some v) s
  | none => .ok (s.world.globals.get? name) { s with world := s.world.note (.lookup name) }

def resolve (name : String) : Eval Value := do
  match ← lookup name with
  | some v => return v
  | none => fail (.notFound name)

def bind (name : String) (v : Value) : Eval Unit :=
  world fun w => ((), w.store name v)

/-- Binds a name in the innermost frame, or in the global table outside of all calls. -/
def bindLocal (name : String) (v : Value) : Eval Unit := fun s =>
  match Stack.bind? name v s.stack with
  | some stack => .ok () { s with stack }
  | none => .ok () { s with world := s.world.store name v }

/-! ## Frames -/

def push (maxDepth : Nat) (frame : Frame) : Eval Unit := fun s =>
  match Stack.push maxDepth frame s.stack with
  | .ok stack => .ok () { s with stack }
  | .error e => .error (.error e) s

def pop : Eval Frame := fun s =>
  match Stack.pop s.stack with
  | .ok (frame, stack) => .ok frame { s with stack }
  | .error e => .error (.error e) s

/-- An activity with one more frame, which is removed whether the activity succeeds or fails. -/
def withFrame {α : Type} (maxDepth : Nat) (frame : Frame) (act : Eval α) : Eval α := do
  push maxDepth frame
  let result ← attempt act
  let _ ← pop
  match result with
  | .ok a => return a
  | .error e => fail e

/-! ## Interrupts and tasks -/

def checkInterrupt : Eval Unit := fun s =>
  if s.world.isInterrupted then .error (.error .interrupted) s else .ok () s

def spawn (body : Value) : Eval Nat := fun s =>
  let (id, w) := s.world.spawn s.stack body
  .ok id { s with world := w }

/-! ## Forks -/

def fork : Eval Nat := fun s =>
  let (n, w) := s.world.hold s.stack
  .ok n { s with world := w }

/-- An activity of a fork that the host holds.  To ask for one that it does not hold is a panic. -/
def inFork {α : Type} (n : Nat) (act : Eval α) : Eval α := fun s =>
  match s.visit? n with
  | none => .error (.panic none) s
  | some t =>
    match act t with
    | .ok a u => .ok a (u.back n s.stack)
    | .error stop u => .error stop (u.back n s.stack)

def on {α : Type} : Target → Eval α → Eval α
  | .own, act => act
  | .fork n, act => inFork n act

/-! ## Host code -/

def reply : Reply → Eval Value
  | .value v => return v
  | .error e => fail e
  | .panic message => throw (.panic message)

def callNative (host : Host) (f : NativeRef) (args : List Value) : Eval Value := do
  let answer ← world fun w =>
    let (answer, memory) := host.call f args w.memory
    (answer, { w with memory })
  reply answer

end Eval

/-! ## Requests -/

inductive Request where
  | eval (form : Value)
  | compile (form : Value)
  | run (e : Expr)

@[reducible] def Request.Result : Request → Type
  | .eval _ => Value
  | .compile _ => Expr
  | .run _ => Value

abbrev Interpreter := (r : Request) → Eval r.Result

def Instruction.perform (maxDepth : Nat) (below : Interpreter) : (i : Instruction) → Eval i.Outcome
  | .eval form => Eval.attempt (below (.eval form))
  | .compile form => Eval.attempt (below (.compile form))
  | .run e => Eval.attempt (below (.run e))
  | .push frame => Eval.attempt (Eval.push maxDepth frame)
  | .pop => Eval.attempt Eval.pop
  | .bind name v => Eval.bind name v
  | .bindLocal name v => Eval.bindLocal name v
  | .lookup name => Eval.lookup name
  | .stack => do return (← get).stack
  | .fork => Eval.fork
  | .spawn body => Eval.spawn body
  | .interrupt => do return (← get).world.interrupt
  | .setInterrupt on =>
    Eval.world fun w => ((), { w with interrupt := w.interrupt.map fun _ => on })
  | .freshIdentity =>
    Eval.world fun w => (w.nextIdentity, { w with nextIdentity := w.nextIdentity + 1 })
  | .remembered => do return (← get).world.memory
  | .remember memory => Eval.world fun w => ((), { w with memory })

def Procedure.perform {α : Type} (maxDepth : Nat) (below : Interpreter) : Procedure α → Eval α
  | .done a => return a
  | .fail e => Eval.fail e
  | .panic message => throw (.panic message)
  | .step target i rest => do
    perform maxDepth below (rest (← Eval.on target (i.perform maxDepth below)))

namespace Interpreter

/-! ## Macros -/

structure Rewriter where
  name : String
  params : List String
  body : Value

def Rewriter.ofValue? : Value → Option Rewriter
  | .rewriter _ name params body => some ⟨name, params, body⟩
  | _ => none

/-- The replacement for a call of a macro: its body is evaluated with the parameters bound to the
argument forms as they are. -/
def applyMacro (config : Config) (below : Interpreter) (m : Rewriter) (args : List Value) :
    Eval Value :=
  if args.length = m.params.length then
    Eval.withFrame config.maxDepth ⟨m.name, args, .ofList (m.params.zip args)⟩
      (below (.eval m.body))
  else
    Eval.fail (.invalidSpecialForm ("macro '" ++ m.name ++ "'")
      (toString m.params.length ++ " args") (toString args.length))

def macroOfHead : Value → Eval (Option Rewriter)
  | .symbol name => do return (← Eval.lookup name).bind Rewriter.ofValue?
  | head => return Rewriter.ofValue? head

def expandOnce (config : Config) (below : Interpreter) : Value → Eval (Option Value)
  | .list (head :: args) => do
    match ← macroOfHead head with
    | some m => return some (← applyMacro config below m args)
    | none => return none
  | _ => return none

def expand (config : Config) (below : Interpreter) (form : Value) : Eval (Option Value) :=
  match config.expander with
  | .standard => expandOnce config below form
  | .custom expand => (expand form).perform config.maxDepth below

/-! ## Analysis -/

/-- The parser of the special form that the head of a list names.  A form of the host goes before
the usual one of that name. -/
def specialOfHead (special : String → Option ParseSpecial) : Value → Option ParseSpecial
  | .symbol name =>
    match special name with
    | some parse => some parse
    | none => (SpecialForm.named name).map fun form parts => .ofExcept (form.parse parts)
  | _ => none

/-- Analyzes a form: a special form is parsed, a call has its head and its arguments compiled from
left to right, a symbol gives its present value, and all else stands for itself. -/
def analyzeForm (config : Config) (special : String → Option ParseSpecial) (below : Interpreter) :
    Value → Eval Expr
  | .list [] => return .const (.list [])
  | .list (head :: args) =>
    match specialOfHead special head with
    | some parse => (parse args).perform config.maxDepth below
    | none => do
      let target ← below (.compile head)
      let args ← args.mapM fun arg => below (.compile arg)
      return .invoke head.sexpr target args
  | .symbol name => do return .const (← Eval.resolve name)
  | form => return .const form

def analyze (config : Config) (below : Interpreter) (form : Value) : Eval Expr :=
  match config.analyzer with
  | .standard special => analyzeForm config special below form
  | .custom analyze => (analyze form).perform config.maxDepth below

/-! ## Running -/

def calleeOf : Value → Option Callee
  | .native f => some (.native f)
  | .invokable f => some (.invokable f)
  | _ => none

/-- Calls something whose frame is in place. -/
def call (config : Config) (below : Interpreter) (callee : Callee) (args : List Value) :
    Eval Value := do
  modify fun s => { s with world := s.world.note (.call callee args s.stack) }
  match callee with
  | .native f => Eval.callNative config.host f args
  | .invokable f => (config.host.invokable f args).perform config.maxDepth below

/-- Runs a call: first the target, which has to be callable, then the arguments from left to right,
then the call itself in a frame of its own. -/
def invoke (config : Config) (below : Interpreter) (name : String) (target : Expr)
    (args : List Expr) : Eval Value := do
  Eval.checkInterrupt
  let head ← below (.run target)
  match calleeOf head with
  | none => Eval.fail (.notInvokable head.typeName)
  | some callee =>
    let values ← args.mapM fun arg => below (.run arg)
    Eval.withFrame config.maxDepth ⟨name, values, ∅⟩ (call config below callee values)

def runExpr (config : Config) (below : Interpreter) : Expr → Eval Value
  | .const v => return v
  | .quote v => return v
  | .define name form => do
    let v ← below (.eval form)
    Eval.bind name v
    return .symbol name
  | .choice test consequent alternative => do
    if (← below (.eval test)).isTruthy then below (.eval consequent)
    else
      match alternative with
      | some form => below (.eval form)
      | none => return .nil
  | .sequence forms =>
    forms.foldlM (fun _ form => do
      Eval.checkInterrupt
      below (.eval form)) .nil
  | .invoke name target args => invoke config below name target args
  | .spawn body => do
    let _ ← Eval.spawn body
    return .nil

/-! ## Levels -/

def level (config : Config) (below : Interpreter) : Interpreter
  | .eval form => do
    let e ← below (.compile form)
    below (.run e)
  | .compile form => do
    Eval.checkInterrupt
    match ← expand config below form with
    | some rewritten => below (.compile rewritten)
    | none => analyze config below form
  | .run e => runExpr config below e

def interpret (config : Config) : Nat → Interpreter
  | 0, _ => throw .exhausted
  | n + 1, r => withRoom n (level config (interpret config n) r)

theorem interpret_succ (config : Config) (n : Nat) :
    interpret config (n + 1) = level config (interpret config n) := by
  funext r
  simp [interpret]

/-- More levels than any run that ends in practice goes through. -/
def ampleLevels : Nat := 1000000000000000000

def ample (config : Config) : Interpreter := interpret config ampleLevels

end Interpreter

end Lisp
