import Lisp.Proofs.Eval.Caching
import Lisp.Proofs.Eval.Correspondence

/-!
# Contexts

A `Context` is a form with a hole in a place where a form is evaluated: an argument of a call, or a
part of a special form, at any depth.  Evaluation comes to the hole through the forms around it, some
of which are analyzed before others run; `Visits` says in which states it comes to each of them.
-/

namespace Lisp.Interpreter

variable {config : Config} {below : Interpreter} {s t u : State}

/-! ## 1. Parts of special forms -/

/-- A place for a part of a special form that is evaluated when the form is run, with all other
parts. -/
inductive Slot where
  | test (yes : Value) (no : Option Value)
  | consequent (condition : Value) (no : Option Value)
  | alternative (condition yes : Value)
  /-- A form of a sequence. -/
  | item (before after : List Value)
  /-- The value that a name is defined as. -/
  | definition (name : Value)

namespace Slot

def form : Slot → SpecialForm
  | test .. => .choice
  | consequent .. => .choice
  | alternative .. => .choice
  | item .. => .sequence
  | definition _ => .define

def parts : Slot → Value → List Value
  | test yes no, x => x :: yes :: no.toList
  | consequent condition no, x => condition :: x :: no.toList
  | alternative condition yes, x => [condition, yes, x]
  | item before after, x => before ++ x :: after
  | definition name, x => [name, x]

def runItems (below : Interpreter) (forms : List Value) (v : Value) : Eval Value :=
  forms.foldlM (fun _ form => do
    Eval.checkInterrupt
    below (.eval form)) v

/-- What the run of the special form does before it comes to the part.  If it does not come to it, the
answer is the value of the whole. -/
def before (below : Interpreter) : Slot → Eval (Option Value)
  | test .. => return none
  | consequent condition no => do
    if (← below (.eval condition)).isTruthy then return none
    else
      match no with
      | some form => return some (← below (.eval form))
      | none => return some .nil
  | alternative condition yes => do
    if (← below (.eval condition)).isTruthy then return some (← below (.eval yes))
    else return none
  | item before _ => do
    let _ ← runItems below before .nil
    Eval.checkInterrupt
    return none
  | definition _ => return none

def after (below : Interpreter) : Slot → Value → Eval Value
  | test yes no, v =>
    if v.isTruthy then below (.eval yes)
    else
      match no with
      | some form => below (.eval form)
      | none => return .nil
  | consequent .., v => return v
  | alternative .., v => return v
  | item _ after, v => runItems below after v
  | definition name, v =>
    match SpecialForm.definedName name with
    | .ok name => do
      Eval.bind name v
      return .symbol name
    | .error e => Eval.fail e

theorem parse_parts (slot : Slot) (x y : Value) :
    (∃ e e', slot.form.parse (slot.parts x) = .ok e ∧ slot.form.parse (slot.parts y) = .ok e') ∨
      ∃ e, slot.form.parse (slot.parts x) = .error e ∧
        slot.form.parse (slot.parts y) = .error e := by
  cases slot with
  | test yes no => cases no <;> exact .inl ⟨_, _, rfl, rfl⟩
  | consequent condition no => cases no <;> exact .inl ⟨_, _, rfl, rfl⟩
  | alternative condition yes => exact .inl ⟨_, _, rfl, rfl⟩
  | item before after => exact .inl ⟨_, _, rfl, rfl⟩
  | definition name =>
    simp only [form, parts, SpecialForm.parse]
    cases SpecialForm.definedName name with
    | ok name => exact .inl ⟨_, _, rfl, rfl⟩
    | error e => exact .inr ⟨e, rfl, rfl⟩

/-- To run the special form is to do what comes before the part, to evaluate it, and to do what comes
after it. -/
theorem runExpr_eq {slot : Slot} {x : Value} {e : Expr}
    (h : slot.form.parse (slot.parts x) = .ok e) (below : Interpreter) :
    runExpr config below e = (do
      match ← slot.before below with
      | some v => return v
      | none => do
        let v ← below (.eval x)
        slot.after below v) := by
  cases slot with
  | test yes no => cases no <;> cases h <;> rfl
  | consequent condition no =>
    obtain rfl : e = .choice condition x no := by cases no <;> cases h <;> rfl
    simp only [runExpr, before, after, bind_assoc]
    refine bind_congr fun v => ?_
    cases v.isTruthy with
    | true => simp
    | false => cases no <;> simp
  | alternative condition yes =>
    obtain rfl : e = .choice condition yes (some x) := by cases h; rfl
    simp only [runExpr, before, after, bind_assoc]
    refine bind_congr fun v => ?_
    cases v.isTruthy <;> simp
  | item before after =>
    -- A sequence drops the value of each form but the last, so it may be cut anywhere.
    obtain rfl : e = .sequence (before ++ x :: after) := by cases h; rfl
    simp only [runExpr, Slot.before, Slot.after, runItems, List.foldlM_append, List.foldlM_cons,
      bind_assoc, pure_bind]
  | definition name =>
    simp only [form, parts, SpecialForm.parse] at h
    cases hname : SpecialForm.definedName name with
    | error e =>
      rw [hname] at h
      cases h
    | ok name =>
      rw [hname] at h
      cases h
      simp only [runExpr, before, after, hname, pure_bind]

theorem uniform_runItems (forms : List Value) (v : Value) :
    Uniform config fun below => runItems below forms v := fun _ hR _ _ hbelow =>
  .foldlM (fun _ form => hR.checkInterrupt.bind fun _ => hbelow (.eval form)) forms v

theorem uniform_before (slot : Slot) : Uniform config fun below => slot.before below := by
  intro R hR below below' hbelow
  cases slot with
  | test | definition => exact .pure none
  | consequent condition no =>
    refine (hbelow (.eval condition)).bind fun v => ?_
    split
    · exact .pure none
    · cases no with
      | none => exact .pure _
      | some form => exact (hbelow (.eval form)).bind fun _ => .pure _
  | alternative condition yes =>
    refine (hbelow (.eval condition)).bind fun v => ?_
    split
    · exact (hbelow (.eval yes)).bind fun _ => .pure _
    · exact .pure none
  | item before after =>
    exact (uniform_runItems before .nil hR hbelow).bind fun _ =>
      hR.checkInterrupt.bind fun _ => .pure none

theorem uniform_after (slot : Slot) (v : Value) :
    Uniform config fun below => slot.after below v := by
  intro R hR below below' hbelow
  cases slot with
  | test yes no =>
    simp only [after]
    split
    · exact hbelow (.eval yes)
    · cases no with
      | none => exact .pure _
      | some form => exact hbelow (.eval form)
  | consequent | alternative => exact .pure v
  | item before after => exact uniform_runItems after v hR hbelow
  | definition name =>
    simp only [after]
    cases SpecialForm.definedName name with
    | ok name => exact (hR.bind name v).bind fun _ => .pure _
    | error e => exact .fail e

end Slot

/-! ## 2. Arguments of calls -/

def compileBefore (head : Value) (before : List Value) (below : Interpreter) :
    Eval (Expr × List Expr) := do
  let target ← below (.compile head)
  let es ← before.mapM fun arg => below (.compile arg)
  return (target, es)

def compileAfter (head : Value) (compiled : Expr × List Expr) (e : Expr) (after : List Value)
    (below : Interpreter) : Eval Expr := do
  let es ← after.mapM fun arg => below (.compile arg)
  return .invoke head.sexpr compiled.1 (compiled.2 ++ e :: es)

def runBefore (target : Expr) (before : List Expr) (below : Interpreter) :
    Eval (Callee × List Value) := do
  Eval.checkInterrupt
  let head ← below (.run target)
  match calleeOf head with
  | none => Eval.fail (.notInvokable head.typeName)
  | some callee => do
    let vs ← before.mapM fun arg => below (.run arg)
    return (callee, vs)

def runAfter (config : Config) (name : String) (called : Callee × List Value) (v : Value)
    (after : List Expr) (below : Interpreter) : Eval Value := do
  let vs ← after.mapM fun arg => below (.run arg)
  Eval.withFrame config.maxDepth ⟨name, called.2 ++ v :: vs, ∅⟩
    (call config below called.1 (called.2 ++ v :: vs))

theorem analyzeForm_argument {head : Value} (hhead : specialOfHead noSpecials head = none)
    (before : List Value) (x : Value) (after : List Value) :
    analyzeForm config noSpecials below (.list (head :: (before ++ x :: after))) = (do
      let compiled ← compileBefore head before below
      let e ← below (.compile x)
      compileAfter head compiled e after below) := by
  simp only [analyzeForm, hhead, compileBefore, compileAfter, List.mapM_append, List.mapM_cons,
    bind_assoc, pure_bind]

theorem invoke_argument (name : String) (target : Expr) (before : List Expr) (e : Expr)
    (after : List Expr) :
    invoke config below name target (before ++ e :: after) = (do
      let called ← runBefore target before below
      let v ← below (.run e)
      runAfter config name called v after below) := by
  simp only [invoke, runBefore, runAfter, bind_assoc]
  -- A head that is not callable is an error before any argument is run.
  refine bind_congr fun _ => bind_congr fun head => ?_
  cases calleeOf head with
  | none => rfl
  | some callee => simp only [List.mapM_append, List.mapM_cons, bind_assoc, pure_bind]

theorem uniform_compileBefore (head : Value) (before : List Value) :
    Uniform config (compileBefore head before) := fun _ _ _ _ hbelow =>
  (hbelow (.compile head)).bind fun _ =>
    (Simulates.mapM (fun arg => hbelow (.compile arg)) before).bind fun _ => .pure _

theorem uniform_runBefore (target : Expr) (before : List Expr) :
    Uniform config (runBefore target before) := by
  intro R hR below below' hbelow
  refine hR.checkInterrupt.bind fun _ => (hbelow (.run target)).bind fun head => ?_
  cases calleeOf head with
  | none => exact .fail _
  | some callee =>
    exact (Simulates.mapM (fun arg => hbelow (.run arg)) before).bind fun _ => .pure _

theorem uniform_runAfter (name : String) (called : Callee × List Value) (v : Value)
    (after : List Expr) : Uniform config (runAfter config name called v after) := by
  intro R hR below below' hbelow
  refine (Simulates.mapM (fun arg => hbelow (.run arg)) after).bind fun vs => ?_
  rw [withFrame_call, withFrame_call]
  exact (hR.enter name called.1 _).bind fun _ =>
    (answerCall_simulates hR hbelow called.1 _).attempt.bind fun result => hR.leave result

theorem length_of_mapM {α β : Type} {act : α → Eval β} {as : List α} {bs : List β}
    (h : as.mapM act s = .ok bs t) : bs.length = as.length := by
  induction as generalizing bs s t with
  | nil =>
    rw [List.mapM_nil] at h
    cases h
    rfl
  | cons a as ih =>
    rw [List.mapM_cons, bind_eq] at h
    cases ha : act a s with
    | error stop u =>
      rw [ha] at h
      cases h
    | ok b u =>
      rw [ha] at h
      cases has : as.mapM act u with
      | error stop v =>
        have herror := (bind_of_error has).symm.trans h
        cases herror
      | ok bs' v =>
        have hok := (bind_of_ok has).symm.trans h
        cases hok
        rw [List.length_cons, List.length_cons, ih has]

theorem length_of_compileBefore {head : Value} {before : List Value}
    {compiled : Expr × List Expr}
    (h : Ends config (compileBefore head before) s (.ok compiled t)) :
    compiled.2.length = before.length := by
  obtain ⟨target, u, -, hrest⟩ | ⟨stop, u, -, hstop⟩ := h.of_bind
  · obtain ⟨es, u, ⟨levels, hes, -⟩, levels', hpure, -⟩ | ⟨stop, u, -, hstop⟩ := hrest.of_bind
    · cases hpure
      exact length_of_mapM hes
    · cases hstop
  · cases hstop

/-! ## 3. Contexts -/

/-- A form with a hole: the hole itself, a call with the hole in an argument, or a special form with
the hole in a part that is evaluated. -/
inductive Context where
  | hole
  | argument (head : Value) (ordinary : specialOfHead noSpecials head = none) (before : List Value)
    (inner : Context) (after : List Value)
  | part (slot : Slot) (inner : Context)

namespace Context

def fill : Context → Value → Value
  | hole, x => x
  | argument head _ before inner after, x => .list (head :: (before ++ inner.fill x :: after))
  | part slot inner, x => .list (.symbol slot.form.name :: slot.parts (inner.fill x))

def head? : Context → Option Value
  | hole => none
  | argument head .. => some head
  | part slot _ => some (.symbol slot.form.name)

end Context

/-! ## 4. The way to the hole -/

/-- Something that evaluation does on its way to the hole: to evaluate or to compile what is in a
context, or to run its expression. -/
inductive Stage where
  | eval (C : Context)
  | compile (C : Context)
  | run (C : Context) (e : Expr)

/-- With a form in the hole, evaluation comes from one stage, begun in a state, straight to the
next. -/
inductive Enters (config : Config) (x : Value) : Stage × State → Stage × State → Prop where
  | compile {C : Context} {s : State} : Enters config x (.eval C, s) (.compile C, s)
  | run {C : Context} {s t : State} {e : Expr}
      (hcompile : Answers config (.compile (C.fill x)) s (.ok e t)) :
      Enters config x (.eval C, s) (.run C e, t)
  | compileArgument {head : Value} {ordinary : specialOfHead noSpecials head = none}
      {before after : List Value} {inner : Context} {s u t : State} {compiled : Expr × List Expr}
      (hrunning : s.world.isInterrupted = false) (hhead : macroOfHead head s = .ok none u)
      (hbefore : Ends config (compileBefore head before) u (.ok compiled t)) :
      Enters config x (.compile (.argument head ordinary before inner after), s)
        (.compile inner, t)
  | runArgument {head : Value} {ordinary : specialOfHead noSpecials head = none}
      {before after : List Value} {inner : Context} {s t : State} {name : String} {target e : Expr}
      {es es' : List Expr} {called : Callee × List Value} (hlength : es.length = before.length)
      (hbefore : Ends config (runBefore target es) s (.ok called t)) :
      Enters config x
        (.run (.argument head ordinary before inner after) (.invoke name target (es ++ e :: es')), s)
        (.run inner e, t)
  | part {slot : Slot} {inner : Context} {s t : State} {e : Expr}
      (hparse : slot.form.parse (slot.parts (inner.fill x)) = .ok e)
      (hbefore : Ends config (fun below => slot.before below) s (.ok none t)) :
      Enters config x (.run (.part slot inner) e, s) (.eval inner, t)

def Visits (config : Config) (x : Value) (C : Context) (s : State) (stage : Stage) (t : State) :
    Prop :=
  Relation.ReflTransGen (Enters config x) (.eval C, s) (stage, t)

end Lisp.Interpreter
