import Lisp.Program
import Lisp.Proofs.Activity

/-!
# Simulation

How far the state may be changed without a change of what evaluation does.  A relation between states
that the operations of the interpreter respect, `Compatible`, is respected by whatever is asked of the
interpreter, `interpret_simulates`.  It also compares an interpreter with one of more levels, which
gives the same answers and some more.

A property of states is a relation too, of a state to itself, so what the operations preserve the
interpreter preserves.
-/

namespace Lisp

variable {α β : Type} {R : State → State → Prop}

/-! ## 1. Results that agree -/

theorem Eval.attempt_of_ok {act : Eval α} {s t : State} {a : α} (h : act s = .ok a t) :
    Eval.attempt act s = .ok (.ok a) t := by
  rw [Eval.attempt, h]

theorem Eval.attempt_of_error {act : Eval α} {s t : State} {e : Error}
    (h : act s = .error (.error e) t) : Eval.attempt act s = .ok (.error e) t := by
  rw [Eval.attempt, h]

theorem Eval.attempt_of_stop {act : Eval α} {s t : State} {stop : Stop}
    (h : act s = .error stop t) (hstop : ∀ e, stop ≠ .error e) :
    Eval.attempt act s = .error stop t := by
  cases stop with
  | error e => exact absurd rfl (hstop e)
  | panic | exhausted => rw [Eval.attempt, h]

def Exhausted : EStateM.Result Stop State α → Prop
  | .error .exhausted _ => True
  | .error (.error _) _ => False
  | .error (.panic _) _ => False
  | .ok _ _ => False

/-- Two results that are one and the same but for the states they come with, which are related. -/
inductive Agree (R : State → State → Prop) :
    EStateM.Result Stop State α → EStateM.Result Stop State α → Prop where
  | ok (a : α) {s t : State} (h : R s t) : Agree R (.ok a s) (.ok a t)
  | error (stop : Stop) {s t : State} (h : R s t) : Agree R (.error stop s) (.error stop t)

/-- From related states the second activity gives the result of the first, if that has one. -/
def Simulates (R : State → State → Prop) (act act' : Eval α) : Prop :=
  ∀ s t, R s t → Exhausted (act s) ∨ Agree R (act s) (act' t)

theorem exhausted_error_iff {stop : Stop} {s : State} :
    Exhausted (.error stop s : EStateM.Result Stop State α) ↔ stop = .exhausted := by
  cases stop <;> simp [Exhausted]

theorem Exhausted.exists_eq {result : EStateM.Result Stop State α} (h : Exhausted result) :
    ∃ t, result = .error .exhausted t := by
  cases result with
  | ok a t => exact h.elim
  | error stop t =>
    rw [exhausted_error_iff.mp h]
    exact ⟨t, rfl⟩

theorem Agree.not_exhausted {result result' : EStateM.Result Stop State α}
    (h : Agree R result result') (hresult : ¬ Exhausted result) : ¬ Exhausted result' := by
  cases h with
  | ok a h => exact id
  | error stop h =>
    rw [exhausted_error_iff] at hresult ⊢
    exact hresult

theorem Agree.states {result result' : EStateM.Result Stop State α} (h : Agree R result result') :
    R (Program.stateOf result) (Program.stateOf result') := by
  cases h with
  | ok a h => exact h
  | error stop h => exact h

theorem Agree.outcomeOf_eq {result result' : EStateM.Result Stop State Value}
    (h : Agree R result result') : Program.outcomeOf result = Program.outcomeOf result' := by
  cases h with
  | ok a h => rfl
  | error stop h => cases stop <;> rfl

namespace Simulates

variable {act act' : Eval α} {f f' : α → Eval β}

theorem pure (a : α) : Simulates R (pure a) (pure a) := fun _ _ h => .inr (.ok a h)

theorem throw (stop : Stop) : Simulates R (throw stop : Eval α) (throw stop) :=
  fun _ _ h => .inr (.error stop h)

theorem fail (e : Error) : Simulates R (Eval.fail e : Eval α) (Eval.fail e) := .throw (.error e)

theorem of_exhausted : Simulates R (MonadExcept.throw Stop.exhausted) act :=
  fun _ _ _ => .inl trivial

theorem read {look : State → α} (h : ∀ s t, R s t → look s = look t) :
    Simulates R (do return look (← get)) (do return look (← get)) := by
  intro s t hst
  right
  change Agree R (.ok (look s) s) (.ok (look t) t)
  rw [h s t hst]
  exact .ok _ hst

theorem bind (hact : Simulates R act act') (hf : ∀ a, Simulates R (f a) (f' a)) :
    Simulates R (act >>= f) (act' >>= f') := by
  intro s t hst
  rw [bind_eq, bind_eq]
  cases hact s t hst with
  | inl hexhausted =>
    obtain ⟨u, hresult⟩ := hexhausted.exists_eq
    rw [hresult]
    exact .inl trivial
  | inr hagree =>
    generalize act s = result at hagree ⊢
    generalize act' t = result' at hagree ⊢
    cases hagree with
    | ok a h => exact hf a _ _ h
    | error stop h => exact .inr (.error stop h)

theorem attempt (hact : Simulates R act act') :
    Simulates R (Eval.attempt act) (Eval.attempt act') := by
  intro s t hst
  unfold Eval.attempt
  cases hact s t hst with
  | inl hexhausted =>
    -- An attempt catches errors only, so it passes the lack of levels on.
    obtain ⟨u, hresult⟩ := hexhausted.exists_eq
    rw [hresult]
    exact .inl trivial
  | inr hagree =>
    right
    generalize act s = result at hagree ⊢
    generalize act' t = result' at hagree ⊢
    cases hagree with
    | ok a h => exact .ok _ h
    | error stop h =>
      cases stop with
      | error e => exact .ok _ h
      | panic message => exact .error _ h
      | exhausted => exact .error _ h

theorem mapM {act act' : α → Eval β} (hact : ∀ a, Simulates R (act a) (act' a)) (as : List α) :
    Simulates R (as.mapM act) (as.mapM act') := by
  induction as with
  | nil =>
    rw [List.mapM_nil, List.mapM_nil]
    exact pure []
  | cons a as ih =>
    rw [List.mapM_cons, List.mapM_cons]
    exact (hact a).bind fun b => ih.bind fun bs => pure (b :: bs)

theorem foldlM {act act' : β → α → Eval β} (hact : ∀ b a, Simulates R (act b a) (act' b a))
    (as : List α) (b : β) : Simulates R (as.foldlM act b) (as.foldlM act' b) := by
  induction as generalizing b with
  | nil =>
    rw [List.foldlM_nil, List.foldlM_nil]
    exact pure b
  | cons a as ih =>
    rw [List.foldlM_cons, List.foldlM_cons]
    exact (hact b a).bind fun b => ih b

end Simulates

/-! ## 2. Relations that the operations respect -/

namespace Eval

def enter (maxDepth : Nat) (name : String) (callee : Callee) (args : List Value) : Eval Unit := do
  push maxDepth ⟨name, args, ∅⟩
  modify fun s => { s with world := s.world.note (.call callee args s.stack) }

def leave (result : Except Error α) : Eval α := do
  let _ ← pop
  match result with
  | .ok a => return a
  | .error e => fail e

theorem withFrame_def (maxDepth : Nat) (frame : Frame) (act : Eval α) :
    withFrame maxDepth frame act = (do push maxDepth frame; leave (← attempt act)) := rfl

theorem callNative_apply (host : Host) (f : NativeRef) (args : List Value) (s : State) :
    callNative host f args s =
      reply (host.call f args s.world.memory).1
        { s with world := { s.world with memory := (host.call f args s.world.memory).2 } } := rfl

theorem inFork_of_none {n : Nat} {act : Eval α} {s : State} (h : s.visit? n = none) :
    inFork n act s = .error (.panic none) s := by
  rw [inFork, h]

theorem inFork_of_some {n : Nat} {act : Eval α} {s t : State} (h : s.visit? n = some t) :
    inFork n act s =
      match act t with
      | .ok a u => .ok a (u.back n s.stack)
      | .error stop u => .error stop (u.back n s.stack) := by
  cases hact : act t with
  | ok a u => simp only [inFork, h, hact]
  | error stop u => simp only [inFork, h, hact]

end Eval

/-- A relation between states that no operation on an environment can leave, and that shows no
difference to one. -/
structure Compatible (config : Config) (R : State → State → Prop) : Prop where
  stack_eq : ∀ s t, R s t → s.stack = t.stack
  interrupt_eq : ∀ s t, R s t → s.world.interrupt = t.world.interrupt
  memory_eq : ∀ s t, R s t → s.world.memory = t.world.memory
  lookup : ∀ name, Simulates R (Eval.lookup name) (Eval.lookup name)
  bind : ∀ name v, Simulates R (Eval.bind name v) (Eval.bind name v)
  bindLocal : ∀ name v, Simulates R (Eval.bindLocal name v) (Eval.bindLocal name v)
  push : ∀ frame, Simulates R (Eval.push config.maxDepth frame) (Eval.push config.maxDepth frame)
  pop : Simulates R Eval.pop Eval.pop
  spawn : ∀ body, Simulates R (Eval.spawn body) (Eval.spawn body)
  enter : ∀ name callee args, Simulates R (Eval.enter config.maxDepth name callee args)
    (Eval.enter config.maxDepth name callee args)
  callNative : ∀ f args, Simulates R (Eval.callNative config.host f args)
    (Eval.callNative config.host f args)
  setInterrupt : ∀ on, Simulates R
    (Eval.world fun w => ((), { w with interrupt := w.interrupt.map fun _ => on }))
    (Eval.world fun w => ((), { w with interrupt := w.interrupt.map fun _ => on }))
  freshIdentity : Simulates R
    (Eval.world fun w => (w.nextIdentity, { w with nextIdentity := w.nextIdentity + 1 }))
    (Eval.world fun w => (w.nextIdentity, { w with nextIdentity := w.nextIdentity + 1 }))
  remember : ∀ memory, Simulates R (Eval.world fun w => ((), { w with memory }))
    (Eval.world fun w => ((), { w with memory }))
  fork : Simulates R Eval.fork Eval.fork
  visit : ∀ n s t, R s t → Option.Rel R (s.visit? n) (t.visit? n)
  back : ∀ n s t s' t', R s t → R s' t' → R (s'.back n s.stack) (t'.back n t.stack)

namespace Compatible

variable {config : Config} {act act' : Eval α} {frame : Frame}

theorem resolve (hR : Compatible config R) (name : String) :
    Simulates R (Eval.resolve name) (Eval.resolve name) := by
  refine (hR.lookup name).bind fun found => ?_
  cases found with
  | some v => exact .pure v
  | none => exact .fail _

theorem checkInterrupt (hR : Compatible config R) :
    Simulates R Eval.checkInterrupt Eval.checkInterrupt := by
  intro s t hst
  unfold Eval.checkInterrupt World.isInterrupted
  rw [hR.interrupt_eq s t hst]
  split
  · exact .inr (.error _ hst)
  · exact .inr (.ok _ hst)

theorem leave (hR : Compatible config R) (result : Except Error α) :
    Simulates R (Eval.leave result) (Eval.leave result) := by
  refine hR.pop.bind fun _ => ?_
  cases result with
  | ok a => exact .pure a
  | error e => exact .fail e

theorem withFrame (hR : Compatible config R) (hact : Simulates R act act') :
    Simulates R (Eval.withFrame config.maxDepth frame act)
      (Eval.withFrame config.maxDepth frame act') :=
  (hR.push frame).bind fun _ => hact.attempt.bind fun result => hR.leave result

theorem inFork (hR : Compatible config R) (n : Nat) (hact : Simulates R act act') :
    Simulates R (Eval.inFork n act) (Eval.inFork n act') := by
  intro s t hst
  have hvisit := hR.visit n s t hst
  generalize hs : s.visit? n = visited at hvisit
  generalize ht : t.visit? n = visited' at hvisit
  cases hvisit with
  | none =>
    rw [Eval.inFork_of_none hs, Eval.inFork_of_none ht]
    exact .inr (.error _ hst)
  | @some u v huv =>
    rw [Eval.inFork_of_some hs, Eval.inFork_of_some ht]
    cases hact u v huv with
    | inl hexhausted =>
      obtain ⟨u', hresult⟩ := hexhausted.exists_eq
      rw [hresult]
      exact .inl trivial
    | inr hagree =>
      right
      generalize act u = result at hagree ⊢
      generalize act' v = result' at hagree ⊢
      cases hagree with
      | ok a h => exact .ok a (hR.back n s t _ _ hst h)
      | error stop h => exact .error stop (hR.back n s t _ _ hst h)

theorem on (hR : Compatible config R) (target : Target) (hact : Simulates R act act') :
    Simulates R (Eval.on target act) (Eval.on target act') := by
  cases target with
  | own => exact hact
  | fork n => exact hR.inFork n hact

end Compatible

/-! ## 3. The interpreter -/

section

variable {config : Config} {below below' : Interpreter}

theorem Instruction.perform_simulates (hR : Compatible config R)
    (hbelow : ∀ r, Simulates R (below r) (below' r)) (i : Instruction) :
    Simulates R (i.perform config.maxDepth below) (i.perform config.maxDepth below') := by
  cases i with
  | eval form => exact (hbelow (.eval form)).attempt
  | compile form => exact (hbelow (.compile form)).attempt
  | run e => exact (hbelow (.run e)).attempt
  | push frame => exact (hR.push frame).attempt
  | pop => exact hR.pop.attempt
  | bind name v => exact hR.bind name v
  | bindLocal name v => exact hR.bindLocal name v
  | lookup name => exact hR.lookup name
  | stack => exact .read hR.stack_eq
  | fork => exact hR.fork
  | spawn body => exact hR.spawn body
  | interrupt => exact .read hR.interrupt_eq
  | setInterrupt on => exact hR.setInterrupt on
  | freshIdentity => exact hR.freshIdentity
  | remembered => exact .read hR.memory_eq
  | remember memory => exact hR.remember memory

theorem Procedure.perform_simulates (hR : Compatible config R)
    (hbelow : ∀ r, Simulates R (below r) (below' r)) (procedure : Procedure α) :
    Simulates R (procedure.perform config.maxDepth below)
      (procedure.perform config.maxDepth below') := by
  induction procedure with
  | done a => exact .pure a
  | fail e => exact .fail e
  | panic message => exact .throw _
  | step target i rest ih => exact (hR.on target (i.perform_simulates hR hbelow)).bind ih

namespace Interpreter

theorem applyMacro_simulates (hR : Compatible config R)
    (hbelow : ∀ r, Simulates R (below r) (below' r)) (m : Rewriter) (args : List Value) :
    Simulates R (applyMacro config below m args) (applyMacro config below' m args) := by
  unfold applyMacro
  split
  · exact hR.withFrame (hbelow (.eval m.body))
  · exact .fail _

theorem macroOfHead_simulates (hR : Compatible config R) (head : Value) :
    Simulates R (macroOfHead head) (macroOfHead head) := by
  cases head with
  | symbol name => exact (hR.lookup name).bind fun _ => .pure _
  | _ => exact .pure _

theorem expandOnce_simulates (hR : Compatible config R)
    (hbelow : ∀ r, Simulates R (below r) (below' r)) (form : Value) :
    Simulates R (expandOnce config below form) (expandOnce config below' form) := by
  cases form with
  | list items =>
    cases items with
    | nil => exact .pure none
    | cons head args =>
      refine (macroOfHead_simulates hR head).bind fun found => ?_
      cases found with
      | some m => exact (applyMacro_simulates hR hbelow m args).bind fun _ => .pure _
      | none => exact .pure none
  | _ => exact .pure none

theorem expand_simulates (hR : Compatible config R)
    (hbelow : ∀ r, Simulates R (below r) (below' r)) (form : Value) :
    Simulates R (expand config below form) (expand config below' form) := by
  unfold expand
  cases config.expander with
  | standard => exact expandOnce_simulates hR hbelow form
  | custom expand => exact (expand form).perform_simulates hR hbelow

theorem analyzeForm_simulates (hR : Compatible config R)
    (hbelow : ∀ r, Simulates R (below r) (below' r)) (special : String → Option ParseSpecial)
    (form : Value) :
    Simulates R (analyzeForm config special below form) (analyzeForm config special below' form) := by
  cases form with
  | list items =>
    cases items with
    | nil => exact .pure _
    | cons head args =>
      simp only [analyzeForm]
      cases specialOfHead special head with
      | some parse => exact (parse args).perform_simulates hR hbelow
      | none =>
        exact (hbelow (.compile head)).bind fun target =>
          (Simulates.mapM (fun arg => hbelow (.compile arg)) args).bind fun _ => .pure _
  | symbol name => exact (hR.resolve name).bind fun _ => .pure _
  | _ => exact .pure _

theorem analyze_simulates (hR : Compatible config R)
    (hbelow : ∀ r, Simulates R (below r) (below' r)) (form : Value) :
    Simulates R (analyze config below form) (analyze config below' form) := by
  unfold analyze
  cases config.analyzer with
  | standard special => exact analyzeForm_simulates hR hbelow special form
  | custom analyze => exact (analyze form).perform_simulates hR hbelow

def answerCall (config : Config) (below : Interpreter) : Callee → List Value → Eval Value
  | .native f, args => Eval.callNative config.host f args
  | .invokable f, args => (config.host.invokable f args).perform config.maxDepth below

theorem answerCall_simulates (hR : Compatible config R)
    (hbelow : ∀ r, Simulates R (below r) (below' r)) (callee : Callee) (args : List Value) :
    Simulates R (answerCall config below callee args) (answerCall config below' callee args) := by
  cases callee with
  | native f => exact hR.callNative f args
  | invokable f => exact (config.host.invokable f args).perform_simulates hR hbelow

/-- The note of a call never fails, so it may count as part of the entry. -/
theorem withFrame_call (name : String) (callee : Callee) (args : List Value) :
    Eval.withFrame config.maxDepth ⟨name, args, ∅⟩ (call config below callee args) =
      (do
        Eval.enter config.maxDepth name callee args
        Eval.leave (← Eval.attempt (answerCall config below callee args))) := by
  -- To note the call and then to attempt the answer is to attempt both, by evaluation.
  rw [Eval.withFrame_def, Eval.enter, bind_assoc]
  cases callee with
  | native f => rfl
  | invokable f => rfl

theorem invoke_simulates (hR : Compatible config R)
    (hbelow : ∀ r, Simulates R (below r) (below' r)) (name : String) (target : Expr)
    (args : List Expr) :
    Simulates R (invoke config below name target args) (invoke config below' name target args) := by
  refine hR.checkInterrupt.bind fun _ => (hbelow (.run target)).bind fun head => ?_
  cases calleeOf head with
  | none => exact .fail _
  | some callee =>
    refine (Simulates.mapM (fun arg => hbelow (.run arg)) args).bind fun values => ?_
    rw [withFrame_call, withFrame_call]
    exact (hR.enter name callee values).bind fun _ =>
      (answerCall_simulates hR hbelow callee values).attempt.bind fun result => hR.leave result

theorem runExpr_simulates (hR : Compatible config R)
    (hbelow : ∀ r, Simulates R (below r) (below' r)) (e : Expr) :
    Simulates R (runExpr config below e) (runExpr config below' e) := by
  cases e with
  | const v => exact .pure v
  | quote v => exact .pure v
  | define name form =>
    exact (hbelow (.eval form)).bind fun v => (hR.bind name v).bind fun _ => .pure _
  | choice test consequent alternative =>
    refine (hbelow (.eval test)).bind fun v => ?_
    split
    · exact hbelow (.eval consequent)
    · cases alternative with
      | some form => exact hbelow (.eval form)
      | none => exact .pure _
  | sequence forms =>
    exact Simulates.foldlM (fun _ form => hR.checkInterrupt.bind fun _ => hbelow (.eval form))
      forms _
  | invoke name target args => exact invoke_simulates hR hbelow name target args
  | spawn body => exact (hR.spawn body).bind fun _ => .pure _

theorem level_simulates (hR : Compatible config R)
    (hbelow : ∀ r, Simulates R (below r) (below' r)) (r : Request) :
    Simulates R (level config below r) (level config below' r) := by
  cases r with
  | eval form => exact (hbelow (.compile form)).bind fun e => hbelow (.run e)
  | compile form =>
    refine hR.checkInterrupt.bind fun _ => (expand_simulates hR hbelow form).bind fun found => ?_
    cases found with
    | some rewritten => exact hbelow (.compile rewritten)
    | none => exact analyze_simulates hR hbelow form
  | run e => exact runExpr_simulates hR hbelow e

/-- An interpreter gives from related states the same answers, and so does one of more levels. -/
theorem interpret_simulates (hR : Compatible config R) {levels more : Nat} (hle : levels ≤ more)
    (r : Request) : Simulates R (interpret config levels r) (interpret config more r) := by
  induction levels generalizing more r with
  | zero => exact .of_exhausted
  | succ levels ih =>
    -- A level asks for answers of the one below only, so the hypothesis for it is what is needed.
    obtain ⟨more, rfl⟩ := Nat.exists_eq_add_of_le' hle
    rw [interpret_succ, ← Nat.add_assoc, interpret_succ]
    exact level_simulates hR (fun r => ih (by omega) r) r

end Interpreter

end

/-! ## 4. Answers -/

theorem simulates_eq (act : Eval α) : Simulates Eq act act := by
  intro s t hst
  subst hst
  right
  cases act s with
  | ok a u => exact .ok a rfl
  | error stop u => exact .error stop rfl

theorem Agree.eq {result result' : EStateM.Result Stop State α} (h : Agree Eq result result') :
    result = result' := by
  cases h with
  | ok a h => rw [h]
  | error stop h => rw [h]

theorem compatible_eq (config : Config) : Compatible config Eq where
  stack_eq _ _ h := congrArg State.stack h
  interrupt_eq _ _ h := congrArg (·.world.interrupt) h
  memory_eq _ _ h := congrArg (·.world.memory) h
  lookup _ := simulates_eq _
  bind _ _ := simulates_eq _
  bindLocal _ _ := simulates_eq _
  push _ := simulates_eq _
  pop := simulates_eq _
  spawn _ := simulates_eq _
  enter _ _ _ := simulates_eq _
  callNative _ _ := simulates_eq _
  setInterrupt _ := simulates_eq _
  freshIdentity := simulates_eq _
  remember _ := simulates_eq _
  fork := simulates_eq _
  visit n s _ h := by
    subst h
    cases s.visit? n with
    | none => exact .none
    | some t => exact .some rfl
  back n _ _ _ _ h h' := by rw [h, h']

namespace Interpreter

variable {config : Config} {r : Request} {s : State} {levels more : Nat}
  {result result' : EStateM.Result Stop State r.Result}

theorem interpret_mono (hle : levels ≤ more) (h : ¬ Exhausted (interpret config levels r s)) :
    interpret config more r s = interpret config levels r s :=
  ((interpret_simulates (compatible_eq config) hle r s s rfl).resolve_left h).eq.symm

/-- What a request is answered by, if some number of levels is enough for an answer. -/
def Answers (config : Config) (r : Request) (s : State)
    (result : EStateM.Result Stop State r.Result) : Prop :=
  ∃ levels, interpret config levels r s = result ∧ ¬ Exhausted result

theorem Answers.unique (h : Answers config r s result) (h' : Answers config r s result') :
    result = result' := by
  obtain ⟨levels, rfl, hresult⟩ := h
  obtain ⟨levels', rfl, hresult'⟩ := h'
  cases Nat.le_total levels levels' with
  | inl hle => exact (interpret_mono hle hresult).symm
  | inr hle => exact interpret_mono hle hresult'

theorem Answers.simulate {R : State → State → Prop} (hR : Compatible config R)
    (h : Answers config r s result) {t : State} (hst : R s t) :
    ∃ result', Answers config r t result' ∧ Agree R result result' := by
  obtain ⟨levels, rfl, hresult⟩ := h
  -- The same number of levels is enough for both, since agreeing results are exhausted together.
  have hagree := (interpret_simulates hR (Nat.le_refl levels) r s t hst).resolve_left hresult
  exact ⟨interpret config levels r t, ⟨levels, rfl, hagree.not_exhausted hresult⟩, hagree⟩

theorem Answers.of_le (h : interpret config levels r s = result) (hresult : ¬ Exhausted result)
    (hle : levels ≤ more) : interpret config more r s = result := by
  rw [interpret_mono hle (h ▸ hresult), h]

theorem answers_of_outcomeOf {form : Value} {outcome : Outcome}
    (h : Program.outcomeOf (interpret config levels (.eval form) s) = some outcome) :
    Answers config (.eval form) s (interpret config levels (.eval form) s) := by
  refine ⟨levels, rfl, fun hexhausted => ?_⟩
  obtain ⟨t, hresult⟩ := hexhausted.exists_eq
  rw [hresult] at h
  cases h

/-- To evaluate a form is to run its expression, in the state that the analysis leaves behind. -/
theorem answers_eval_iff {form : Value} {e : Expr} {t : State}
    (hcompile : Answers config (.compile form) s (.ok e t))
    (result : EStateM.Result Stop State Value) :
    Answers config (.eval form) s result ↔ Answers config (.run e) t result := by
  obtain ⟨enough, henough, hok⟩ := hcompile
  constructor
  · rintro ⟨levels, hlevels, hresult⟩
    -- More levels than either of the two needs change neither.
    have hmore := Answers.of_le hlevels hresult (Nat.le_add_right levels (enough + 1))
    have hform := Answers.of_le henough hok (Nat.le_add_left enough levels)
    rw [← Nat.add_assoc, interpret_succ] at hmore
    exact ⟨levels + enough, (bind_of_ok hform).symm.trans hmore, hresult⟩
  · rintro ⟨levels, hlevels, hresult⟩
    have hform := Answers.of_le henough hok (Nat.le_add_left enough levels)
    have hrun := Answers.of_le hlevels hresult (Nat.le_add_right levels enough)
    refine ⟨levels + enough + 1, ?_, hresult⟩
    rw [interpret_succ]
    exact (bind_of_ok hform).trans hrun

theorem Answers.eval_of_error {form : Value} {e : Error} {t : State}
    (hcompile : Answers config (.compile form) s (.error (.error e) t)) :
    Answers config (.eval form) s (.error (.error e) t) := by
  obtain ⟨levels, hlevels, hresult⟩ := hcompile
  refine ⟨levels + 1, ?_, id⟩
  rw [interpret_succ]
  exact bind_of_error hlevels

end Interpreter

/-! ## 5. Invariants -/

def Preserves (I : State → Prop) (act : Eval α) : Prop :=
  ∀ s, I s → I (Program.stateOf (act s))

structure Invariant (config : Config) (I : State → Prop) : Prop where
  lookup : ∀ name, Preserves I (Eval.lookup name)
  bind : ∀ name v, Preserves I (Eval.bind name v)
  bindLocal : ∀ name v, Preserves I (Eval.bindLocal name v)
  push : ∀ frame, Preserves I (Eval.push config.maxDepth frame)
  pop : Preserves I Eval.pop
  spawn : ∀ body, Preserves I (Eval.spawn body)
  enter : ∀ name callee args, Preserves I (Eval.enter config.maxDepth name callee args)
  callNative : ∀ f args, Preserves I (Eval.callNative config.host f args)
  setInterrupt : ∀ on, Preserves I
    (Eval.world fun w => ((), { w with interrupt := w.interrupt.map fun _ => on }))
  freshIdentity : Preserves I
    (Eval.world fun w => (w.nextIdentity, { w with nextIdentity := w.nextIdentity + 1 }))
  remember : ∀ memory, Preserves I (Eval.world fun w => ((), { w with memory }))
  fork : Preserves I Eval.fork
  visit : ∀ n s t, I s → s.visit? n = some t → I t
  back : ∀ n s t, I s → I t → I (t.back n s.stack)

variable {I : State → Prop} {config : Config}

theorem Preserves.simulates {act : Eval α} (hact : Preserves I act) :
    Simulates (fun s t => s = t ∧ I s) act act := by
  rintro s t ⟨rfl, hs⟩
  right
  have hresult := hact s hs
  cases hact : act s with
  | ok a u =>
    rw [hact] at hresult
    exact .ok a ⟨rfl, hresult⟩
  | error stop u =>
    rw [hact] at hresult
    exact .error stop ⟨rfl, hresult⟩

theorem Invariant.compatible (hI : Invariant config I) :
    Compatible config (fun s t => s = t ∧ I s) where
  stack_eq _ _ h := congrArg State.stack h.1
  interrupt_eq _ _ h := congrArg (·.world.interrupt) h.1
  memory_eq _ _ h := congrArg (·.world.memory) h.1
  lookup name := (hI.lookup name).simulates
  bind name v := (hI.bind name v).simulates
  bindLocal name v := (hI.bindLocal name v).simulates
  push frame := (hI.push frame).simulates
  pop := hI.pop.simulates
  spawn body := (hI.spawn body).simulates
  enter name callee args := (hI.enter name callee args).simulates
  callNative f args := (hI.callNative f args).simulates
  setInterrupt on := (hI.setInterrupt on).simulates
  freshIdentity := hI.freshIdentity.simulates
  remember memory := (hI.remember memory).simulates
  fork := hI.fork.simulates
  visit n := by
    rintro s _ ⟨rfl, hs⟩
    cases hvisit : s.visit? n with
    | none => exact .none
    | some t => exact .some ⟨rfl, hI.visit n s t hs hvisit⟩
  back n := by
    rintro s _ s' _ ⟨rfl, hs⟩ ⟨rfl, hs'⟩
    exact ⟨rfl, hI.back n s s' hs hs'⟩

theorem Interpreter.interpret_preserves (hI : Invariant config I) (levels : Nat) (r : Request)
    {s : State} (hs : I s) :
    Exhausted (interpret config levels r s) ∨ I (Program.stateOf (interpret config levels r s)) := by
  have hagree := interpret_simulates hI.compatible (Nat.le_refl levels) r s s ⟨rfl, hs⟩
  refine hagree.imp_right fun hagree => ?_
  generalize interpret config levels r s = result at hagree ⊢
  cases hagree with
  | ok a h => exact h.2
  | error stop h => exact h.2

end Lisp
