import Lisp.Proofs.Builtins.Provided
import Lisp.Proofs.Eval.Caching
import Lisp.Proofs.Eval.Congruence
import Lisp.Proofs.Eval.Frames

/-!
# Termination

Where there are no macros every evaluation ends, `macro_free_evaluation_ends`.  A form asks for the
evaluation of its parts, which are smaller.  A call of the builtin that evaluates its argument may
ask for a form of any size, but it does so in one more frame, and the depth of frames has a limit.

`Concludes` says of an activity that it ends with the frames that it was asked in and leaves no
macro behind, whatever the world is that it starts in, as long as it is without macros.  It has one
rule for each way in which activities are put together.
-/

namespace Lisp

variable {α β : Type}

/-! ## 1. States without macros -/

def Stack.IsRewriterFree (stack : Stack) : Prop :=
  ∀ frame ∈ stack, ∀ name v, frame.vars.get? name = some v → v.isRewriterFree = true

structure Job.IsRewriterFree (job : Job) : Prop where
  body : job.body.isRewriterFree = true
  stack : job.stack.IsRewriterFree
  stack_ne_nil : job.stack ≠ []

/-- No global name has a value with a macro in it, and the tasks that were started since are of that
kind too. -/
structure World.IsRewriterFree (before : List Job) (w : World) : Prop where
  globals : ∀ name v, w.globals.get? name = some v → v.isRewriterFree = true
  started : ∀ job ∈ w.waiting, job ∈ before ∨ job.IsRewriterFree

inductive Reply.IsRewriterFree : Reply → Prop where
  | value {v : Value} (hv : v.isRewriterFree = true) : IsRewriterFree (.value v)
  | error (e : Error) : IsRewriterFree (.error e)

/-- Native functions that reply, and that make no macros. -/
def Host.IsRewriterFree (host : Host) : Prop :=
  ∀ f args memory, (∀ v ∈ args, v.isRewriterFree = true) →
    (host.call f args memory).1.IsRewriterFree

section

variable {before : List Job} {w : World} {stack : Stack} {frame : Frame}

theorem Stack.IsRewriterFree.cons (hstack : stack.IsRewriterFree)
    (hframe : frame.vars = ∅) : Stack.IsRewriterFree (frame :: stack) := by
  apply List.forall_mem_cons.mpr ⟨?_, hstack⟩
  intro name v hv
  rw [hframe] at hv
  cases hv

theorem World.IsRewriterFree.value? (hw : w.IsRewriterFree before) (hstack : stack.IsRewriterFree)
    {name : String} {v : Value} (hv : State.value? ⟨stack, w⟩ name = some v) :
    v.isRewriterFree = true := by
  unfold State.value? at hv
  cases hfind : Stack.find? name stack with
  | some found =>
    simp only [hfind] at hv
    cases hv
    obtain ⟨frame, hframe, hget⟩ := Interpreter.exists_frame_of_find hfind
    exact hstack frame hframe name v hget
  | none =>
    simp only [hfind] at hv
    exact hw.globals name v hv

theorem World.IsRewriterFree.store (hw : w.IsRewriterFree before) (name : String) {v : Value}
    (hv : v.isRewriterFree = true) : (w.store name v).IsRewriterFree before := by
  refine ⟨fun other found hfound => ?_, hw.started⟩
  change (w.globals.set name v).get? other = some found at hfound
  rw [Bindings.get?_set] at hfound
  split at hfound
  · cases hfound
    exact hv
  · exact hw.globals other found hfound

theorem World.IsRewriterFree.spawn (hw : w.IsRewriterFree before) {body : Value}
    (hbody : body.isRewriterFree = true) (hstack : stack.IsRewriterFree) (hne : stack ≠ []) :
    (w.spawn stack body).2.IsRewriterFree before := by
  refine ⟨hw.globals, fun job hjob => ?_⟩
  cases List.mem_append.mp hjob with
  | inl hold => exact hw.started job hold
  | inr hnew =>
    rw [List.mem_singleton] at hnew
    rw [hnew]
    exact .inr ⟨hbody, hstack, hne⟩

end

/-! ## 2. Activities that conclude -/

/-- A value of a kind or an error, in the frames of the start and in a world without macros. -/
inductive Ended (before : List Job) (stack : Stack) (Q : α → Prop) :
    EStateM.Result Stop State α → Prop where
  | value {a : α} {w : World} (ha : Q a) (hw : w.IsRewriterFree before) :
    Ended before stack Q (.ok a ⟨stack, w⟩)
  | error (e : Error) {w : World} (hw : w.IsRewriterFree before) :
    Ended before stack Q (.error (.error e) ⟨stack, w⟩)

theorem Ended.not_exhausted {before : List Job} {stack : Stack} {Q : α → Prop}
    {result : EStateM.Result Stop State α} (h : Ended before stack Q result) :
    ¬ Exhausted result := by
  cases h with
  | value ha hw => exact id
  | error e hw => exact id

def Settles (act : Nat → Eval α) (s : State) (result : EStateM.Result Stop State α) : Prop :=
  ∃ levels, ∀ more, levels ≤ more → act more s = result

/-- An activity that ends in those frames, given enough levels. -/
def Concludes (before : List Job) (stack : Stack) (Q : α → Prop) (act : Nat → Eval α) : Prop :=
  ∀ w : World, w.IsRewriterFree before →
    ∃ result, Settles act ⟨stack, w⟩ result ∧ Ended before stack Q result

namespace Concludes

variable {before : List Job} {stack : Stack} {Q : α → Prop} {Q' : β → Prop} {act : Nat → Eval α}
  {f : Nat → α → Eval β} {config : Config}

theorem of_ended {act : Eval α}
    (h : ∀ w : World, w.IsRewriterFree before → Ended before stack Q (act ⟨stack, w⟩)) :
    Concludes before stack Q fun _ => act :=
  fun w hw => ⟨_, ⟨0, fun _ _ => rfl⟩, h w hw⟩

theorem pure {a : α} (ha : Q a) : Concludes before stack Q fun _ => (pure a : Eval α) :=
  .of_ended fun _ hw => .value ha hw

theorem fail (e : Error) : Concludes before stack Q fun _ => (Eval.fail e : Eval α) :=
  .of_ended fun _ hw => .error e hw

theorem bind (hact : Concludes before stack Q act)
    (hf : ∀ a, Q a → Concludes before stack Q' fun n => f n a) :
    Concludes before stack Q' fun n => act n >>= f n := by
  intro w hw
  obtain ⟨result, ⟨levels, hlevels⟩, hended⟩ := hact w hw
  cases hended with
  | value ha hw' =>
    obtain ⟨result', ⟨levels', hlevels'⟩, hended'⟩ := hf _ ha _ hw'
    refine ⟨result', ⟨max levels levels', fun more hmore => ?_⟩, hended'⟩
    have hfirst := hlevels more (le_of_max_le_left hmore)
    exact (bind_of_ok hfirst).trans (hlevels' more (le_of_max_le_right hmore))
  | error e hw' =>
    exact ⟨_, ⟨levels, fun more hmore => bind_of_error (hlevels more hmore)⟩, .error e hw'⟩

theorem mapM {act : Nat → α → Eval β} (as : List α)
    (hact : ∀ a ∈ as, Concludes before stack Q' fun n => act n a) :
    Concludes before stack (fun bs => ∀ b ∈ bs, Q' b) fun n => as.mapM (act n) := by
  induction as with
  | nil =>
    simp only [List.mapM_nil]
    exact .pure fun b hb => nomatch hb
  | cons a as ih =>
    obtain ⟨hfirst, hrest⟩ := List.forall_mem_cons.mp hact
    simp only [List.mapM_cons]
    exact hfirst.bind fun b hb => (ih hrest).bind fun bs hbs =>
      .pure (List.forall_mem_cons.mpr ⟨hb, hbs⟩)

theorem foldlM {act : Nat → β → α → Eval β} (as : List α) {b : β} (hb : Q' b)
    (hact : ∀ a ∈ as, ∀ b, Concludes before stack Q' fun n => act n b a) :
    Concludes before stack Q' fun n => as.foldlM (act n) b := by
  induction as generalizing b with
  | nil =>
    simp only [List.foldlM_nil]
    exact .pure hb
  | cons a as ih =>
    obtain ⟨hfirst, hrest⟩ := List.forall_mem_cons.mp hact
    simp only [List.foldlM_cons]
    exact (hfirst b).bind fun b hb => ih hb hrest

theorem exists_attempt (hact : Concludes before stack Q act) {w : World}
    (hw : w.IsRewriterFree before) :
    ∃ answer w', Settles (fun n => Eval.attempt (act n)) ⟨stack, w⟩ (.ok answer ⟨stack, w'⟩) ∧
      (∀ a, answer = .ok a → Q a) ∧ w'.IsRewriterFree before := by
  obtain ⟨result, ⟨levels, hlevels⟩, hended⟩ := hact w hw
  cases hended with
  | @value a w' ha hw' =>
    refine ⟨.ok a, w', ⟨levels, fun more hmore => ?_⟩, fun a' ha' => ?_, hw'⟩
    · exact Eval.attempt_of_ok (hlevels more hmore)
    · cases ha'
      exact ha
  | @error e w' hw' =>
    refine ⟨.error e, w', ⟨levels, fun more hmore => ?_⟩, (fun a' ha' => nomatch ha'), hw'⟩
    exact Eval.attempt_of_error (hlevels more hmore)

theorem attempt (hact : Concludes before stack Q act) :
    Concludes before stack (fun answer => ∀ a, answer = .ok a → Q a)
      fun n => Eval.attempt (act n) := by
  intro w hw
  obtain ⟨answer, w', hsettles, hanswer, hw'⟩ := hact.exists_attempt hw
  exact ⟨_, hsettles, .value hanswer hw'⟩

theorem withFrame {maxDepth : Nat} {frame : Frame} (hne : stack ≠ [])
    (hact : stack.depth < maxDepth → Concludes before (frame :: stack) Q act) :
    Concludes before stack Q fun n => Eval.withFrame maxDepth frame (act n) := by
  intro w hw
  by_cases hdepth : maxDepth ≤ stack.depth
  · exact ⟨_, ⟨0, fun _ _ => bind_of_error (push_of_le hdepth)⟩, .error _ hw⟩
  · obtain ⟨answer, w', ⟨levels, hlevels⟩, hanswer, hw'⟩ :=
      (hact (Nat.lt_of_not_le hdepth)).exists_attempt hw
    have hframe : ∀ more, levels ≤ more → Eval.withFrame maxDepth frame (act more) ⟨stack, w⟩ =
        Eval.leave answer ⟨frame :: stack, w'⟩ := by
      intro more hmore
      rw [Eval.withFrame_def, bind_of_ok (push_of_lt hdepth)]
      exact bind_of_ok (hlevels more hmore)
    have hpop : Eval.pop ⟨frame :: stack, w'⟩ = .ok frame ⟨stack, w'⟩ := pop_of_cons hne rfl
    refine ⟨_, ⟨levels, hframe⟩, ?_⟩
    cases answer with
    | ok a =>
      have hleave : Eval.leave (.ok a) ⟨frame :: stack, w'⟩ = .ok a ⟨stack, w'⟩ := bind_of_ok hpop
      rw [hleave]
      exact .value (hanswer a rfl) hw'
    | error e =>
      have hleave : Eval.leave (.error e : Except Error α) ⟨frame :: stack, w'⟩ =
          .error (.error e) ⟨stack, w'⟩ := bind_of_ok hpop
      rw [hleave]
      exact .error e hw'

theorem checkInterrupt : Concludes before stack (fun _ => True) fun _ => Eval.checkInterrupt := by
  refine .of_ended fun w hw => ?_
  unfold Eval.checkInterrupt
  split
  · exact .error _ hw
  · exact .value trivial hw

theorem store (name : String) {v : Value} (hv : v.isRewriterFree = true) :
    Concludes before stack (fun _ => True) fun _ => Eval.bind name v :=
  .of_ended fun _ hw => .value trivial (hw.store name hv)

theorem spawn {body : Value} (hbody : body.isRewriterFree = true) (hstack : stack.IsRewriterFree)
    (hne : stack ≠ []) : Concludes before stack (fun _ => True) fun _ => Eval.spawn body :=
  .of_ended fun _ hw => .value trivial (hw.spawn hbody hstack hne)

theorem callNative {host : Host} (hhost : host.IsRewriterFree) (f : NativeRef) {args : List Value}
    (hargs : ∀ v ∈ args, v.isRewriterFree = true) :
    Concludes before stack (fun v => v.isRewriterFree = true)
      fun _ => Eval.callNative host f args := by
  refine .of_ended fun w hw => ?_
  rw [Eval.callNative_apply]
  have hreply := hhost f args w.memory hargs
  cases hanswer : (host.call f args w.memory).1 with
  | value v =>
    rw [hanswer] at hreply
    cases hreply with
    | value hv => exact .value hv ⟨hw.globals, hw.started⟩
  | error e => exact .error e ⟨hw.globals, hw.started⟩
  | panic message =>
    rw [hanswer] at hreply
    cases hreply

theorem of_level {r : Request} {Q : r.Result → Prop}
    (h : Concludes before stack Q fun n =>
      Interpreter.level config (Interpreter.interpret config n) r) :
    Concludes before stack Q fun n => Interpreter.interpret config n r := by
  intro w hw
  obtain ⟨result, ⟨levels, hlevels⟩, hended⟩ := h w hw
  refine ⟨result, ⟨levels + 1, fun more hmore => ?_⟩, hended⟩
  obtain ⟨more, rfl⟩ := Nat.exists_eq_add_of_le' hmore
  have hlevel := Interpreter.interpret_succ config (more + levels)
  exact (congrFun (congrFun hlevel r) _).trans (hlevels _ (Nat.le_add_left levels more))

end Concludes

/-! ## 3. Expressions without macros -/

/-- An expression whose constants are without macros, and whose deferred forms are of a kind. -/
inductive Expr.Defers (P : Value → Prop) : Expr → Prop where
  | const {v : Value} (hv : v.isRewriterFree = true) : Defers P (.const v)
  | quote {v : Value} (hv : v.isRewriterFree = true) : Defers P (.quote v)
  | define {name : String} {form : Value} (hform : P form) : Defers P (.define name form)
  | choice {test consequent : Value} {alternative : Option Value} (htest : P test)
    (hconsequent : P consequent) (halternative : ∀ form ∈ alternative, P form) :
    Defers P (.choice test consequent alternative)
  | sequence {forms : List Value} (hforms : ∀ form ∈ forms, P form) : Defers P (.sequence forms)
  | invoke {name : String} {target : Expr} {args : List Expr} (htarget : Defers P target)
    (hargs : ∀ e ∈ args, Defers P e) : Defers P (.invoke name target args)
  | spawn {body : Value} (hbody : body.isRewriterFree = true) : Defers P (.spawn body)

section

variable {P : Value → Prop} {lookup : String → Option Value}

def Value.Defers (P : Value → Prop) (form : Value) : Prop :=
  ∀ lookup : String → Option Value,
    (∀ name v, lookup name = some v → v.isRewriterFree = true) →
    ∀ e, form.compiled lookup = .ok e → e.Defers P

theorem Value.induction_of_items {P : Value → Prop}
    (h : ∀ form, (∀ items, form = .list items → ∀ v ∈ items, P v) → P form) (form : Value) :
    P form := by
  induction form using Value.induction_of_list with
  | hatom form hatom => exact h form fun items hitems => absurd hitems (hatom items)
  | hlist items ih =>
    apply h
    intro items' hitems'
    cases hitems'
    exact ih

theorem SpecialForm.defers_of_parse {form : SpecialForm} {parts : List Value} {e : Expr}
    (hfree : ∀ v ∈ parts, v.isRewriterFree = true) (hparts : ∀ v ∈ parts, P v)
    (h : form.parse parts = .ok e) : e.Defers P := by
  cases form with
  | choice =>
    match parts, h with
    | [test, consequent], h =>
      cases h
      simp only [List.forall_mem_cons] at hparts
      exact .choice hparts.1 hparts.2.1 fun form hform => nomatch hform
    | [test, consequent, alternative], h =>
      cases h
      simp only [List.forall_mem_cons] at hparts
      exact .choice hparts.1 hparts.2.1 fun form hform => Option.some.inj hform ▸ hparts.2.2.1
  | define =>
    match parts, h with
    | [name, form], h =>
      simp only [SpecialForm.parse] at h
      cases hname : SpecialForm.definedName name with
      | ok name =>
        rw [hname] at h
        cases h
        simp only [List.forall_mem_cons] at hparts
        exact .define hparts.2.1
      | error e =>
        rw [hname] at h
        cases h
  | quote =>
    match parts, h with
    | [form], h =>
      cases h
      exact .quote (hfree form List.mem_cons_self)
  | sequence =>
    cases h
    exact .sequence hparts
  | spawn =>
    match parts, h with
    | [body], h =>
      cases h
      exact .spawn (hfree body List.mem_cons_self)

theorem Value.defers_of_compiledItems {items : List Value}
    (hitems : ∀ v ∈ items, ∀ e, Value.compiled lookup v = .ok e → e.Defers P) {es : List Expr}
    (h : Value.compiledItems lookup items = .ok es) : ∀ e ∈ es, e.Defers P := by
  induction items generalizing es with
  | nil =>
    cases h
    exact fun e he => nomatch he
  | cons v rest ih =>
    obtain ⟨hv, hrest⟩ := List.forall_mem_cons.mp hitems
    obtain ⟨e, es', he, hes, rfl⟩ := Value.exists_of_compiledItems_cons h
    exact List.forall_mem_cons.mpr ⟨hv e he, ih hrest hes⟩

theorem Value.Defers.of_items {form : Value} (hform : form.isRewriterFree = true)
    (hitems : ∀ items, form = .list items → ∀ v ∈ items, P v ∧ v.Defers P) : form.Defers P := by
  intro lookup hlookup e h
  cases form with
  | symbol name =>
    obtain ⟨v, hv, rfl⟩ := Value.exists_of_compiled_symbol h
    exact .const (hlookup name v hv)
  | list items =>
    cases items with
    | nil =>
      cases h
      exact .const hform
    | cons head args =>
      have hfree := Value.areRewriterFree_iff.mp hform
      have hparts := hitems _ rfl
      cases hspecial : Value.specialForm? (head :: args) with
      | some form =>
        simp only [Value.compiled, hspecial] at h
        exact SpecialForm.defers_of_parse (fun v hv => hfree v (List.mem_cons_of_mem head hv))
          (fun v hv => (hparts v (List.mem_cons_of_mem head hv)).1) h
      | none =>
        obtain ⟨target, es, htarget, hes, rfl⟩ := Value.exists_of_compiled_call hspecial h
        obtain ⟨hhead, hargs⟩ := List.forall_mem_cons.mp hparts
        exact .invoke (hhead.2 lookup hlookup target htarget)
          (Value.defers_of_compiledItems (fun v hv => (hargs v hv).2 lookup hlookup) hes)
  | _ =>
    cases h
    exact .const hform

end

/-! ## 4. Native functions without macros -/

theorem ParamType.isRewriterFree_of_coerce {t : ParamType} {v converted : Value}
    (hv : v.isRewriterFree = true) (h : t.coerce v = .ok converted) :
    converted.isRewriterFree = true := by
  -- Only numbers change when they are converted.
  unfold ParamType.coerce ParamType.convert at h
  split at h
  · rename_i hconvert
    cases h
    split at hconvert <;> cases hconvert <;> first | rfl | exact hv
  · cases h

theorem exists_of_cons_ok {ε : Type} {x : Except ε α} {y : Except ε (List α)} {as : List α}
    (h : (do let a ← x; let rest ← y; return a :: rest) = .ok as) :
    ∃ a rest, x = .ok a ∧ y = .ok rest ∧ as = a :: rest := by
  cases x with
  | error e => cases h
  | ok a =>
    cases y with
    | error e => cases h
    | ok rest =>
      cases h
      exact ⟨a, rest, rfl, rfl, rfl⟩

theorem Signature.isRewriterFree_of_coerceAll {types : List ParamType} {variadic : Option ParamType}
    {args accepted : List Value} (hargs : ∀ v ∈ args, v.isRewriterFree = true)
    (h : Signature.coerceAll types variadic args = .ok accepted) :
    ∀ v ∈ accepted, v.isRewriterFree = true := by
  induction args generalizing types accepted with
  | nil =>
    rw [Signature.coerceAll] at h
    cases h
    exact List.forall_mem_nil _
  | cons v rest ih =>
    obtain ⟨hv, hrest⟩ := List.forall_mem_cons.mp hargs
    cases types with
    | nil =>
      obtain ⟨first, others, hfirst, hothers, rfl⟩ := exists_of_cons_ok h
      exact List.forall_mem_cons.mpr
        ⟨ParamType.isRewriterFree_of_coerce hv hfirst, ih hrest hothers⟩
    | cons t types =>
      obtain ⟨first, others, hfirst, hothers, rfl⟩ := exists_of_cons_ok h
      exact List.forall_mem_cons.mpr
        ⟨ParamType.isRewriterFree_of_coerce hv hfirst, ih hrest hothers⟩

theorem Signature.isRewriterFree_of_accept {s : Signature} {args accepted : List Value}
    (hargs : ∀ v ∈ args, v.isRewriterFree = true) (h : s.accept args = .ok accepted) :
    ∀ v ∈ accepted, v.isRewriterFree = true := by
  unfold Signature.accept at h
  split at h
  · cases h
  · exact Signature.isRewriterFree_of_coerceAll hargs h

namespace Builtins

theorem replyOf_isRewriterFree {give : α → Value} {result : Except Error α}
    (h : ∀ a, result = .ok a → (give a).isRewriterFree = true) :
    (replyOf give result).IsRewriterFree := by
  cases result with
  | ok a => exact .value (h a rfl)
  | error e => exact .error e

theorem isRewriterFree_of_combine {op : Operator} {a b v : Value} (h : combine op a b = .ok v) :
    v.isRewriterFree = true := by
  unfold combine at h
  split at h
  · split at h <;> cases h
    rfl
  · split at h <;> cases h
    rfl

theorem isRewriterFree_of_foldNumbers {op : Operator} {first v : Value} {args : List Value}
    (hfirst : first.isRewriterFree = true) (h : foldNumbers op first args = .ok v) :
    v.isRewriterFree = true := by
  unfold foldNumbers at h
  induction args generalizing first with
  | nil =>
    cases h
    exact hfirst
  | cons a rest ih =>
    rw [List.foldlM_cons] at h
    cases hcombine : combine op first a with
    | ok next =>
      rw [hcombine] at h
      exact ih (isRewriterFree_of_combine hcombine) h
    | error e =>
      rw [hcombine] at h
      cases h

theorem isRewriterFree_of_subtract {args : List Value} {v : Value}
    (hargs : ∀ v ∈ args, v.isRewriterFree = true) (h : subtract args = .ok v) :
    v.isRewriterFree = true := by
  match args with
  | [only] => exact isRewriterFree_of_combine h
  | first :: second :: rest =>
    exact isRewriterFree_of_foldNumbers (hargs first List.mem_cons_self) h

theorem ofValues_isRewriterFree {f : List Value → Reply} {args : List Value}
    (h : (f args).IsRewriterFree) :
    ((Native.ofItems .any f).body args).IsRewriterFree := by
  simp only [Native.ofItems, Native.takeAll_any]
  exact h

/-- Of the builtins only `list` and the arithmetic of a single value give back what they get. -/
theorem body_isRewriterFree {name : String} {f : Native} (hmem : (name, .native f) ∈ library)
    {args : List Value} (hargs : ∀ v ∈ args, v.isRewriterFree = true) :
    (f.body args).IsRewriterFree := by
  simp only [library, ofValues, List.mem_cons, List.not_mem_nil, Prod.mk.injEq, reduceCtorEq,
    Entry.native.injEq, and_false, false_or, or_false] at hmem
  rcases hmem with ⟨-, rfl⟩ | ⟨-, rfl⟩ | ⟨-, rfl⟩ | ⟨-, rfl⟩ | ⟨-, rfl⟩ | ⟨-, rfl⟩ | ⟨-, rfl⟩ |
    ⟨-, rfl⟩
  · exact ofValues_isRewriterFree
      (replyOf_isRewriterFree fun v h => isRewriterFree_of_foldNumbers rfl h)
  · exact ofValues_isRewriterFree
      (replyOf_isRewriterFree fun v h => isRewriterFree_of_foldNumbers rfl h)
  · exact ofValues_isRewriterFree
      (replyOf_isRewriterFree fun v h => isRewriterFree_of_subtract hargs h)
  · exact ofValues_isRewriterFree (replyOf_isRewriterFree fun _ _ => rfl)
  · exact ofValues_isRewriterFree (.value rfl)
  · exact ofValues_isRewriterFree (.value (Value.areRewriterFree_iff.mpr hargs))
  · exact ofValues_isRewriterFree (.value rfl)
  · cases args with
    | nil => exact .error _
    | cons v rest => exact .value rfl

theorem library_isRewriterFree : library.host.IsRewriterFree := by
  intro f args memory hargs
  unfold Host.call
  split
  · exact .error _
  · rename_i accepted haccept
    have haccepted := Signature.isRewriterFree_of_accept hargs haccept
    change (Library.answer library[f.id]? f.name accepted memory).1.IsRewriterFree
    cases hentry : library[f.id]? with
    | none => exact .error _
    | some entry =>
      obtain ⟨name, entry⟩ := entry
      cases entry with
      | native g => exact body_isRewriterFree (List.mem_of_getElem? hentry) haccepted
      | counter => exact .value rfl
      | _ => exact .error _

end Builtins

namespace Interpreter

/-! ## 5. One level -/

section

variable {config : Config} {before : List Job} {stack : Stack}

def Evaluates (config : Config) (before : List Job) (stack : Stack) (form : Value) : Prop :=
  Concludes before stack (fun v => v.isRewriterFree = true) fun n => interpret config n (.eval form)

theorem Rewriter.ofValue?_of_isRewriterFree {v : Value} (hv : v.isRewriterFree = true) :
    Rewriter.ofValue? v = none := by
  cases v with
  | rewriter id name params body => cases hv
  | _ => rfl

theorem compile_concludes (hconfig : config.Standard) (hstack : stack.IsRewriterFree) {form : Value}
    (hform : form.isRewriterFree = true) :
    Concludes before stack
      (fun e => ∃ lookup, (∀ name v, lookup name = some v → v.isRewriterFree = true) ∧
        form.compiled lookup = .ok e)
      fun n => interpret config n (.compile form) := by
  intro w hw
  by_cases hinterrupt : w.isInterrupted = true
  · have hcheck : Eval.checkInterrupt ⟨stack, w⟩ = .error (.error .interrupted) ⟨stack, w⟩ :=
      Eval.checkInterrupt_of_interrupted hinterrupt
    refine ⟨.error (.error .interrupted) ⟨stack, w⟩, ⟨1, fun more hmore => ?_⟩, .error _ hw⟩
    obtain ⟨more, rfl⟩ := Nat.exists_eq_add_of_le' hmore
    exact (congrFun (congrFun (interpret_succ config more) _) _).trans (bind_of_error hcheck)
  · have hlookup : ∀ name v, State.value? ⟨stack, w⟩ name = some v → v.isRewriterFree = true :=
      fun _ _ => hw.value? hstack
    have hplain : Plain config ⟨stack, w⟩ :=
      ⟨hconfig.analyzer_eq, hconfig.expander_eq, Bool.eq_false_of_not_eq_true hinterrupt,
        fun name v hv => Rewriter.ofValue?_of_isRewriterFree (hlookup name v hv)⟩
    obtain ⟨t, ht, levels, hlevels, hresult⟩ := answersQuietly_compile hplain form hform
    -- The analysis has looked names up and done nothing else.
    obtain ⟨journal, rfl, -⟩ := ht.exists_journal
    refine ⟨_, ⟨levels, fun more hmore => Answers.of_le hlevels hresult hmore⟩, ?_⟩
    cases hcompiled : form.compiled (State.value? ⟨stack, w⟩) with
    | ok e => exact .value ⟨_, hlookup, hcompiled⟩ ⟨hw.globals, hw.started⟩
    | error e => exact .error e ⟨hw.globals, hw.started⟩

/-- A call may evaluate any form, as long as it does so in its own frame. -/
theorem call_concludes (hconfig : config.Standard) (hhost : config.host.IsRewriterFree)
    (hdeeper : ∀ form : Value, form.isRewriterFree = true → Evaluates config before stack form)
    (callee : Callee) {args : List Value} (hargs : ∀ v ∈ args, v.isRewriterFree = true) :
    Concludes before stack (fun v => v.isRewriterFree = true)
      fun n => call config (interpret config n) callee args := by
  have hnote : Concludes before stack (fun _ => True) fun _ =>
      (modify fun s => { s with world := s.world.note (.call callee args s.stack) } : Eval Unit) :=
    .of_ended fun _ hw => .value trivial ⟨hw.globals, hw.started⟩
  refine hnote.bind fun _ _ => ?_
  cases callee with
  | native f => exact .callNative hhost f hargs
  | invokable f =>
    obtain heq | ⟨e, heq⟩ := hconfig.invokable f args
    · simp only [heq]
      match args, hargs with
      | [], _ => exact .fail _
      | [form], hargs =>
        refine (hdeeper form (hargs form List.mem_cons_self)).attempt.bind fun answer hanswer => ?_
        cases answer with
        | ok v => exact .pure (hanswer v rfl)
        | error e => exact .fail e
      | _ :: _ :: _, _ => exact .fail _
    · simp only [heq]
      exact .fail e

/-- By induction on the expression: its deferred forms end, and there is room for a call or there
is not. -/
theorem run_concludes (hconfig : config.Standard) (hhost : config.host.IsRewriterFree)
    (hstack : stack.IsRewriterFree) (hne : stack ≠ [])
    (hdeeper : stack.depth < config.maxDepth → ∀ frame : Frame, frame.vars = ∅ → ∀ form : Value,
      form.isRewriterFree = true → Evaluates config before (frame :: stack) form)
    {e : Expr} (he : e.Defers (Evaluates config before stack)) :
    Concludes before stack (fun v => v.isRewriterFree = true)
      fun n => interpret config n (.run e) := by
  induction he with
  | const hv => exact .of_level (.pure hv)
  | quote hv => exact .of_level (.pure hv)
  | define hform => exact .of_level (hform.bind fun v hv => (Concludes.store _ hv).bind fun _ _ =>
      .pure rfl)
  | @choice test consequent alternative htest hconsequent halternative =>
    refine .of_level (htest.bind fun v _ => ?_)
    cases v.isTruthy with
    | true => exact hconsequent
    | false =>
      cases alternative with
      | some form => exact halternative form rfl
      | none => exact .pure rfl
  | sequence hforms =>
    exact .of_level (.foldlM _ rfl fun form hform _ =>
      Concludes.checkInterrupt.bind fun _ _ => hforms form hform)
  | @invoke name target args _ _ ihtarget ihargs =>
    refine .of_level (Concludes.checkInterrupt.bind fun _ _ => ihtarget.bind fun head _ => ?_)
    cases calleeOf head with
    | none => exact .fail _
    | some callee =>
      have hvalues : Concludes before stack (fun values => ∀ v ∈ values, v.isRewriterFree = true)
          fun n => args.mapM fun arg => interpret config n (.run arg) := .mapM args ihargs
      refine hvalues.bind fun values hvalues => ?_
      exact .withFrame hne fun hdepth =>
        call_concludes hconfig hhost (hdeeper hdepth _ rfl) callee hvalues
  | spawn hbody =>
    exact .of_level ((Concludes.spawn hbody hstack hne).bind fun _ _ => .pure rfl)

/-! ## 6. All levels -/

/-- By induction on the form, given what calls may evaluate. -/
theorem evaluates_of_deeper (hconfig : config.Standard) (hhost : config.host.IsRewriterFree)
    (hstack : stack.IsRewriterFree) (hne : stack ≠ [])
    (hdeeper : stack.depth < config.maxDepth → ∀ frame : Frame, frame.vars = ∅ → ∀ form : Value,
      form.isRewriterFree = true → Evaluates config before (frame :: stack) form)
    {form : Value} (hform : form.isRewriterFree = true) :
    Evaluates config before stack form ∧ form.Defers (Evaluates config before stack) := by
  induction form using Value.induction_of_items with
  | h form ih =>
    have hdefers : form.Defers (Evaluates config before stack) := by
      refine .of_items hform fun items hitems v hv => ih items hitems v hv ?_
      rw [hitems] at hform
      exact Value.areRewriterFree_iff.mp hform v hv
    -- A form ends if its expression does, and that is so if the deferred parts of the form end.
    refine ⟨.of_level ((compile_concludes hconfig hstack hform).bind fun e he => ?_), hdefers⟩
    obtain ⟨lookup, hlookup, he⟩ := he
    exact run_concludes hconfig hhost hstack hne hdeeper (hdefers lookup hlookup e he)

/-- By induction on the room for frames. -/
theorem evaluates (hconfig : config.Standard) (hhost : config.host.IsRewriterFree) {room : Nat}
    (hroom : config.maxDepth ≤ stack.depth + room) (hstack : stack.IsRewriterFree)
    (hne : stack ≠ []) {form : Value} (hform : form.isRewriterFree = true) :
    Evaluates config before stack form := by
  induction room generalizing stack form with
  | zero =>
    refine (evaluates_of_deeper hconfig hhost hstack hne (fun hdepth => ?_) hform).1
    exact absurd hroom (Nat.not_le_of_lt hdepth)
  | succ room ih =>
    refine (evaluates_of_deeper hconfig hhost hstack hne (fun _ frame hframe form hform => ?_)
      hform).1
    refine ih ?_ (hstack.cons hframe) (List.cons_ne_nil _ _) hform
    unfold Stack.depth at hroom ⊢
    rw [List.length_cons]
    omega

theorem exists_evaluation (hconfig : config.Standard) (hhost : config.host.IsRewriterFree)
    {form : Value} (hform : form.isRewriterFree = true) {s : State} (hne : s.stack ≠ [])
    (hstack : Stack.IsRewriterFree s.stack)
    (hglobals : ∀ name v, s.world.globals.get? name = some v → v.isRewriterFree = true) :
    ∃ result levels, (∀ more, levels ≤ more → interpret config more (.eval form) s = result) ∧
      Ended s.world.waiting s.stack (fun v => v.isRewriterFree = true) result := by
  have hevaluates : Evaluates config s.world.waiting s.stack form :=
    evaluates hconfig hhost (Nat.le_add_left config.maxDepth _) hstack hne hform
  obtain ⟨result, ⟨levels, hlevels⟩, hended⟩ :=
    hevaluates s.world ⟨hglobals, fun _ hold => .inl hold⟩
  exact ⟨result, levels, hlevels, hended⟩

theorem runJob_ends (hconfig : config.Standard) (hhost : config.host.IsRewriterFree) {job : Job}
    (hjob : job.IsRewriterFree) {w : World}
    (hw : ∀ name v, w.globals.get? name = some v → v.isRewriterFree = true) :
    ∃ levels w', (∀ more, levels ≤ more →
      Program.runJob (interpret config more) job w = some w') ∧ w'.IsRewriterFree w.waiting := by
  obtain ⟨result, levels, hlevels, hended⟩ :=
    exists_evaluation hconfig hhost hjob.body (s := ⟨job.stack, w⟩) hjob.stack_ne_nil hjob.stack hw
  cases hended with
  | @value v w' hv hw' =>
    refine ⟨levels, { w' with tasks := w'.tasks.finish job.id (.ok v) }, fun more hmore => ?_,
      ⟨hw'.globals, hw'.started⟩⟩
    simp only [Program.runJob, hlevels more hmore]
    rfl
  | @error e w' hw' =>
    refine ⟨levels, { w' with tasks := w'.tasks.finish job.id (.error e) }, fun more hmore => ?_,
      ⟨hw'.globals, hw'.started⟩⟩
    simp only [Program.runJob, hlevels more hmore]
    rfl

/-- Without macros every evaluation ends, whatever the limit of the depth and whatever the forms
that the program makes and evaluates.  It ends in a value or an error, in the frames that it was
asked in, and makes no macro.  Every task that it starts is of the same kind, and it ends too, in
whatever world without macros it is run. -/
theorem macro_free_evaluation_ends (hconfig : config.Standard) (hhost : config.host.IsRewriterFree)
    {form : Value} (hform : form.isRewriterFree = true) {s : State} (hne : s.stack ≠ [])
    (hstack : Stack.IsRewriterFree s.stack)
    (hglobals : ∀ name v, s.world.globals.get? name = some v → v.isRewriterFree = true) :
    ∃ result, Answers config (.eval form) s result ∧
      Ended s.world.waiting s.stack (fun v => v.isRewriterFree = true) result ∧
      ∀ job ∈ (Program.stateOf result).world.waiting, job ∉ s.world.waiting →
        ∀ w : World, (∀ name v, w.globals.get? name = some v → v.isRewriterFree = true) →
          ∃ levels w', (∀ more, levels ≤ more →
            Program.runJob (interpret config more) job w = some w') ∧
            w'.IsRewriterFree w.waiting := by
  obtain ⟨result, levels, hlevels, hended⟩ := exists_evaluation hconfig hhost hform hne hstack
    hglobals
  refine ⟨result, ⟨levels, hlevels levels (Nat.le_refl levels), hended.not_exhausted⟩, hended,
    fun job hjob hnew w hw => ?_⟩
  have hstarted : job.IsRewriterFree := by
    cases hended with
    | value hv hw' => exact (hw'.started job hjob).resolve_left hnew
    | error e hw' => exact (hw'.started job hjob).resolve_left hnew
  exact runJob_ends hconfig hhost hstarted hw

def selfEvaluating : World :=
  Program.standardWorld.store "f" (.list [.symbol "eval", .symbol "f"])

/-- The main evaluation runs into the limit of the depth, after it has started a task that will. -/
theorem macro_free_evaluation_ends_self :
    { Program.standardConfig with maxDepth := 4 }.Standard ∧
    { Program.standardConfig with maxDepth := 4 }.host.IsRewriterFree ∧
    (Value.list [.symbol "do", .list [.symbol "go", .list [.symbol "eval", .symbol "f"]],
      .list [.symbol "eval", .symbol "f"]]).isRewriterFree = true ∧
    Stack.base ≠ [] ∧ Stack.base.IsRewriterFree ∧
    (∀ name v, selfEvaluating.globals.get? name = some v → v.isRewriterFree = true) ∧
    Program.outcomeOf (interpret { Program.standardConfig with maxDepth := 4 } 12
      (.eval (.list [.symbol "do", .list [.symbol "go", .list [.symbol "eval", .symbol "f"]],
        .list [.symbol "eval", .symbol "f"]])) ⟨.base, selfEvaluating⟩) =
          some (.error (.stackOverflow 4)) ∧
    ∃ result, Answers { Program.standardConfig with maxDepth := 4 }
        (.eval (.list [.symbol "do", .list [.symbol "go", .list [.symbol "eval", .symbol "f"]],
          .list [.symbol "eval", .symbol "f"]])) ⟨.base, selfEvaluating⟩ result ∧
      Ended selfEvaluating.waiting .base (fun v => v.isRewriterFree = true) result := by
  have hconfig : { Program.standardConfig with maxDepth := 4 }.Standard :=
    Builtins.library_standard rfl rfl rfl
  have hhost : { Program.standardConfig with maxDepth := 4 }.host.IsRewriterFree :=
    Builtins.library_isRewriterFree
  have hstack : Stack.base.IsRewriterFree := by
    intro frame hframe name v hv
    rw [Stack.base, List.mem_singleton] at hframe
    rw [hframe] at hv
    cases hv
  have hglobals : ∀ name v, selfEvaluating.globals.get? name = some v →
      v.isRewriterFree = true := by
    intro name v hv
    obtain ⟨before, after, hentries, -⟩ := List.lookup_eq_some_iff.mp hv
    have hall : (selfEvaluating.globals.entries.all fun entry => entry.2.isRewriterFree) = true :=
      rfl
    rw [hentries] at hall
    simpa using List.all_eq_true.mp hall (name, v) (by simp)
  have hne : (⟨.base, selfEvaluating⟩ : State).stack ≠ [] := List.cons_ne_nil _ _
  have hform : (Value.list [.symbol "do", .list [.symbol "go", .list [.symbol "eval", .symbol "f"]],
      .list [.symbol "eval", .symbol "f"]]).isRewriterFree = true := rfl
  obtain ⟨result, hanswer, hended, -⟩ :=
    macro_free_evaluation_ends hconfig hhost hform hne hstack hglobals
  exact ⟨hconfig, hhost, hform, hne, hstack, hglobals, by cbv, result, hanswer, hended⟩

end

end Interpreter

end Lisp
