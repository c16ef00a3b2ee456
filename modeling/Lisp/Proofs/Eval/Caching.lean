import Lisp.Proofs.Eval.Journal

/-!
# Cached expressions

An expression may be kept and run later, and in another environment than the one it was compiled in.
It then stands for its form as long as the symbols of `Value.eagerSymbols` mean the same: these are
resolved by the analysis, while those inside of special forms are resolved by the run.

Without macros the analysis of a form is a function of the form and of the meaning of its eager
symbols, `Value.compiled`, and leaves no effects, so it does not matter when it takes place.
-/

namespace Lisp

variable {α β : Type}

/-! ## 1. States with the same effects -/

/-- Whether an event is more than a look at the global table. -/
def Event.isEffect : Event → Bool
  | .lookup _ => false
  | .store _ _ => true
  | .call _ _ _ => true
  | .spawn _ _ => true

def State.effects (s : State) : State :=
  { s with world := { s.world with journal := s.world.journal.filter Event.isEffect } }

/-- Two states that differ at most in the record of what was looked up. -/
def SameEffects (s t : State) : Prop := s.effects = t.effects

namespace SameEffects

variable {s t u : State} {w w' : World} {stack : Stack}

theorem refl (s : State) : SameEffects s s := rfl

theorem symm (h : SameEffects s t) : SameEffects t s := Eq.symm h

theorem trans (h : SameEffects s t) (h' : SameEffects t u) : SameEffects s u := Eq.trans h h'

theorem stack_eq (h : SameEffects s t) : s.stack = t.stack :=
  (congrArg State.stack h : s.effects.stack = t.effects.stack)

theorem globals_eq (h : SameEffects s t) : s.world.globals = t.world.globals :=
  congrArg (·.world.globals) h

theorem interrupt_eq (h : SameEffects s t) : s.world.interrupt = t.world.interrupt :=
  congrArg (·.world.interrupt) h

theorem exists_journal (h : SameEffects s t) :
    ∃ journal, t = { s with world := { s.world with journal } } ∧
      s.world.journal.filter Event.isEffect = journal.filter Event.isEffect := by
  obtain ⟨stack, globals, interrupt, memory, nextIdentity, tasks, waiting, forks, events⟩ := s
  obtain ⟨stack', globals', interrupt', memory', nextIdentity', tasks', waiting', forks', events'⟩ := t
  simp only [SameEffects, State.effects, State.mk.injEq, World.mk.injEq] at h
  obtain ⟨rfl, rfl, rfl, rfl, rfl, rfl, rfl, rfl, hevents⟩ := h
  exact ⟨events', rfl, hevents⟩

theorem of_journal (s : State) {journal : List Event}
    (h : s.world.journal.filter Event.isEffect = journal.filter Event.isEffect) :
    SameEffects s { s with world := { s.world with journal } } := by
  simp only [SameEffects, State.effects, h]

theorem note_lookup (s : State) (name : String) :
    SameEffects s { s with world := s.world.note (.lookup name) } :=
  of_journal s rfl

theorem cons_journal {events journal : List Event} (event : Event)
    (h : events.filter Event.isEffect = journal.filter Event.isEffect) :
    (event :: events).filter Event.isEffect = (event :: journal).filter Event.isEffect := by
  rw [List.filter_cons, List.filter_cons, h]

end SameEffects

theorem rejournaled_isEffect :
    Rejournaled (fun journal journal' =>
      journal.filter Event.isEffect = journal'.filter Event.isEffect) = SameEffects := by
  funext s t
  refine propext ⟨?_, SameEffects.exists_journal⟩
  rintro ⟨journal, rfl, hjournal⟩
  exact SameEffects.of_journal s hjournal

theorem compatible_sameEffects (config : Config) : Compatible config SameEffects := by
  rw [← rejournaled_isEffect]
  exact compatible_rejournaled config fun event _ _ h => SameEffects.cons_journal event h

/-! ## 2. Analysis as a function -/

def State.value? (s : State) (name : String) : Option Value :=
  match Stack.find? name s.stack with
  | some v => some v
  | none => s.world.globals.get? name

namespace Value

def specialForm? : List Value → Option SpecialForm
  | .symbol name :: _ => SpecialForm.named name
  | _ => none

mutual

/-- The symbols that the analysis of a form resolves: a symbol itself, and those of all elements of a
call.  The parts of a special form are left to the run. -/
def eagerSymbols : Value → List String
  | .symbol name => [name]
  | .list items => if (specialForm? items).isSome then [] else eagerSymbolsOfItems items
  | _ => []

def eagerSymbolsOfItems : List Value → List String
  | [] => []
  | v :: rest => eagerSymbols v ++ eagerSymbolsOfItems rest

end

mutual

def isRewriterFree : Value → Bool
  | .rewriter .. => false
  | .list items => areRewriterFree items
  | .vector items => areRewriterFree items
  | _ => true

def areRewriterFree : List Value → Bool
  | [] => true
  | v :: rest => isRewriterFree v && areRewriterFree rest

end

mutual

/-- The expression of a form without macros, given the meaning of symbols. -/
def compiled (lookup : String → Option Value) : Value → Except Error Expr
  | .symbol name =>
    match lookup name with
    | some v => .ok (.const v)
    | none => .error (.notFound name)
  | .list [] => .ok (.const (.list []))
  | .list (head :: args) =>
    match specialForm? (head :: args) with
    | some form => form.parse args
    | none => do
      let target ← compiled lookup head
      let args ← compiledItems lookup args
      return .invoke head.sexpr target args
  | form => .ok (.const form)

def compiledItems (lookup : String → Option Value) : List Value → Except Error (List Expr)
  | [] => .ok []
  | v :: rest => do
    let e ← compiled lookup v
    let es ← compiledItems lookup rest
    return e :: es

end

end Value

namespace Value

/-- Induction over the calls of a form; vectors are not analyzed, so what they hold does not count. -/
theorem induction_of_list {P : Value → Prop} (hatom : ∀ v, (∀ items, v ≠ .list items) → P v)
    (hlist : ∀ items, (∀ v ∈ items, P v) → P (.list items)) (v : Value) : P v := by
  match v with
  | .list items =>
    apply hlist items
    intro v hv
    have hsize := List.sizeOf_lt_of_mem hv
    exact induction_of_list hatom hlist v
  | .nil | .bool _ | .int _ | .float _ | .char _ | .string _ | .symbol _ | .keyword _ | .vector _
  | .rewriter .. | .native _ | .invokable _ | .object _ =>
    apply hatom
    intro items hitems
    cases hitems
termination_by sizeOf v
decreasing_by
  simp only [list.sizeOf_spec]
  omega

section

variable {lookup lookup' : String → Option Value} {name : String} {items : List Value}

theorem mem_eagerSymbolsOfItems :
    name ∈ eagerSymbolsOfItems items ↔ ∃ v ∈ items, name ∈ v.eagerSymbols := by
  induction items with
  | nil => simp [eagerSymbolsOfItems]
  | cons v rest ih => simp [eagerSymbolsOfItems, ih]

theorem eagerSymbols_call (h : specialForm? items = none) :
    (Value.list items).eagerSymbols = eagerSymbolsOfItems items := by
  simp [eagerSymbols, h]

theorem areRewriterFree_iff : areRewriterFree items = true ↔ ∀ v ∈ items, v.isRewriterFree := by
  induction items with
  | nil => simp [areRewriterFree]
  | cons v rest ih => simp [areRewriterFree, ih]

theorem compiled_call {head : Value} {args : List Value} (h : specialForm? (head :: args) = none) :
    compiled lookup (.list (head :: args)) = (do
      let target ← compiled lookup head
      let es ← compiledItems lookup args
      return .invoke head.sexpr target es) := by
  simp only [compiled, h]

theorem compiledItems_congr (h : ∀ v ∈ items, compiled lookup v = compiled lookup' v) :
    compiledItems lookup items = compiledItems lookup' items := by
  induction items with
  | nil => rfl
  | cons v rest ih =>
    obtain ⟨hv, hrest⟩ := List.forall_mem_cons.mp h
    simp only [compiledItems, hv, ih hrest]

theorem compiled_congr {form : Value} :
    (∀ name ∈ form.eagerSymbols, lookup name = lookup' name) →
      compiled lookup form = compiled lookup' form := by
  induction form using induction_of_list with
  | hatom v hv =>
    intro hagree
    cases v with
    | symbol name =>
      have hname := hagree name (by simp [eagerSymbols])
      simp only [compiled, hname]
    | list items => exact absurd rfl (hv items)
    | _ => rfl
  | hlist items ih =>
    intro hagree
    cases items with
    | nil => rfl
    | cons head args =>
      cases hspecial : specialForm? (head :: args) with
      | some form =>
        -- The expression of a special form holds its parts as they are: no symbol is looked up.
        simp only [compiled, hspecial]
      | none =>
        rw [eagerSymbols_call hspecial] at hagree
        have hitems : ∀ v ∈ head :: args, compiled lookup v = compiled lookup' v :=
          fun v hv => ih v hv fun name hname =>
            hagree name (mem_eagerSymbolsOfItems.mpr ⟨v, hv, hname⟩)
        obtain ⟨hhead, hargs⟩ := List.forall_mem_cons.mp hitems
        rw [compiled_call hspecial, compiled_call hspecial, hhead, compiledItems_congr hargs]

end

end Value

/-! ## 3. Activities without effects -/

theorem Eval.checkInterrupt_of_running {s : State} (h : s.world.isInterrupted = false) :
    Eval.checkInterrupt s = .ok () s := by
  simp [Eval.checkInterrupt, h]

theorem Eval.checkInterrupt_of_interrupted {s : State} (h : s.world.isInterrupted = true) :
    Eval.checkInterrupt s = .error (.error .interrupted) s := by
  simp [Eval.checkInterrupt, h]

def ending : Except Error α → State → EStateM.Result Stop State α
  | .ok a, s => .ok a s
  | .error e, s => .error (.error e) s

/-- An activity that ends in that result and does nothing but look names up, in a state and in all
states with the same effects. -/
def Quiet (s : State) (act : Eval α) (result : Except Error α) : Prop :=
  ∀ t, SameEffects s t → ∃ u, SameEffects s u ∧ act t = ending result u

namespace Quiet

variable {s : State} {act : Eval α} {f : α → Eval β} {a : α} {result : Except Error α}
  {g : α → Except Error β}

theorem pure (a : α) : Quiet s (pure a) (.ok a) := fun t ht => ⟨t, ht, rfl⟩

theorem fail (e : Error) : Quiet s (Eval.fail e : Eval α) (.error e) := fun t ht => ⟨t, ht, rfl⟩

theorem bind_ok (hact : Quiet s act (.ok a)) {result : Except Error β}
    (hf : Quiet s (f a) result) : Quiet s (act >>= f) result := by
  intro t ht
  obtain ⟨u, hu, hresult⟩ := hact t ht
  rw [bind_of_ok hresult]
  exact hf u hu

theorem bind (hact : Quiet s act result) (hf : ∀ a, Quiet s (f a) (g a)) :
    Quiet s (act >>= f) (result >>= g) := by
  cases result with
  | ok a => exact hact.bind_ok (hf a)
  | error e =>
    intro t ht
    obtain ⟨u, hu, hresult⟩ := hact t ht
    exact ⟨u, hu, bind_of_error hresult⟩

theorem lookup (s : State) (name : String) :
    Quiet s (Eval.lookup name) (.ok (s.value? name)) := by
  intro t ht
  unfold Eval.lookup State.value?
  rw [ht.stack_eq, ht.globals_eq]
  cases Stack.find? name t.stack with
  | some v => exact ⟨t, ht, rfl⟩
  | none => exact ⟨_, ht.trans (.note_lookup t name), rfl⟩

theorem checkInterrupt (h : s.world.isInterrupted = false) :
    Quiet s Eval.checkInterrupt (.ok ()) := by
  intro t ht
  have hinterrupt : t.world.isInterrupted = false := by
    unfold World.isInterrupted at h ⊢
    rw [← ht.interrupt_eq, h]
  exact ⟨t, ht, Eval.checkInterrupt_of_running hinterrupt⟩

end Quiet

/-! ## 4. Environments without macros -/

namespace Interpreter

/-- An environment with the usual analyzer and expander, in a state without a request for an
interrupt and in which no symbol stands for a macro. -/
structure Plain (config : Config) (s : State) : Prop where
  analyzer : config.analyzer = .standard noSpecials
  expander : config.expander = .standard
  uninterrupted : s.world.isInterrupted = false
  symbols : ∀ name v, s.value? name = some v → Rewriter.ofValue? v = none

variable {config : Config} {below : Interpreter} {s : State} {items : List Value}

theorem macroOfHead_quiet (hplain : Plain config s) {head : Value}
    (hhead : head.isRewriterFree = true) : Quiet s (macroOfHead head) (.ok none) := by
  cases head with
  | symbol name =>
    apply (Quiet.lookup s name).bind_ok
    cases hvalue : s.value? name with
    | some v =>
      rw [Option.bind_some, hplain.symbols name v hvalue]
      exact .pure none
    | none => exact .pure none
  | rewriter id name params body => cases hhead
  | _ => exact .pure none

theorem expand_quiet (hplain : Plain config s) {form : Value}
    (hform : form.isRewriterFree = true) : Quiet s (expand config below form) (.ok none) := by
  simp only [expand, hplain.expander]
  cases form with
  | list items =>
    cases items with
    | nil => exact .pure none
    | cons head args =>
      have hhead := Value.areRewriterFree_iff.mp hform head List.mem_cons_self
      exact (macroOfHead_quiet hplain hhead).bind_ok (.pure none)
  | _ => exact .pure none

theorem resolve_quiet (s : State) (name : String) :
    Quiet s (do return .const (← Eval.resolve name)) (Value.compiled s.value? (.symbol name)) := by
  simp only [Eval.resolve, Value.compiled, bind_assoc]
  apply (Quiet.lookup s name).bind_ok
  cases s.value? name with
  | some v => exact .pure _
  | none => exact fun t ht => ⟨t, ht, rfl⟩

theorem mapM_compile_quiet
    (hbelow : ∀ v ∈ items, Quiet s (below (.compile v)) (Value.compiled s.value? v)) :
    Quiet s (items.mapM fun v => below (.compile v)) (Value.compiledItems s.value? items) := by
  induction items with
  | nil =>
    rw [List.mapM_nil]
    exact .pure []
  | cons v rest ih =>
    obtain ⟨hv, hrest⟩ := List.forall_mem_cons.mp hbelow
    rw [List.mapM_cons]
    exact hv.bind fun e => (ih hrest).bind fun es => .pure _

theorem specialOfHead_eq (head : Value) (args : List Value) :
    specialOfHead noSpecials head = (Value.specialForm? (head :: args)).map fun form parts =>
      .ofExcept (form.parse parts) := by
  cases head <;> rfl

theorem perform_ofExcept_quiet (maxDepth : Nat) (result : Except Error α) :
    Quiet s ((Procedure.ofExcept result).perform maxDepth below) result := by
  cases result with
  | ok a => exact .pure a
  | error e => exact .fail e

theorem analyze_quiet (hplain : Plain config s) {form : Value}
    (hbelow : ∀ items, form = .list items → ∀ v ∈ items,
      Quiet s (below (.compile v)) (Value.compiled s.value? v)) :
    Quiet s (analyze config below form) (Value.compiled s.value? form) := by
  simp only [analyze, hplain.analyzer]
  cases form with
  | list items =>
    cases items with
    | nil => exact .pure _
    | cons head args =>
      obtain ⟨hhead, hargs⟩ := List.forall_mem_cons.mp (hbelow _ rfl)
      simp only [analyzeForm, specialOfHead_eq head args]
      cases hspecial : Value.specialForm? (head :: args) with
      | some form =>
        simp only [Value.compiled, hspecial]
        exact perform_ofExcept_quiet _ _
      | none =>
        rw [Value.compiled_call hspecial]
        exact hhead.bind fun target => (mapM_compile_quiet hargs).bind fun es => .pure _
  | symbol name => exact resolve_quiet s name
  | _ => exact .pure _

/-- Without macros the analysis of a form has no effects, and levels that exceed the size of the form
are enough for it. -/
theorem compile_quiet (hplain : Plain config s) {levels : Nat} {form : Value}
    (hform : form.isRewriterFree = true) (hlevels : sizeOf form < levels) :
    Quiet s (interpret config levels (.compile form)) (Value.compiled s.value? form) := by
  induction levels generalizing form with
  | zero => exact absurd hlevels (Nat.not_lt_zero _)
  | succ levels ih =>
    rw [interpret_succ]
    apply (Quiet.checkInterrupt hplain.uninterrupted).bind_ok
    apply (expand_quiet hplain hform).bind_ok
    apply analyze_quiet hplain
    -- Only the items of a call are compiled one level below, and they are smaller than the form.
    rintro items rfl v hv
    have hsize := List.sizeOf_lt_of_mem hv
    simp only [Value.list.sizeOf_spec] at hlevels
    exact ih (Value.areRewriterFree_iff.mp hform v hv) (by omega)

end Interpreter

/-! ## 5. What an expression tells about the symbols -/

namespace Value

variable {lookup lookup' : String → Option Value} {items : List Value}

theorem exists_of_compiled_symbol {name : String} {e : Expr}
    (h : compiled lookup (.symbol name) = .ok e) : ∃ v, lookup name = some v ∧ e = .const v := by
  rw [compiled] at h
  cases hlookup : lookup name with
  | none =>
    rw [hlookup] at h
    cases h
  | some v =>
    rw [hlookup] at h
    cases h
    exact ⟨v, rfl, rfl⟩

theorem exists_of_compiled_call {head : Value} {args : List Value} {e : Expr}
    (hspecial : specialForm? (head :: args) = none)
    (h : compiled lookup (.list (head :: args)) = .ok e) :
    ∃ target es, compiled lookup head = .ok target ∧ compiledItems lookup args = .ok es ∧
      e = .invoke head.sexpr target es := by
  rw [compiled_call hspecial] at h
  cases htarget : compiled lookup head with
  | error e =>
    rw [htarget] at h
    cases h
  | ok target =>
    cases hargs : compiledItems lookup args with
    | error e =>
      rw [htarget, hargs] at h
      cases h
    | ok es =>
      rw [htarget, hargs] at h
      cases h
      exact ⟨target, es, rfl, rfl, rfl⟩

theorem exists_of_compiledItems_cons {v : Value} {rest : List Value} {es : List Expr}
    (h : compiledItems lookup (v :: rest) = .ok es) :
    ∃ e es', compiled lookup v = .ok e ∧ compiledItems lookup rest = .ok es' ∧ es = e :: es' := by
  rw [compiledItems] at h
  cases hv : compiled lookup v with
  | error e =>
    rw [hv] at h
    cases h
  | ok e =>
    cases hrest : compiledItems lookup rest with
    | error e =>
      rw [hv, hrest] at h
      cases h
    | ok es' =>
      rw [hv, hrest] at h
      cases h
      exact ⟨e, es', rfl, rfl, rfl⟩

theorem agree_of_compiledItems {es : List Expr}
    (hitems : ∀ v ∈ items, ∀ e, compiled lookup v = .ok e → compiled lookup' v = .ok e →
      ∀ name ∈ v.eagerSymbols, lookup name = lookup' name)
    (h : compiledItems lookup items = .ok es) (h' : compiledItems lookup' items = .ok es) :
    ∀ name ∈ eagerSymbolsOfItems items, lookup name = lookup' name := by
  induction items generalizing es with
  | nil => simp [eagerSymbolsOfItems]
  | cons v rest ih =>
    obtain ⟨hv, hrest⟩ := List.forall_mem_cons.mp hitems
    obtain ⟨e, es, he, hes, rfl⟩ := exists_of_compiledItems_cons h
    obtain ⟨e', es', he', hes', heq⟩ := exists_of_compiledItems_cons h'
    obtain ⟨rfl, rfl⟩ := List.cons_eq_cons.mp heq
    intro name hname
    rw [eagerSymbolsOfItems, List.mem_append] at hname
    cases hname with
    | inl hname => exact hv e he he' name hname
    | inr hname => exact ih hrest hes hes' name hname

/-- A form has one expression under two meanings of the symbols only if its eager symbols mean the
same. -/
theorem agree_of_compiled {form : Value} :
    ∀ e, compiled lookup form = .ok e → compiled lookup' form = .ok e →
      ∀ name ∈ form.eagerSymbols, lookup name = lookup' name := by
  induction form using induction_of_list with
  | hatom v hv =>
    intro e h h' name hname
    cases v with
    | symbol other =>
      cases List.mem_singleton.mp hname
      obtain ⟨v, hlookup, rfl⟩ := exists_of_compiled_symbol h
      obtain ⟨v', hlookup', heq⟩ := exists_of_compiled_symbol h'
      rw [hlookup, hlookup', Expr.const.inj heq]
    | list items => exact absurd rfl (hv items)
    | _ => cases hname
  | hlist items ih =>
    intro e h h' name hname
    cases items with
    | nil => cases hname
    | cons head args =>
      cases hspecial : specialForm? (head :: args) with
      | some form =>
        simp only [eagerSymbols, hspecial, Option.isSome_some, if_true] at hname
        cases hname
      | none =>
        obtain ⟨target, es, htarget, hes, rfl⟩ := exists_of_compiled_call hspecial h
        obtain ⟨target', es', htarget', hes', heq⟩ := exists_of_compiled_call hspecial h'
        obtain ⟨-, rfl, rfl⟩ := Expr.invoke.inj heq
        obtain ⟨hhead, hargs⟩ := List.forall_mem_cons.mp ih
        -- A call compiles its head and arguments, so each of them has one expression too.
        rw [eagerSymbols_call hspecial, eagerSymbolsOfItems, List.mem_append] at hname
        cases hname with
        | inl hname => exact hhead target htarget htarget' name hname
        | inr hname => exact agree_of_compiledItems hargs hes hes' name hname

end Value

/-! ## 6. Cached expressions -/

namespace Interpreter

variable {config : Config} {s t : State} {form : Value}

/-- The request is answered by that value or error, and nothing is done but to look names up. -/
def AnswersQuietly (config : Config) (r : Request) (s : State) (result : Except Error r.Result) :
    Prop :=
  ∃ t, SameEffects s t ∧ Answers config r s (ending result t)

theorem AnswersQuietly.unique {r : Request} {result result' : Except Error r.Result}
    (h : AnswersQuietly config r s result) (h' : AnswersQuietly config r s result') :
    result = result' := by
  obtain ⟨t, -, ht⟩ := h
  obtain ⟨t', -, ht'⟩ := h'
  have hending := ht.unique ht'
  cases result <;> cases result' <;> cases hending <;> rfl

theorem answersQuietly_compile (hplain : Plain config s) (form : Value)
    (hform : form.isRewriterFree = true) :
    AnswersQuietly config (.compile form) s (form.compiled s.value?) := by
  obtain ⟨t, ht, hresult⟩ := compile_quiet hplain hform (Nat.lt_succ_self _) s (.refl s)
  refine ⟨t, ht, sizeOf form + 1, hresult, ?_⟩
  cases form.compiled s.value? <;> exact id

theorem answers_run_iff_eval {e : Expr} (hcompile : AnswersQuietly config (.compile form) s (.ok e)) :
    (∀ result, Answers config (.run e) s result →
      ∃ result', Answers config (.eval form) s result' ∧ Agree SameEffects result result') ∧
    (∀ result, Answers config (.eval form) s result →
      ∃ result', Answers config (.run e) s result' ∧ Agree SameEffects result result') := by
  obtain ⟨t, ht, hanswers⟩ := hcompile
  -- The form runs its expression in the state that its analysis leaves, and the kept expression runs
  -- in the state before it.  The two differ in what was looked up.
  have heval := answers_eval_iff hanswers
  constructor
  · intro result hresult
    obtain ⟨result', hresult', hagree⟩ := hresult.simulate (compatible_sameEffects config) ht
    exact ⟨result', (heval result').mpr hresult', hagree⟩
  · intro result hresult
    exact ((heval result).mp hresult).simulate (compatible_sameEffects config) ht.symm

theorem exists_frame_of_find {name : String} {v : Value} {stack : Stack}
    (h : Stack.find? name stack = some v) :
    ∃ frame ∈ stack, frame.vars.get? name = some v := by
  induction stack with
  | nil => cases h
  | cons frame below ih =>
    unfold Stack.find? at h
    split at h
    · cases h
    · cases hget : frame.vars.get? name with
      | some found =>
        rw [hget] at h
        cases h
        exact ⟨frame, List.mem_cons_self, hget⟩
      | none =>
        rw [hget] at h
        obtain ⟨other, hother, hfound⟩ := ih h
        exact ⟨other, List.mem_cons_of_mem _ hother, hfound⟩

/-- A kept expression stands for its form exactly as far as the eager symbols of the form mean the
same, in two environments without macros that may differ in everything else.

* If they do, the form has the same expression or the same error in both.  An expression of the first
  environment then gives in the second one what the form gives there: the same value, error or panic,
  with the same global table, stores, calls and tasks; or it gives nothing if the form does not.
* If the form has the same expression in both, its eager symbols mean the same. -/
theorem cached_expr_stands_for_form {config₁ config₂ : Config} {s₁ s₂ : State}
    (h₁ : Plain config₁ s₁) (h₂ : Plain config₂ s₂) (form : Value)
    (hform : form.isRewriterFree = true) :
    ((∀ name ∈ form.eagerSymbols, s₁.value? name = s₂.value? name) →
      (∃ outcome, AnswersQuietly config₁ (.compile form) s₁ outcome ∧
        AnswersQuietly config₂ (.compile form) s₂ outcome) ∧
      (∀ e, AnswersQuietly config₁ (.compile form) s₁ (.ok e) →
        (∀ result, Answers config₂ (.run e) s₂ result →
          ∃ result', Answers config₂ (.eval form) s₂ result' ∧ Agree SameEffects result result') ∧
        (∀ result, Answers config₂ (.eval form) s₂ result →
          ∃ result', Answers config₂ (.run e) s₂ result' ∧ Agree SameEffects result result')) ∧
      (∀ e, AnswersQuietly config₁ (.compile form) s₁ (.error e) →
        AnswersQuietly config₂ (.eval form) s₂ (.error e))) ∧
    (∀ e, AnswersQuietly config₁ (.compile form) s₁ (.ok e) →
      AnswersQuietly config₂ (.compile form) s₂ (.ok e) →
      ∀ name ∈ form.eagerSymbols, s₁.value? name = s₂.value? name) := by
  have hfirst := answersQuietly_compile h₁ form hform
  have hsecond := answersQuietly_compile h₂ form hform
  constructor
  · intro hagree
    -- Analysis reads nothing of an environment but what the eager symbols mean.
    have hsame := Value.compiled_congr hagree
    rw [← hsame] at hsecond
    refine ⟨⟨_, hfirst, hsecond⟩, ?_, ?_⟩
    · intro e he
      rw [hfirst.unique he] at hsecond
      exact answers_run_iff_eval hsecond
    · intro e he
      rw [hfirst.unique he] at hsecond
      obtain ⟨t, ht, hanswers⟩ := hsecond
      exact ⟨t, ht, hanswers.eval_of_error⟩
  · intro e he he'
    exact Value.agree_of_compiled e (hfirst.unique he) (hsecond.unique he')

theorem Plain.of_entries (hanalyzer : config.analyzer = .standard noSpecials)
    (hexpander : config.expander = .standard) (huninterrupted : s.world.isInterrupted = false)
    (hlocals : s.stack.all fun frame =>
      frame.vars.entries.all fun entry => (Rewriter.ofValue? entry.2).isNone)
    (hglobals : s.world.globals.entries.all fun entry => (Rewriter.ofValue? entry.2).isNone) :
    Plain config s := by
  have hentries : ∀ (b : Bindings) (name : String) (v : Value),
      (b.entries.all fun entry => (Rewriter.ofValue? entry.2).isNone) = true →
      b.get? name = some v → Rewriter.ofValue? v = none := by
    intro b name v hb hv
    obtain ⟨before, after, hsplit, -⟩ := List.lookup_eq_some_iff.mp hv
    rw [hsplit] at hb
    simpa using List.all_eq_true.mp hb (name, v) (by simp)
  refine ⟨hanalyzer, hexpander, huninterrupted, ?_⟩
  -- A meaning is an entry of a frame or of the global table.
  intro name v hv
  unfold State.value? at hv
  cases hfind : Stack.find? name s.stack with
  | some found =>
    rw [hfind] at hv
    cases hv
    obtain ⟨frame, hframe, hget⟩ := exists_frame_of_find hfind
    exact hentries frame.vars name v (List.all_eq_true.mp hlocals frame hframe) hget
  | none =>
    rw [hfind] at hv
    exact hentries s.world.globals name v hglobals hv

/-- An expression is compiled outside of all calls, and run where a local binding has taken the place
of the global one that the deferred symbol had. -/
theorem cached_expr_stands_for_form_rebound :
    Plain Program.standardConfig
      ⟨.base, Program.standardWorld.storeAll [("x", .int 1), ("y", .int 2)]⟩ ∧
    Plain Program.standardConfig
      ⟨[⟨"g", [], .ofList [("y", .int 5)]⟩, .global],
        Program.standardWorld.storeAll [("x", .int 1)]⟩ ∧
    (Value.list [.symbol "list", .symbol "x",
      .list [.symbol "if", .bool true, .symbol "y"]]).isRewriterFree = true ∧
    (Value.list [.symbol "list", .symbol "x",
      .list [.symbol "if", .bool true, .symbol "y"]]).eagerSymbols = ["list", "x"] ∧
    ∃ e t t',
      AnswersQuietly Program.standardConfig
        (.compile (.list [.symbol "list", .symbol "x",
          .list [.symbol "if", .bool true, .symbol "y"]]))
        ⟨.base, Program.standardWorld.storeAll [("x", .int 1), ("y", .int 2)]⟩ (.ok e) ∧
      Answers Program.standardConfig (.run e)
        ⟨[⟨"g", [], .ofList [("y", .int 5)]⟩, .global],
          Program.standardWorld.storeAll [("x", .int 1)]⟩ (.ok (.list [.int 1, .int 5]) t) ∧
      Answers Program.standardConfig
        (.eval (.list [.symbol "list", .symbol "x",
          .list [.symbol "if", .bool true, .symbol "y"]]))
        ⟨[⟨"g", [], .ofList [("y", .int 5)]⟩, .global],
          Program.standardWorld.storeAll [("x", .int 1)]⟩ (.ok (.list [.int 1, .int 5]) t') ∧
      SameEffects t t' := by
  have hplain₁ : Plain Program.standardConfig
      ⟨.base, Program.standardWorld.storeAll [("x", .int 1), ("y", .int 2)]⟩ :=
    .of_entries rfl rfl rfl rfl rfl
  have hplain₂ : Plain Program.standardConfig
      ⟨[⟨"g", [], .ofList [("y", .int 5)]⟩, .global],
        Program.standardWorld.storeAll [("x", .int 1)]⟩ :=
    .of_entries rfl rfl rfl rfl rfl
  have hsound := (cached_expr_stands_for_form hplain₁ hplain₂
    (.list [.symbol "list", .symbol "x", .list [.symbol "if", .bool true, .symbol "y"]]) rfl).1
    fun name hname => by
      rcases List.mem_cons.mp hname with rfl | hname
      · rfl
      · cases List.mem_singleton.mp hname
        rfl
  have hcompile := answersQuietly_compile hplain₁
    (.list [.symbol "list", .symbol "x", .list [.symbol "if", .bool true, .symbol "y"]]) rfl
  -- The run resolves the deferred symbol in the frame of the second environment.
  obtain ⟨t', heval⟩ : ∃ t', Answers Program.standardConfig
      (.eval (.list [.symbol "list", .symbol "x",
        .list [.symbol "if", .bool true, .symbol "y"]]))
      ⟨[⟨"g", [], .ofList [("y", .int 5)]⟩, .global],
        Program.standardWorld.storeAll [("x", .int 1)]⟩ (.ok (.list [.int 1, .int 5]) t') :=
    ⟨_, 12, rfl, id⟩
  obtain ⟨result, hrun, hagree⟩ := (hsound.2.1 _ hcompile).2 _ heval
  cases hagree with
  | ok v hstates => exact ⟨hplain₁, hplain₂, rfl, rfl, _, _, t', hcompile, hrun, heval, hstates.symm⟩

end Interpreter

end Lisp
