import Lisp.Program
import Lisp.Proofs.Activity

/-!
# Congruence

What is asked of the interpreter is put together from a few operations, from what is asked of the
level below, and from the code that the host brings along, `Config.Provides`.  So a relation between
activities that respects these parts, a `Congruence`, holds between the answers of two levels,
`level_congr`, and with it between two interpreters, `interpret_congr`.

The two may differ in their configurations and in their numbers of levels.
-/

namespace Lisp

/-! ## 1. The code of the host -/

/-- The code on the environment that a configuration brings along: callables, parsers of special
forms, an analyzer and an expander. -/
inductive Config.Provides (config : Config) : ∀ {α : Type}, Procedure α → Prop where
  | invokable (f : InvokableRef) (args : List Value) :
      config.Provides (config.host.invokable f args)
  | parser {special : String → Option ParseSpecial} {name : String} {parse : ParseSpecial}
      (hanalyzer : config.analyzer = .standard special) (hparse : special name = some parse)
      (parts : List Value) : config.Provides (parse parts)
  | analyzer {analyze : Value → Procedure Expr} (hanalyzer : config.analyzer = .custom analyze)
      (form : Value) : config.Provides (analyze form)
  | expander {expand : Value → Procedure (Option Value)}
      (hexpander : config.expander = .custom expand) (form : Value) :
      config.Provides (expand form)

/-- A configuration with the usual special forms and macros, where the only callable that works on
the environment is the builtin that evaluates its argument.  Nothing is said of native functions. -/
structure Config.Standard (config : Config) : Prop where
  analyzer_eq : config.analyzer = .standard noSpecials
  expander_eq : config.expander = .standard
  invokable : ∀ f args, config.host.invokable f args = Builtins.evalArgument args ∨
    ∃ e, config.host.invokable f args = .fail e

theorem Config.Standard.provides {config : Config} (hconfig : config.Standard)
    {P : ∀ {α : Type}, Procedure α → Prop} (heval : ∀ args, P (Builtins.evalArgument args))
    (hfail : ∀ e, P (.fail e : Procedure Value)) {α : Type} {procedure : Procedure α}
    (hprocedure : config.Provides procedure) : P procedure := by
  cases hprocedure with
  | invokable f args =>
    obtain heq | ⟨e, heq⟩ := hconfig.invokable f args
    · rw [heq]
      exact heval args
    · rw [heq]
      exact hfail e
  | parser hanalyzer hparse parts =>
    rw [hconfig.analyzer_eq] at hanalyzer
    cases hanalyzer
    cases hparse
  | analyzer hanalyzer form =>
    rw [hconfig.analyzer_eq] at hanalyzer
    cases hanalyzer
  | expander hexpander form =>
    rw [hconfig.expander_eq] at hexpander
    cases hexpander

theorem Builtins.library_standard {config : Config} (hhost : config.host = Builtins.library.host)
    (hanalyzer : config.analyzer = .standard noSpecials) (hexpander : config.expander = .standard) :
    config.Standard where
  analyzer_eq := hanalyzer
  expander_eq := hexpander
  invokable f args := by
    rw [hhost]
    change Library.act Builtins.library[f.id]? f.name args = _ ∨
      ∃ e, Library.act Builtins.library[f.id]? f.name args = _
    cases hentry : Builtins.library[f.id]? with
    | none => exact .inr ⟨_, rfl⟩
    | some entry =>
      have hmem := List.mem_of_getElem? hentry
      obtain ⟨name, entry⟩ := entry
      cases entry with
      | invokable act =>
        -- Of all entries only one is a callable of the interpreter.
        simp only [Builtins.library, Builtins.ofValues, List.mem_cons, List.not_mem_nil,
          Prod.mk.injEq, reduceCtorEq, Entry.invokable.injEq, and_false, false_or, or_false] at hmem
        rw [hmem.2]
        exact .inl rfl
      | _ => exact .inr ⟨_, rfl⟩

/-! ## 2. Congruences -/

/-- A relation between activities of two interpreters that respects the ways in which a level is put
together from the level below. -/
structure Congruence (config config' : Config) (below below' : Interpreter)
    (Rel : (α : Type) → Eval α → Eval α → Prop) : Prop where
  analyzer_eq : config'.analyzer = config.analyzer
  expander_eq : config'.expander = config.expander
  request : ∀ r, Rel _ (below r) (below' r)
  pure : ∀ {α : Type} (a : α), Rel α (pure a) (pure a)
  fail : ∀ {α : Type} (e : Error), Rel α (Eval.fail e) (Eval.fail e)
  bind : ∀ {α β : Type} {act act' : Eval α} {f f' : α → Eval β}, Rel α act act' →
    (∀ a, Rel β (f a) (f' a)) → Rel β (act >>= f) (act' >>= f')
  checkInterrupt : Rel _ Eval.checkInterrupt Eval.checkInterrupt
  lookup : ∀ name, Rel _ (Eval.lookup name) (Eval.lookup name)
  store : ∀ name v, Rel _ (Eval.bind name v) (Eval.bind name v)
  spawn : ∀ body, Rel _ (Eval.spawn body) (Eval.spawn body)
  /-- The body of a macro is evaluated in a frame of its own. -/
  withFrame : ∀ {α : Type} {act act' : Eval α} (frame : Frame), Rel α act act' →
    Rel α (Eval.withFrame config.maxDepth frame act) (Eval.withFrame config'.maxDepth frame act')
  /-- A call is made in a frame of its own. -/
  invocation : ∀ name callee args,
    Rel _
      (Eval.withFrame config.maxDepth ⟨name, args, ∅⟩
        (Interpreter.call config below callee args))
      (Eval.withFrame config'.maxDepth ⟨name, args, ∅⟩
        (Interpreter.call config' below' callee args))
  procedure : ∀ {α : Type} (p : Procedure α), config.Provides p →
    Rel α (p.perform config.maxDepth below) (p.perform config'.maxDepth below')

namespace Congruence

variable {α β : Type} {config config' : Config} {below below' : Interpreter}
  {Rel : (α : Type) → Eval α → Eval α → Prop}

theorem mapM (h : Congruence config config' below below' Rel) {act act' : α → Eval β}
    (hact : ∀ a, Rel β (act a) (act' a)) (as : List α) :
    Rel _ (as.mapM act) (as.mapM act') := by
  induction as with
  | nil =>
    rw [List.mapM_nil, List.mapM_nil]
    exact h.pure []
  | cons a as ih =>
    rw [List.mapM_cons, List.mapM_cons]
    exact h.bind (hact a) fun b => h.bind ih fun bs => h.pure (b :: bs)

theorem foldlM (h : Congruence config config' below below' Rel) {act act' : β → α → Eval β}
    (hact : ∀ b a, Rel β (act b a) (act' b a)) (as : List α) (b : β) :
    Rel _ (as.foldlM act b) (as.foldlM act' b) := by
  induction as generalizing b with
  | nil =>
    rw [List.foldlM_nil, List.foldlM_nil]
    exact h.pure b
  | cons a as ih =>
    rw [List.foldlM_cons, List.foldlM_cons]
    exact h.bind (hact b a) fun b => ih b

theorem resolve (h : Congruence config config' below below' Rel) (name : String) :
    Rel _ (Eval.resolve name) (Eval.resolve name) := by
  refine h.bind (h.lookup name) fun found => ?_
  cases found with
  | some v => exact h.pure v
  | none => exact h.fail _

theorem perform_ofExcept (h : Congruence config config' below below' Rel)
    (result : Except Error α) :
    Rel α ((Procedure.ofExcept result).perform config.maxDepth below)
      ((Procedure.ofExcept result).perform config'.maxDepth below') := by
  cases result with
  | ok a => exact h.pure a
  | error e => exact h.fail e

end Congruence

/-! ## 3. One level -/

namespace Interpreter

variable {config config' : Config} {below below' : Interpreter}
  {Rel : (α : Type) → Eval α → Eval α → Prop}

theorem applyMacro_congr (h : Congruence config config' below below' Rel) (m : Rewriter)
    (args : List Value) :
    Rel _ (applyMacro config below m args) (applyMacro config' below' m args) := by
  unfold applyMacro
  split
  · exact h.withFrame _ (h.request (.eval m.body))
  · exact h.fail _

theorem macroOfHead_congr (h : Congruence config config' below below' Rel) (head : Value) :
    Rel _ (macroOfHead head) (macroOfHead head) := by
  cases head with
  | symbol name => exact h.bind (h.lookup name) fun found => h.pure _
  | _ => exact h.pure _

theorem expandOnce_congr (h : Congruence config config' below below' Rel) (form : Value) :
    Rel _ (expandOnce config below form) (expandOnce config' below' form) := by
  cases form with
  | list items =>
    cases items with
    | nil => exact h.pure none
    | cons head args =>
      refine h.bind (macroOfHead_congr h head) fun found => ?_
      cases found with
      | some m => exact h.bind (applyMacro_congr h m args) fun v => h.pure _
      | none => exact h.pure none
  | _ => exact h.pure none

theorem expand_congr (h : Congruence config config' below below' Rel) (form : Value) :
    Rel _ (expand config below form) (expand config' below' form) := by
  unfold expand
  rw [h.expander_eq]
  cases hexpander : config.expander with
  | standard => exact expandOnce_congr h form
  | custom expand => exact h.procedure (expand form) (.expander hexpander form)

theorem parser_congr (h : Congruence config config' below below' Rel)
    {special : String → Option ParseSpecial} (hspecial : config.analyzer = .standard special)
    {head : Value} {parse : ParseSpecial} (hparse : specialOfHead special head = some parse)
    (parts : List Value) :
    Rel _ ((parse parts).perform config.maxDepth below)
      ((parse parts).perform config'.maxDepth below') := by
  cases head with
  | symbol name =>
    unfold specialOfHead at hparse
    cases hown : special name with
    | some own =>
      simp only [hown, Option.some.injEq] at hparse
      rw [← hparse]
      exact h.procedure (own parts) (.parser hspecial hown parts)
    | none =>
      simp only [hown] at hparse
      obtain ⟨form, -, rfl⟩ := Option.map_eq_some_iff.mp hparse
      exact h.perform_ofExcept (form.parse parts)
  | _ => cases hparse

theorem analyzeForm_congr (h : Congruence config config' below below' Rel)
    {special : String → Option ParseSpecial} (hspecial : config.analyzer = .standard special)
    (form : Value) :
    Rel _ (analyzeForm config special below form) (analyzeForm config' special below' form) := by
  cases form with
  | list items =>
    cases items with
    | nil => exact h.pure _
    | cons head args =>
      simp only [analyzeForm]
      cases hparse : specialOfHead special head with
      | some parse => exact parser_congr h hspecial hparse args
      | none =>
        exact h.bind (h.request (.compile head)) fun target =>
          h.bind (h.mapM (fun arg => h.request (.compile arg)) args) fun es => h.pure _
  | symbol name => exact h.bind (h.resolve name) fun v => h.pure _
  | _ => exact h.pure _

theorem analyze_congr (h : Congruence config config' below below' Rel) (form : Value) :
    Rel _ (analyze config below form) (analyze config' below' form) := by
  unfold analyze
  rw [h.analyzer_eq]
  cases hanalyzer : config.analyzer with
  | standard special => exact analyzeForm_congr h hanalyzer form
  | custom analyze => exact h.procedure (analyze form) (.analyzer hanalyzer form)

theorem invoke_congr (h : Congruence config config' below below' Rel) (name : String)
    (target : Expr) (args : List Expr) :
    Rel _ (invoke config below name target args) (invoke config' below' name target args) := by
  refine h.bind h.checkInterrupt fun _ => h.bind (h.request (.run target)) fun head => ?_
  cases calleeOf head with
  | none => exact h.fail _
  | some callee =>
    exact h.bind (h.mapM (fun arg => h.request (.run arg)) args) fun values =>
      h.invocation name callee values

theorem runExpr_congr (h : Congruence config config' below below' Rel) (e : Expr) :
    Rel _ (runExpr config below e) (runExpr config' below' e) := by
  cases e with
  | const v => exact h.pure v
  | quote v => exact h.pure v
  | define name form =>
    exact h.bind (h.request (.eval form)) fun v => h.bind (h.store name v) fun _ => h.pure _
  | choice test consequent alternative =>
    refine h.bind (h.request (.eval test)) fun v => ?_
    split
    · exact h.request (.eval consequent)
    · cases alternative with
      | some form => exact h.request (.eval form)
      | none => exact h.pure _
  | sequence forms =>
    exact h.foldlM (fun _ form => h.bind h.checkInterrupt fun _ => h.request (.eval form)) forms _
  | invoke name target args => exact invoke_congr h name target args
  | spawn body => exact h.bind (h.spawn body) fun _ => h.pure _

theorem level_congr (h : Congruence config config' below below' Rel) (r : Request) :
    Rel _ (level config below r) (level config' below' r) := by
  cases r with
  | eval form => exact h.bind (h.request (.compile form)) fun e => h.request (.run e)
  | compile form =>
    refine h.bind h.checkInterrupt fun _ => h.bind (expand_congr h form) fun found => ?_
    cases found with
    | some rewritten => exact h.request (.compile rewritten)
    | none => exact analyze_congr h form
  | run e => exact runExpr_congr h e

/-! ## 4. All levels -/

/-- Two interpreters are related if a lack of levels is related to all answers, and if relation at
one level makes for a congruence at the next. -/
theorem interpret_congr (Rel : (α : Type) → Eval α → Eval α → Prop)
    (hexhausted : ∀ {α : Type} (act : Eval α), Rel α (throw .exhausted) act)
    (hlevel : ∀ below below' : Interpreter, (∀ r, Rel _ (below r) (below' r)) →
      Congruence config config' below below' Rel)
    {levels more : Nat} (hle : levels ≤ more) (r : Request) :
    Rel _ (interpret config levels r) (interpret config' more r) := by
  induction levels generalizing more r with
  | zero => exact hexhausted _
  | succ levels ih =>
    obtain ⟨more, rfl⟩ := Nat.exists_eq_add_of_le' hle
    rw [interpret_succ, ← Nat.add_assoc, interpret_succ]
    exact level_congr (hlevel _ _ fun r => ih (by omega) r) r

end Interpreter

end Lisp
