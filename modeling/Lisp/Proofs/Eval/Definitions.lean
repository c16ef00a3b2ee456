import Lisp.Proofs.Eval.Course

/-!
# Definitions

With the usual special forms and macros, and with no callable that works on the environment but the
builtin that evaluates its argument, a name gets into the global table in one way: a form
`(def name value)` is met in the course of an evaluation, and its expression is run.  `Defines` says
so of one evaluation, and `eval_storesWithin_defines` that it accounts for all that an evaluation
stores, whatever that ends in.

The expression that is run is part of one that was compiled before, `Expr.Part`, and there it came from
a form that was compiled as well.
-/

namespace Lisp

/-- What is run when an expression is: the expression itself, and all that is part of the target or of
an argument of a call. -/
inductive Expr.Part : Expr → Expr → Prop
  | self (e : Expr) : Part e e
  | target {name : String} {target e : Expr} {args : List Expr} (part : Part target e) :
      Part (.invoke name target args) e
  | argument {name : String} {target arg e : Expr} {args : List Expr} (mem : arg ∈ args)
      (part : Part arg e) : Part (.invoke name target args) e

namespace Interpreter

variable {α β : Type} {config : Config} {below : Interpreter} {levels n : Nat} {r : Request}
  {form value : Value} {name : String} {e : Expr} {s t u : State}

def definition (name : String) (value : Value) : Value :=
  .list [.symbol SpecialForm.define.name, .symbol name, value]

/-- On the way to an answer the form that defines the name as that value is compiled, to what it
stands for. -/
def Met (config : Config) (levels : Nat) (r : Request) (s : State) (name : String)
    (value : Value) : Prop :=
  ∃ n t u, Course config levels r s n (.compile (definition name value)) t ∧
    interpret config n (.compile (definition name value)) t = .ok (.define name value) u

/-- On the way to an answer a form that defines the name is compiled, and its expression is run to the
end. -/
inductive Defines (config : Config) (levels : Nat) (r : Request) (s : State) (name : String) : Prop
  | intro {value : Value} {n : Nat} {t u : State} (met : Met config levels r s name value)
      (reached : Course config levels r s n (.run (.define name value)) t)
      (ran : interpret config n (.run (.define name value)) t = .ok (.symbol name) u) :
      Defines config levels r s name

/-! ## 1. What is stored is run -/

theorem interpret_storesWithin (hconfig : config.Standard) (levels : Nat) (r : Request) (s : State) :
    StoresWithin (fun name => ∃ value n t u,
        Course config levels r s n (.run (.define name value)) t ∧
          interpret config n (.run (.define name value)) t = .ok (.symbol name) u)
      (interpret config levels r) s := by
  induction levels generalizing r s with
  | zero => exact .throw _
  | succ levels ih =>
    rw [interpret_succ]
    refine level_storesWithin hconfig (fun r' s' hasks => (ih r' s').mono ?_) ?_
    · rintro name ⟨value, n, t, u, hcourse, hran⟩
      exact ⟨value, n, t, u, .next hasks hcourse, hran⟩
    · rintro name value v t rfl hv
      refine ⟨value, levels + 1, s, { t with world := t.world.store name v }, .here, ?_⟩
      rw [interpret_succ]
      exact bind_of_ok hv

/-! ## 2. What is run was compiled -/

theorem exists_of_mem_mapM {act : α → Eval β} {as : List α} {bs : List β} {b : β}
    (h : as.mapM act s = .ok bs t) (hb : b ∈ bs) :
    ∃ before a after cs u w, as = before ++ a :: after ∧ before.mapM act s = .ok cs u ∧
      act a u = .ok b w := by
  induction as generalizing s bs with
  | nil =>
    rw [List.mapM_nil] at h
    cases h
    cases hb
  | cons a as ih =>
    rw [List.mapM_cons] at h
    obtain ⟨b', u, hfirst, h⟩ := ok_of_bind h
    obtain ⟨bs', w, hrest, h⟩ := ok_of_bind h
    cases h
    obtain rfl | hb := List.mem_cons.mp hb
    · exact ⟨[], a, as, [], s, u, rfl, rfl, hfirst⟩
    · obtain ⟨before, a', after, cs, u', w', rfl, hbefore, hact⟩ := ih hrest hb
      refine ⟨a :: before, a', after, b' :: cs, u', w', rfl, ?_, hact⟩
      rw [List.mapM_cons, bind_of_ok hfirst]
      exact bind_of_ok hbefore

theorem definedName_eq_ok {symbol : Value} (h : SpecialForm.definedName symbol = .ok name) :
    symbol = .symbol name ∧ Text.isBlankText name = false := by
  unfold SpecialForm.definedName at h
  split at h
  · split at h
    · cases h
    · rename_i hnamed
      cases h
      exact ⟨rfl, Bool.eq_false_iff.mpr hnamed⟩
  · cases h

theorem definition_of_parse {special : SpecialForm} {parts : List Value}
    (h : special.parse parts = .ok e) (hpart : e.Part (.define name value)) :
    .list (.symbol special.name :: parts) = definition name value ∧ e = .define name value ∧
      Text.isBlankText name = false := by
  unfold SpecialForm.parse at h
  split at h
  case h_4 symbol form =>
    cases hdefined : SpecialForm.definedName symbol with
    | error e =>
      rw [hdefined] at h
      cases h
    | ok defined =>
      rw [hdefined] at h
      cases h
      cases hpart
      obtain ⟨rfl, hnamed⟩ := definedName_eq_ok hdefined
      exact ⟨rfl, rfl, hnamed⟩
  all_goals
    cases h
    try cases hpart

theorem definition_of_analyzed {head : Value} {args : List Value} {parse : ParseSpecial}
    (hspecial : specialOfHead noSpecials head = some parse)
    (h : analyzeForm config noSpecials below (.list (head :: args)) s = .ok e t)
    (hpart : e.Part (.define name value)) :
    .list (head :: args) = definition name value ∧ e = .define name value ∧
      Text.isBlankText name = false := by
  simp only [analyzeForm, hspecial] at h
  obtain ⟨special, rfl, rfl⟩ := specialOfHead_eq_some hspecial
  cases hparse : special.parse args with
  | error fault =>
    simp only [hparse] at h
    cases h
  | ok parsed =>
    simp only [hparse] at h
    cases h
    exact definition_of_parse hparse hpart

theorem compile_cases (hconfig : config.Standard)
    (h : level config below (.compile form) s = .ok e t) :
    s.world.isInterrupted = false ∧
      ((∃ rewritten u, expandOnce config below form s = .ok (some rewritten) u ∧
          below (.compile rewritten) u = .ok e t) ∨
        ∃ u, expandOnce config below form s = .ok none u ∧
          analyzeForm config noSpecials below form u = .ok e t) := by
  obtain ⟨_, u, hcheck, h⟩ := ok_of_bind h
  obtain ⟨found, w, hfound, h⟩ := ok_of_bind h
  simp only [expand, hconfig.expander_eq] at hfound
  obtain ⟨hrunning, rfl⟩ : s.world.isInterrupted = false ∧ u = s := by
    cases hinterrupt : s.world.isInterrupted with
    | true => cases (Eval.checkInterrupt_of_interrupted hinterrupt).symm.trans hcheck
    | false =>
      cases (Eval.checkInterrupt_of_running hinterrupt).symm.trans hcheck
      exact ⟨rfl, rfl⟩
  refine ⟨hrunning, ?_⟩
  cases found with
  | some rewritten => exact .inl ⟨rewritten, w, hfound, h⟩
  | none =>
    simp only [analyze, hconfig.analyzer_eq] at h
    exact .inr ⟨w, hfound, h⟩

theorem Met.next {r' : Request} {s' : State}
    (h : Met config levels r' s' name value)
    (hasks : Asks config (interpret config levels) r s r' s') :
    Met config (levels + 1) r s name value := by
  obtain ⟨n, t, u, hcourse, hcompiled⟩ := h
  exact ⟨n, t, u, .next hasks hcourse, hcompiled⟩

/-- A definition in an expression comes from a form that was compiled on the way. -/
theorem met_of_part (hconfig : config.Standard) (levels : Nat) {form : Value} {e : Expr}
    {s t : State} (h : interpret config levels (.compile form) s = .ok e t)
    (hpart : e.Part (.define name value)) :
    Met config levels (.compile form) s name value ∧ Text.isBlankText name = false := by
  induction levels generalizing form e s t with
  | zero => cases h
  | succ levels ih =>
    have hlevel := h
    rw [interpret_succ] at hlevel
    obtain ⟨hrunning, ⟨rewritten, u, hexpanded, hrest⟩ | ⟨u, hplain, hanalyzed⟩⟩ :=
      compile_cases hconfig hlevel
    · exact (ih hrest hpart).imp_left (·.next (.rewritten hrunning hexpanded))
    · cases form with
      | list items =>
        cases items with
        | nil =>
          cases hanalyzed
          cases hpart
        | cons head args =>
          have hhead := macroOfHead_of_expandOnce hplain
          cases hspecial : specialOfHead noSpecials head with
          | some parse =>
            obtain ⟨hform, rfl, hnamed⟩ := definition_of_analyzed hspecial hanalyzed hpart
            rw [hform] at h ⊢
            exact ⟨⟨levels + 1, s, _, .here, h⟩, hnamed⟩
          | none =>
            simp only [analyzeForm, hspecial] at hanalyzed
            obtain ⟨target, v, htarget, hanalyzed⟩ := ok_of_bind hanalyzed
            obtain ⟨es, w, hargs, hanalyzed⟩ := ok_of_bind hanalyzed
            cases hanalyzed
            cases hpart with
            | target part =>
              exact (ih htarget part).imp_left (·.next (.head hrunning hhead hspecial))
            | argument mem part =>
              obtain ⟨before, arg, after, cs, u', w', rfl, hbefore, harg⟩ :=
                exists_of_mem_mapM hargs mem
              have hearlier : compileBefore head before (interpret config levels) u =
                  .ok (target, cs) u' := (bind_of_ok htarget).trans (bind_of_ok hbefore)
              exact (ih harg part).imp_left
                (·.next (.argument hrunning hhead hspecial hearlier))
      | symbol symbol =>
        obtain ⟨v, w, -, hanalyzed⟩ := ok_of_bind hanalyzed
        cases hanalyzed
        cases hpart
      | _ =>
        cases hanalyzed
        cases hpart

theorem met_of_run (hconfig : config.Standard)
    (h : Course config levels r s n (.run (.define name value)) t) :
    (Met config levels r s name value ∧ Text.isBlankText name = false) ∨
      ∃ e, r = .run e ∧ e.Part (.define name value) := by
  generalize hrun : Request.run (.define name value) = last at h
  induction h with
  | here => exact .inr ⟨_, hrun.symm, .self _⟩
  | @next levels n r r' r'' s s' s'' hasks hrest ih =>
    obtain ⟨hmet, hnamed⟩ | ⟨e, rfl, hpart⟩ := ih hrun
    · exact .inl ⟨hmet.next hasks, hnamed⟩
    · -- A run is asked for by an evaluation, or for a part of a call that is run.
      cases hasks with
      | run compiled =>
        obtain ⟨hmet, hnamed⟩ := met_of_part hconfig levels compiled hpart
        exact .inl ⟨hmet.next .compile, hnamed⟩
      | target => exact .inr ⟨_, rfl, .target hpart⟩
      | operand => exact .inr ⟨_, rfl, .argument (by simp) hpart⟩

/-- All that the evaluation of a form stores is defined on the way, under names that are not blank. -/
theorem eval_storesWithin_defines (hconfig : config.Standard) (levels : Nat) (form : Value)
    (s : State) :
    StoresWithin (fun name => Defines config levels (.eval form) s name ∧
        Text.isBlankText name = false)
      (interpret config levels (.eval form)) s := by
  refine (interpret_storesWithin hconfig levels (.eval form) s).mono ?_
  rintro name ⟨value, n, t, u, hreached, hran⟩
  obtain ⟨hmet, hnamed⟩ | ⟨e, he, -⟩ := met_of_run hconfig hreached
  · exact ⟨.intro hmet hreached hran, hnamed⟩
  · cases he

end Interpreter

end Lisp
