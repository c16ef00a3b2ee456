import Lisp.Proofs.Eval.Definitions
import Lisp.Proofs.Family.Isolation

/-!
# Growth of the global table

In a family of environments where forms are evaluated, by any of them and by their tasks, the global
table only grows: `evaluation_extends_globals`.  No name is ever lost, and each name that is new is
defined in the course of one of the evaluations, be it that it fails or panics later on.

A move of the family is a whole evaluation: other environments, those of tasks included, take their turns
before it and after it, and never while it is under way.  What the evaluation of a form stores is known from
`Interpreter.eval_storesWithin_defines`, and what a run stores is what its moves store.
-/

namespace Lisp

namespace Family

variable {config : Config} {F G H : Family} {history : List Move} {move : Move} {name : String}
  {stores : List (String × Value)}

open Interpreter (interpret Defines)

/-! ## 1. Evaluations -/

inductive Move.Evaluates : Move → Nat → Value → Prop
  | request (i : Nat) (form : Value) : Evaluates (.request i (.eval form)) i form
  | abandon (i : Nat) (form : Value) : Evaluates (.abandon i (.eval form)) i form

/-- A move that changes the global table by evaluation, if at all. -/
inductive Move.Evaluation : Move → Prop
  | eval {move : Move} {i : Nat} {form : Value} (evaluates : move.Evaluates i form) :
      Evaluation move
  | fork (i : Nat) : Evaluation (.fork i)
  | begin (id : Nat) : Evaluation (.begin id)
  | adopt (n : Nat) : Evaluation (.adopt n)

def evaluated (config : Config) (levels : Nat) (F : Family) (i : Nat) (stack : Stack)
    (form : Value) : Family :=
  F.update i (Program.stateOf (interpret config levels (.eval form) ⟨stack, F.world⟩))

theorem Step.evaluated (hconfig : config.Standard) (hstep : Step config F move stores G) {i : Nat}
    {form : Value} (hmove : move.Evaluates i form) :
    ∃ stack levels, F.envs[i]? = some stack ∧ G = F.evaluated config levels i stack form ∧
      ∀ entry ∈ stores, Defines config levels (.eval form) ⟨stack, F.world⟩ entry.1 ∧
        Text.isBlankText entry.1 = false := by
  have hstores : ∀ {levels : Nat} {stack : Stack} {events : List Event}
      {result : EStateM.Result Stop State (Except Error Value)},
      Eval.attempt (interpret config levels (.eval form)) ⟨stack, F.world⟩ = result →
      (Program.stateOf result).world.journal = events ++ F.world.journal →
      F.update i (Program.stateOf result) = F.evaluated config levels i stack form ∧
        ∀ entry ∈ storesOf events, Defines config levels (.eval form) ⟨stack, F.world⟩ entry.1 ∧
          Text.isBlankText entry.1 = false := by
    rintro levels stack events _ rfl hjournal
    rw [Composed.stateOf_attempt] at hjournal ⊢
    obtain ⟨all, hstored, hdefines⟩ :=
      Interpreter.eval_storesWithin_defines hconfig levels form ⟨stack, F.world⟩
    rw [← hstored.eq_of_journal hjournal]
    exact ⟨rfl, hdefines⟩
  cases hmove with
  | request =>
    cases hstep with
    | request levels events env answered journal =>
      exact ⟨_, levels, env, hstores answered journal⟩
  | abandon =>
    cases hstep with
    | abandon levels events env abandoned journal =>
      exact ⟨_, levels, env, hstores abandoned journal⟩

/-! ## 2. Runs of evaluations -/

/-- Between the start of a run and its end some environment has evaluated a form, and the name was
defined on the way. -/
inductive Defined (config : Config) (F : Family) (history : List Move) (G : Family) (name : String) :
    Prop
  | intro {earlier later : List Move} {move : Move} {i levels : Nat} {form : Value} {stack : Stack}
      {before after : List (String × Value)} {H : Family}
      (split : history = earlier ++ move :: later) (evaluates : move.Evaluates i form)
      (start : Runs config F earlier before H) (env : H.envs[i]? = some stack)
      (defines : Defines config levels (.eval form) ⟨stack, H.world⟩ name)
      (rest : Runs config (H.evaluated config levels i stack form) later after G) :
      Defined config F history G name

theorem Defined.step (h : Defined config F history G name) (hstep : Step config G move stores H) :
    Defined config F (history ++ [move]) H name := by
  cases h with
  | intro split evaluates start env defines rest =>
    refine .intro ?_ evaluates start env defines (rest.step hstep)
    rw [split, List.append_assoc, List.cons_append]

theorem Runs.defined (hconfig : config.Standard) (hmoves : ∀ move ∈ history, move.Evaluation)
    (hruns : Runs config F history stores G) :
    ∀ entry ∈ stores, Defined config F history G entry.1 ∧ Text.isBlankText entry.1 = false := by
  induction hruns with
  | refl => nofun
  | @step history move earlier own G H before step ih =>
    intro entry hentry
    obtain hnew | hold := List.mem_append.mp hentry
    · cases hmoves move (by simp) with
      | eval evaluates =>
        obtain ⟨stack, levels, env, rfl, hdefines⟩ := step.evaluated hconfig evaluates
        obtain ⟨hdefined, hnamed⟩ := hdefines entry hnew
        exact ⟨.intro rfl evaluates before env hdefined .refl, hnamed⟩
      | fork i =>
        cases step
        cases hnew
      | begin id =>
        cases step
        cases hnew
      | adopt n =>
        cases step
        cases hnew
    · have hmore := ih (fun move hmem => hmoves move (List.mem_append_left _ hmem)) entry hold
      exact hmore.imp_left (·.step step)

theorem exists_not_whitespace (h : Text.isBlankText name = false) :
    ∃ c ∈ name.toList, Text.isWhitespace c = false := by
  simpa [Text.isBlankText] using h

/-- Evaluation only ever extends the global table: in a family of environments, where the only callable
that works on one is the builtin that evaluates its argument, and where forms are evaluated by any of
them and by the tasks that they start, to whatever end,

* a name that is bound at the start is bound at the end;
* a name that is bound at the end only has a character other than white space, and a form that defines
  it was compiled and run in the course of one of the evaluations;
* so a name that was found in the global table is found by every environment from then on, whatever
  its frames are.

Evaluations take turns here: a task stores before or after what another environment evaluates, and not
between two steps of it. -/
theorem evaluation_extends_globals (hconfig : config.Standard)
    (hmoves : ∀ move ∈ history, move.Evaluation) (hruns : Runs config F history stores G) :
    (∀ name, F.world.globals.contains name = true → G.world.globals.contains name = true) ∧
    (∀ name, F.world.globals.contains name = false → G.world.globals.contains name = true →
      (∃ c ∈ name.toList, Text.isWhitespace c = false) ∧ Defined config F history G name) ∧
    (∀ name, F.world.globals.contains name = true → ∀ stack : Stack,
      ∃ v t, Eval.resolve name ⟨stack, G.world⟩ = .ok v t) := by
  have hget := hruns.stored.get?_eq
  have hkept : ∀ name, F.world.globals.contains name = true →
      G.world.globals.contains name = true := by
    intro name hname
    rw [Bindings.contains, hget name, Option.isSome_or, Bool.or_eq_true]
    exact .inr hname
  refine ⟨hkept, fun name hunbound hbound => ?_, fun name hname stack => ?_⟩
  · rw [Bindings.contains, Option.isSome_eq_false_iff, Option.isNone_iff_eq_none] at hunbound
    rw [Bindings.contains, hget name, hunbound, Option.or_none] at hbound
    obtain ⟨v, hv⟩ := Option.isSome_iff_exists.mp hbound
    obtain ⟨front, back, rfl, -⟩ := List.lookup_eq_some_iff.mp hv
    obtain ⟨hdefined, hnamed⟩ := hruns.defined hconfig hmoves (name, v) (by simp)
    exact ⟨exists_not_whitespace hnamed, hdefined⟩
  · obtain ⟨global, hglobal⟩ := Option.isSome_iff_exists.mp (hkept name hname)
    obtain ⟨t, ht⟩ := lookup_eq name ⟨stack, G.world⟩
    rw [hglobal, Option.or_some] at ht
    exact ⟨_, t, bind_of_ok ht⟩

/-- An evaluation defines a name, starts a task and defines another name by a macro; then it fails.  The
task defines a third name, and there is a fork. -/
theorem failing_evaluation_extends_globals :
    Program.standardConfig.Standard ∧
    ∃ history stores G form t,
      (∀ move ∈ history, move.Evaluation) ∧
      Runs Program.standardConfig ⟨[.base], Program.standardWorld⟩ history stores G ∧
      history.head? = some (.request 0 (.eval form)) ∧
      interpret Program.standardConfig 8 (.eval form) ⟨.base, Program.standardWorld⟩ =
        .error (.error (.notFound "z")) t ∧
      (∀ name ∈ ["x", "y", "w"],
        Defined Program.standardConfig ⟨[.base], Program.standardWorld⟩ history G name) ∧
      ∀ stack : Stack, ∃ v t, Eval.resolve "list" ⟨stack, G.world⟩ = .ok v t := by
  have hconfig : Program.standardConfig.Standard := Builtins.library_standard rfl rfl rfl
  let call : Value := .list [.rewriter 0 "m" []
    (.list [.symbol "quote", .list [.symbol "def", .symbol "w", .int 3]])]
  let body : Value := .list [.symbol "def", .symbol "y", .int 2]
  let form : Value := .list [.symbol "do", .list [.symbol "def", .symbol "x", .int 1],
    .list [.symbol "go", body], call, .symbol "z"]
  let history : List Move :=
    [.request 0 (.eval form), .begin 1, .request 1 (.eval body), .fork 0]
  have hmoves : ∀ move ∈ history, move.Evaluation := by
    simp only [history, List.forall_mem_cons]
    exact ⟨.eval (.request 0 form), .begin 1, .eval (.request 1 body), .fork 0, nofun⟩
  obtain ⟨G, stores, hruns, hstores⟩ : ∃ G stores,
      Runs Program.standardConfig ⟨[.base], Program.standardWorld⟩ history stores G ∧
      stores = [("y", .int 2), ("w", .int 3), ("x", .int 1)] :=
    ⟨_, _, ((((Runs.refl.step
      (.request 8 [.lookup "z", .store "w" (.int 3), .lookup "def", .lookup "quote", .spawn 1 body,
        .lookup "go", .store "x" (.int 1), .lookup "def", .lookup "do"] rfl rfl rfl)).step
      (.begin rfl)).step (.request 8 [.store "y" (.int 2), .lookup "def"] rfl rfl rfl)).step
      (.fork rfl)), rfl⟩
  obtain ⟨-, hnew, hfound⟩ := evaluation_extends_globals hconfig hmoves hruns
  have hbound : ∀ name ∈ ["x", "y", "w"], G.world.globals.contains name = true := by
    intro name hname
    rw [Bindings.contains, hruns.stored.get?_eq, hstores]
    fin_cases hname <;> rfl
  have hunbound : ∀ name ∈ ["x", "y", "w"],
      Program.standardWorld.globals.contains name = false := by decide
  exact ⟨hconfig, history, stores, G, form, _, hmoves, hruns, rfl, rfl,
    fun name hname => (hnew name (hunbound name hname) (hbound name hname)).2,
    hfound "list" rfl⟩

end Family

end Lisp
