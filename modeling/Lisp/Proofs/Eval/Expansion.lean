import Lisp.Proofs.Eval.Context
import Lisp.Session.Basic

/-!
# Macro calls and their expansions

A call of a macro may be put for its expansion wherever a form is evaluated.  The two forms are
rewritten at different moments, by the analysis of a call around them or by the run of a special form
around them, and expand in the same way at each.

The application of the macro must leave all that evaluation can see as it was.  It is not enough that
it leaves the global table and the stack alone: a function of the host that keeps a count of its calls
tells a call of the macro from its expansion.
-/

namespace Lisp

def State.rewriter? (s : State) : Value → Option Interpreter.Rewriter
  | .symbol name => (s.value? name).bind Interpreter.Rewriter.ofValue?
  | head => Interpreter.Rewriter.ofValue? head

namespace Interpreter

variable {config : Config} {below : Interpreter} {m : Rewriter} {head : Value} {args : List Value}
  {e : Value} {s t u : State}

/-! ## 1. Compiling a list -/

theorem rewriter?_alike (hst : Alike s t) (head : Value) : t.rewriter? head = s.rewriter? head := by
  obtain ⟨journal, rfl⟩ := hst
  rfl

theorem macroOfHead_eq (head : Value) (s : State) :
    ∃ t, macroOfHead head s = .ok (s.rewriter? head) t ∧ Alike s t := by
  cases head with
  | symbol name =>
    simp only [macroOfHead, bind_eq, Eval.lookup, State.rewriter?, State.value?]
    cases Stack.find? name s.stack with
    | some v => exact ⟨s, rfl, .refl s⟩
    | none => exact ⟨_, rfl, _, rfl⟩
  | _ => exact ⟨s, rfl, .refl s⟩

theorem alike_of_macroOfHead {found : Option Rewriter} (h : macroOfHead head s = .ok found t) :
    Alike s t := by
  obtain ⟨u, hu, hsu⟩ := macroOfHead_eq head s
  rw [hu] at h
  cases h
  exact hsu

theorem level_compile_of_interrupted (h : s.world.isInterrupted = true) (form : Value) :
    level config below (.compile form) s = .error (.error .interrupted) s :=
  bind_of_error (Eval.checkInterrupt_of_interrupted h)

theorem level_compile_of_macro (hexpander : config.expander = .standard)
    (hrunning : s.world.isInterrupted = false) (hhead : macroOfHead head s = .ok (some m) t) :
    level config below (.compile (.list (head :: args))) s =
      (do
        let rewritten ← applyMacro config below m args
        below (.compile rewritten)) t := by
  rw [level, bind_of_ok (Eval.checkInterrupt_of_running hrunning)]
  simp only [expand, hexpander, expandOnce, bind_assoc]
  rw [bind_of_ok hhead]
  simp only [bind_assoc, pure_bind]

theorem level_compile_of_ordinary (hanalyzer : config.analyzer = .standard noSpecials)
    (hexpander : config.expander = .standard) (hrunning : s.world.isInterrupted = false)
    (hhead : macroOfHead head s = .ok none t) :
    level config below (.compile (.list (head :: args))) s =
      analyzeForm config noSpecials below (.list (head :: args)) t := by
  rw [level, bind_of_ok (Eval.checkInterrupt_of_running hrunning)]
  simp only [expand, hexpander, expandOnce, bind_assoc, analyze, hanalyzer]
  rw [bind_of_ok hhead]
  simp only [pure_bind]

/-! ## 2. Where the macro expands -/

/-- In a state the head of a call stands for the macro, and the macro gives the expansion for the
arguments and leaves nothing behind. -/
structure ExpandsTo (config : Config) (m : Rewriter) (head : Value) (args : List Value) (e : Value)
    (s : State) : Prop where
  head : s.rewriter? head = some m
  application : ∃ t, Ends config (fun below => applyMacro config below m args) s (.ok e t) ∧ Alike s t

theorem uniform_applyMacro (m : Rewriter) (args : List Value) :
    Uniform config fun below => applyMacro config below m args :=
  fun _ hR _ _ hbelow => applyMacro_simulates hR hbelow m args

theorem ExpandsTo.of_alike (h : ExpandsTo config m head args e s) (hst : Alike s t) :
    ExpandsTo config m head args e t := by
  obtain ⟨hhead, u, happly, hsu⟩ := h
  obtain ⟨result, hresult, hagree⟩ := (uniform_applyMacro m args).settles happly hst
  cases hagree with
  | ok _ hstates =>
    refine ⟨?_, _, hresult.ends, hst.symm.trans (hsu.trans hstates)⟩
    rw [rewriter?_alike hst, hhead]

/-- Wherever evaluation comes from a stage, the call in the hole expands, and the head of no list
around it stands for a macro. -/
structure Expandable (config : Config) (m : Rewriter) (head : Value) (args : List Value) (e : Value)
    (stage : Stage) (s : State) : Prop where
  hole : ∀ t, Relation.ReflTransGen (Enters config (.list (head :: args))) (stage, s)
    (.compile .hole, t) → ExpandsTo config m head args e t
  heads : ∀ C h t, Relation.ReflTransGen (Enters config (.list (head :: args))) (stage, s)
    (.compile C, t) → C.head? = some h → t.rewriter? h = none

theorem Expandable.step {stage stage' : Stage} (h : Expandable config m head args e stage s)
    (hstep : Enters config (.list (head :: args)) (stage, s) (stage', t)) :
    Expandable config m head args e stage' t where
  hole u hu := h.hole u (hu.head hstep)
  heads C outer u hu := h.heads C outer u (hu.head hstep)

/-- The expressions that a context has for two forms in its hole: the same but for the parts that are
left to the run. -/
inductive Twins (x y : Value) : Context → Expr → Expr → Prop where
  | hole (i : Expr) : Twins x y .hole i i
  | argument {head : Value} {ordinary : specialOfHead noSpecials head = none}
      {before after : List Value} {inner : Context} {i i' : Expr} (name : String) (target : Expr)
      (es es' : List Expr) (hlength : es.length = before.length) (hinner : Twins x y inner i i') :
      Twins x y (.argument head ordinary before inner after) (.invoke name target (es ++ i :: es'))
        (.invoke name target (es ++ i' :: es'))
  | part {slot : Slot} {inner : Context} {i i' : Expr}
      (h : slot.form.parse (slot.parts (inner.fill x)) = .ok i)
      (h' : slot.form.parse (slot.parts (inner.fill y)) = .ok i') :
      Twins x y (.part slot inner) i i'

/-! ## 3. Correspondence -/

theorem compile_interrupted (hst : Alike s t) (h : s.world.isInterrupted = true) (form form' : Value)
    {Q : Expr → Expr → Prop} :
    Corresponds config Q (fun below => below (.compile form)) (fun below => below (.compile form'))
      s t :=
  .level (.compile form) (.compile form') (.congr (fun _ => level_compile_of_interrupted h form)
    (fun _ => level_compile_of_interrupted (hst.isInterrupted_eq.trans h) form') (.fail _ hst))

theorem compile_hole (hexpander : config.expander = .standard) (hst : Alike s t)
    (h : ExpandsTo config m head args e s) {Q : Expr → Expr → Prop} (hQ : ∀ i, Q i i) :
    Corresponds config Q (fun below => below (.compile (.list (head :: args))))
      (fun below => below (.compile e)) s t := by
  cases hrunning : s.world.isInterrupted with
  | true => exact compile_interrupted hst hrunning _ e
  | false =>
    -- The macro is applied in the state that the search for it leaves behind.
    obtain ⟨u, hu, hsu⟩ := macroOfHead_eq head s
    rw [h.head] at hu
    obtain ⟨v, happly, huv⟩ := (h.of_alike hsu).application
    refine .level_left (.compile _) (.congr (fun _ => level_compile_of_macro hexpander hrunning hu)
      (fun _ => rfl) (.of_left (uniform_applyMacro m args) happly ?_))
    exact .same (Uniform.request (.compile e)) hQ ((hsu.trans huv).symm.trans hst)

theorem compile_list (hanalyzer : config.analyzer = .standard noSpecials)
    (hexpander : config.expander = .standard) (hst : Alike s t) {args' : List Value}
    {Q : Expr → Expr → Prop} (hhead : s.rewriter? head = none)
    (h : ∀ u v, s.world.isInterrupted = false → macroOfHead head s = .ok none u → Alike u v →
      Corresponds config Q (fun below => analyzeForm config noSpecials below (.list (head :: args)))
        (fun below => analyzeForm config noSpecials below (.list (head :: args'))) u v) :
    Corresponds config Q (fun below => below (.compile (.list (head :: args))))
      (fun below => below (.compile (.list (head :: args')))) s t := by
  cases hrunning : s.world.isInterrupted with
  | true => exact compile_interrupted hst hrunning _ _
  | false =>
    obtain ⟨u, hu, hsu⟩ := macroOfHead_eq head s
    obtain ⟨v, hv, htv⟩ := macroOfHead_eq head t
    rw [hhead] at hu
    rw [rewriter?_alike hst, hhead] at hv
    have hrunning' := hst.isInterrupted_eq.trans hrunning
    exact .level (.compile _) (.compile _)
      (.congr (fun _ => level_compile_of_ordinary hanalyzer hexpander hrunning hu)
        (fun _ => level_compile_of_ordinary hanalyzer hexpander hrunning' hv)
        (h u v hrunning hu (hsu.symm.trans (hst.trans htv))))

/-- In a context the call and its expansion are compiled to twins, and twins run alike. -/
structure Interchangeable (config : Config) (m : Rewriter) (head : Value) (args : List Value)
    (e : Value) (C : Context) : Prop where
  compile : ∀ {s t}, Alike s t → Expandable config m head args e (.compile C) s →
    Corresponds config (Twins (.list (head :: args)) e C)
      (fun below => below (.compile (C.fill (.list (head :: args)))))
      (fun below => below (.compile (C.fill e))) s t
  run : ∀ {s t i i'}, Alike s t → Expandable config m head args e (.run C i) s →
    Twins (.list (head :: args)) e C i i' →
    Corresponds config Eq (fun below => below (.run i)) (fun below => below (.run i')) s t

section

variable {C : Context} {slot : Slot} {outer : Value} {before after : List Value}
  {ordinary : specialOfHead noSpecials outer = none}

theorem Interchangeable.eval (h : Interchangeable config m head args e C) (hst : Alike s t)
    (hexpandable : Expandable config m head args e (.eval C) s) :
    Corresponds config Eq (fun below => below (.eval (C.fill (.list (head :: args)))))
      (fun below => below (.eval (C.fill e))) s t := by
  refine .level (.eval (C.fill (.list (head :: args)))) (.eval (C.fill e)) ?_
  refine .bind (h.compile hst (hexpandable.step .compile)) fun i i' u v hi _ htwins huv => ?_
  exact h.run huv (hexpandable.step (.run hi)) htwins

theorem interchangeable_hole (hexpander : config.expander = .standard) :
    Interchangeable config m head args e .hole where
  compile hst h := compile_hole hexpander hst (h.hole _ .refl) .hole
  run hst _ htwins := by
    cases htwins
    exact .same (Uniform.request (.run _)) (fun _ => rfl) hst

theorem interchangeable_argument (hanalyzer : config.analyzer = .standard noSpecials)
    (hexpander : config.expander = .standard) (ih : Interchangeable config m head args e C) :
    Interchangeable config m head args e (.argument outer ordinary before C after) where
  compile {s t} hst h := by
    refine compile_list hanalyzer hexpander hst (h.heads _ outer s .refl rfl)
      fun u v hrunning hhead huv => ?_
    -- The analysis is cut at the argument: what comes before it and behind it is the same in both
    -- forms, and the argument itself has twins for expressions.
    refine .congr (fun _ => congrFun (analyzeForm_argument ordinary before _ after) u)
      (fun _ => congrFun (analyzeForm_argument ordinary before _ after) v) ?_
    refine .bind_same (uniform_compileBefore outer before) huv fun compiled u v hbefore huv => ?_
    refine .bind (ih.compile huv (h.step (.compileArgument hrunning hhead hbefore)))
      fun i i' u v _ _ htwins huv => ?_
    have huniform : Uniform config fun below => after.mapM fun arg => below (.compile arg) :=
      fun _ _ _ _ hbelow => .mapM (fun arg => hbelow (.compile arg)) after
    refine .bind_same huniform huv fun es u v _ huv => ?_
    exact .pure (.argument _ _ _ es (length_of_compileBefore hbefore) htwins) huv
  run {s t _ _} hst h htwins := by
    cases htwins with
    | @argument _ _ _ _ _ i i' name target es es' hlength hinner =>
      refine .level (.run (.invoke name target (es ++ i :: es')))
        (.run (.invoke name target (es ++ i' :: es'))) ?_
      -- Twins run alike, so the call is made with the same arguments.
      refine .congr (fun _ => congrFun (invoke_argument name target es i es') s)
        (fun _ => congrFun (invoke_argument name target es i' es') t) ?_
      refine .bind_same (uniform_runBefore target es) hst fun called u v hbefore huv => ?_
      refine .bind (ih.run huv (h.step (.runArgument hlength hbefore)) hinner)
        fun a b u v _ _ hab huv => ?_
      subst hab
      exact .same (uniform_runAfter name called a es') (fun _ => rfl) huv

theorem specialOfHead_name (form : SpecialForm) :
    specialOfHead noSpecials (.symbol form.name) =
      some fun parts => .ofExcept (form.parse parts) := by
  cases form <;> rfl

theorem interchangeable_part (hanalyzer : config.analyzer = .standard noSpecials)
    (hexpander : config.expander = .standard) (ih : Interchangeable config m head args e C) :
    Interchangeable config m head args e (.part slot C) where
  compile {s t} hst h := by
    refine compile_list hanalyzer hexpander hst (h.heads _ _ s .refl rfl) fun u v _ _ huv => ?_
    simp only [analyzeForm, specialOfHead_name]
    -- The parts are not looked at, so what is in the place makes no difference yet.
    obtain ⟨i, i', hi, hi'⟩ | ⟨err, herr, herr'⟩ :=
      slot.parse_parts (C.fill (.list (head :: args))) (C.fill e)
    · rw [hi, hi']
      exact .pure (.part hi hi') huv
    · rw [herr, herr']
      exact .fail err huv
  run {s t i i'} hst h htwins := by
    cases htwins with
    | part hi hi' =>
      -- Only now the part is rewritten, where the run comes to it at all.
      refine .level (.run i) (.run i') ?_
      refine .congr (fun below => congrFun (Slot.runExpr_eq hi below) s)
        (fun below => congrFun (Slot.runExpr_eq hi' below) t) ?_
      refine .bind_same slot.uniform_before hst fun answer u v hbefore huv => ?_
      cases answer with
      | some w => exact .pure rfl huv
      | none =>
        refine .bind (ih.eval huv (h.step (.part hi hbefore))) fun a b u v _ _ hab huv => ?_
        subst hab
        exact .same (slot.uniform_after a) (fun _ => rfl) huv

theorem interchangeable (hanalyzer : config.analyzer = .standard noSpecials)
    (hexpander : config.expander = .standard) (C : Context) :
    Interchangeable config m head args e C := by
  induction C with
  | hole => exact interchangeable_hole hexpander
  | argument outer ordinary before inner after ih =>
    exact interchangeable_argument hanalyzer hexpander ih
  | part slot inner ih => exact interchangeable_part hanalyzer hexpander ih

end

/-! ## 4. Macro calls and their expansions -/

/-- A macro call may be put for its expansion in every evaluated place.  Let the call expand wherever
evaluation comes to it, with no effect but on the journal, and let no head of a list around it stand
for a macro where that list is compiled.  Then whatever evaluation of the one form ends in, evaluation
of the other ends in too: the same value, error or panic, in states that differ in the journal at
most. -/
theorem macro_call_stands_for_expansion (hanalyzer : config.analyzer = .standard noSpecials)
    (hexpander : config.expander = .standard) {C : Context}
    (hhole : ∀ t, Visits config (.list (head :: args)) C s (.compile .hole) t →
      ExpandsTo config m head args e t)
    (hheads : ∀ D outer t, Visits config (.list (head :: args)) C s (.compile D) t →
      D.head? = some outer → t.rewriter? outer = none) :
    (∀ result, Answers config (.eval (C.fill (.list (head :: args)))) s result →
      ∃ result', Answers config (.eval (C.fill e)) s result' ∧ Agree Alike result result') ∧
    (∀ result', Answers config (.eval (C.fill e)) s result' →
      ∃ result, Answers config (.eval (C.fill (.list (head :: args)))) s result ∧
        Agree Alike result result') := by
  have hcorresponds := (interchangeable hanalyzer hexpander C).eval (.refl s) ⟨hhole, hheads⟩
  constructor
  · intro result hresult
    obtain ⟨result', hsettles, hmatches⟩ := hcorresponds.1 result hresult
    exact ⟨result', hsettles.ends, hmatches.agree⟩
  · intro result' hresult'
    obtain ⟨result, hsettles, hmatches⟩ := hcorresponds.2 result' hresult'
    exact ⟨result, hsettles.ends, hmatches.agree_flip⟩

/-! ## 5. A macro without effects -/

def doubling : Rewriter :=
  ⟨"both", ["x"], .list [.symbol "list", .list [.symbol "quote", .symbol "list"], .symbol "x",
    .symbol "x"]⟩

def doublingState : State :=
  ⟨.base, Program.standardWorld.storeAll
    [("both", .rewriter 0 doubling.name doubling.params doubling.body), ("y", .int 3)]⟩

def doublingCall : Value := .list [.symbol "both", .symbol "y"]

def doublingSlot : Slot := .consequent (.bool true) none

def doublingContext : Context := .argument (.symbol "list") rfl [] (.part doublingSlot .hole) []

def doublingTarget : Expr := .const ((Program.standardWorld.globals.get? "list").getD .nil)

def doublingChoice : Expr := .choice (.bool true) doublingCall none

def DoublingStage : Stage → Prop
  | .eval D => D = doublingContext ∨ D = .hole
  | .compile D => D = doublingContext ∨ D = .part doublingSlot .hole ∨ D = .hole
  | .run D i => (D = doublingContext ∧ i = .invoke "list" doublingTarget [doublingChoice]) ∨
    (D = .part doublingSlot .hole ∧ i = doublingChoice) ∨ D = .hole

theorem doubling_expands :
    ExpandsTo Program.standardConfig doubling (.symbol "both") [.symbol "y"]
      (.list [.symbol "list", .symbol "y", .symbol "y"]) doublingState where
  head := rfl
  application := ⟨_, ⟨12, rfl, id⟩, _, rfl⟩

theorem doubling_compile_call : ∃ i t, Answers Program.standardConfig (.compile doublingCall)
    doublingState (.ok i t) ∧ Alike doublingState t :=
  ⟨_, _, ⟨16, rfl, id⟩, _, rfl⟩

theorem doubling_compile : ∃ t, Answers Program.standardConfig
    (.compile (doublingContext.fill doublingCall)) doublingState
    (.ok (.invoke "list" doublingTarget [doublingChoice]) t) ∧ Alike doublingState t :=
  ⟨_, ⟨12, rfl, id⟩, _, rfl⟩

theorem doubling_compileBefore : ∃ compiled t, Ends Program.standardConfig
    (compileBefore (.symbol "list") []) doublingState (.ok compiled t) ∧ Alike doublingState t :=
  ⟨_, _, ⟨12, rfl, id⟩, _, rfl⟩

theorem doubling_runBefore : ∃ called, Ends Program.standardConfig
    (runBefore doublingTarget []) doublingState (.ok called doublingState) :=
  ⟨_, 12, rfl, id⟩

theorem doubling_before : Ends Program.standardConfig (fun below => doublingSlot.before below)
    doublingState (.ok none doublingState) :=
  ⟨12, rfl, id⟩

theorem doubling_stages {p : Stage × State}
    (h : Relation.ReflTransGen (Enters Program.standardConfig doublingCall)
      (.eval doublingContext, doublingState) p) :
    DoublingStage p.1 ∧ Alike doublingState p.2 := by
  -- Each stage is known from the one before, since what is done between them has one end only.
  induction h with
  | refl => exact ⟨.inl rfl, .refl _⟩
  | tail _ hstep ih =>
    obtain ⟨hstage, hstate⟩ := ih
    cases hstep with
    | compile =>
      refine ⟨?_, hstate⟩
      obtain rfl | rfl := hstage
      · exact .inl rfl
      · exact .inr (.inr rfl)
    | run hcompile =>
      obtain rfl | rfl := hstage
      · obtain ⟨u, hu, hsu⟩ := doubling_compile
        obtain ⟨rfl, hstate⟩ := (Uniform.request (.compile _)).ok_alike hu hsu hstate hcompile
        exact ⟨.inl ⟨rfl, rfl⟩, hstate⟩
      · obtain ⟨i, u, hu, hsu⟩ := doubling_compile_call
        obtain ⟨rfl, hstate⟩ := (Uniform.request (.compile _)).ok_alike hu hsu hstate hcompile
        exact ⟨.inr (.inr rfl), hstate⟩
    | compileArgument hrunning hhead hbefore =>
      obtain hC | hC | hC := hstage <;> cases hC
      obtain ⟨compiled, u, hu, hsu⟩ := doubling_compileBefore
      obtain ⟨rfl, hstate⟩ := (uniform_compileBefore _ _).ok_alike hu hsu
        (hstate.trans (alike_of_macroOfHead hhead)) hbefore
      exact ⟨.inr (.inl rfl), hstate⟩
    | @runArgument _ _ _ _ _ _ _ _ _ _ es _ _ hlength hbefore =>
      obtain ⟨hC, hi⟩ | ⟨hC, -⟩ | hC := hstage <;> cases hC
      obtain rfl := List.length_eq_zero_iff.mp hlength
      cases hi
      obtain ⟨called, hends⟩ := doubling_runBefore
      obtain ⟨rfl, hstate⟩ := (uniform_runBefore _ _).ok_alike hends (.refl _) hstate hbefore
      exact ⟨.inr (.inl ⟨rfl, rfl⟩), hstate⟩
    | part hparse hbefore =>
      obtain ⟨hC, -⟩ | ⟨hC, -⟩ | hC := hstage <;> cases hC
      have hends := doublingSlot.uniform_before.ok_alike doubling_before (.refl _) hstate hbefore
      exact ⟨.inr rfl, hends.2⟩

theorem macro_call_stands_for_expansion_doubling :
    (∀ t, Visits Program.standardConfig (.list [.symbol "both", .symbol "y"]) doublingContext
        doublingState (.compile .hole) t →
      ExpandsTo Program.standardConfig doubling (.symbol "both") [.symbol "y"]
        (.list [.symbol "list", .symbol "y", .symbol "y"]) t) ∧
    (∀ D outer t, Visits Program.standardConfig (.list [.symbol "both", .symbol "y"]) doublingContext
        doublingState (.compile D) t →
      D.head? = some outer → t.rewriter? outer = none) ∧
    ∃ t t', Answers Program.standardConfig
        (.eval (doublingContext.fill (.list [.symbol "both", .symbol "y"]))) doublingState
        (.ok (.list [.list [.int 3, .int 3]]) t) ∧
      Answers Program.standardConfig
        (.eval (doublingContext.fill (.list [.symbol "list", .symbol "y", .symbol "y"])))
        doublingState (.ok (.list [.list [.int 3, .int 3]]) t') ∧
      Alike t t' := by
  have hhole : ∀ t, Visits Program.standardConfig (.list [.symbol "both", .symbol "y"])
      doublingContext doublingState (.compile .hole) t →
      ExpandsTo Program.standardConfig doubling (.symbol "both") [.symbol "y"]
        (.list [.symbol "list", .symbol "y", .symbol "y"]) t :=
    fun t ht => doubling_expands.of_alike (doubling_stages ht).2
  have hheads : ∀ D outer t, Visits Program.standardConfig (.list [.symbol "both", .symbol "y"])
      doublingContext doublingState (.compile D) t →
      D.head? = some outer → t.rewriter? outer = none := by
    intro D outer t ht houter
    obtain ⟨hstage, hstate⟩ := doubling_stages ht
    rw [rewriter?_alike hstate]
    obtain rfl | rfl | rfl := hstage <;> cases houter <;> rfl
  -- The call evaluates by computation, and with it the expansion.
  obtain ⟨result, hresult, hagree⟩ :=
    (macro_call_stands_for_expansion rfl rfl hhole hheads).1 (.ok (.list [.list [.int 3, .int 3]]) _)
      ⟨16, rfl, id⟩
  cases hagree with
  | ok _ hstates => exact ⟨hhole, hheads, _, _, ⟨16, rfl, id⟩, hresult, hstates⟩

/-! ## 6. A macro with an effect -/

/-- A macro that calls the counter of the host before it gives its expansion. -/
def counting : Rewriter :=
  ⟨"m", [], .list [.symbol "do", .list [.symbol "tick"], .list [.symbol "quote", .int 5]]⟩

def countingConfig : Config := { Program.standardConfig with host := Session.library.host }

def countingState : State :=
  ⟨.base, (World.empty.storeAll Session.library.bindings).store "m"
    (.rewriter 0 counting.name counting.params counting.body)⟩

def countingContext : Context :=
  .argument (.symbol "list") rfl [] .hole [.list [.symbol "tick"]]

def CountingStage (t : State) : Stage → Prop
  | .eval D => D = countingContext ∧ Alike countingState t
  | .compile D => (D = countingContext ∨ D = .hole) ∧ Alike countingState t
  | .run D _ => D = countingContext ∨ D = .hole

theorem counting_compileBefore : ∃ compiled t, Ends countingConfig
    (compileBefore (.symbol "list") []) countingState (.ok compiled t) ∧ Alike countingState t :=
  ⟨_, _, ⟨12, rfl, id⟩, _, rfl⟩

theorem counting_stages {x : Value} {p : Stage × State}
    (h : Relation.ReflTransGen (Enters countingConfig x) (.eval countingContext, countingState) p) :
    CountingStage p.2 p.1 := by
  induction h with
  | refl => exact ⟨rfl, .refl _⟩
  | tail _ hstep ih =>
    cases hstep with
    | compile => exact ⟨.inl ih.1, ih.2⟩
    | run _ => exact .inl ih.1
    | compileArgument hrunning hhead hbefore =>
      obtain ⟨hC | hC, hstate⟩ := ih <;> cases hC
      obtain ⟨compiled, u, hu, hsu⟩ := counting_compileBefore
      obtain ⟨rfl, hstate⟩ := (uniform_compileBefore _ _).ok_alike hu hsu
        (hstate.trans (alike_of_macroOfHead hhead)) hbefore
      exact ⟨.inr rfl, hstate⟩
    | runArgument hlength hbefore =>
      obtain hC | hC := ih <;> cases hC
      exact .inr rfl
    | part hparse hbefore => obtain hC | hC := ih <;> cases hC

theorem counting_applies : ∃ t, Ends countingConfig
    (fun below => applyMacro countingConfig below counting []) countingState (.ok (.int 5) t) ∧
    t.stack = countingState.stack ∧ t.world.globals = countingState.world.globals :=
  ⟨_, ⟨12, rfl, id⟩, rfl, rfl⟩

/-- A macro that leaves the global table and the stack alone wherever the hole is reached, with either
form in it, and yet is told from its expansion: it has called the counter. -/
theorem counting_tells_call_from_expansion :
    countingConfig.analyzer = .standard noSpecials ∧ countingConfig.expander = .standard ∧
    countingState.world.isInterrupted = false ∧
    (∀ x, x = .list [.symbol "m"] ∨ x = .int 5 →
      (∀ t, Visits countingConfig x countingContext countingState (.compile .hole) t →
        t.rewriter? (.symbol "m") = some counting ∧
        ∃ u, Ends countingConfig (fun below => applyMacro countingConfig below counting []) t
            (.ok (.int 5) u) ∧
          u.stack = t.stack ∧ u.world.globals = t.world.globals) ∧
      ∀ D outer t, Visits countingConfig x countingContext countingState (.compile D) t →
        D.head? = some outer → t.rewriter? outer = none) ∧
    ∃ t t', Answers countingConfig (.eval (countingContext.fill (.list [.symbol "m"])))
        countingState (.ok (.list [.int 5, .int 1]) t) ∧
      Answers countingConfig (.eval (countingContext.fill (.int 5))) countingState
        (.ok (.list [.int 5, .int 0]) t') := by
  refine ⟨rfl, rfl, rfl, fun x _ => ⟨?_, ?_⟩, _, _, ⟨16, rfl, id⟩, ⟨16, rfl, id⟩⟩
  · intro t ht
    obtain ⟨-, hstate⟩ : CountingStage t (.compile .hole) := counting_stages ht
    obtain ⟨u, happly, hstack, hglobals⟩ := counting_applies
    obtain ⟨result, hresult, hagree⟩ := (uniform_applyMacro counting []).settles happly hstate
    cases hagree with
    | ok _ hu =>
      refine ⟨rewriter?_alike hstate _, _, hresult.ends, ?_, ?_⟩
      · rw [hu.stack_eq, hstack, hstate.stack_eq]
      · rw [hu.globals_eq, hglobals, hstate.globals_eq]
  · intro D outer t ht houter
    obtain ⟨hD, hstate⟩ : CountingStage t (.compile D) := counting_stages ht
    rw [rewriter?_alike hstate]
    obtain rfl | rfl := hD <;> cases houter
    rfl

end Interpreter

end Lisp
