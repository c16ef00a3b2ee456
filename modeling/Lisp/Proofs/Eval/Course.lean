import Lisp.Proofs.Eval.Context
import Lisp.Proofs.Eval.Operations

/-!
# The course of an evaluation

To answer a request the interpreter makes others of the level below, each in a state that the ones
before it have left behind: `Asks` says which, for a configuration with the usual special forms and
macros.  The `Course` of a request holds all that is asked on the way, at any depth, whatever comes of
the request.

All that a level does to the global table, it does by what it asks of the level below, except for the
store that ends a definition: `level_storesWithin`.
-/

namespace Lisp

variable {α β : Type} {config : Config} {s : State}

/-! ## 1. Stores of an activity -/

/-- From that state the activity stores nothing but such names, whatever it ends in. -/
def StoresWithin (names : String → Prop) (act : Eval α) (s : State) : Prop :=
  ∃ stores, Stored s.world stores (Program.stateOf (act s)).world ∧
    ∀ entry ∈ stores, names entry.1

namespace StoresWithin

variable {names more : String → Prop} {act : Eval α} {f : α → Eval β}

theorem mono (h : StoresWithin names act s) (hmore : ∀ name, names name → more name) :
    StoresWithin more act s := by
  obtain ⟨stores, hstored, hnames⟩ := h
  exact ⟨stores, hstored, fun entry hentry => hmore _ (hnames entry hentry)⟩

theorem of_operation (config : Config) (op : Operation)
    (h : Program.stateOf (act s) = op.after config s)
    (hnames : ∀ entry ∈ op.stores s.stack, names entry.1) : StoresWithin names act s := by
  refine ⟨_, ?_, hnames⟩
  rw [h]
  exact op.stored_after s

theorem of_same (h : Program.stateOf (act s) = s) : StoresWithin names act s := by
  refine ⟨[], ?_, nofun⟩
  rw [h]
  exact .refl s.world

theorem pure (a : α) : StoresWithin names (pure a : Eval α) s := of_same rfl

theorem throw (stop : Stop) : StoresWithin names (throw stop : Eval α) s := of_same rfl

theorem fail (e : Error) : StoresWithin names (Eval.fail e : Eval α) s := .throw (.error e)

theorem bind (hact : StoresWithin names act s)
    (hf : ∀ a t, act s = .ok a t → StoresWithin names (f a) t) :
    StoresWithin names (act >>= f) s := by
  obtain ⟨stores, hstored, hnames⟩ := hact
  unfold StoresWithin
  rw [bind_eq]
  cases hresult : act s with
  | error stop t =>
    rw [hresult] at hstored
    exact ⟨stores, hstored, hnames⟩
  | ok a t =>
    rw [hresult] at hstored
    obtain ⟨later, hlater, hmore⟩ := hf a t hresult
    refine ⟨later ++ stores, hstored.trans hlater, fun entry hentry => ?_⟩
    exact (List.mem_append.mp hentry).elim (hmore entry) (hnames entry)

theorem attempt (hact : StoresWithin names act s) : StoresWithin names (Eval.attempt act) s := by
  unfold StoresWithin
  rw [Composed.stateOf_attempt]
  exact hact

theorem mapM {act : α → Eval β} {as : List α}
    (hact : ∀ before a after bs t, as = before ++ a :: after → before.mapM act s = .ok bs t →
      StoresWithin names (act a) t) : StoresWithin names (as.mapM act) s := by
  induction as generalizing s with
  | nil => exact pure []
  | cons a as ih =>
    rw [List.mapM_cons]
    refine (hact [] a as [] s rfl rfl).bind fun b t hb => ?_
    refine (ih fun before a' after bs u has hbs => ?_).bind fun bs u _ => pure (b :: bs)
    refine hact (a :: before) a' after (b :: bs) u (by rw [has, List.cons_append]) ?_
    rw [List.mapM_cons, bind_of_ok hb]
    exact bind_of_ok hbs

theorem foldlM {act : β → α → Eval β} {as : List α} {b : β}
    (hact : ∀ before a after b' t, as = before ++ a :: after → before.foldlM act b s = .ok b' t →
      StoresWithin names (act b' a) t) : StoresWithin names (as.foldlM act b) s := by
  induction as generalizing s b with
  | nil => exact pure b
  | cons a as ih =>
    rw [List.foldlM_cons]
    refine (hact [] a as b s rfl rfl).bind fun b' t hb => ih fun before a' after b'' u has hbs => ?_
    refine hact (a :: before) a' after b'' u (by rw [has, List.cons_append]) ?_
    rw [List.foldlM_cons, bind_of_ok hb]
    exact hbs

theorem lookup (config : Config) (name : String) : StoresWithin names (Eval.lookup name) s :=
  of_operation config (.lookup name) rfl nofun

theorem leave (config : Config) (result : Except Error α) :
    StoresWithin names (Eval.leave result) s := by
  have hpop : StoresWithin names Eval.pop s := of_operation config .pop rfl nofun
  refine hpop.bind fun _ t _ => ?_
  cases result with
  | ok a => exact pure a
  | error e => exact fail e

theorem withFrame {frame : Frame}
    (hact : ∀ t, Eval.push config.maxDepth frame s = .ok () t → StoresWithin names act t) :
    StoresWithin names (Eval.withFrame config.maxDepth frame act) s := by
  have hpush : StoresWithin names (Eval.push config.maxDepth frame) s :=
    of_operation config (.push frame) rfl nofun
  rw [Eval.withFrame_def]
  exact hpush.bind fun _ t ht => (hact t ht).attempt.bind fun result _ _ => leave config result

theorem checkInterrupt_bind {f : Unit → Eval α}
    (hf : s.world.isInterrupted = false → StoresWithin names (f ()) s) :
    StoresWithin names (Eval.checkInterrupt >>= f) s := by
  cases hinterrupt : s.world.isInterrupted with
  | true =>
    refine of_same ?_
    rw [bind_of_error (Eval.checkInterrupt_of_interrupted hinterrupt)]
    rfl
  | false =>
    have hcheck := Eval.checkInterrupt_of_running hinterrupt
    refine (of_same ?_).bind fun _ t ht => ?_
    · rw [hcheck]
      rfl
    · cases hcheck.symm.trans ht
      exact hf hinterrupt

end StoresWithin

namespace Interpreter

/-! ## 2. What a level asks of the one below -/

/-- For an answer in the first state, a level asks the one below for another answer in the second
state. -/
inductive Asks (config : Config) (below : Interpreter) : Request → State → Request → State → Prop
  | compile {form : Value} {s : State} : Asks config below (.eval form) s (.compile form) s
  | run {form : Value} {e : Expr} {s t : State} (compiled : below (.compile form) s = .ok e t) :
      Asks config below (.eval form) s (.run e) t
  /-- The body of a macro is evaluated in a frame with the parameters bound. -/
  | macroBody {head : Value} {args : List Value} {m : Rewriter} {s t u : State}
      (running : s.world.isInterrupted = false) (found : macroOfHead head s = .ok (some m) t)
      (arity : args.length = m.params.length)
      (room : Eval.push config.maxDepth ⟨m.name, args, .ofList (m.params.zip args)⟩ t = .ok () u) :
      Asks config below (.compile (.list (head :: args))) s (.eval m.body) u
  | rewritten {form rewritten : Value} {s t : State} (running : s.world.isInterrupted = false)
      (expanded : expandOnce config below form s = .ok (some rewritten) t) :
      Asks config below (.compile form) s (.compile rewritten) t
  | head {head : Value} {args : List Value} {s t : State} (running : s.world.isInterrupted = false)
      (plain : macroOfHead head s = .ok none t) (ordinary : specialOfHead noSpecials head = none) :
      Asks config below (.compile (.list (head :: args))) s (.compile head) t
  | argument {head x : Value} {before after : List Value} {compiled : Expr × List Expr}
      {s t u : State} (running : s.world.isInterrupted = false)
      (plain : macroOfHead head s = .ok none t) (ordinary : specialOfHead noSpecials head = none)
      (earlier : compileBefore head before below t = .ok compiled u) :
      Asks config below (.compile (.list (head :: (before ++ x :: after)))) s (.compile x) u
  | target {name : String} {target : Expr} {args : List Expr} {s : State}
      (running : s.world.isInterrupted = false) :
      Asks config below (.run (.invoke name target args)) s (.run target) s
  | operand {name : String} {target e : Expr} {before after : List Expr}
      {called : Callee × List Value} {s t : State}
      (earlier : runBefore target before below s = .ok called t) :
      Asks config below (.run (.invoke name target (before ++ e :: after))) s (.run e) t
  /-- The builtin evaluates the value of its argument, in the frame of the call. -/
  | argumentForm {name : String} {target : Expr} {args : List Expr} {f : InvokableRef} {form : Value}
      {s t u : State} (earlier : runBefore target args below s = .ok (.invokable f, [form]) t)
      (builtin : config.host.invokable f [form] = Builtins.evalArgument [form])
      (entered : Eval.enter config.maxDepth name (.invokable f) [form] t = .ok () u) :
      Asks config below (.run (.invoke name target args)) s (.eval form) u
  | definition {name : String} {form : Value} {s : State} :
      Asks config below (.run (.define name form)) s (.eval form) s
  | test {test yes : Value} {no : Option Value} {s : State} :
      Asks config below (.run (.choice test yes no)) s (.eval test) s
  | consequent {test yes v : Value} {no : Option Value} {s t : State}
      (earlier : below (.eval test) s = .ok v t) (truthy : v.isTruthy = true) :
      Asks config below (.run (.choice test yes no)) s (.eval yes) t
  | alternative {test yes no v : Value} {s t : State}
      (earlier : below (.eval test) s = .ok v t) (falsy : v.isTruthy = false) :
      Asks config below (.run (.choice test yes (some no))) s (.eval no) t
  | item {form v : Value} {before after : List Value} {s t : State}
      (earlier : Slot.runItems below before .nil s = .ok v t)
      (running : t.world.isInterrupted = false) :
      Asks config below (.run (.sequence (before ++ form :: after))) s (.eval form) t

/-- What is asked on the way to an answer with that many levels: the request itself, and all that is
asked of a level below, each with the number of levels that it has. -/
inductive Course (config : Config) : Nat → Request → State → Nat → Request → State → Prop
  | here {levels : Nat} {r : Request} {s : State} : Course config levels r s levels r s
  | next {levels n : Nat} {r r' r'' : Request} {s s' s'' : State}
      (asks : Asks config (interpret config levels) r s r' s')
      (rest : Course config levels r' s' n r'' s'') : Course config (levels + 1) r s n r'' s''

/-! ## 3. Stores of a level -/

variable {below : Interpreter} {names : String → Prop}

theorem ok_of_bind {act : Eval α} {f : α → Eval β} {b : β} {t : State}
    (h : (act >>= f) s = .ok b t) :
    ∃ a u, act s = .ok a u ∧ f a u = .ok b t := by
  rw [bind_eq] at h
  cases hact : act s with
  | ok a u =>
    rw [hact] at h
    exact ⟨a, u, rfl, h⟩
  | error stop u =>
    rw [hact] at h
    cases h

theorem applyMacro_storesWithin {m : Rewriter} {args : List Value}
    (hbody : args.length = m.params.length → ∀ t,
      Eval.push config.maxDepth ⟨m.name, args, .ofList (m.params.zip args)⟩ s = .ok () t →
        StoresWithin names (below (.eval m.body)) t) :
    StoresWithin names (applyMacro config below m args) s := by
  unfold applyMacro
  split
  · rename_i harity
    exact .withFrame fun t ht => hbody harity t ht
  · exact .fail _

theorem macroOfHead_storesWithin (config : Config) (head : Value) :
    StoresWithin names (macroOfHead head) s := by
  cases head with
  | symbol name => exact (StoresWithin.lookup config name).bind fun _ _ _ => .pure _
  | _ => exact .pure _

theorem expandOnce_storesWithin {form : Value} (hrunning : s.world.isInterrupted = false)
    (hbelow : ∀ r t, Asks config below (.compile form) s r t → StoresWithin names (below r) t) :
    StoresWithin names (expandOnce config below form) s := by
  cases form with
  | list items =>
    cases items with
    | nil => exact .pure none
    | cons head args =>
      refine (macroOfHead_storesWithin config head).bind fun found t hfound => ?_
      cases found with
      | none => exact .pure none
      | some m =>
        refine (applyMacro_storesWithin fun harity u hroom => ?_).bind fun _ _ _ => .pure _
        exact hbelow _ _ (.macroBody hrunning hfound harity hroom)
  | _ => exact .pure none

theorem macroOfHead_of_expandOnce {head : Value} {args : List Value} {t : State}
    (h : expandOnce config below (.list (head :: args)) s = .ok none t) :
    macroOfHead head s = .ok none t := by
  obtain ⟨found, u, hfound, h⟩ := ok_of_bind h
  cases found with
  | none =>
    cases h
    exact hfound
  | some m =>
    obtain ⟨_, w, -, h⟩ := ok_of_bind h
    cases h

theorem perform_ofExcept_storesWithin (result : Except Error α) :
    StoresWithin names ((Procedure.ofExcept result).perform config.maxDepth below) s := by
  cases result with
  | ok a => exact .pure a
  | error e => exact .fail e

theorem resolve_storesWithin (config : Config) (name : String) :
    StoresWithin names (Eval.resolve name) s := by
  refine (StoresWithin.lookup config name).bind fun found _ _ => ?_
  cases found with
  | some v => exact .pure v
  | none => exact .fail _

theorem specialOfHead_eq_some {head : Value} {parse : ParseSpecial}
    (h : specialOfHead noSpecials head = some parse) :
    ∃ form : SpecialForm, head = .symbol form.name ∧
      parse = fun parts => .ofExcept (form.parse parts) := by
  cases head with
  | symbol name =>
    obtain ⟨form, hform, rfl⟩ := Option.map_eq_some_iff.mp h
    have hname : form.name = name := by simpa using List.find?_some hform
    exact ⟨form, by rw [hname], rfl⟩
  | _ => cases h

theorem analyzeForm_storesWithin {form : Value} {t : State}
    (hrunning : s.world.isInterrupted = false)
    (hplain : expandOnce config below form s = .ok none t)
    (hbelow : ∀ r u, Asks config below (.compile form) s r u → StoresWithin names (below r) u) :
    StoresWithin names (analyzeForm config noSpecials below form) t := by
  cases form with
  | list items =>
    cases items with
    | nil => exact .pure _
    | cons head args =>
      have hhead := macroOfHead_of_expandOnce hplain
      simp only [analyzeForm]
      cases hspecial : specialOfHead noSpecials head with
      | some parse =>
        obtain ⟨form, -, rfl⟩ := specialOfHead_eq_some hspecial
        exact perform_ofExcept_storesWithin _
      | none =>
        refine (hbelow _ _ (.head hrunning hhead hspecial)).bind fun target u htarget => ?_
        refine StoresWithin.bind (.mapM fun before arg after es w hargs hes => ?_)
          fun _ _ _ => .pure _
        have hbefore : compileBefore head before below t = .ok (target, es) w :=
          (bind_of_ok htarget).trans (bind_of_ok hes)
        subst hargs
        exact hbelow _ _ (.argument hrunning hhead hspecial hbefore)
  | symbol name => exact (resolve_storesWithin config name).bind fun _ _ _ => .pure _
  | _ => exact .pure _

theorem compile_storesWithin (hconfig : config.Standard) {form : Value}
    (hbelow : ∀ r t, Asks config below (.compile form) s r t → StoresWithin names (below r) t) :
    StoresWithin names (level config below (.compile form)) s := by
  refine .checkInterrupt_bind fun hrunning => ?_
  simp only [expand, hconfig.expander_eq, analyze, hconfig.analyzer_eq]
  refine (expandOnce_storesWithin hrunning hbelow).bind fun found t hfound => ?_
  cases found with
  | some rewritten => exact hbelow _ _ (.rewritten hrunning hfound)
  | none => exact analyzeForm_storesWithin hrunning hfound hbelow

theorem enter_storesWithin (config : Config) (name : String) (callee : Callee) (args : List Value) :
    StoresWithin names (Eval.enter config.maxDepth name callee args) s := by
  have hpush : StoresWithin names (Eval.push config.maxDepth ⟨name, args, ∅⟩) s :=
    .of_operation config (.push ⟨name, args, ∅⟩) rfl nofun
  exact hpush.bind fun _ t _ => .of_operation config (.note callee args) rfl nofun

theorem answerCall_storesWithin (hconfig : config.Standard) {callee : Callee} {args : List Value}
    (hbelow : ∀ f form, callee = .invokable f → args = [form] →
      config.host.invokable f [form] = Builtins.evalArgument [form] →
        StoresWithin names (below (.eval form)) s) :
    StoresWithin names (answerCall config below callee args) s := by
  cases callee with
  | native f => exact .of_operation config (.callNative f args) rfl nofun
  | invokable f =>
    rw [answerCall]
    obtain hbuiltin | ⟨e, hfail⟩ := hconfig.invokable f args
    · rw [hbuiltin]
      match args with
      | [] => exact .fail _
      | [form] =>
        refine (hbelow f form rfl rfl hbuiltin).attempt.bind fun result t _ => ?_
        exact perform_ofExcept_storesWithin result
      | _ :: _ :: _ => exact .fail _
    · rw [hfail]
      exact .fail e

theorem invoke_storesWithin (hconfig : config.Standard) {name : String} {target : Expr}
    {args : List Expr}
    (hbelow : ∀ r t, Asks config below (.run (.invoke name target args)) s r t →
      StoresWithin names (below r) t) :
    StoresWithin names (invoke config below name target args) s := by
  refine .checkInterrupt_bind fun hrunning => ?_
  refine (hbelow _ _ (.target hrunning)).bind fun head t htarget => ?_
  cases hcallee : calleeOf head with
  | none => exact .fail _
  | some callee =>
    -- What has been run up to an argument, or behind the last one.
    have hbefore : ∀ {before : List Expr} {vs : List Value} {u : State},
        before.mapM (fun arg => below (.run arg)) t = .ok vs u →
          runBefore target before below s = .ok (callee, vs) u := by
      intro before vs u hvs
      have hcheck := Eval.checkInterrupt_of_running hrunning
      refine (bind_of_ok hcheck).trans ((bind_of_ok htarget).trans ?_)
      simp only [hcallee]
      exact bind_of_ok hvs
    refine StoresWithin.bind (.mapM fun before arg after vs u hargs hvs => ?_) fun vs u hvs => ?_
    · subst hargs
      exact hbelow _ _ (.operand (hbefore hvs))
    · rw [withFrame_call]
      refine (enter_storesWithin config name callee vs).bind fun _ w hentered => ?_
      refine (answerCall_storesWithin hconfig ?_).attempt.bind fun result _ _ => .leave config result
      rintro f form rfl rfl hbuiltin
      exact hbelow _ _ (.argumentForm (hbefore hvs) hbuiltin hentered)

theorem runExpr_storesWithin (hconfig : config.Standard) {e : Expr}
    (hbelow : ∀ r t, Asks config below (.run e) s r t → StoresWithin names (below r) t)
    (hdefine : ∀ name form v t, e = .define name form → below (.eval form) s = .ok v t → names name) :
    StoresWithin names (runExpr config below e) s := by
  cases e with
  | const v => exact .pure v
  | quote v => exact .pure v
  | define name form =>
    refine (hbelow _ _ .definition).bind fun v t hv => ?_
    refine StoresWithin.bind (.of_operation config (.bind name v) rfl ?_) fun _ _ _ => .pure _
    intro entry hentry
    rw [List.mem_singleton.mp hentry]
    exact hdefine name form v t rfl hv
  | choice test consequent alternative =>
    refine (hbelow _ _ .test).bind fun v t hv => ?_
    split
    · rename_i htruthy
      exact hbelow _ _ (.consequent hv htruthy)
    · rename_i hfalsy
      cases alternative with
      | some form => exact hbelow _ _ (.alternative hv (Bool.eq_false_iff.mpr hfalsy))
      | none => exact .pure _
  | sequence forms =>
    refine .foldlM fun before form after v t hforms hv => ?_
    subst hforms
    exact .checkInterrupt_bind fun hrunning => hbelow _ _ (.item hv hrunning)
  | invoke name target args => exact invoke_storesWithin hconfig hbelow
  | spawn body =>
    exact StoresWithin.bind (.of_operation config (.spawn body) rfl nofun) fun _ _ _ => .pure _

/-- What a level stores is stored by what it asks of the level below, or it is what ends a
definition. -/
theorem level_storesWithin (hconfig : config.Standard) {r : Request}
    (hbelow : ∀ r' t, Asks config below r s r' t → StoresWithin names (below r') t)
    (hdefine : ∀ name form v t, r = .run (.define name form) →
      below (.eval form) s = .ok v t → names name) :
    StoresWithin names (level config below r) s := by
  cases r with
  | eval form =>
    exact (hbelow _ _ .compile).bind fun e t he => hbelow _ _ (.run he)
  | compile form => exact compile_storesWithin hconfig hbelow
  | run e =>
    exact runExpr_storesWithin hconfig hbelow fun name form v t he => hdefine name form v t (by rw [he])

end Interpreter

end Lisp
