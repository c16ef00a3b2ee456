import Lisp.Proofs.Eval.Caching
import Lisp.Proofs.Eval.Frames
import Lisp.Proofs.Eval.Operations

/-!
# Invocations

A call is run in a fixed order: the target, the arguments from left to right, and then what is
called, in a frame of its own.  Each step is begun only if all steps before it have given what they
have to, so an invocation ends in what its first failing step ends in, `invocation_yields_iff`, and
its effects are those of the steps that were begun, one after the other.

Nothing is asked of the expressions or of the code of the host.  To run out of levels is a way to
fail too, so the same holds of what a run that goes on without end has done at any time.
-/

namespace Lisp.Interpreter

variable {α β : Type} {config : Config} {below : Interpreter} {s t u : State}
  {effects first rest : List Event}

/-! ## 1. Effects of activities -/

/-- What was done between two states, in this order: the stores, calls and starts of tasks that the
later journal has in addition. -/
def Done (s t : State) (effects : List Event) : Prop :=
  ∃ events, t.world.journal = events ++ s.world.journal ∧
    effects = (events.filter Event.isEffect).reverse

namespace Done

theorem of_journal (h : t.world.journal = s.world.journal) : Done s t [] := ⟨[], h, rfl⟩

theorem trans (h : Done s t first) (h' : Done t u rest) : Done s u (first ++ rest) := by
  obtain ⟨events, hevents, rfl⟩ := h
  obtain ⟨events', hevents', rfl⟩ := h'
  refine ⟨events' ++ events, ?_, ?_⟩
  · rw [hevents', hevents, List.append_assoc]
  · rw [List.filter_append, List.reverse_append]

theorem unique (h : Done s t first) (h' : Done s t rest) : first = rest := by
  obtain ⟨events, hevents, rfl⟩ := h
  obtain ⟨events', hevents', rfl⟩ := h'
  rw [List.append_cancel_right (hevents.symm.trans hevents')]

theorem congr_right (h : Done s t effects) (ht : u.world.journal = t.world.journal) :
    Done s u effects := by
  obtain ⟨events, hevents, rfl⟩ := h
  exact ⟨events, ht.trans hevents, rfl⟩

theorem self_iff : Done s s effects ↔ effects = [] := by
  constructor
  · intro h
    exact h.unique (of_journal rfl)
  · rintro rfl
    exact of_journal rfl

end Done

def Yields (act : Eval α) (s : State) (result : EStateM.Result Stop State α)
    (effects : List Event) : Prop :=
  act s = result ∧ Done s (Program.stateOf result) effects

theorem exists_done {act : Eval α} (hact : Composed config act) (s : State) :
    ∃ effects, Done s (Program.stateOf (act s)) effects := by
  obtain ⟨stores, hstored⟩ := hact.stored s
  obtain ⟨events, hevents, -⟩ := hstored.journal
  exact ⟨_, events, hevents, rfl⟩

theorem yields_of_eq {act : Eval α} {outcome result : EStateM.Result Stop State α}
    (h : act s = outcome) (hstate : Program.stateOf outcome = s) :
    Yields act s result effects ↔ result = outcome ∧ effects = [] := by
  rw [Yields, h]
  constructor
  · rintro ⟨rfl, hdone⟩
    rw [hstate] at hdone
    exact ⟨rfl, Done.self_iff.mp hdone⟩
  · rintro ⟨rfl, rfl⟩
    refine ⟨rfl, ?_⟩
    rw [hstate]
    exact Done.self_iff.mpr rfl

/-- The effects of two activities in sequence are those of the first one and then, if that gives a
result, those of the second one. -/
theorem yields_bind_iff {act : Eval α} {f : α → Eval β} (hact : Composed config act)
    (hf : ∀ a, Composed config (f a)) {result : EStateM.Result Stop State β} :
    Yields (act >>= f) s result effects ↔
      (∃ a t first rest, Yields act s (.ok a t) first ∧ Yields (f a) t result rest ∧
        effects = first ++ rest) ∨
      ∃ stop t, Yields act s (.error stop t) effects ∧ result = .error stop t := by
  constructor
  · rintro ⟨hresult, hdone⟩
    rw [bind_eq] at hresult
    obtain ⟨first, hfirst⟩ := exists_done hact s
    cases h : act s with
    | ok a t =>
      rw [h] at hresult hfirst
      obtain ⟨rest, hrest⟩ := exists_done (hf a) t
      simp only at hresult
      rw [hresult] at hrest
      have heffects := hdone.unique (hfirst.trans hrest)
      exact .inl ⟨a, t, first, rest, ⟨h, hfirst⟩, ⟨hresult, hrest⟩, heffects⟩
    | error stop t =>
      rw [h] at hresult
      cases hresult
      exact .inr ⟨stop, t, ⟨h, hdone⟩, rfl⟩
  · rintro (⟨a, t, first, rest, ⟨h, hfirst⟩, ⟨h', hrest⟩, rfl⟩ | ⟨stop, t, ⟨h, hdone⟩, rfl⟩)
    · exact ⟨(bind_of_ok h).trans h', hfirst.trans hrest⟩
    · exact ⟨bind_of_error h, hdone⟩

theorem yields_pure_iff {a : α} {result : EStateM.Result Stop State α} :
    Yields (pure a) s result effects ↔ result = .ok a s ∧ effects = [] := yields_of_eq rfl rfl

theorem yields_fail_iff {e : Error} {result : EStateM.Result Stop State α} :
    Yields (Eval.fail e) s result effects ↔ result = .error (.error e) s ∧ effects = [] :=
  yields_of_eq rfl rfl

theorem yields_map_iff {act : Eval α} (hact : Composed config act) (g : α → β)
    {result : EStateM.Result Stop State β} :
    Yields (do return g (← act)) s result effects ↔
      (∃ a t, Yields act s (.ok a t) effects ∧ result = .ok (g a) t) ∨
      ∃ stop t, Yields act s (.error stop t) effects ∧ result = .error stop t := by
  rw [yields_bind_iff hact fun a => Composed.pure (g a)]
  refine or_congr_left ⟨?_, ?_⟩
  · rintro ⟨a, t, first, rest, hact, hpure, rfl⟩
    obtain ⟨rfl, rfl⟩ := yields_pure_iff.mp hpure
    rw [List.append_nil]
    exact ⟨a, t, hact, rfl⟩
  · rintro ⟨a, t, hact, rfl⟩
    exact ⟨a, t, effects, [], hact, yields_pure_iff.mpr ⟨rfl, rfl⟩, (List.append_nil _).symm⟩

/-! ## 2. Arguments -/

inductive RunsInOrder (below : Interpreter) :
    List Expr → State → List Value → State → List Event → Prop
  | nil (s : State) : RunsInOrder below [] s [] s []
  | cons {e : Expr} {es : List Expr} {v : Value} {vs : List Value} {s t u : State}
      {first rest : List Event} (hfirst : Yields (below (.run e)) s (.ok v t) first)
      (hrest : RunsInOrder below es t vs u rest) :
      RunsInOrder below (e :: es) s (v :: vs) u (first ++ rest)

/-- One of the expressions stops after those in front of it have given values, and those behind it
are not begun. -/
inductive StopsInOrder (below : Interpreter) :
    List Expr → State → Stop → State → List Event → Prop
  | here {e : Expr} {es : List Expr} {stop : Stop} {s t : State} {effects : List Event}
      (hstops : Yields (below (.run e)) s (.error stop t) effects) :
      StopsInOrder below (e :: es) s stop t effects
  | later {e : Expr} {es : List Expr} {v : Value} {stop : Stop} {s t u : State}
      {first rest : List Event} (hfirst : Yields (below (.run e)) s (.ok v t) first)
      (hrest : StopsInOrder below es t stop u rest) :
      StopsInOrder below (e :: es) s stop u (first ++ rest)

theorem composed_runs (hbelow : ∀ r, Composed config (below r)) (es : List Expr) :
    Composed config (es.mapM fun e => below (.run e)) := by
  induction es with
  | nil => exact Composed.pure []
  | cons e es ih =>
    rw [List.mapM_cons]
    exact (hbelow (.run e)).bind fun v => ih.bind fun vs => .pure (v :: vs)

theorem composed_prepend (hbelow : ∀ r, Composed config (below r)) (es : List Expr) (v : Value) :
    Composed config (do return v :: (← es.mapM fun e => below (.run e))) :=
  (composed_runs hbelow es).bind fun vs => .pure (v :: vs)

theorem yields_mapM_ok_iff (hbelow : ∀ r, Composed config (below r)) {es : List Expr}
    {vs : List Value} :
    Yields (es.mapM fun e => below (.run e)) s (.ok vs t) effects ↔
      RunsInOrder below es s vs t effects := by
  induction es generalizing s vs effects with
  | nil =>
    rw [List.mapM_nil, yields_pure_iff]
    constructor
    · rintro ⟨hresult, rfl⟩
      cases hresult
      exact .nil _
    · intro h
      cases h
      exact ⟨rfl, rfl⟩
  | cons e es ih =>
    rw [List.mapM_cons, yields_bind_iff (hbelow (.run e)) (composed_prepend hbelow es)]
    constructor
    · rintro (⟨v, u, first, rest, hfirst, hmore, rfl⟩ | ⟨stop, u, -, hresult⟩)
      · rw [yields_map_iff (composed_runs hbelow es) (v :: ·)] at hmore
        obtain ⟨ws, w, hmore, hresult⟩ | ⟨stop, w, -, hresult⟩ := hmore
        · cases hresult
          exact .cons hfirst (ih.mp hmore)
        · cases hresult
      · cases hresult
    · intro h
      cases h with
      | @cons _ _ v ws _ u _ first rest hfirst hrest =>
        refine .inl ⟨v, u, first, rest, hfirst, ?_, rfl⟩
        rw [yields_map_iff (composed_runs hbelow es) (v :: ·)]
        exact .inl ⟨ws, t, ih.mpr hrest, rfl⟩

theorem yields_mapM_error_iff (hbelow : ∀ r, Composed config (below r)) {es : List Expr}
    {stop : Stop} :
    Yields (es.mapM fun e => below (.run e)) s (.error stop t) effects ↔
      StopsInOrder below es s stop t effects := by
  induction es generalizing s effects with
  | nil =>
    rw [List.mapM_nil, yields_pure_iff]
    refine iff_of_false nofun fun h => ?_
    cases h
  | cons e es ih =>
    rw [List.mapM_cons, yields_bind_iff (hbelow (.run e)) (composed_prepend hbelow es)]
    constructor
    · rintro (⟨v, u, first, rest, hfirst, hmore, rfl⟩ | ⟨stop, u, hstops, hresult⟩)
      · rw [yields_map_iff (composed_runs hbelow es) (v :: ·)] at hmore
        obtain ⟨ws, w, -, hresult⟩ | ⟨stop, w, hmore, hresult⟩ := hmore
        · cases hresult
        · cases hresult
          exact .later hfirst (ih.mp hmore)
      · cases hresult
        exact .here hstops
    · intro h
      cases h with
      | here hstops => exact .inr ⟨stop, t, hstops, rfl⟩
      | @later _ _ v _ _ u _ first rest hfirst hrest =>
        refine .inl ⟨v, u, first, rest, hfirst, ?_, rfl⟩
        rw [yields_map_iff (composed_runs hbelow es) (v :: ·)]
        exact .inr ⟨stop, t, ih.mpr hrest, rfl⟩

/-! ## 3. Calls -/

def entered (name : String) (callee : Callee) (args : List Value) (s : State) : State where
  stack := ⟨name, args, ∅⟩ :: s.stack
  world := s.world.note (.call callee args (⟨name, args, ∅⟩ :: s.stack))

def leaving : EStateM.Result Stop State α → EStateM.Result Stop State α
  | .ok v t => Eval.leave (.ok v) t
  | .error (.error e) t => Eval.leave (.error e) t
  | .error stop t => .error stop t

/-- A call with room for its frame: it is noted first, and all other effects are those of what is
called, which is given the values as they are. -/
inductive Called (config : Config) (below : Interpreter) (name : String) (callee : Callee)
    (args : List Value) (s : State) : EStateM.Result Stop State Value → List Event → Prop
  | intro {answer : EStateM.Result Stop State Value} {inner : List Event}
      (hanswer : Yields (answerCall config below callee args) (entered name callee args s) answer
        inner) :
      Called config below name callee args s (leaving answer)
        (.call callee args (⟨name, args, ∅⟩ :: s.stack) :: inner)

theorem enter_of_room {name : String} {callee : Callee} {args : List Value}
    (h : ¬ config.maxDepth ≤ s.stack.depth) :
    Eval.enter config.maxDepth name callee args s = .ok () (entered name callee args s) :=
  bind_of_ok (push_of_lt h)

theorem journal_leave (result : Except Error α) (s : State) :
    (Program.stateOf (Eval.leave result s)).world.journal = s.world.journal := by
  unfold Eval.leave
  rw [bind_eq]
  unfold Eval.pop
  cases Stack.pop s.stack with
  | ok popped => cases result <;> rfl
  | error e => rfl

theorem journal_leaving (answer : EStateM.Result Stop State α) :
    (Program.stateOf (leaving answer)).world.journal =
      (Program.stateOf answer).world.journal := by
  cases answer with
  | ok v t => exact journal_leave (.ok v) t
  | error stop t =>
    cases stop with
    | error e => exact journal_leave (.error e) t
    | panic message => rfl
    | exhausted => rfl

theorem call_of_room {name : String} {callee : Callee} {args : List Value}
    (hroom : ¬ config.maxDepth ≤ s.stack.depth) :
    Eval.withFrame config.maxDepth ⟨name, args, ∅⟩ (call config below callee args) s =
      leaving (answerCall config below callee args (entered name callee args s)) := by
  rw [withFrame_call, bind_of_ok (enter_of_room hroom), bind_eq, Eval.attempt]
  cases answerCall config below callee args (entered name callee args s) with
  | ok v t => rfl
  | error stop t => cases stop <;> rfl

theorem composed_answerCall (hbelow : ∀ r, Composed config (below r)) (callee : Callee)
    (args : List Value) : Composed config (answerCall config below callee args) := by
  cases callee with
  | native f => exact .callNative f args
  | invokable f => exact .perform hbelow (config.host.invokable f args)

theorem yields_call_iff (hbelow : ∀ r, Composed config (below r)) {name : String} {callee : Callee}
    {args : List Value} (hroom : ¬ config.maxDepth ≤ s.stack.depth)
    {result : EStateM.Result Stop State Value} :
    Yields (Eval.withFrame config.maxDepth ⟨name, args, ∅⟩ (call config below callee args)) s result
        effects ↔
      Called config below name callee args s result effects := by
  have hnoted : Done s (entered name callee args s)
      [.call callee args (⟨name, args, ∅⟩ :: s.stack)] := ⟨[_], rfl, rfl⟩
  rw [Yields, call_of_room hroom]
  constructor
  · rintro ⟨rfl, hdone⟩
    obtain ⟨inner, hinner⟩ := exists_done (composed_answerCall hbelow callee args)
      (entered name callee args s)
    rw [hdone.unique ((hnoted.trans hinner).congr_right (journal_leaving _))]
    exact .intro ⟨rfl, hinner⟩
  · intro h
    cases h with
    | intro hanswer =>
      obtain ⟨rfl, hinner⟩ := hanswer
      exact ⟨rfl, (hnoted.trans hinner).congr_right (journal_leaving _)⟩

theorem yields_call_of_full {name : String} {callee : Callee} {args : List Value}
    (hfull : config.maxDepth ≤ s.stack.depth) {result : EStateM.Result Stop State Value} :
    Yields (Eval.withFrame config.maxDepth ⟨name, args, ∅⟩ (call config below callee args)) s result
        effects ↔
      result = .error (.error (.stackOverflow config.maxDepth)) s ∧ effects = [] :=
  yields_of_eq (bind_of_error (push_of_le hfull)) rfl

/-! ## 4. Invocations -/

inductive Application (config : Config) (below : Interpreter) (name : String) (callee : Callee)
    (args : List Expr) (s : State) : EStateM.Result Stop State Value → List Event → Prop
  | argumentStops {stop : Stop} {t : State} {effects : List Event}
      (hargs : StopsInOrder below args s stop t effects) :
      Application config below name callee args s (.error stop t) effects
  /-- All arguments have been run, and there is no room for a frame. -/
  | overflow {vs : List Value} {t : State} {effects : List Event}
      (hargs : RunsInOrder below args s vs t effects) (hfull : config.maxDepth ≤ t.stack.depth) :
      Application config below name callee args s
        (.error (.error (.stackOverflow config.maxDepth)) t) effects
  | called {vs : List Value} {t : State} {result : EStateM.Result Stop State Value}
      {first last : List Event} (hargs : RunsInOrder below args s vs t first)
      (hroom : ¬ config.maxDepth ≤ t.stack.depth)
      (hcall : Called config below name callee vs t result last) :
      Application config below name callee args s result (first ++ last)

/-- What an invocation ends in and its effects, by the first step that fails. -/
inductive Invocation (config : Config) (below : Interpreter) (name : String) (target : Expr)
    (args : List Expr) (s : State) : EStateM.Result Stop State Value → List Event → Prop
  /-- Nothing is run. -/
  | interrupted (hinterrupt : s.world.isInterrupted = true) :
      Invocation config below name target args s (.error (.error .interrupted) s) []
  /-- The target is run, and nothing else. -/
  | targetStops {stop : Stop} {t : State} {effects : List Event}
      (hinterrupt : s.world.isInterrupted = false)
      (htarget : Yields (below (.run target)) s (.error stop t) effects) :
      Invocation config below name target args s (.error stop t) effects
  /-- The target is run and gives nothing that can be called, and nothing else is run. -/
  | notCallable {head : Value} {t : State} {effects : List Event}
      (hinterrupt : s.world.isInterrupted = false)
      (htarget : Yields (below (.run target)) s (.ok head t) effects)
      (hcallee : calleeOf head = none) :
      Invocation config below name target args s
        (.error (.error (.notInvokable head.typeName)) t) effects
  | applied {head : Value} {callee : Callee} {t : State}
      {result : EStateM.Result Stop State Value} {first rest : List Event}
      (hinterrupt : s.world.isInterrupted = false)
      (htarget : Yields (below (.run target)) s (.ok head t) first)
      (hcallee : calleeOf head = some callee)
      (happlied : Application config below name callee args t result rest) :
      Invocation config below name target args s result (first ++ rest)

theorem yields_application_iff (hbelow : ∀ r, Composed config (below r)) {name : String}
    {callee : Callee} {args : List Expr} {result : EStateM.Result Stop State Value} :
    Yields (args.mapM (fun arg => below (.run arg)) >>= fun vs =>
        Eval.withFrame config.maxDepth ⟨name, vs, ∅⟩ (call config below callee vs)) s result
        effects ↔
      Application config below name callee args s result effects := by
  have hcall : ∀ vs, Composed config
      (Eval.withFrame config.maxDepth ⟨name, vs, ∅⟩ (call config below callee vs)) :=
    fun vs => (Composed.call hbelow callee vs).withFrame _
  rw [yields_bind_iff (composed_runs hbelow args) hcall]
  constructor
  · rintro (⟨vs, t, first, rest, hargs, hmore, rfl⟩ | ⟨stop, t, hargs, rfl⟩)
    · rw [yields_mapM_ok_iff hbelow] at hargs
      by_cases hfull : config.maxDepth ≤ t.stack.depth
      · obtain ⟨rfl, rfl⟩ := (yields_call_of_full hfull).mp hmore
        rw [List.append_nil]
        exact .overflow hargs hfull
      · exact .called hargs hfull ((yields_call_iff hbelow hfull).mp hmore)
    · exact .argumentStops ((yields_mapM_error_iff hbelow).mp hargs)
  · intro h
    cases h with
    | argumentStops hargs => exact .inr ⟨_, _, (yields_mapM_error_iff hbelow).mpr hargs, rfl⟩
    | @overflow vs t _ hargs hfull =>
      refine .inl ⟨vs, t, effects, [], (yields_mapM_ok_iff hbelow).mpr hargs, ?_, ?_⟩
      · exact (yields_call_of_full hfull).mpr ⟨rfl, rfl⟩
      · exact (List.append_nil _).symm
    | @called vs t _ first last hargs hroom hcall =>
      refine .inl ⟨vs, t, first, last, (yields_mapM_ok_iff hbelow).mpr hargs, ?_, rfl⟩
      exact (yields_call_iff hbelow hroom).mpr hcall

def applyHead (config : Config) (below : Interpreter) (name : String) (args : List Expr)
    (head : Value) : Eval Value :=
  match calleeOf head with
  | none => Eval.fail (.notInvokable head.typeName)
  | some callee => do
    let vs ← args.mapM fun arg => below (.run arg)
    Eval.withFrame config.maxDepth ⟨name, vs, ∅⟩ (call config below callee vs)

theorem composed_applyHead (hbelow : ∀ r, Composed config (below r)) (name : String)
    (args : List Expr) (head : Value) :
    Composed config (applyHead config below name args head) := by
  unfold applyHead
  cases calleeOf head with
  | none => exact .fail _
  | some callee =>
    exact (composed_runs hbelow args).bind fun vs => (Composed.call hbelow callee vs).withFrame _

theorem yields_invoke_iff (hbelow : ∀ r, Composed config (below r)) {name : String} {target : Expr}
    {args : List Expr} {result : EStateM.Result Stop State Value} :
    Yields (invoke config below name target args) s result effects ↔
      Invocation config below name target args s result effects := by
  cases hinterrupt : s.world.isInterrupted with
  | true =>
    have hinvoke : invoke config below name target args s = .error (.error .interrupted) s :=
      bind_of_error (Eval.checkInterrupt_of_interrupted hinterrupt)
    rw [yields_of_eq hinvoke rfl]
    constructor
    · rintro ⟨rfl, rfl⟩
      exact .interrupted hinterrupt
    · intro h
      cases h with
      | interrupted => exact ⟨rfl, rfl⟩
      | targetStops hclear | notCallable hclear | applied hclear =>
        rw [hinterrupt] at hclear
        cases hclear
  | false =>
    have hinvoke : invoke config below name target args s =
        (below (.run target) >>= applyHead config below name args) s :=
      bind_of_ok (Eval.checkInterrupt_of_running hinterrupt)
    rw [Yields, hinvoke]
    show Yields _ s result effects ↔ _
    rw [yields_bind_iff (hbelow (.run target)) (composed_applyHead hbelow name args)]
    constructor
    · rintro (⟨head, t, first, rest, htarget, hmore, rfl⟩ | ⟨stop, t, htarget, rfl⟩)
      · unfold applyHead at hmore
        cases hcallee : calleeOf head with
        | none =>
          rw [hcallee] at hmore
          obtain ⟨rfl, rfl⟩ := yields_fail_iff.mp hmore
          rw [List.append_nil]
          exact .notCallable hinterrupt htarget hcallee
        | some callee =>
          rw [hcallee] at hmore
          exact .applied hinterrupt htarget hcallee ((yields_application_iff hbelow).mp hmore)
      · exact .targetStops hinterrupt htarget
    · intro h
      cases h with
      | interrupted hset =>
        rw [hinterrupt] at hset
        cases hset
      | targetStops _ htarget => exact .inr ⟨_, _, htarget, rfl⟩
      | @notCallable head t _ _ htarget hcallee =>
        refine .inl ⟨head, t, effects, [], htarget, ?_, (List.append_nil _).symm⟩
        rw [applyHead, hcallee]
        exact yields_fail_iff.mpr ⟨rfl, rfl⟩
      | @applied head callee t _ first rest _ htarget hcallee happlied =>
        refine .inl ⟨head, t, first, rest, htarget, ?_, rfl⟩
        rw [applyHead, hcallee]
        exact (yields_application_iff hbelow).mpr happlied

/-- An invocation ends in this result with these effects just if the steps of it do, from left to
right up to the first one that fails: the look at the interrupt flag, the target, the arguments, and
one call of what the target gives with the values of the arguments. -/
theorem invocation_yields_iff (config : Config) (levels : Nat) (name : String) (target : Expr)
    (args : List Expr) (s : State) (result : EStateM.Result Stop State Value)
    (effects : List Event) :
    Yields (interpret config (levels + 1) (.run (.invoke name target args))) s result effects ↔
      Invocation config (interpret config levels) name target args s result effects := by
  rw [interpret_succ]
  exact yields_invoke_iff (Composed.interpret config levels)

end Lisp.Interpreter
