import Lisp.Proofs.Eval.Congruence
import Lisp.Proofs.Eval.Simulation

/-!
# Operations

Whatever is asked of the interpreter, it changes the state of an environment by a few operations, one
after the other, and those of the forks that the host holds in the same way, `Composed.interpret`: at
any number of levels, whatever code the host brings along, and whether the request is answered, fails,
panics or runs out of levels.

So it is enough to know what each `Operation` does.  Its change of the frames is a function of the
frames, `Operation.frames`; what it stores in the global table is noted in the journal; and a property
of frames that each operation keeps holds of all frames that come up, `Throughout`.
-/

namespace Lisp

variable {α β : Type} {config : Config} {s t : State}

/-! ## 1. Operations and what they change -/

/-- A change of the state of an environment that is made in one go. -/
inductive Operation where
  | push (frame : Frame)
  | pop
  | bind (name : String) (v : Value)
  | bindLocal (name : String) (v : Value)
  | lookup (name : String)
  | spawn (body : Value)
  /-- A call is noted with the frames in place. -/
  | note (callee : Callee) (args : List Value)
  | callNative (f : NativeRef) (args : List Value)
  | setInterrupt (on : Bool)
  | freshIdentity
  | remember (memory : Nat)
  /-- The host makes a fork and holds it. -/
  | fork

namespace Operation

/-- The state that an operation leaves behind, also when it fails. -/
def after (config : Config) : Operation → State → State
  | push frame, s => Program.stateOf (Eval.push config.maxDepth frame s)
  | pop, s => Program.stateOf (Eval.pop s)
  | bind name v, s => Program.stateOf (Eval.bind name v s)
  | bindLocal name v, s => Program.stateOf (Eval.bindLocal name v s)
  | lookup name, s => Program.stateOf (Eval.lookup name s)
  | spawn body, s => Program.stateOf (Eval.spawn body s)
  | note callee args, s => { s with world := s.world.note (.call callee args s.stack) }
  | callNative f args, s => Program.stateOf (Eval.callNative config.host f args s)
  | setInterrupt on, s =>
    { s with world := { s.world with interrupt := s.world.interrupt.map fun _ => on } }
  | freshIdentity, s =>
    { s with world := { s.world with nextIdentity := s.world.nextIdentity + 1 } }
  | remember memory, s => { s with world := { s.world with memory } }
  | fork, s => Program.stateOf (Eval.fork s)

def frames (maxDepth : Nat) : Operation → Stack → Stack
  | push frame, stack =>
    match Stack.push maxDepth frame stack with
    | .ok stack => stack
    | .error _ => stack
  | pop, stack =>
    match Stack.pop stack with
    | .ok (_, stack) => stack
    | .error _ => stack
  | bindLocal name v, stack => (Stack.bind? name v stack).getD stack
  | bind .., stack => stack
  | lookup _, stack => stack
  | spawn _, stack => stack
  | note .., stack => stack
  | callNative .., stack => stack
  | setInterrupt _, stack => stack
  | freshIdentity, stack => stack
  | remember _, stack => stack
  | fork, stack => stack

def stores : Operation → Stack → List (String × Value)
  | bind name v, _ => [(name, v)]
  | bindLocal name v, stack => if stack.depth ≤ 1 then [(name, v)] else []
  | push _, _ => []
  | pop, _ => []
  | lookup _, _ => []
  | spawn _, _ => []
  | note .., _ => []
  | callNative .., _ => []
  | setInterrupt _, _ => []
  | freshIdentity, _ => []
  | remember _, _ => []
  | fork, _ => []

theorem bind?_eq_none {name : String} {v : Value} {stack : Stack} :
    Stack.bind? name v stack = none ↔ stack.depth ≤ 1 := by
  match stack with
  | [] => simp [Stack.bind?, Stack.depth]
  | [_] => simp [Stack.bind?, Stack.depth]
  | _ :: _ :: _ => simp [Stack.bind?, Stack.depth]

theorem stateOf_lookup (name : String) (s : State) :
    Program.stateOf (Eval.lookup name s) = s ∨
      Program.stateOf (Eval.lookup name s) =
        { s with world := s.world.note (.lookup name) } := by
  unfold Eval.lookup
  cases Stack.find? name s.stack with
  | some v => exact .inl rfl
  | none => exact .inr rfl

theorem stateOf_callNative (host : Host) (f : NativeRef) (args : List Value) (s : State) :
    Program.stateOf (Eval.callNative host f args s) =
      { s with world := { s.world with memory := (host.call f args s.world.memory).2 } } := by
  rw [Eval.callNative_apply]
  cases (host.call f args s.world.memory).1 <;> rfl

theorem stack_after (op : Operation) (s : State) :
    (op.after config s).stack = op.frames config.maxDepth s.stack := by
  cases op with
  | push frame =>
    simp only [after, frames, Eval.push]
    cases Stack.push config.maxDepth frame s.stack <;> rfl
  | pop =>
    simp only [after, frames, Eval.pop]
    cases Stack.pop s.stack <;> rfl
  | bindLocal name v =>
    simp only [after, frames, Eval.bindLocal]
    cases Stack.bind? name v s.stack <;> rfl
  | lookup name =>
    obtain h | h := stateOf_lookup name s <;> simp only [after, frames, h]
  | callNative f args => simp only [after, frames, stateOf_callNative]
  | _ => rfl

end Operation

/-- The second state comes from the first one by operations in sequence, each of them on the environment
at hand or on a fork that the host holds. -/
inductive Changes (config : Config) : State → State → Prop
  | refl (s : State) : Changes config s s
  | operation {s t : State} (before : Changes config s t) (op : Operation) :
      Changes config s (op.after config t)
  | inFork {n : Nat} {s t u v : State} (before : Changes config s t) (visit : t.visit? n = some u)
      (there : Changes config u v) : Changes config s (v.back n t.stack)

theorem Changes.trans {u : State} (h : Changes config s t) (h' : Changes config t u) :
    Changes config s u := by
  induction h' with
  | refl => exact h
  | operation _ op ih => exact (ih h).operation op
  | inFork _ visit there ih _ => exact (ih h).inFork visit there

/-! ## 2. Stores -/

/-- What was stored in the global table, the latest first. -/
def storesOf (events : List Event) : List (String × Value) :=
  events.filterMap fun
    | .store name v => some (name, v)
    | _ => none

structure Stored (w : World) (stores : List (String × Value)) (w' : World) : Prop where
  journal : ∃ events, w'.journal = events ++ w.journal ∧ storesOf events = stores
  get?_eq : ∀ name, w'.globals.get? name = (stores.lookup name).or (w.globals.get? name)

namespace Stored

variable {w w' w'' : World} {stores later : List (String × Value)}

theorem quiet (hglobals : w'.globals = w.globals) (hjournal : w'.journal = w.journal) :
    Stored w [] w' :=
  ⟨⟨[], hjournal, rfl⟩, fun name => by rw [hglobals]; rfl⟩

theorem refl (w : World) : Stored w [] w := quiet rfl rfl

theorem trans (h : Stored w stores w') (h' : Stored w' later w'') :
    Stored w (later ++ stores) w'' := by
  obtain ⟨events, hevents, rfl⟩ := h.journal
  obtain ⟨events', hevents', rfl⟩ := h'.journal
  refine ⟨⟨events' ++ events, ?_, List.filterMap_append⟩, fun name => ?_⟩
  · rw [hevents', hevents, List.append_assoc]
  · rw [h'.get?_eq, h.get?_eq, List.lookup_append, Option.or_assoc]

theorem note (event : Event) (h : storesOf [event] = []) (hglobals : w'.globals = w.globals)
    (hjournal : w'.journal = event :: w.journal) : Stored w [] w' :=
  ⟨⟨[event], hjournal, h⟩, fun name => by rw [hglobals]; rfl⟩

theorem store (w : World) (name : String) (v : Value) :
    Stored w [(name, v)] (w.store name v) := by
  refine ⟨⟨[.store name v], rfl, rfl⟩, fun other => ?_⟩
  change (w.globals.set name v).get? other = _
  rw [Bindings.get?_set, Bindings.lookup_cons_ite]
  split <;> rfl

theorem eq_of_journal {events : List Event} (h : Stored w stores w')
    (hevents : w'.journal = events ++ w.journal) : stores = storesOf events := by
  obtain ⟨events', hevents', rfl⟩ := h.journal
  rw [List.append_cancel_right (hevents'.symm.trans hevents)]

end Stored

theorem Operation.stored_after (op : Operation) (s : State) :
    Stored s.world (op.stores s.stack) (op.after config s).world := by
  cases op with
  | push frame =>
    simp only [after, stores, Eval.push]
    split <;> exact .quiet rfl rfl
  | pop =>
    simp only [after, stores, Eval.pop]
    split <;> exact .quiet rfl rfl
  | bind name v => exact .store s.world name v
  | bindLocal name v =>
    simp only [after, stores, Eval.bindLocal]
    cases hbind : Stack.bind? name v s.stack with
    | some stack =>
      have hdepth : ¬ s.stack.depth ≤ 1 := fun h => by simp [bind?_eq_none.mpr h] at hbind
      rw [if_neg hdepth]
      exact .quiet rfl rfl
    | none =>
      rw [if_pos (bind?_eq_none.mp hbind)]
      exact .store s.world name v
  | lookup name =>
    obtain h | h := stateOf_lookup name s
    · simp only [after, stores, h]
      exact .refl s.world
    · simp only [after, stores, h]
      exact .note (.lookup name) rfl rfl rfl
  | spawn body =>
    exact .note (.spawn (s.world.spawn s.stack body).1 body) rfl rfl rfl
  | note callee args => exact .note (.call callee args s.stack) rfl rfl rfl
  | callNative f args =>
    simp only [after, stores, stateOf_callNative]
    exact .quiet rfl rfl
  | setInterrupt on => exact .quiet rfl rfl
  | freshIdentity => exact .quiet rfl rfl
  | remember memory => exact .quiet rfl rfl
  | fork => exact .quiet rfl rfl

theorem Changes.stored (h : Changes config s t) : ∃ stores, Stored s.world stores t.world := by
  induction h with
  | refl s => exact ⟨[], .refl s.world⟩
  | @operation s t _ op ih =>
    obtain ⟨stores, hstores⟩ := ih
    exact ⟨_, hstores.trans (op.stored_after t)⟩
  | @inFork n s t u v _ visit _ ih ih' =>
    -- To turn to a fork and to come back stores nothing.
    obtain ⟨fork, -, rfl⟩ := Option.map_eq_some_iff.mp visit
    obtain ⟨stores, hstores⟩ := ih
    obtain ⟨later, hlater⟩ := ih'
    have hvisit : Stored t.world [] { t.world with forks := t.world.forks.set n none } :=
      .quiet rfl rfl
    have hback : Stored v.world [] (v.back n t.stack).world := .quiet rfl rfl
    exact ⟨_, ((hstores.trans hvisit).trans hlater).trans hback⟩

/-! ## 3. Properties of the frames -/

def Kept (maxDepth : Nat) (P : Stack → Prop) : Prop :=
  ∀ (op : Operation) (stack : Stack), P stack → P (op.frames maxDepth stack)

/-- It is enough that the property is kept by a frame more where there is room, by a frame less where
another one lies below, and by another frame in the place of such a one. -/
theorem kept_of_frames {maxDepth : Nat} {P : Stack → Prop}
    (hpush : ∀ frame stack, P stack → ¬ maxDepth ≤ Stack.depth stack → P (frame :: stack))
    (hpop : ∀ frame below rest, P (frame :: below :: rest) → P (below :: rest))
    (hbind : ∀ frame frame' below rest, P (frame :: below :: rest) → P (frame' :: below :: rest)) :
    Kept maxDepth P := by
  intro op stack h
  cases op with
  | push frame =>
    simp only [Operation.frames, Stack.push]
    by_cases hfull : maxDepth ≤ stack.depth
    · rw [if_pos hfull]
      exact h
    · rw [if_neg hfull]
      exact hpush frame stack h hfull
  | pop =>
    cases stack with
    | nil => exact h
    | cons frame below =>
      cases below with
      | nil => exact h
      | cons below rest => exact hpop frame below rest h
  | bindLocal name v =>
    cases stack with
    | nil => exact h
    | cons frame below =>
      cases below with
      | nil => exact h
      | cons below rest => exact hbind frame _ below rest h
  | _ => exact h

theorem mem_held_iff {stack : Stack} {w : World} :
    stack ∈ w.held ↔ ∃ fork, some fork ∈ w.forks ∧ fork.stack = stack := by
  simp [World.held]

theorem mem_held_set {stack : Stack} {w : World} {n : Nat} {own : Option Fork}
    (h : stack ∈ { w with forks := w.forks.set n own }.held) :
    stack ∈ w.held ∨ own.map Fork.stack = some stack := by
  obtain ⟨fork, hmem, rfl⟩ := mem_held_iff.mp h
  obtain hold | rfl := List.mem_or_eq_of_mem_set hmem
  · exact .inl (mem_held_iff.mpr ⟨fork, hold, rfl⟩)
  · exact .inr rfl

theorem stack_of?_eq {stack own : Stack} (h : (Fork.of? own).map Fork.stack = some stack) :
    stack = own := by
  unfold Fork.of? at h
  split at h
  · exact (Option.some.inj h).symm
  · cases h

theorem mem_held_hold {stack own : Stack} {w : World} (h : stack ∈ (w.hold own).2.held) :
    stack ∈ w.held ∨ stack = own := by
  obtain ⟨fork, hmem, rfl⟩ := mem_held_iff.mp h
  obtain hold | hnew := List.mem_append.mp hmem
  · exact .inl (mem_held_iff.mpr ⟨fork, hold, rfl⟩)
  · exact .inr (stack_of?_eq (congrArg (Option.map Fork.stack) (List.mem_singleton.mp hnew).symm))

/-- The frames of a state have the property, and so have those of the forks that the host holds, of all
tasks that wait and of all calls since that journal. -/
structure Throughout (P : Stack → Prop) (journal : List Event) (s : State) : Prop where
  stack : P s.stack
  held : ∀ stack ∈ s.world.held, P stack
  waiting : ∀ job ∈ s.world.waiting, P job.stack
  calls : ∃ events, s.world.journal = events ++ journal ∧
    ∀ callee args stack, .call callee args stack ∈ events → P stack

namespace Throughout

variable {P : Stack → Prop} {journal : List Event}

theorem quiet (hs : Throughout P journal s) (hstack : P t.stack)
    (hheld : t.world.held = s.world.held) (hwaiting : t.world.waiting = s.world.waiting)
    (hjournal : t.world.journal = s.world.journal) : Throughout P journal t :=
  ⟨hstack, hheld ▸ hs.held, hwaiting ▸ hs.waiting, hjournal ▸ hs.calls⟩

theorem note (hs : Throughout P journal s) (event : Event) (hstack : P t.stack)
    (hheld : t.world.held = s.world.held) (hwaiting : ∀ job ∈ t.world.waiting, P job.stack)
    (hevent : ∀ callee args stack, event = .call callee args stack → P stack)
    (hjournal : t.world.journal = event :: s.world.journal) : Throughout P journal t := by
  obtain ⟨events, hevents, hcalls⟩ := hs.calls
  refine ⟨hstack, hheld ▸ hs.held, hwaiting, event :: events,
    by rw [hjournal, hevents, List.cons_append], ?_⟩
  intro callee args stack hmem
  cases List.mem_cons.mp hmem with
  | inl heq => exact hevent callee args stack heq.symm
  | inr hmem => exact hcalls callee args stack hmem

theorem after (hP : Kept config.maxDepth P) (hs : Throughout P journal s) (op : Operation) :
    Throughout P journal (op.after config s) := by
  have hstack : P (op.after config s).stack := by
    rw [op.stack_after]
    exact hP op s.stack hs.stack
  cases op with
  | push frame =>
    simp only [Operation.after, Eval.push] at hstack ⊢
    split at hstack <;> exact hs.quiet hstack rfl rfl rfl
  | pop =>
    simp only [Operation.after, Eval.pop] at hstack ⊢
    split at hstack <;> exact hs.quiet hstack rfl rfl rfl
  | bind name v => exact hs.note (.store name v) hstack rfl hs.waiting (by simp) rfl
  | bindLocal name v =>
    simp only [Operation.after, Eval.bindLocal] at hstack ⊢
    cases hbind : Stack.bind? name v s.stack with
    | some stack =>
      rw [hbind] at hstack
      exact hs.quiet hstack rfl rfl rfl
    | none =>
      rw [hbind] at hstack
      exact hs.note (.store name v) hstack rfl hs.waiting (by simp) rfl
  | lookup name =>
    simp only [Operation.after] at hstack ⊢
    obtain h | h := Operation.stateOf_lookup name s
    · rw [h]
      exact hs
    · rw [h] at hstack ⊢
      exact hs.note (.lookup name) hstack rfl hs.waiting (by simp) rfl
  | spawn body =>
    -- The fork of the new task has the frames of the environment that starts it.
    have hwaiting : ∀ job ∈ s.world.waiting ++ [⟨s.world.tasks.issue.1, s.stack, body⟩],
        P job.stack := by
      intro job hjob
      cases List.mem_append.mp hjob with
      | inl hold => exact hs.waiting job hold
      | inr hnew =>
        rw [List.mem_singleton.mp hnew]
        exact hs.stack
    exact hs.note (.spawn (s.world.spawn s.stack body).1 body) hstack rfl hwaiting (by simp) rfl
  | note callee args =>
    refine hs.note (.call callee args s.stack) hstack rfl hs.waiting ?_ rfl
    rintro _ _ _ heq
    cases heq
    exact hs.stack
  | callNative f args =>
    simp only [Operation.after, Operation.stateOf_callNative] at hstack ⊢
    exact hs.quiet hstack rfl rfl rfl
  | setInterrupt on => exact hs.quiet hstack rfl rfl rfl
  | freshIdentity => exact hs.quiet hstack rfl rfl rfl
  | remember memory => exact hs.quiet hstack rfl rfl rfl
  | fork =>
    refine ⟨hstack, fun stack hmem => ?_, hs.waiting, hs.calls⟩
    obtain hold | rfl := mem_held_hold hmem
    · exact hs.held stack hold
    · exact hs.stack

theorem visit {n : Nat} (hs : Throughout P journal s) (hvisit : s.visit? n = some t) :
    Throughout P journal t := by
  obtain ⟨fork, hfork, rfl⟩ := Option.map_eq_some_iff.mp hvisit
  have hmem : some fork ∈ s.world.forks := List.mem_of_getElem? (Option.join_eq_some_iff.mp hfork)
  refine ⟨hs.held _ (mem_held_iff.mpr ⟨fork, hmem, rfl⟩), fun stack hstack => ?_, hs.waiting, hs.calls⟩
  exact hs.held stack ((mem_held_set hstack).resolve_right nofun)

theorem back {n : Nat} {home : Stack} (hs : Throughout P journal s) (hhome : P home) :
    Throughout P journal (s.back n home) := by
  refine ⟨hhome, fun stack hstack => ?_, hs.waiting, hs.calls⟩
  obtain hold | hnew := mem_held_set hstack
  · exact hs.held stack hold
  · rw [stack_of?_eq hnew]
    exact hs.stack

theorem changes (hP : Kept config.maxDepth P) (hs : Throughout P journal s)
    (h : Changes config s t) : Throughout P journal t := by
  induction h with
  | refl => exact hs
  | operation _ op ih => exact (ih hs).after hP op
  | inFork _ visit _ ih ih' => exact (ih' ((ih hs).visit visit)).back (ih hs).stack

end Throughout

/-! ## 4. Activities that are composed of operations -/

def Composed (config : Config) (act : Eval α) : Prop :=
  ∀ s, Changes config s (Program.stateOf (act s))

namespace Composed

variable {act : Eval α} {f : α → Eval β} {below : Interpreter}

theorem of_operation (op : Operation) (h : ∀ s, Program.stateOf (act s) = op.after config s) :
    Composed config act := by
  intro s
  rw [h]
  exact (Changes.refl s).operation op

theorem of_eq (h : ∀ s, Program.stateOf (act s) = s) : Composed config act := by
  intro s
  rw [h]
  exact .refl s

theorem pure (a : α) : Composed config (pure a : Eval α) := .of_eq fun _ => rfl

theorem throw (stop : Stop) : Composed config (throw stop : Eval α) := .of_eq fun _ => rfl

theorem fail (e : Error) : Composed config (Eval.fail e : Eval α) := .throw (.error e)

theorem bind (hact : Composed config act) (hf : ∀ a, Composed config (f a)) :
    Composed config (act >>= f) := by
  intro s
  have hfirst := hact s
  rw [bind_eq]
  cases hresult : act s with
  | ok a t =>
    rw [hresult] at hfirst
    exact hfirst.trans (hf a t)
  | error stop t =>
    rw [hresult] at hfirst
    exact hfirst

theorem stateOf_attempt (act : Eval α) (s : State) :
    Program.stateOf (Eval.attempt act s) = Program.stateOf (act s) := by
  unfold Eval.attempt
  match act s with
  | .ok a t => rfl
  | .error (.error e) t => rfl
  | .error (.panic message) t => rfl
  | .error .exhausted t => rfl

theorem attempt (hact : Composed config act) : Composed config (Eval.attempt act) := by
  intro s
  rw [stateOf_attempt]
  exact hact s

theorem push (frame : Frame) : Composed config (Eval.push config.maxDepth frame) :=
  .of_operation (.push frame) fun _ => rfl

theorem pop : Composed config Eval.pop := .of_operation .pop fun _ => rfl

theorem bindGlobal (name : String) (v : Value) : Composed config (Eval.bind name v) :=
  .of_operation (.bind name v) fun _ => rfl

theorem bindLocal (name : String) (v : Value) : Composed config (Eval.bindLocal name v) :=
  .of_operation (.bindLocal name v) fun _ => rfl

theorem lookup (name : String) : Composed config (Eval.lookup name) :=
  .of_operation (.lookup name) fun _ => rfl

theorem spawn (body : Value) : Composed config (Eval.spawn body) :=
  .of_operation (.spawn body) fun _ => rfl

theorem note (callee : Callee) (args : List Value) :
    Composed config
      (modify fun s => { s with world := s.world.note (.call callee args s.stack) }) :=
  .of_operation (.note callee args) fun _ => rfl

theorem callNative (f : NativeRef) (args : List Value) :
    Composed config (Eval.callNative config.host f args) :=
  .of_operation (.callNative f args) fun _ => rfl

theorem setInterrupt (on : Bool) :
    Composed config
      (Eval.world fun w => ((), { w with interrupt := w.interrupt.map fun _ => on })) :=
  .of_operation (.setInterrupt on) fun _ => rfl

theorem freshIdentity :
    Composed config
      (Eval.world fun w => (w.nextIdentity, { w with nextIdentity := w.nextIdentity + 1 })) :=
  .of_operation .freshIdentity fun _ => rfl

theorem remember (memory : Nat) :
    Composed config (Eval.world fun w => ((), { w with memory })) :=
  .of_operation (.remember memory) fun _ => rfl

theorem fork : Composed config Eval.fork := .of_operation .fork fun _ => rfl

theorem checkInterrupt : Composed config Eval.checkInterrupt := by
  apply of_eq
  intro s
  unfold Eval.checkInterrupt
  split <;> rfl

theorem inFork (n : Nat) (hact : Composed config act) : Composed config (Eval.inFork n act) := by
  intro s
  cases hvisit : s.visit? n with
  | none =>
    rw [Eval.inFork_of_none hvisit]
    exact .refl s
  | some t =>
    have hthere := (Changes.refl s).inFork hvisit (hact t)
    rw [Eval.inFork_of_some hvisit]
    cases hresult : act t with
    | ok a u =>
      rw [hresult] at hthere
      exact hthere
    | error stop u =>
      rw [hresult] at hthere
      exact hthere

theorem on (target : Target) (hact : Composed config act) :
    Composed config (Eval.on target act) := by
  cases target with
  | own => exact hact
  | fork n => exact inFork n hact

theorem withFrame (frame : Frame) (hact : Composed config act) :
    Composed config (Eval.withFrame config.maxDepth frame act) := by
  refine (push frame).bind fun _ => hact.attempt.bind fun result => pop.bind fun _ => ?_
  cases result with
  | ok a => exact pure a
  | error e => exact fail e

theorem instruction (hbelow : ∀ r, Composed config (below r)) (i : Instruction) :
    Composed config (i.perform config.maxDepth below) := by
  cases i with
  | eval form => exact (hbelow (.eval form)).attempt
  | compile form => exact (hbelow (.compile form)).attempt
  | run e => exact (hbelow (.run e)).attempt
  | push frame => exact (push frame).attempt
  | pop => exact pop.attempt
  | bind name v => exact bindGlobal name v
  | bindLocal name v => exact bindLocal name v
  | lookup name => exact lookup name
  | stack | interrupt | remembered => exact of_eq fun _ => rfl
  | fork => exact fork
  | spawn body => exact spawn body
  | setInterrupt on => exact setInterrupt on
  | freshIdentity => exact freshIdentity
  | remember memory => exact remember memory

theorem perform (hbelow : ∀ r, Composed config (below r)) (procedure : Procedure α) :
    Composed config (procedure.perform config.maxDepth below) := by
  induction procedure with
  | done a => exact pure a
  | fail e => exact fail e
  | panic message => exact throw _
  | step target i rest ih => exact (on target (instruction hbelow i)).bind ih

theorem call (hbelow : ∀ r, Composed config (below r)) (callee : Callee) (args : List Value) :
    Composed config (Interpreter.call config below callee args) := by
  refine (note callee args).bind fun _ => ?_
  cases callee with
  | native f => exact callNative f args
  | invokable f => exact perform hbelow (config.host.invokable f args)

theorem congruence {below' : Interpreter} (hbelow : ∀ r, Composed config (below r)) :
    Congruence config config below below' fun _ act _ => Composed config act where
  analyzer_eq := rfl
  expander_eq := rfl
  request := hbelow
  pure := pure
  fail := fail
  bind := bind
  checkInterrupt := checkInterrupt
  lookup := lookup
  store := bindGlobal
  spawn := spawn
  withFrame := withFrame
  invocation name callee args := withFrame ⟨name, args, ∅⟩ (call hbelow callee args)
  procedure p _ := perform hbelow p

/-- All that the interpreter does to a state is done by operations. -/
theorem interpret (config : Config) (levels : Nat) (r : Request) :
    Composed config (Interpreter.interpret config levels r) :=
  Interpreter.interpret_congr (fun _ act _ => Composed config act) (fun _ => throw .exhausted)
    (fun _ _ hbelow => congruence hbelow) (Nat.le_refl levels) r

theorem stored (hact : Composed config act) (s : State) :
    ∃ stores, Stored s.world stores (Program.stateOf (act s)).world :=
  (hact s).stored

theorem throughout (hact : Composed config act) {P : Stack → Prop} (hP : Kept config.maxDepth P)
    {journal : List Event} (hs : Throughout P journal s) :
    Throughout P journal (Program.stateOf (act s)) :=
  hs.changes hP (hact s)

end Composed

end Lisp
