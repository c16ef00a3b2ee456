import Lisp.Proofs.Family.Basic

/-!
# Well-formed frames

The frames of an environment end in the global one, which holds nothing, and there are never more of
them than the limit allows.  This is so from the start, and every operation keeps it, whether it
succeeds or fails; so it holds of every environment of a family at any time, `wellFormed_at_all_times`,
and of the frames that any code of the host gets to see, at any point of an evaluation.

Frames of this kind are full when one more does not fit, and bare when none can be removed.
-/

namespace Lisp

namespace Stack

structure WellFormed (maxDepth : Nat) (stack : Stack) : Prop where
  one_le : 1 ≤ stack.depth
  le_max : stack.depth ≤ maxDepth
  global : stack.getLast? = some Frame.global

variable {maxDepth : Nat} {frame below : Frame} {stack rest : Stack}

theorem wellFormed_base (h : 1 ≤ maxDepth) : WellFormed maxDepth base :=
  ⟨Nat.le_refl 1, h, rfl⟩

theorem WellFormed.cons (h : WellFormed maxDepth stack) (hroom : ¬ maxDepth ≤ stack.depth) :
    WellFormed maxDepth (frame :: stack) := by
  obtain ⟨hone, -, hglobal⟩ := h
  refine ⟨Nat.le_add_left 1 _, Nat.lt_of_not_le hroom, ?_⟩
  rw [List.getLast?_cons, hglobal]
  rfl

theorem WellFormed.tail (h : WellFormed maxDepth (frame :: below :: rest)) :
    WellFormed maxDepth (below :: rest) := by
  obtain ⟨-, hmax, hglobal⟩ := h
  refine ⟨Nat.le_add_left 1 _, Nat.le_of_succ_le hmax, ?_⟩
  rwa [List.getLast?_cons_cons] at hglobal

theorem WellFormed.replace {frame' : Frame} (h : WellFormed maxDepth (frame :: below :: rest)) :
    WellFormed maxDepth (frame' :: below :: rest) := by
  obtain ⟨hone, hmax, hglobal⟩ := h
  refine ⟨hone, hmax, ?_⟩
  rwa [List.getLast?_cons_cons] at hglobal ⊢

end Stack

open Stack (WellFormed)

theorem kept_wellFormed (maxDepth : Nat) : Kept maxDepth (WellFormed maxDepth) :=
  kept_of_frames (fun _ _ h hroom => h.cons hroom) (fun _ _ _ h => h.tail) fun _ _ _ _ h => h.replace

/-! ## 1. Full and bare frames -/

variable {config : Config} {maxDepth : Nat} {s : State}

/-- A frame fails to fit exactly at the limit, and the failure changes nothing. -/
theorem push_iff_full (h : WellFormed maxDepth s.stack) (frame : Frame) :
    (Eval.push maxDepth frame s = .error (.error (.stackOverflow maxDepth)) s ↔
      s.stack.depth = maxDepth) ∧
    (Eval.push maxDepth frame s = .ok () { s with stack := frame :: s.stack } ↔
      s.stack.depth ≠ maxDepth) := by
  have hmax := h.le_max
  by_cases hfull : maxDepth ≤ s.stack.depth
  · have heq : s.stack.depth = maxDepth := by omega
    simp [Eval.push, Stack.push, heq]
  · have hne : s.stack.depth ≠ maxDepth := by omega
    simp [Eval.push, Stack.push, hfull, hne]

theorem pop_iff_bare (h : WellFormed maxDepth s.stack) :
    (Eval.pop s = .error (.error .emptyStack) s ↔ s.stack.depth = 1) ∧
    ((∃ frame rest, s.stack = frame :: rest ∧ Eval.pop s = .ok frame { s with stack := rest }) ↔
      s.stack.depth ≠ 1) := by
  obtain ⟨stack, world⟩ := s
  match stack with
  | [] => exact absurd h.one_le (by simp [Stack.depth])
  | [_] => simp [Eval.pop, Stack.pop, Stack.depth]
  | _ :: _ :: _ => simp [Eval.pop, Stack.pop, Stack.depth]

/-! ## 2. What callables find -/

namespace Procedure

def watch {α : Type} (check : Stack → Bool) (target : Target) (rest : Procedure α) : Procedure α :=
  .step target .stack fun stack => if check stack then rest else .panic none

/-- The same code with a look at the frames before everything it does: at its own, and at those of the
fork that it turns to. -/
def watched {α : Type} (check : Stack → Bool) : Procedure α → Procedure α
  | .done a => watch check .own (.done a)
  | .fail e => watch check .own (.fail e)
  | .panic message => watch check .own (.panic message)
  | .step target i rest =>
    watch check .own (watch check target (.step target i fun answer => (rest answer).watched check))

end Procedure

def Config.watched (config : Config) (check : Stack → Bool) : Config :=
  { config with
    host := { config.host with
      invokable := fun f args => (config.host.invokable f args).watched check } }

/-- A fork that is put back as it was found leaves no trace. -/
theorem State.back_visit {n : Nat} {s t : State} (h : s.visit? n = some t) :
    t.back n s.stack = s := by
  obtain ⟨fork, hfork, rfl⟩ := Option.map_eq_some_iff.mp h
  obtain ⟨hlt, hget⟩ := List.getElem?_eq_some_iff.mp (Option.join_eq_some_iff.mp hfork)
  have hof : Fork.of? fork.stack = s.world.forks[n] := by
    rw [hget]
    exact dif_pos fork.stack_ne_nil
  have hforks : (s.world.forks.set n none).set n (Fork.of? fork.stack) = s.world.forks := by
    rw [List.set_set, hof, List.set_getElem_self]
  simp only [State.back, hforks]

structure Coincide (config : Config) (P : Stack → Prop) {α : Type} (act act' : Eval α) : Prop where
  composed : Composed config act
  eq : ∀ {journal s}, Throughout P journal s → act s = act' s

namespace Coincide

variable {α β : Type} {P : Stack → Prop} {check : Stack → Bool} {act act' : Eval α}
  {f f' : α → Eval β} {below below' : Interpreter}

theorem same (hact : Composed config act) : Coincide config P act act := ⟨hact, fun _ => rfl⟩

theorem bind (hP : Kept config.maxDepth P) (hact : Coincide config P act act')
    (hf : ∀ a, Coincide config P (f a) (f' a)) : Coincide config P (act >>= f) (act' >>= f') where
  composed := hact.composed.bind fun a => (hf a).composed
  eq {journal s} hs := by
    have hkept := hact.composed.throughout hP hs
    rw [bind_eq, bind_eq, ← hact.eq hs]
    cases hresult : act s with
    | ok a t =>
      rw [hresult] at hkept
      exact (hf a).eq hkept
    | error stop t => rfl

theorem attempt (hact : Coincide config P act act') :
    Coincide config P (Eval.attempt act) (Eval.attempt act') where
  composed := hact.composed.attempt
  eq hs := by
    unfold Eval.attempt
    rw [hact.eq hs]

theorem withFrame (hP : Kept config.maxDepth P) (frame : Frame) (hact : Coincide config P act act') :
    Coincide config P (Eval.withFrame config.maxDepth frame act)
      (Eval.withFrame config.maxDepth frame act') :=
  (same (.push frame)).bind hP fun _ => hact.attempt.bind hP fun result =>
    (same .pop).bind hP fun _ => same <| match result with
      | .ok a => .pure a
      | .error e => .fail e

theorem inFork (n : Nat) (hact : Coincide config P act act') :
    Coincide config P (Eval.inFork n act) (Eval.inFork n act') where
  composed := hact.composed.inFork n
  eq {journal s} hs := by
    cases hvisit : s.visit? n with
    | none => rw [Eval.inFork_of_none hvisit, Eval.inFork_of_none hvisit]
    | some t =>
      rw [Eval.inFork_of_some hvisit, Eval.inFork_of_some hvisit, hact.eq (hs.visit hvisit)]

theorem on (target : Target) (hact : Coincide config P act act') :
    Coincide config P (Eval.on target act) (Eval.on target act') := by
  cases target with
  | own => exact hact
  | fork n => exact hact.inFork n

theorem instruction (hbelow : ∀ r, Coincide config P (below r) (below' r)) (i : Instruction) :
    Coincide config P (i.perform config.maxDepth below) (i.perform config.maxDepth below') := by
  cases i with
  | eval form => exact (hbelow (.eval form)).attempt
  | compile form => exact (hbelow (.compile form)).attempt
  | run e => exact (hbelow (.run e)).attempt
  -- All others ask nothing of the interpreter.
  | _ => exact same (.instruction (fun r => (hbelow r).composed) _)

theorem perform_same (hP : Kept config.maxDepth P)
    (hbelow : ∀ r, Coincide config P (below r) (below' r)) (procedure : Procedure α) :
    Coincide config P (procedure.perform config.maxDepth below)
      (procedure.perform config.maxDepth below') := by
  induction procedure with
  | done a => exact same (.pure a)
  | fail e => exact same (.fail e)
  | panic message => exact same (.throw _)
  | step target i rest ih => exact ((instruction hbelow i).on target).bind hP ih

theorem watch_own (hcheck : ∀ stack, P stack → check stack = true) {procedure : Procedure α}
    (hact : Coincide config P act (procedure.perform config.maxDepth below')) :
    Coincide config P act ((procedure.watch check .own).perform config.maxDepth below') where
  composed := hact.composed
  eq {journal s} hs := by
    change act s =
      (if check s.stack then procedure else .panic none).perform config.maxDepth below' s
    rw [if_pos (hcheck s.stack hs.stack)]
    exact hact.eq hs

/-- The frames of a fork that the host holds pass the check as well; and to turn to one that it does not
hold is a panic anyway. -/
theorem watch_step (hcheck : ∀ stack, P stack → check stack = true) {target : Target}
    {i : Instruction} {rest : i.Outcome → Procedure α}
    (hact : Coincide config P act ((Procedure.step target i rest).perform config.maxDepth below')) :
    Coincide config P act
      (((Procedure.step target i rest).watch check target).perform config.maxDepth below') := by
  cases target with
  | own => exact watch_own hcheck hact
  | fork n =>
    refine ⟨hact.composed, fun {journal s} hs => (hact.eq hs).trans ?_⟩
    unfold Procedure.watch
    simp only [Procedure.perform, Eval.on, bind_eq]
    cases hvisit : s.visit? n with
    | none => rw [Eval.inFork_of_none hvisit, Eval.inFork_of_none hvisit]
    | some t =>
      have hlook : Eval.inFork n (Instruction.stack.perform config.maxDepth below') s =
          .ok t.stack s := by
        rw [Eval.inFork_of_some hvisit]
        exact congrArg (EStateM.Result.ok t.stack) (State.back_visit hvisit)
      rw [hlook]
      simp only [hcheck t.stack (hs.visit hvisit).stack, if_true]
      rfl

theorem perform_watched (hP : Kept config.maxDepth P) (hcheck : ∀ stack, P stack → check stack = true)
    (hbelow : ∀ r, Coincide config P (below r) (below' r)) (procedure : Procedure α) :
    Coincide config P (procedure.perform config.maxDepth below)
      ((procedure.watched check).perform config.maxDepth below') := by
  induction procedure with
  | done a => exact watch_own hcheck (same (.pure a))
  | fail e => exact watch_own hcheck (same (.fail e))
  | panic message => exact watch_own hcheck (same (.throw _))
  | step target i rest ih =>
    exact watch_own hcheck (watch_step hcheck (((instruction hbelow i).on target).bind hP ih))

theorem call_watched (hP : Kept config.maxDepth P) (hcheck : ∀ stack, P stack → check stack = true)
    (hbelow : ∀ r, Coincide config P (below r) (below' r)) (callee : Callee) (args : List Value) :
    Coincide config P (Interpreter.call config below callee args)
      (Interpreter.call (config.watched check) below' callee args) := by
  refine (same (.note callee args)).bind hP fun _ => ?_
  cases callee with
  | native f => exact same (.callNative f args)
  | invokable f => exact perform_watched hP hcheck hbelow (config.host.invokable f args)

theorem congruence (hP : Kept config.maxDepth P) (hcheck : ∀ stack, P stack → check stack = true)
    (hbelow : ∀ r, Coincide config P (below r) (below' r)) :
    Congruence config (config.watched check) below below' fun _ => Coincide config P where
  analyzer_eq := rfl
  expander_eq := rfl
  request := hbelow
  pure a := same (.pure a)
  fail e := same (.fail e)
  bind := bind hP
  checkInterrupt := same .checkInterrupt
  lookup name := same (.lookup name)
  store name v := same (.bindGlobal name v)
  spawn body := same (.spawn body)
  withFrame := withFrame hP
  invocation name callee args :=
    withFrame hP ⟨name, args, ∅⟩ (call_watched hP hcheck hbelow callee args)
  procedure p _ := perform_same hP hbelow p

theorem interpret_watched (hP : Kept config.maxDepth P)
    (hcheck : ∀ stack, P stack → check stack = true) (levels : Nat) (r : Request) :
    Coincide config P (Interpreter.interpret config levels r)
      (Interpreter.interpret (config.watched check) levels r) := by
  induction levels generalizing r with
  | zero => exact same (.throw .exhausted)
  | succ levels ih =>
    rw [Interpreter.interpret_succ, Interpreter.interpret_succ]
    exact Interpreter.level_congr (congruence hP hcheck ih) r

end Coincide

namespace Family

/-! ## 3. Families -/

/-- The frames of all environments at all times.  An environment whose limit was accepted, with any
world in which no task waits and no fork is held and any code of the host, and all of its forks, those
that the code of the host makes, holds and works on included: after any moves of them in any order,
whether they succeed, fail or panic,

* there is at least one frame, there are no more than the limit allows, and below all others lies
  the global one, with its name, without arguments and without bindings;
* a frame fails to fit exactly at the limit, a frame fails to be removed exactly where the global
  one is alone, and such a failure changes nothing;
* every call until then, and so every callable, was given frames of this kind;
* and whatever is asked of an environment next, callables that panic as soon as they find any other
  frames, their own or those of a fork, at any point of their work, never do. -/
theorem wellFormed_at_all_times {requested : Nat} {w : World} {F : Family} {history : List Move}
    {stores : List (String × Value)}
    (hmax : Options.checkedMaxDepth requested = .ok config.maxDepth) (hwaiting : w.waiting = [])
    (hforks : w.forks = []) (hruns : Runs config ⟨[.base], w⟩ history stores F) :
    (∀ stack ∈ F.envs ++ F.world.held,
      1 ≤ stack.depth ∧ stack.depth ≤ config.maxDepth ∧
      stack.getLast? = some ⟨"<global>", [], ∅⟩ ∧
      (∀ frame,
        (Eval.push config.maxDepth frame ⟨stack, F.world⟩ =
            .error (.error (.stackOverflow config.maxDepth)) ⟨stack, F.world⟩ ↔
          stack.depth = config.maxDepth) ∧
        (Eval.push config.maxDepth frame ⟨stack, F.world⟩ = .ok () ⟨frame :: stack, F.world⟩ ↔
          stack.depth ≠ config.maxDepth)) ∧
      (Eval.pop ⟨stack, F.world⟩ = .error (.error .emptyStack) ⟨stack, F.world⟩ ↔
        stack.depth = 1) ∧
      ((∃ frame rest, stack = frame :: rest ∧
          Eval.pop ⟨stack, F.world⟩ = .ok frame ⟨rest, F.world⟩) ↔ stack.depth ≠ 1)) ∧
    (∃ events, F.world.journal = events ++ w.journal ∧
      ∀ callee args stack, .call callee args stack ∈ events → stack.WellFormed config.maxDepth) ∧
    (∀ check : Stack → Bool, (∀ stack, stack.WellFormed config.maxDepth → check stack = true) →
      ∀ stack ∈ F.envs, ∀ levels r,
        Interpreter.interpret (config.watched check) levels r ⟨stack, F.world⟩ =
          Interpreter.interpret config levels r ⟨stack, F.world⟩) := by
  have hone : 1 ≤ config.maxDepth := by
    unfold Options.checkedMaxDepth at hmax
    split at hmax
    · cases hmax
    · cases hmax
      omega
  have hkept := kept_wellFormed config.maxDepth
  have hstart : Throughout (WellFormed config.maxDepth) w.journal ⟨[.base], w⟩ := by
    refine Throughout.start (F := ⟨[.base], w⟩) (fun stack hmem => ?_) (fun stack hmem => ?_)
      (fun job hjob => ?_)
    · rw [List.mem_singleton.mp hmem]
      exact Stack.wellFormed_base hone
    · simp [World.held, hforks] at hmem
    · simp [hwaiting] at hjob
  have hall := hstart.runs hkept hruns
  refine ⟨fun stack hmem => ?_, hall.calls, fun check hcheck stack hmem levels r => ?_⟩
  · have hstack := (List.mem_append.mp hmem).elim (hall.envs stack) (hall.held stack)
    have hpush := push_iff_full (s := ⟨stack, F.world⟩) hstack
    obtain ⟨hbare, hpop⟩ := pop_iff_bare (s := ⟨stack, F.world⟩) hstack
    exact ⟨hstack.one_le, hstack.le_max, hstack.global, hpush, hbare, hpop⟩
  · obtain ⟨i, henv⟩ := List.getElem?_of_mem hmem
    have hsame := Coincide.interpret_watched hkept hcheck levels r
    exact (hsame.eq (hall.env henv)).symm

/-- A callable that makes a fork and gives up the frame of the call there.  The last frame stays, and
only one more fits, so that a call fails there. -/
def branch : Procedure Value :=
  .step .own .fork fun n =>
  .step (.fork n) .pop fun _ =>
  .step (.fork n) .pop fun _ =>
  .step (.fork n) (.push ⟨"h", [], ∅⟩) fun _ =>
  .step (.fork n) (.push ⟨"h", [], ∅⟩) fun _ =>
  .step (.fork n) (.bindLocal "x" (.int 9)) fun _ =>
  .step (.fork n) (.eval (.list [.symbol "list"])) fun answer =>
  .done (.bool answer.toBool)

def branching : Library := Builtins.library ++ [("branch", .invokable fun _ => branch)]

def branchingConfig : Config :=
  { Program.standardConfig with host := branching.host, maxDepth := 2 }

def branched (w : World) : State :=
  Program.stateOf (Interpreter.interpret branchingConfig 6 (.eval (.list [.symbol "branch"])) ⟨.base, w⟩)

/-- An environment with room for one call, in which a second one does not fit; a fork of it that
gives up the frame of the call and finds that the last one stays; and a fork of that one which a callable
makes and works on, and which goes its own way afterwards. -/
theorem wellFormed_at_limit_two :
    Options.checkedMaxDepth 2 = .ok 2 ∧
    ∃ history stores F,
      Runs branchingConfig ⟨[.base], World.empty.storeAll branching.bindings⟩ history stores F ∧
      history.length = 11 ∧ F.envs.map Stack.depth = [2, 1, 2] ∧
      ∀ stack ∈ F.envs, 1 ≤ stack.depth ∧ stack.depth ≤ 2 := by
  obtain ⟨G, stores, hruns, hdepths, henv, hvalue, hfork, hbase⟩ : ∃ G stores,
      Runs branchingConfig ⟨[.base], World.empty.storeAll branching.bindings⟩
        [.operation 0 (.push ⟨"f", [.int 1], ∅⟩), .operation 0 (.push ⟨"g", [], ∅⟩),
          .operation 0 (.bindLocal "x" (.int 7)), .fork 0,
          .request 0 (.eval (.list [.symbol "list", .symbol "x"])),
          .operation 1 .pop, .operation 1 .pop, .operation 1 (.bindLocal "x" (.int 8)),
          .request 1 (.eval (.list [.symbol "def", .symbol "y", .symbol "x"]))]
        stores G ∧
      G.envs.map Stack.depth = [2, 1] ∧ G.envs[1]? = some .base ∧
      Program.outcomeOf (Interpreter.interpret branchingConfig 6
        (.eval (.list [.symbol "branch"])) ⟨.base, G.world⟩) = some (.ok (.bool false)) ∧
      (branched G.world).world.forks[0]?.join.map (·.stack.depth) = some 2 ∧
      (branched G.world).stack.depth = 1 :=
    ⟨_, _,
      ((((((((Runs.refl.step (.operation rfl _)).step (.operation rfl _)).step
        (.operation rfl _)).step (.fork rfl)).step
        (.request 4 [.lookup "list", .lookup "list"] rfl rfl rfl)).step
        (.operation rfl _)).step (.operation rfl _)).step (.operation rfl _)).step
        (.request 4 [.store "y" (.int 8), .lookup "x", .lookup "def"] rfl rfl rfl),
      rfl, rfl, by cbv, by cbv, by cbv⟩
  obtain ⟨later, hbranch⟩ := Step.exists_of_value henv hvalue
  obtain ⟨fork, hheld, hforkDepth⟩ := Option.map_eq_some_iff.mp hfork
  have hall := (hruns.step hbranch).step (.adopt (Option.join_eq_some_iff.mp hheld))
  have hlast : ((G.envs.set 1 (branched G.world).stack) ++ [fork.stack]).map Stack.depth =
      [2, 1, 2] := by
    rw [List.map_append, List.map_set, hdepths, hbase, List.map_singleton, hforkDepth]
    rfl
  have hmax : Options.checkedMaxDepth 2 = .ok 2 := rfl
  have hframes := (wellFormed_at_all_times hmax rfl rfl hall).1
  exact ⟨hmax, _, _, _, hall, rfl, hlast, fun stack hmem =>
    have hstack := hframes stack (List.mem_append_left _ hmem)
    ⟨hstack.1, hstack.2.1⟩⟩

end Family

end Lisp
