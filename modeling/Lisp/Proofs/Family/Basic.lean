import Lisp.Proofs.Eval.Operations

/-!
# Families of environments

An environment and its forks share a world, and each of them has frames of its own.  A `Family` is
the state of them all, and `Runs` holds of what an interleaved sequence of moves makes of it: single
operations, requests, activities in a frame of their own, and forks, in any order and by any of them.

Moves take turns: each begins in the state that the one before has left, so a task or another fork is
never at work while a request is.  A request of one environment may end in an error, and it may end in
a panic that the host survives.  A task that was started becomes an environment of the family when it
begins to run.  Forks that the code of the host has made in the course of a request are held by the
host: its code may turn to them in every later request, of any environment, and each may become an
environment of the family.

With every run go the stores it has made in the global table, the latest first.
-/

namespace Lisp

/-- Environments that share a world, by their frames. -/
structure Family where
  envs : List Stack
  world : World

namespace Family

variable {config : Config} {F G H : Family}

def update (F : Family) (i : Nat) (s : State) : Family := ⟨F.envs.set i s.stack, s.world⟩

inductive Move where
  | operation (i : Nat) (op : Operation)
  /-- A request that is answered, be it by an error. -/
  | request (i : Nat) (r : Request)
  /-- A request that ends in a panic, or in want of levels. -/
  | abandon (i : Nat) (r : Request)
  /-- The code of the host in a frame of its own. -/
  | withFrame (i : Nat) (frame : Frame) (body : Procedure Value)
  | fork (i : Nat)
  /-- A task that waits begins to run, on the fork that was made for it. -/
  | begin (id : Nat)
  /-- A fork that the host holds goes its own way. -/
  | adopt (n : Nat)

inductive Step (config : Config) (F : Family) : Move → List (String × Value) → Family → Prop
  | operation {i : Nat} {stack : Stack} (env : F.envs[i]? = some stack) (op : Operation) :
      Step config F (.operation i op) (op.stores stack)
        (F.update i (op.after config ⟨stack, F.world⟩))
  | request {i : Nat} {stack : Stack} {r : Request} {answer : Except Error r.Result}
      {t : State} (levels : Nat) (events : List Event) (env : F.envs[i]? = some stack)
      (answered :
        Eval.attempt (Interpreter.interpret config levels r) ⟨stack, F.world⟩ = .ok answer t)
      (journal : t.world.journal = events ++ F.world.journal) :
      Step config F (.request i r) (storesOf events) (F.update i t)
  | abandon {i : Nat} {stack : Stack} {r : Request} {stop : Stop} {t : State} (levels : Nat)
      (events : List Event) (env : F.envs[i]? = some stack)
      (abandoned :
        Eval.attempt (Interpreter.interpret config levels r) ⟨stack, F.world⟩ = .error stop t)
      (journal : t.world.journal = events ++ F.world.journal) :
      Step config F (.abandon i r) (storesOf events) (F.update i t)
  | withFrame {i : Nat} {stack : Stack} {frame : Frame} {body : Procedure Value}
      {answer : Except Error Value} {t : State} (levels : Nat) (events : List Event)
      (env : F.envs[i]? = some stack)
      (answered :
        Eval.attempt
          (Eval.withFrame config.maxDepth frame
            (body.perform config.maxDepth (Interpreter.interpret config levels)))
          ⟨stack, F.world⟩ = .ok answer t)
      (journal : t.world.journal = events ++ F.world.journal) :
      Step config F (.withFrame i frame body) (storesOf events) (F.update i t)
  | fork {i : Nat} {stack : Stack} (env : F.envs[i]? = some stack) :
      Step config F (.fork i) [] ⟨F.envs ++ [stack], F.world⟩
  | begin {id : Nat} {job : Job} (waiting : F.world.waiting.find? (·.id = id) = some job) :
      Step config F (.begin id) []
        ⟨F.envs ++ [job.stack],
          { F.world with waiting := F.world.waiting.filter (·.id ≠ id) }⟩
  | adopt {n : Nat} {fork : Fork} (held : F.world.forks[n]? = some (some fork)) :
      Step config F (.adopt n) []
        ⟨F.envs ++ [fork.stack], { F.world with forks := F.world.forks.set n none }⟩

/-- What moves in sequence make of a family.  The first move comes first, and the latest store. -/
inductive Runs (config : Config) (F : Family) :
    List Move → List (String × Value) → Family → Prop
  | refl : Runs config F [] [] F
  | step {history : List Move} {move : Move} {earlier stores : List (String × Value)}
      {G H : Family} (before : Runs config F history earlier G)
      (step : Step config G move stores H) :
      Runs config F (history ++ [move]) (stores ++ earlier) H

theorem Step.exists_of_value {i levels : Nat} {stack : Stack} {form v : Value}
    (henv : F.envs[i]? = some stack)
    (h : Program.outcomeOf (Interpreter.interpret config levels (.eval form) ⟨stack, F.world⟩) =
      some (.ok v)) :
    ∃ stores, Step config F (.request i (.eval form)) stores
      (F.update i (Program.stateOf
        (Interpreter.interpret config levels (.eval form) ⟨stack, F.world⟩))) := by
  obtain ⟨_, hstored⟩ := (Composed.interpret config levels (.eval form)).stored ⟨stack, F.world⟩
  obtain ⟨events, hjournal, -⟩ := hstored.journal
  cases hresult : Interpreter.interpret config levels (.eval form) ⟨stack, F.world⟩ with
  | ok v t =>
    have hanswered : Eval.attempt (Interpreter.interpret config levels (.eval form))
        ⟨stack, F.world⟩ = .ok (.ok v) t := by
      unfold Eval.attempt
      rw [hresult]
    rw [hresult] at hjournal
    exact ⟨_, .request levels events henv hanswered hjournal⟩
  | error stop t =>
    rw [hresult] at h
    cases stop <;> cases h

/-! ## 1. Properties of all frames -/

/-- The frames of all environments have the property, and so have those of the forks that the host
holds, of all tasks that wait and of all calls since that journal. -/
structure Throughout (P : Stack → Prop) (journal : List Event) (F : Family) : Prop where
  envs : ∀ stack ∈ F.envs, P stack
  held : ∀ stack ∈ F.world.held, P stack
  waiting : ∀ job ∈ F.world.waiting, P job.stack
  calls : ∃ events, F.world.journal = events ++ journal ∧
    ∀ callee args stack, .call callee args stack ∈ events → P stack

namespace Throughout

variable {P : Stack → Prop} {journal : List Event} {i : Nat} {stack : Stack}

theorem start (henvs : ∀ stack ∈ F.envs, P stack) (hheld : ∀ stack ∈ F.world.held, P stack)
    (hwaiting : ∀ job ∈ F.world.waiting, P job.stack) : F.Throughout P F.world.journal :=
  ⟨henvs, hheld, hwaiting, [], rfl, by simp⟩

theorem env (h : F.Throughout P journal) (henv : F.envs[i]? = some stack) :
    Lisp.Throughout P journal ⟨stack, F.world⟩ :=
  ⟨h.envs stack (List.mem_of_getElem? henv), h.held, h.waiting, h.calls⟩

theorem update {t : State} (h : F.Throughout P journal) (ht : Lisp.Throughout P journal t) :
    (F.update i t).Throughout P journal := by
  refine ⟨fun stack hmem => ?_, ht.held, ht.waiting, ht.calls⟩
  cases List.mem_or_eq_of_mem_set hmem with
  | inl hold => exact h.envs stack hold
  | inr hnew =>
    rw [hnew]
    exact ht.stack

theorem activity {α : Type} {act : Eval α} {t : State} (hP : Kept config.maxDepth P)
    (h : F.Throughout P journal) (henv : F.envs[i]? = some stack)
    (ht : Program.stateOf (act ⟨stack, F.world⟩) = t) (hact : Composed config act) :
    (F.update i t).Throughout P journal := by
  rw [← ht]
  exact h.update (hact.throughout hP (h.env henv))

theorem join {world : World} (h : F.Throughout P journal) (hstack : P stack)
    (hheld : world.held ⊆ F.world.held) (hwaiting : world.waiting ⊆ F.world.waiting)
    (hjournal : world.journal = F.world.journal) :
    Throughout P journal ⟨F.envs ++ [stack], world⟩ := by
  refine ⟨fun stack' hmem => ?_, fun stack' hmem => h.held stack' (hheld hmem),
    fun job hjob => h.waiting job (hwaiting hjob), ?_⟩
  · cases List.mem_append.mp hmem with
    | inl hold => exact h.envs stack' hold
    | inr hnew =>
      rw [List.mem_singleton.mp hnew]
      exact hstack
  · rw [hjournal]
    exact h.calls

theorem step {move : Move} {stores : List (String × Value)} (hP : Kept config.maxDepth P)
    (h : F.Throughout P journal) (hstep : Step config F move stores G) :
    G.Throughout P journal := by
  cases hstep with
  | operation env op => exact h.update ((h.env env).after hP op)
  | request _ _ env answered _ =>
    exact h.activity hP env (congrArg Program.stateOf answered)
      (Composed.interpret config _ _).attempt
  | abandon _ _ env abandoned _ =>
    exact h.activity hP env (congrArg Program.stateOf abandoned)
      (Composed.interpret config _ _).attempt
  | withFrame _ _ env answered _ =>
    exact h.activity hP env (congrArg Program.stateOf answered)
      ((Composed.perform (Composed.interpret config _) _).withFrame _).attempt
  | fork env =>
    exact h.join (h.envs _ (List.mem_of_getElem? env)) (List.Subset.refl _) (List.Subset.refl _) rfl
  | begin waiting =>
    have hjob := h.waiting _ (List.mem_of_find?_eq_some waiting)
    exact h.join hjob (List.Subset.refl _) (List.filter_subset_self _) rfl
  | @adopt _ fork held =>
    have hfork := h.held _ (mem_held_iff.mpr ⟨fork, List.mem_of_getElem? held, rfl⟩)
    exact h.join hfork (fun _ hmem => (mem_held_set hmem).resolve_right nofun) (List.Subset.refl _) rfl

theorem runs {history : List Move} {stores : List (String × Value)} (hP : Kept config.maxDepth P)
    (h : F.Throughout P journal) (hruns : Runs config F history stores G) :
    G.Throughout P journal := by
  induction hruns with
  | refl => exact h
  | step _ step ih => exact ih.step hP step

end Throughout

/-! ## 2. The global table -/

theorem stored_of_activity {α : Type} {act : Eval α} {stack : Stack} {t : State}
    {events : List Event} (ht : Program.stateOf (act ⟨stack, F.world⟩) = t)
    (hact : Composed config act)
    (hjournal : t.world.journal = events ++ F.world.journal) :
    Stored F.world (storesOf events) t.world := by
  obtain ⟨stores, hstores⟩ := hact.stored ⟨stack, F.world⟩
  rw [ht] at hstores
  rw [← hstores.eq_of_journal hjournal]
  exact hstores

theorem Step.stored {move : Move} {stores : List (String × Value)}
    (hstep : Step config F move stores G) : Stored F.world stores G.world := by
  cases hstep with
  | @operation i stack env op => exact op.stored_after ⟨stack, F.world⟩
  | request _ _ env answered journal =>
    exact stored_of_activity (congrArg Program.stateOf answered)
      (Composed.interpret config _ _).attempt journal
  | abandon _ _ env abandoned journal =>
    exact stored_of_activity (congrArg Program.stateOf abandoned)
      (Composed.interpret config _ _).attempt journal
  | withFrame _ _ env answered journal =>
    exact stored_of_activity (congrArg Program.stateOf answered)
      ((Composed.perform (Composed.interpret config _) _).withFrame _).attempt journal
  | fork env => exact .refl F.world
  | begin waiting => exact .quiet rfl rfl
  | adopt held => exact .quiet rfl rfl

theorem Runs.stored {history : List Move} {stores : List (String × Value)}
    (hruns : Runs config F history stores G) : Stored F.world stores G.world := by
  induction hruns with
  | refl => exact .refl F.world
  | step _ step ih => exact ih.trans step.stored

end Family

end Lisp
