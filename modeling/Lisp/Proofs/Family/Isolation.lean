import Lisp.Proofs.Eval.Frames
import Lisp.Proofs.Family.Basic

/-!
# Isolation of forks

The frames of an environment are its own: whatever the rest of the family does, they are what its own
operations make of the frames that it was made with, `Runs.frames`.  The global table is common to
all: a name has there the value that was stored last, by whichever environment, `Runs.stored`.

The premise is that requests and activities in a frame of their own leave the frames of their callers
as they find them, `Config.KeepsCallers`, so that they do not count as operations on the frames.
-/

namespace Lisp

/-! ## 1. Names -/

theorem Stack.find?_eq (name : String) (stack : Stack) :
    Stack.find? name stack = stack.dropLast.findSome? (·.vars.get? name) := by
  induction stack with
  | nil => rfl
  | cons frame below ih =>
    cases below with
    | nil => rfl
    | cons next rest =>
      rw [List.dropLast_cons_cons, List.findSome?_cons, ← ih]
      simp only [Stack.find?, List.isEmpty_cons, Bool.false_eq_true, if_false]
      cases frame.vars.get? name <;> rfl

theorem lookup_eq (name : String) (s : State) :
    ∃ t, Eval.lookup name s =
      .ok ((s.stack.dropLast.findSome? (·.vars.get? name)).or (s.world.globals.get? name)) t := by
  unfold Eval.lookup
  rw [Stack.find?_eq]
  cases s.stack.dropLast.findSome? (·.vars.get? name) with
  | some v => exact ⟨s, rfl⟩
  | none => exact ⟨_, rfl⟩

/-! ## 2. Own operations -/

def Operation.framesAll (maxDepth : Nat) (ops : List Operation) (stack : Stack) : Stack :=
  ops.foldl (fun stack op => op.frames maxDepth stack) stack

theorem Operation.framesAll_append (maxDepth : Nat) (ops later : List Operation) (stack : Stack) :
    framesAll maxDepth (ops ++ later) stack =
      framesAll maxDepth later (framesAll maxDepth ops stack) :=
  List.foldl_append

namespace Family

variable {config : Config} {F G H : Family}

def ownOperations (i : Nat) (history : List Move) : List Operation :=
  history.filterMap fun
    | .operation j op => if j = i then some op else none
    | _ => none

theorem ownOperations_append (i : Nat) (history later : List Move) :
    ownOperations i (history ++ later) = ownOperations i history ++ ownOperations i later :=
  List.filterMap_append

/-- A move that leaves the frames as it finds them, unless it is an operation.  A panic may leave
anything behind. -/
def Move.Restores (config : Config) : Move → Prop
  | .withFrame _ _ body => body.KeepsCallers config
  | .abandon _ _ => False
  | .operation _ _ => True
  | .request _ _ => True
  | .fork _ => True
  | .begin _ => True
  | .adopt _ => True

theorem getElem?_update_self {i : Nat} {stack : Stack} (henv : F.envs[i]? = some stack)
    (s : State) : (F.update i s).envs[i]? = some s.stack := by
  have hlt : i < F.envs.length := (List.getElem?_eq_some_iff.mp henv).1
  simp [update, hlt]

theorem getElem?_update_ne {i j : Nat} (hne : i ≠ j) (s : State) :
    (F.update i s).envs[j]? = F.envs[j]? := by
  simp [update, hne]

theorem getElem?_update_restored {α : Type} {act : Eval α} {i j : Nat} {stack own : Stack} {a : α}
    {t : State} (hact : Lisp.Restores act) (henv : F.envs[i]? = some own) (hown : own ≠ [])
    (ht : act ⟨own, F.world⟩ = .ok a t) (hstack : F.envs[j]? = some stack) :
    (F.update i t).envs[j]? = some stack := by
  have hleaves := hact ⟨own, F.world⟩ hown
  rw [ht] at hleaves
  have hsame : t.stack = own := hleaves
  by_cases hij : i = j
  · subst hij
    rw [getElem?_update_self henv, hsame, ← henv, hstack]
  · rw [getElem?_update_ne hij, hstack]

theorem getElem?_join {j : Nat} {stack own : Stack} {w : World} (hstack : F.envs[j]? = some stack) :
    (Family.mk (F.envs ++ [own]) w).envs[j]? = some stack :=
  (List.getElem?_append_left (List.getElem?_eq_some_iff.mp hstack).1).trans hstack

/-- A move changes the frames of one environment at most, and those by an operation only. -/
theorem Step.frames {move : Move} {stores : List (String × Value)} (hconfig : config.KeepsCallers)
    (hmove : move.Restores config) (hF : ∀ stack ∈ F.envs, stack ≠ [])
    (hstep : Step config F move stores G) {j : Nat} {stack : Stack}
    (hstack : F.envs[j]? = some stack) :
    G.envs[j]? =
      some (Operation.framesAll config.maxDepth (ownOperations j [move]) stack) := by
  cases hstep with
  -- Only an operation changes frames, and those of the environment that makes it.
  | @operation i own henv op =>
    by_cases hij : i = j
    · subst hij
      cases hstack.symm.trans henv
      rw [getElem?_update_self henv, op.stack_after]
      simp [ownOperations, Operation.framesAll]
    · rw [getElem?_update_ne hij, hstack]
      simp [ownOperations, Operation.framesAll, hij]
  | request _ _ henv answered _ =>
    exact getElem?_update_restored (Interpreter.interpret_restores_of_callers hconfig _ _).attempt
      henv (hF _ (List.mem_of_getElem? henv)) answered hstack
  | abandon => exact hmove.elim
  | withFrame levels _ henv answered _ =>
    have hbody := hmove levels (Interpreter.interpret_restores_of_callers hconfig levels)
    exact getElem?_update_restored hbody.withFrame.attempt henv (hF _ (List.mem_of_getElem? henv))
      answered hstack
  | fork henv => exact getElem?_join hstack
  | begin waiting => exact getElem?_join hstack
  | adopt held => exact getElem?_join hstack

theorem kept_ne_nil (maxDepth : Nat) : Kept maxDepth (· ≠ []) :=
  kept_of_frames (fun _ _ _ _ => List.cons_ne_nil _ _) (fun _ _ _ _ => List.cons_ne_nil _ _)
    fun _ _ _ _ _ => List.cons_ne_nil _ _

theorem Runs.frames {history : List Move} {stores : List (String × Value)} {journal : List Event}
    (hconfig : config.KeepsCallers) (hmoves : ∀ move ∈ history, move.Restores config)
    (hF : F.Throughout (· ≠ []) journal) (hruns : Runs config F history stores G) {i : Nat}
    {stack : Stack} (hstack : F.envs[i]? = some stack) :
    G.envs[i]? =
      some (Operation.framesAll config.maxDepth (ownOperations i history) stack) := by
  induction hruns with
  | refl => exact hstack
  | @step history move _ _ _ _ before step ih =>
    have hbefore := ih fun move hmem => hmoves move (List.mem_append_left _ hmem)
    have hmove := hmoves move (List.mem_append_right _ List.mem_cons_self)
    have hG := (hF.runs (kept_ne_nil config.maxDepth) before).envs
    rw [ownOperations_append, Operation.framesAll_append]
    exact step.frames hconfig hmove hG hbefore

/-! ## 3. Forks -/

theorem Runs.split {earlier later : List Move} {move : Move} {stores : List (String × Value)}
    (hruns : Runs config F (earlier ++ move :: later) stores H) :
    ∃ before own after G G', Runs config F earlier before G ∧ Step config G move own G' ∧
      Runs config G' later after H ∧ stores = after ++ own ++ before := by
  -- The induction is on the run, whose last move is the one in question or comes after it.
  generalize hhistory : earlier ++ move :: later = history at hruns
  induction hruns generalizing later with
  | refl => simp at hhistory
  | @step history last before own G H hbefore hstep ih =>
    obtain rfl | ⟨rest, move', rfl⟩ := List.eq_nil_or_concat later
    · -- The move is the last one of the run.
      obtain ⟨rfl, heq⟩ := List.append_inj' hhistory rfl
      cases heq
      exact ⟨before, own, [], G, H, hbefore, hstep, .refl, rfl⟩
    · rw [List.concat_eq_append, ← List.cons_append, ← List.append_assoc] at hhistory
      obtain ⟨hinit, heq⟩ := List.append_inj' hhistory rfl
      cases heq
      obtain ⟨before', own', after, G₁, G₂, hearlier, hmove, hlater, rfl⟩ := ih hinit
      refine ⟨before', own', own ++ after, G₁, G₂, hearlier, hmove, ?_, ?_⟩
      · rw [List.concat_eq_append]
        exact hlater.step hstep
      · simp only [List.append_assoc]

theorem Runs.frames_after {earlier later : List Move} {move : Move}
    {stores : List (String × Value)} {journal : List Event} (hconfig : config.KeepsCallers)
    (hmoves : ∀ other ∈ earlier ++ move :: later, other.Restores config)
    (hF : F.Throughout (· ≠ []) journal)
    (hruns : Runs config F (earlier ++ move :: later) stores H) :
    ∃ before own G G', Runs config F earlier before G ∧ Step config G move own G' ∧
      ∀ i stack, G'.envs[i]? = some stack →
        H.envs[i]? =
          some (Operation.framesAll config.maxDepth (ownOperations i later) stack) := by
  obtain ⟨before, own, _, G, G', hearlier, hstep, hlater, -⟩ := hruns.split
  have hkept := kept_ne_nil config.maxDepth
  have hG' := (hF.runs hkept hearlier).step hkept hstep
  have hlast : ∀ other ∈ later, other.Restores config := fun other hmem =>
    hmoves other (List.mem_append_right _ (List.mem_cons_of_mem _ hmem))
  exact ⟨before, own, G, G', hearlier, hstep, fun i stack => hlater.frames hconfig hlast hG'⟩

/-- Forks have locals of their own and globals in common.  Any environments, and any moves of them in
any order, forks of forks included, where requests and code in a frame of its own restore the frames
of their callers:

* the frames of an environment that was there at the start are what its own operations make of them;
* a fork starts with the frames that the environment it was made of had at that time, a task with those
  of its fork, and an environment that the host gives away with those that the host held; from then on
  the frames are what its own operations make of them;
* the value of a name is that of the innermost frame that binds it, the global one left out, and
  otherwise the one that was stored last, be it by this or by another environment, or the one that it
  had at the start;
* and a definition is stored for all, whatever the frames bind. -/
theorem forks_isolate_locals_and_share_globals {history : List Move}
    {stores : List (String × Value)} (hconfig : config.KeepsCallers)
    (henvs : ∀ stack ∈ F.envs, stack ≠ []) (hwaiting : ∀ job ∈ F.world.waiting, job.stack ≠ [])
    (hmoves : ∀ move ∈ history, move.Restores config) (hruns : Runs config F history stores H) :
    (∀ i stack, F.envs[i]? = some stack →
      H.envs[i]? = some (Operation.framesAll config.maxDepth (ownOperations i history) stack)) ∧
    (∀ earlier i later, history = earlier ++ .fork i :: later →
      ∃ before G stack, Runs config F earlier before G ∧ G.envs[i]? = some stack ∧
        H.envs[G.envs.length]? =
          some (Operation.framesAll config.maxDepth (ownOperations G.envs.length later) stack)) ∧
    (∀ earlier id later, history = earlier ++ .begin id :: later →
      ∃ before G job, Runs config F earlier before G ∧
        G.world.waiting.find? (·.id = id) = some job ∧
        H.envs[G.envs.length]? =
          some (Operation.framesAll config.maxDepth (ownOperations G.envs.length later)
            job.stack)) ∧
    (∀ earlier n later, history = earlier ++ .adopt n :: later →
      ∃ before G fork, Runs config F earlier before G ∧ G.world.forks[n]? = some (some fork) ∧
        H.envs[G.envs.length]? =
          some (Operation.framesAll config.maxDepth (ownOperations G.envs.length later)
            fork.stack)) ∧
    (∀ stack ∈ H.envs, ∀ name, ∃ t, Eval.lookup name ⟨stack, H.world⟩ =
      .ok ((stack.dropLast.findSome? (·.vars.get? name)).or
        ((stores.lookup name).or (F.world.globals.get? name))) t) ∧
    (∀ levels name form s v t,
      Interpreter.interpret config levels (.eval form) s = .ok v t →
      Interpreter.interpret config (levels + 1) (.run (.define name form)) s =
        .ok (.symbol name) { t with world := t.world.store name v }) := by
  have hheld : ∀ stack ∈ F.world.held, stack ≠ [] := by
    intro stack hmem
    obtain ⟨fork, -, rfl⟩ := mem_held_iff.mp hmem
    exact fork.stack_ne_nil
  have hF : F.Throughout (· ≠ []) F.world.journal := .start henvs hheld hwaiting
  refine ⟨fun i stack => hruns.frames hconfig hmoves hF, ?_, ?_, ?_, fun stack _ name => ?_, ?_⟩
  · rintro earlier i later rfl
    obtain ⟨before, _, G, _, hearlier, hstep, hlater⟩ := hruns.frames_after hconfig hmoves hF
    cases hstep with
    | @fork _ stack henv =>
      exact ⟨before, G, stack, hearlier, henv, hlater _ _ List.getElem?_concat_length⟩
  · rintro earlier id later rfl
    obtain ⟨before, _, G, _, hearlier, hstep, hlater⟩ := hruns.frames_after hconfig hmoves hF
    cases hstep with
    | @begin _ job hjob =>
      exact ⟨before, G, job, hearlier, hjob, hlater _ _ List.getElem?_concat_length⟩
  · rintro earlier n later rfl
    obtain ⟨before, _, G, _, hearlier, hstep, hlater⟩ := hruns.frames_after hconfig hmoves hF
    cases hstep with
    | @adopt _ fork hfork =>
      exact ⟨before, G, fork, hearlier, hfork, hlater _ _ List.getElem?_concat_length⟩
  · obtain ⟨t, ht⟩ := lookup_eq name ⟨stack, H.world⟩
    rw [hruns.stored.get?_eq] at ht
    exact ⟨t, ht⟩
  · intro levels name form s v t hform
    rw [Interpreter.interpret_succ]
    exact bind_of_ok hform

/-- A fork is made with a local name bound.  It binds that name anew, and another one for all.  Its
origin defines the local name for all; the fork still has its own value of it, and the origin, once
its frame is gone, finds the definition and what the fork has bound. -/
theorem fork_isolates_local_and_shares_global :
    Program.standardConfig.KeepsCallers ∧
    ∃ history H,
      Runs Program.standardConfig ⟨[.base], Program.standardWorld⟩ history
        [("x", .int 9), ("y", .int 5)] H ∧
      history.length = 7 ∧
      H.envs[0]? = some .base ∧
      H.envs[1]? = some [⟨"f", [], .ofList [("x", .int 2)]⟩, .global] ∧
      (∃ t, Eval.lookup "x" ⟨[⟨"f", [], .ofList [("x", .int 2)]⟩, .global], H.world⟩ =
        .ok (some (.int 2)) t) ∧
      (∃ t, Eval.lookup "x" ⟨.base, H.world⟩ = .ok (some (.int 9)) t) ∧
      (∃ t, Eval.lookup "y" ⟨.base, H.world⟩ = .ok (some (.int 5)) t) := by
  have hconfig : Program.standardConfig.KeepsCallers :=
    (Builtins.library_keepsFrames rfl rfl rfl).keepsCallers
  obtain ⟨H, stores, hruns, hstores, horigin, hfork⟩ : ∃ H stores,
      Runs Program.standardConfig ⟨[.base], Program.standardWorld⟩
        [.operation 0 (.push ⟨"f", [], ∅⟩), .operation 0 (.bindLocal "x" (.int 1)), .fork 0,
          .operation 1 (.bindLocal "x" (.int 2)), .operation 1 (.bind "y" (.int 5)),
          .request 0 (.eval (.list [.symbol "def", .symbol "x", .int 9])), .operation 0 .pop]
        stores H ∧
      stores = [("x", .int 9), ("y", .int 5)] ∧
      H.envs[0]? = some .base ∧
      H.envs[1]? = some [⟨"f", [], .ofList [("x", .int 2)]⟩, .global] :=
    ⟨_, _, ((((((Runs.refl.step (.operation rfl _)).step (.operation rfl _)).step
      (.fork rfl)).step (.operation rfl _)).step (.operation rfl _)).step
      (.request 4 [.store "x" (.int 9), .lookup "def"] rfl rfl rfl)).step
      (.operation rfl _), rfl, rfl, rfl⟩
  subst hstores
  have hall := forks_isolate_locals_and_share_globals hconfig
    (fun stack hmem => by rw [List.mem_singleton.mp hmem]; exact List.cons_ne_nil _ _)
    (fun job hjob => absurd hjob List.not_mem_nil)
    (fun move hmem => by fin_cases hmem <;> trivial) hruns
  obtain ⟨-, -, -, -, hlookup, -⟩ := hall
  exact ⟨hconfig, _, H, hruns, rfl, horigin, hfork,
    hlookup _ (List.mem_of_getElem? hfork) "x", hlookup _ (List.mem_of_getElem? horigin) "x",
    hlookup _ (List.mem_of_getElem? horigin) "y"⟩

end Family

end Lisp
