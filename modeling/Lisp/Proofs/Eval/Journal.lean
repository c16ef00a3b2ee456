import Lisp.Proofs.Eval.Simulation

/-!
# States that differ in the journal

Nothing that evaluation does depends on the journal: operations add to it, and none reads it.  So
states that are the same but for their journals are answered alike, whatever is asked
(`compatible_alike`), and what two journals have in common is kept up if the same events keep it up
(`compatible_rejournaled`).
-/

namespace Lisp

/-! ## 1. Another journal -/

def Rejournaled (E : List Event → List Event → Prop) (s t : State) : Prop :=
  ∃ journal, t = { s with world := { s.world with journal } } ∧ E s.world.journal journal

/-- Two states that differ at most in their journals. -/
def Alike (s t : State) : Prop := ∃ journal, t = { s with world := { s.world with journal } }

theorem rejournaled_true : Rejournaled (fun _ _ => True) = Alike := by
  funext s t
  simp [Rejournaled, Alike]

namespace Alike

variable {s t u : State}

theorem refl (s : State) : Alike s s := ⟨s.world.journal, rfl⟩

theorem symm (h : Alike s t) : Alike t s := by
  obtain ⟨journal, rfl⟩ := h
  exact ⟨s.world.journal, rfl⟩

theorem trans (h : Alike s t) (h' : Alike t u) : Alike s u := by
  obtain ⟨journal, rfl⟩ := h
  obtain ⟨journal', rfl⟩ := h'
  exact ⟨journal', rfl⟩

theorem stack_eq (h : Alike s t) : t.stack = s.stack := by
  obtain ⟨journal, rfl⟩ := h
  rfl

theorem globals_eq (h : Alike s t) : t.world.globals = s.world.globals := by
  obtain ⟨journal, rfl⟩ := h
  rfl

theorem isInterrupted_eq (h : Alike s t) : t.world.isInterrupted = s.world.isInterrupted := by
  obtain ⟨journal, rfl⟩ := h
  rfl

end Alike

/-! ## 2. No operation reads the journal -/

/-- A relation between journals that the same event added to both keeps up makes no difference to
evaluation. -/
theorem compatible_rejournaled (config : Config) {E : List Event → List Event → Prop}
    (hE : ∀ event journal journal', E journal journal' → E (event :: journal) (event :: journal')) :
    Compatible config (Rejournaled E) where
  -- Both states take the same branch and note the same event.
  stack_eq := by
    rintro s _ ⟨journal, rfl, -⟩
    rfl
  interrupt_eq := by
    rintro s _ ⟨journal, rfl, -⟩
    rfl
  memory_eq := by
    rintro s _ ⟨journal, rfl, -⟩
    rfl
  lookup := by
    rintro name s _ ⟨journal, rfl, hjournal⟩
    right
    unfold Eval.lookup
    cases Stack.find? name s.stack with
    | some v => exact .ok _ ⟨journal, rfl, hjournal⟩
    | none => exact .ok _ ⟨_, rfl, hE _ _ _ hjournal⟩
  bind := by
    rintro name v s _ ⟨journal, rfl, hjournal⟩
    exact .inr (.ok _ ⟨_, rfl, hE _ _ _ hjournal⟩)
  bindLocal := by
    rintro name v s _ ⟨journal, rfl, hjournal⟩
    right
    unfold Eval.bindLocal
    cases Stack.bind? name v s.stack with
    | some stack => exact .ok _ ⟨journal, rfl, hjournal⟩
    | none => exact .ok _ ⟨_, rfl, hE _ _ _ hjournal⟩
  push := by
    rintro frame s _ ⟨journal, rfl, hjournal⟩
    right
    unfold Eval.push
    cases Stack.push config.maxDepth frame s.stack with
    | ok stack => exact .ok _ ⟨journal, rfl, hjournal⟩
    | error e => exact .error _ ⟨journal, rfl, hjournal⟩
  pop := by
    rintro s _ ⟨journal, rfl, hjournal⟩
    right
    unfold Eval.pop
    cases Stack.pop s.stack with
    | ok popped => exact .ok _ ⟨journal, rfl, hjournal⟩
    | error e => exact .error _ ⟨journal, rfl, hjournal⟩
  spawn := by
    rintro body s _ ⟨journal, rfl, hjournal⟩
    exact .inr (.ok _ ⟨_, rfl, hE _ _ _ hjournal⟩)
  enter := by
    rintro name callee args s _ ⟨journal, rfl, hjournal⟩
    right
    rw [Eval.enter, bind_eq, bind_eq, Eval.push, Eval.push]
    cases Stack.push config.maxDepth ⟨name, args, ∅⟩ s.stack with
    | ok stack => exact .ok _ ⟨_, rfl, hE _ _ _ hjournal⟩
    | error e => exact .error _ ⟨journal, rfl, hjournal⟩
  callNative := by
    rintro f args s _ ⟨journal, rfl, hjournal⟩
    right
    rw [Eval.callNative_apply, Eval.callNative_apply]
    cases (config.host.call f args s.world.memory).1 with
    | value v => exact .ok _ ⟨journal, rfl, hjournal⟩
    | error e => exact .error _ ⟨journal, rfl, hjournal⟩
    | panic message => exact .error _ ⟨journal, rfl, hjournal⟩
  setInterrupt := by
    rintro on s _ ⟨journal, rfl, hjournal⟩
    exact .inr (.ok _ ⟨journal, rfl, hjournal⟩)
  freshIdentity := by
    rintro s _ ⟨journal, rfl, hjournal⟩
    exact .inr (.ok _ ⟨journal, rfl, hjournal⟩)
  remember := by
    rintro memory s _ ⟨journal, rfl, hjournal⟩
    exact .inr (.ok _ ⟨journal, rfl, hjournal⟩)
  fork := by
    rintro s _ ⟨journal, rfl, hjournal⟩
    exact .inr (.ok _ ⟨journal, rfl, hjournal⟩)
  visit := by
    rintro n s _ ⟨journal, rfl, hjournal⟩
    unfold State.visit?
    cases s.world.forks[n]?.join with
    | none => exact .none
    | some fork => exact .some ⟨journal, rfl, hjournal⟩
  back := by
    rintro n s _ s' _ ⟨journal, rfl, -⟩ ⟨journal', rfl, hjournal'⟩
    exact ⟨journal', rfl, hjournal'⟩

theorem compatible_alike (config : Config) : Compatible config Alike := by
  rw [← rejournaled_true]
  exact compatible_rejournaled config fun _ _ _ _ => trivial

end Lisp
