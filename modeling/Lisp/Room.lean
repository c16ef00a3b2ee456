/-!
# Room for deep recursion

Reading and evaluation recurse as deeply as their input nests.  A recursion that counts its levels
can run each segment of them on a stack of its own, so the depth it reaches is bounded by memory.
This changes where a computation runs and not what it computes: `withRoom_eq`.
-/

namespace Lisp

/-- The result of a computation that runs on a stack of its own. -/
def onFreshStack {α : Type} (run : Unit → α) : α :=
  (Task.spawn run Task.Priority.dedicated).get

theorem onFreshStack_eq {α : Type} (run : Unit → α) : onFreshStack run = run () := rfl

def levelsPerStack : Nat := 2000

/-- The computation at a level of a recursion: every so many levels it moves to a fresh stack. -/
@[inline] def withRoom {ε σ α : Type} (level : Nat) (act : EStateM ε σ α) : EStateM ε σ α :=
  fun s => if level % levelsPerStack = 0 then onFreshStack fun _ => act s else act s

@[simp] theorem withRoom_eq {ε σ α : Type} (level : Nat) (act : EStateM ε σ α) :
    withRoom level act = act := by
  funext s
  simp [withRoom, onFreshStack_eq]

end Lisp
