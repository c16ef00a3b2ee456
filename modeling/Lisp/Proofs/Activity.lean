import Mathlib

/-!
# Activities in sequence

Reading and evaluation are activities over a state that survives a failure.  These are the equations
of one activity after another, by what the first of them ends in.
-/

namespace Lisp

variable {ε σ α β : Type} {act : EStateM ε σ α} {f : α → EStateM ε σ β} {s t : σ}

theorem bind_eq (act : EStateM ε σ α) (f : α → EStateM ε σ β) (s : σ) :
    (act >>= f) s =
      match act s with
      | .ok a t => f a t
      | .error e t => .error e t :=
  EStateM.run_bind act f

theorem bind_of_ok {a : α} (h : act s = .ok a t) : (act >>= f) s = f a t := by
  rw [bind_eq, h]

theorem bind_of_error {e : ε} (h : act s = .error e t) : (act >>= f) s = .error e t := by
  rw [bind_eq, h]

end Lisp
