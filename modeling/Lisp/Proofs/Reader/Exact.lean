import Lisp.Reader.Basic
import Lisp.Proofs.Activity

/-!
# Exact reading operations

`Finds act s means` says that from the stream `s` the operation `act` finds exactly what the relation
`means` allows: every result it gives is allowed together with the text it leaves, every allowed
result is given, and when it gives none it ends in an error and not for want of steps.  So two
results that `means` allows are the same, and the relation describes the operation completely.

The rules here follow the ways in which reading operations are put together.
-/

namespace Lisp.Reader

/-! ## 1. What the stream operations leave -/

namespace Stream

theorem drop_length_takeWhile (p : Char → Bool) (text : List Char) :
    text.drop (text.takeWhile p).length = text.dropWhile p := by
  have h := @List.drop_left _ (text.takeWhile p) (text.dropWhile p)
  rwa [List.takeWhile_append_dropWhile] at h

theorem input_skip_takeWhile (s : Stream) (p : Char → Bool) :
    (s.skip (s.input.takeWhile p)).input = s.input.dropWhile p := by
  rw [input_skip, drop_length_takeWhile]

theorem input_skipBlanks (s : Stream) : s.skipBlanks.input = s.input.dropWhile isBlank := by
  rw [skipBlanks, input_afterPeek, input_skip_takeWhile]

theorem input_token (s : Stream) (isTerminal : Char → Bool) :
    (s.token isTerminal).2.input = s.input.dropWhile fun c => !isTerminal c := by
  rw [token, input_afterPeek, input_skip_takeWhile]

theorem input_skipLine (s : Stream) :
    s.skipLine.input = (s.input.dropWhile (· ≠ '\n')).tail := by
  have hskip := input_skip_takeWhile s (· ≠ '\n')
  unfold skipLine
  simp only [next]
  split
  · rename_i hnone
    split at hnone
    · rename_i hnil
      rw [← hskip, hnil]
      rfl
    · cases hnone
  · rename_i c s' hsome
    split at hsome
    · cases hsome
    · rename_i d rest hcons
      cases hsome
      rw [input_step, hskip]

end Stream

/-! ## 2. Exactness and its rules -/

variable {α β : Type} {act : Read α} {f : α → Read β} {s t : Stream}

/-- From `s`, the operation finds exactly the results that the relation allows, each with the text
that is left behind it. -/
structure Finds (act : Read α) (s : Stream) (means : α → List Char → Prop) : Prop where
  /-- What is found is allowed. -/
  sound : ∀ {a t}, act s = .ok a t → means a t.input
  /-- What is allowed is found. -/
  complete : ∀ {a rest}, means a rest → ∃ t, act s = .ok a t ∧ t.input = rest
  /-- Whatever is not found ends in an error. -/
  total : ∀ {stop t}, act s = .error stop t → ∃ e, stop = .error e

namespace Finds

variable {means : α → List Char → Prop}

theorem of_ok {a : α} (h : act s = .ok a t) : Finds act s fun b rest => b = a ∧ rest = t.input where
  sound := by
    intro b u hb
    rw [h] at hb
    cases hb
    exact ⟨rfl, rfl⟩
  complete := by
    rintro b rest ⟨rfl, rfl⟩
    exact ⟨t, h, rfl⟩
  total := by
    intro stop u hu
    rw [h] at hu
    cases hu

theorem of_fail {e : Error} (h : act s = .error (.error e) t) : Finds act s fun _ _ => False where
  sound := by
    intro b u hb
    rw [h] at hb
    cases hb
  complete := fun hfalse => hfalse.elim
  total := by
    intro stop u hu
    rw [h] at hu
    cases hu
    exact ⟨e, rfl⟩

theorem congr {means' : α → List Char → Prop} (h : Finds act s means)
    (same : ∀ a rest, means a rest ↔ means' a rest) : Finds act s means' where
  sound := fun ha => (same _ _).mp (h.sound ha)
  complete := fun ha => h.complete ((same _ _).mpr ha)
  total := h.total

theorem of_eq {act' : Read α} (h : Finds act' t means) (same : act s = act' t) :
    Finds act s means where
  sound := fun ha => h.sound (same ▸ ha)
  complete := fun ha => by rw [same]; exact h.complete ha
  total := fun ha => h.total (same ▸ ha)

theorem bind (first : Finds act s means) (means' : α → List Char → β → List Char → Prop)
    (next : ∀ a t, act s = .ok a t → Finds (f a) t (means' a t.input)) :
    Finds (act >>= f) s fun b rest => ∃ a mid, means a mid ∧ means' a mid b rest where
  sound := by
    intro b u hb
    rw [bind_eq] at hb
    split at hb
    · rename_i a t ha
      exact ⟨a, t.input, first.sound ha, (next a t ha).sound hb⟩
    · cases hb
  complete := by
    rintro b rest ⟨a, mid, ha, hb⟩
    obtain ⟨t, hact, rfl⟩ := first.complete ha
    obtain ⟨u, hu, hrest⟩ := (next a t hact).complete hb
    exact ⟨u, by rw [bind_of_ok hact]; exact hu, hrest⟩
  total := by
    intro stop u hu
    rw [bind_eq] at hu
    split at hu
    · rename_i a t ha
      exact (next a t ha).total hu
    · rename_i stop' t ha
      cases hu
      exact first.total ha

theorem map {g : α → β} (h : Finds act s means) :
    Finds (g <$> act) s fun b rest => ∃ a, means a rest ∧ b = g a := by
  rw [← bind_pure_comp]
  have next : ∀ a t, act s = .ok a t →
      Finds (pure (g a)) t fun b rest => b = g a ∧ rest = t.input := fun a t _ => of_ok rfl
  refine (h.bind (fun a mid b rest => b = g a ∧ rest = mid) next).congr
    fun b rest => ⟨?_, ?_⟩
  · rintro ⟨a, mid, ha, rfl, rfl⟩
    exact ⟨a, ha, rfl⟩
  · rintro ⟨a, ha, rfl⟩
    exact ⟨a, rest, ha, rfl, rfl⟩

theorem located (h : Finds act s means) (start : Position) :
    Finds (Reader.located start act) s means := by
  have same : ∀ {a t}, Reader.located start act s = .ok a t ↔ act s = .ok a t := by
    intro a t
    unfold Reader.located
    split <;> simp_all
  refine ⟨fun ha => h.sound (same.mp ha), fun ha => ?_, fun {stop t} ha => ?_⟩
  · obtain ⟨t, hact, hrest⟩ := h.complete ha
    exact ⟨t, same.mpr hact, hrest⟩
  · unfold Reader.located at ha
    split at ha
    · cases ha
    · cases ha
      exact ⟨_, rfl⟩
    · rename_i hact
      obtain ⟨e, rfl⟩ := h.total hact
      cases ha
      exact ⟨e, rfl⟩

theorem ok_or_error (h : Finds act s means) :
    (∃ a t, act s = .ok a t) ∨ ∃ e t, act s = .error (.error e) t := by
  cases hact : act s with
  | ok a t => exact .inl ⟨a, t, rfl⟩
  | error stop t =>
    obtain ⟨e, rfl⟩ := h.total hact
    exact .inr ⟨e, t, rfl⟩

end Finds

end Lisp.Reader
