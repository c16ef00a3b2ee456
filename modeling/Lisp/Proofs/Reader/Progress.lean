import Lisp.Proofs.Reader.Acceptance
import Lisp.Proofs.Reader.Moves

/-!
# Progress of reading

A host may go on reading after an error.  A call of `readOne` takes a character at least, whether it
returns a form or an error, or else nothing but blanks and comments was left and nothing is left any
more: `reading_progresses`.  So the calls come to the end of a text after as many of them as the
text has characters, and one more tells so.

No reading operation runs for want of an end.  The text is finite, and each item that is found in it
makes it shorter, whatever the character is that a container is to be closed by.
-/

namespace Lisp.Reader

open Grammar

variable {α : Type} {source : String} {text : String} {s t : Stream}

/-! ## 1. Operations that end -/

/-- The operation ends in a result or an error, and not for want of steps. -/
def Ends (act : Read α) (s : Stream) : Prop :=
  (∃ a t, act s = .ok a t) ∨ ∃ e t, act s = .error (.error e) t

theorem ends_container {self : Read Found} {bound : Nat} (hself : ExactBelow bound self)
    (close : Char) (construct : String) :
    ∀ (loops : Nat) (read : List Value) (s : Stream), s.input.length < bound →
      s.input.length < loops → Ends (container self close construct loops read) s
  | 0, _, s, _, hloops => absurd hloops (Nat.not_lt_zero _)
  | loops + 1, read, s, hbound, hloops => by
    cases hinput : s.skipBlanks.input with
    | nil => exact .inr ⟨_, _, container_eq_of_end hinput⟩
    | cons c input =>
      by_cases hc : c = close
      · subst hc
        exact .inl ⟨_, _, container_eq_of_closing hinput⟩
      · have hlength := (s.moves_skipBlanks.afterPeek).length_le
        have hitems := hself s.skipBlanks.afterPeek (by omega)
        rw [Ends, container_eq_of_item hinput hc, bind_eq]
        cases hfound : self s.skipBlanks.afterPeek with
        | error stop t =>
          obtain ⟨e, rfl⟩ := hitems.total hfound
          exact .inr ⟨e, t, rfl⟩
        | ok found t =>
          have hitem := hitems.sound hfound
          -- An item takes a character at least, so the loops never run out.
          cases found with
          | form v =>
            have hshorter := hitem.length_lt (by simp)
            exact ends_container hself close construct loops _ t (by omega) (by omega)
          | nothing =>
            have hshorter := hitem.length_lt (by simp)
            exact ends_container hself close construct loops _ t (by omega) (by omega)
          | ending => exact .inr ⟨_, _, rfl⟩

theorem length_lt_allowance (s : Stream) : s.input.length < allowance s :=
  Nat.lt_add_of_pos_right (by decide)

theorem ends_readContainer (source : String) (close : Char) (construct : String) (s : Stream) :
    Ends (readContainer (Dialect.ofSource source) close construct) s := by
  have hlength := length_lt_allowance s
  have hact : readContainer (Dialect.ofSource source) close construct s =
      container (step (Dialect.ofSource source) (allowance s)) close construct (allowance s) [] s :=
    rfl
  rw [Ends, hact]
  exact ends_container (finds_step source _) close construct _ [] s hlength hlength

/-! ## 2. One call -/

theorem finds_readOne (source : String) (s : Stream) :
    Finds (readOne (Dialect.ofSource source)) s (First s.input) := by
  have hlength := length_lt_allowance s
  exact (finds_formAfter (finds_step source _) _ s hlength hlength).of_eq rfl

theorem readOne_eq_none_iff :
    (∃ t, readOne (Dialect.ofSource source) s = .ok none t) ↔ Text s.input [] [] := by
  have hread := finds_readOne source s
  rw [text_iff_first]
  constructor
  · rintro ⟨t, ht⟩
    have hfirst := hread.sound ht
    rw [hfirst.rest_eq] at hfirst
    exact .inl ⟨hfirst, rfl⟩
  · rintro (⟨hfirst, -⟩ | ⟨v, mid, ws, -, -, hnil⟩)
    · obtain ⟨t, ht, -⟩ := hread.complete hfirst
      exact ⟨t, ht⟩
    · cases hnil

theorem readOne_shorter (source : String) (h : s.input ≠ []) :
    (behind (readOne (Dialect.ofSource source) s)).input.length < s.input.length := by
  let first := step (Dialect.ofSource source) (allowance s)
  have hmore : (behind (first s)).Moves (behind (readOne (Dialect.ofSource source) s)) := by
    refine moves_behind_bind first (fun found => ?_) s
    cases found with
    | form v => exact Advances.pure _
    | nothing => exact advances_formAfter (advances_step source _) _
    | ending => exact Advances.pure _
  refine Nat.lt_of_le_of_lt hmore.length_le ?_
  cases hinput : s.skipBlanks.input with
  | nil =>
    have hend : first s = .ok .ending s.skipBlanks := step_of_end source _ hinput
    rw [hend]
    show s.skipBlanks.input.length < _
    rw [hinput]
    exact List.length_pos_iff.mpr h
  | cons c input =>
    have hbehind := moves_behind_step (advances_step source (s.input.length + 1)) hinput
    obtain ⟨-, -, hshorter⟩ := starts_of_skipBlanks hinput
    have hinner := input_step_cons hinput
    have hlength := hbehind.length_le
    rw [hinner] at hlength
    exact Nat.lt_of_le_of_lt hlength hshorter

/-- What reading does at a place of a text: it ends, and a form is found or missed by an error, or
else there are only blanks and comments up to the end. -/
structure Progresses (d : Dialect) (s : Stream) : Prop where
  none_iff : (∃ t, readOne d s = .ok none t) ↔ Text s.input [] []
  nothing_left : ∀ t, readOne d s = .ok none t → t.input = []
  /-- Anything else takes some characters. -/
  takes : ¬ Text s.input [] [] → ∃ taken ≠ [], s.input = taken ++ (behind (readOne d s)).input
  ends : Ends (readOne d) s
  readAll_ends : Ends (readAll d) s
  readContainer_ends : ∀ close construct, Ends (readContainer d close construct) s

theorem progresses (source : String) (s : Stream) : Progresses (Dialect.ofSource source) s where
  none_iff := readOne_eq_none_iff
  nothing_left := by
    intro t ht
    exact ((finds_readOne source s).sound ht).rest_eq
  takes := by
    intro hmore
    have hne : s.input ≠ [] := by
      intro hnil
      rw [hnil] at hmore
      exact hmore (.done [])
    have hshorter := readOne_shorter source hne
    obtain ⟨taken, htaken⟩ := (advances_readOne source s).suffix
    refine ⟨taken, ?_, htaken.symm⟩
    rintro rfl
    rw [← htaken, List.nil_append] at hshorter
    exact absurd hshorter (Nat.lt_irrefl _)
  ends := (finds_readOne source s).ok_or_error
  readAll_ends := (finds_readAll source s).ok_or_error
  readContainer_ends := fun close construct => ends_readContainer source close construct s

/-! ## 3. Many calls -/

/-- The stream after that many calls, whatever they returned. -/
def afterCalls (source text : String) : Nat → Stream
  | 0 => .ofText text.toList
  | calls + 1 => behind (readOne (Dialect.ofSource source) (afterCalls source text calls))

theorem afterCalls_input (source text : String) (calls : Nat) :
    (afterCalls source text calls).input = [] ∨
      (afterCalls source text calls).input.length + calls ≤ text.toList.length := by
  induction calls with
  | zero => exact .inr (Nat.le_refl _)
  | succ calls ih =>
    by_cases hnil : (afterCalls source text calls).input = []
    · have hsuffix := (advances_readOne source (afterCalls source text calls)).suffix
      rw [hnil] at hsuffix
      exact .inl (List.suffix_nil.mp hsuffix)
    · have hshorter := readOne_shorter source hnil
      have hlength := ih.resolve_left hnil
      right
      rw [afterCalls]
      omega

/-- However the calls before ended, the next one makes progress and ends; and after as many calls as
the text has characters, if not before, it tells that the text is at its end. -/
theorem reading_progresses (source text : String) :
    (∀ calls, Progresses (Dialect.ofSource source) (afterCalls source text calls)) ∧
    ∃ calls ≤ text.length, ∃ t,
      readOne (Dialect.ofSource source) (afterCalls source text calls) = .ok none t := by
  refine ⟨fun calls => progresses source _, text.length, Nat.le_refl _, ?_⟩
  have hend : (afterCalls source text text.length).input = [] := by
    rcases afterCalls_input source text text.length with hnil | hlength
    · exact hnil
    · rw [String.length_toList] at hlength
      exact List.eq_nil_of_length_eq_zero (by omega)
  rw [readOne_eq_none_iff, hend]
  exact .done []

end Lisp.Reader
