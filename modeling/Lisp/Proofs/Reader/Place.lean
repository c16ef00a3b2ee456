import Lisp.Proofs.Reader.Moves

/-!
# Places in a text

A stream carries the line and the column of its next character.  They are exact all the time, since
every move of a stream keeps them so, `Stream.At.moves`: the line counts the newlines in front of
the character and the column the characters behind the last of them.  A character that is taken
back, be it a newline, takes its count along.

A place is spoken of by the text that follows it, since that is what reading operations leave.
-/

namespace Lisp.Reader

variable {α : Type} {source : String} {whole : List Char} {s t : Stream}

/-! ## 1. Lines and columns -/

def columnsBehind (before : List Char) : Nat := (before.reverse.takeWhile (· ≠ '\n')).length

def placeBehind (source : String) (before : List Char) : Position :=
  ⟨source, 1 + before.count '\n', 1 + columnsBehind before⟩

def placeOf (source : String) (whole rest : List Char) : Position :=
  placeBehind source (whole.take (whole.length - rest.length))

/-- A stream over the rest of a text whose line and column are those of the rest. -/
def Stream.At (whole : List Char) (s : Stream) : Prop :=
  ∃ before, whole = before ++ s.input ∧ s.line = 1 + before.count '\n' ∧
    s.column = columnsBehind before

theorem columnsBehind_append (before : List Char) (c : Char) :
    columnsBehind (before ++ [c]) = if c = '\n' then 0 else columnsBehind before + 1 := by
  unfold columnsBehind
  rw [List.reverse_append, List.reverse_singleton, List.singleton_append]
  by_cases hc : c = '\n'
  · rw [if_pos hc, List.takeWhile_cons_of_neg (by simpa using hc)]
    rfl
  · rw [if_neg hc, List.takeWhile_cons_of_pos (by simpa using hc), List.length_cons]

theorem count_append_newline (before : List Char) (c : Char) :
    (before ++ [c]).count '\n' = if c = '\n' then before.count '\n' + 1 else before.count '\n' := by
  rw [List.count_append, List.count_singleton]
  by_cases hc : c = '\n'
  · simp [hc]
  · simp [hc]

theorem placeOf_append (source : String) (before rest : List Char) :
    placeOf source (before ++ rest) rest = placeBehind source before := by
  unfold placeOf
  rw [List.length_append, Nat.add_sub_cancel, List.take_left]

namespace Stream.At

theorem start (text : List Char) : (Stream.ofText text).At text := ⟨[], rfl, rfl, rfl⟩

theorem place (h : s.At whole) :
    (⟨source, s.line, s.column + 1⟩ : Position) = placeOf source whole s.input := by
  obtain ⟨before, hwhole, hline, hcolumn⟩ := h
  rw [hwhole, placeOf_append, placeBehind, hline, hcolumn, Nat.add_comm (columnsBehind before)]

theorem suffix (h : s.At whole) : s.input <:+ whole := by
  obtain ⟨before, hwhole, -, -⟩ := h
  exact ⟨before, hwhole.symm⟩

theorem step {c : Char} {rest : List Char} (h : s.At whole) (hinput : s.input = c :: rest) :
    (s.step c).At whole := by
  obtain ⟨before, hwhole, hline, hcolumn⟩ := h
  refine ⟨before ++ [c], ?_, ?_, ?_⟩
  · rw [input_step, hinput, List.tail_cons, List.append_assoc, List.singleton_append, hwhole,
      hinput]
  · rw [count_append_newline, Stream.step, hline]
    split <;> rfl
  · rw [columnsBehind_append, Stream.step, hcolumn]

/-- The character that is looked at is taken and put back, and so is its place. -/
theorem afterPeek (h : s.At whole) : s.afterPeek.At whole := by
  obtain ⟨before, hwhole, hline, hcolumn⟩ := h
  refine ⟨before, ?_, ?_, ?_⟩
  · rw [input_afterPeek, hwhole]
  · unfold Stream.afterPeek
    split
    · exact hline
    · unfold Stream.unread Stream.step
      split
      · simp only
        omega
      · exact hline
  · unfold Stream.afterPeek
    split
    · exact hcolumn
    · exact hcolumn

theorem moves (h : s.At whole) (hmoves : s.Moves t) : t.At whole := by
  induction hmoves with
  | refl => exact h
  | step _ hinput ih => exact ih.step hinput
  | afterPeek _ ih => exact ih.afterPeek

theorem skipBlanks (h : s.At whole) : s.skipBlanks.At whole := h.moves s.moves_skipBlanks

end Stream.At

/-! ## 2. Operations that keep the place -/

/-- An operation that leaves an exact place behind, if it found something. -/
def Tracks (whole : List Char) (act : Read α) : Prop :=
  ∀ s a t, s.At whole → act s = .ok a t → t.At whole

theorem Advances.tracks {act : Read α} (hact : Advances act) : Tracks whole act := by
  intro s a t hs h
  have hmoves := hact s
  rw [h] at hmoves
  exact hs.moves hmoves

theorem tracks_step (source : String) (level : Nat) :
    Tracks whole (step (Dialect.ofSource source) level) :=
  (advances_step source level).tracks

end Lisp.Reader
