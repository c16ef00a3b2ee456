import Lisp.Proofs.Reader.Step

/-!
# Moves of a stream

Whatever a reading operation returns, a form, an error or nothing for want of steps, it has only
taken characters off the front of the stream and looked at the next one: it advances,
`advances_readOne`.  So the text that it leaves is the end of the one it was given.

An operation advances if its parts do, so the rules here follow the ways in which reading operations
are put together, and no bound on their recursion matters.
-/

namespace Lisp.Reader

variable {α β : Type} {source : String} {s t u : Stream}

/-! ## 1. Moves -/

namespace Stream

/-- The second stream is the first one after some characters have been taken off or looked at. -/
inductive Moves (s : Stream) : Stream → Prop
  | refl : Moves s s
  | step {t : Stream} {c : Char} {rest : List Char} (h : Moves s t) (hinput : t.input = c :: rest) :
      Moves s (t.step c)
  | afterPeek {t : Stream} (h : Moves s t) : Moves s t.afterPeek

namespace Moves

theorem trans (h : s.Moves t) (h' : t.Moves u) : s.Moves u := by
  induction h' with
  | refl => exact h
  | step _ hinput ih => exact ih.step hinput
  | afterPeek _ ih => exact ih.afterPeek

theorem suffix (h : s.Moves t) : t.input <:+ s.input := by
  induction h with
  | refl => exact List.suffix_rfl
  | step _ hinput ih => exact (List.tail_suffix _).trans ih
  | afterPeek _ ih =>
    rw [input_afterPeek]
    exact ih

theorem length_le (h : s.Moves t) : t.input.length ≤ s.input.length := h.suffix.length_le

end Moves

theorem moves_step {c : Char} {rest : List Char} (hinput : s.input = c :: rest) :
    s.Moves (s.step c) :=
  Moves.refl.step hinput

theorem moves_afterPeek (s : Stream) : s.Moves s.afterPeek := Moves.refl.afterPeek

theorem moves_skip {run rest : List Char} (hinput : s.input = run ++ rest) :
    s.Moves (s.skip run) := by
  induction run generalizing s with
  | nil => exact .refl
  | cons c run ih =>
    have hrest : (s.step c).input = run ++ rest := by
      rw [input_step, hinput]
      rfl
    exact (moves_step hinput).trans (ih hrest)

theorem moves_skip_takeWhile (s : Stream) (p : Char → Bool) :
    s.Moves (s.skip (s.input.takeWhile p)) :=
  moves_skip List.takeWhile_append_dropWhile.symm

theorem moves_skipBlanks (s : Stream) : s.Moves s.skipBlanks :=
  (moves_skip_takeWhile s isBlank).afterPeek

theorem moves_token (s : Stream) (isTerminal : Char → Bool) : s.Moves (s.token isTerminal).2 :=
  (moves_skip_takeWhile s fun c => !isTerminal c).afterPeek

theorem moves_next {c : Char} (h : s.next = some (c, t)) : s.Moves t := by
  unfold next at h
  split at h
  · cases h
  · rename_i hinput
    cases h
    exact moves_step hinput

theorem moves_skipLine (s : Stream) : s.Moves s.skipLine := by
  have hskip := moves_skip_takeWhile s (· ≠ '\n')
  unfold skipLine
  dsimp only
  split
  · exact hskip
  · rename_i hnext
    exact hskip.trans (moves_next hnext)

end Stream

/-! ## 2. Operations that advance -/

def behind : EStateM.Result Stop Stream α → Stream
  | .ok _ t => t
  | .error _ t => t

def Advances (act : Read α) : Prop := ∀ s : Stream, s.Moves (behind (act s))

theorem moves_behind_bind {f : α → Read β} (act : Read α) (hf : ∀ a, Advances (f a)) (s : Stream) :
    (behind (act s)).Moves (behind ((act >>= f) s)) := by
  rw [bind_eq]
  cases act s with
  | ok a t => exact hf a t
  | error stop t => exact .refl

namespace Advances

variable {act : Read α} {f : α → Read β}

theorem pure (a : α) : Advances (pure a : Read α) := fun _ => .refl

theorem throw (stop : Stop) : Advances (throw stop : Read α) := fun _ => .refl

theorem bind (hact : Advances act) (hf : ∀ a, Advances (f a)) : Advances (act >>= f) :=
  fun s => (hact s).trans (moves_behind_bind act hf s)

theorem map (hact : Advances act) (g : α → β) : Advances (g <$> act) := by
  rw [← bind_pure_comp]
  exact hact.bind fun a => pure (g a)

theorem located (hact : Advances act) (start : Position) : Advances (Reader.located start act) := by
  intro s
  have h := hact s
  unfold Reader.located
  split
  · rename_i hresult
    rwa [hresult] at h
  · rename_i hresult
    rwa [hresult] at h
  · rename_i hresult
    rwa [hresult] at h

theorem token (d : Dialect) (first : Option Char) : Advances (Reader.token d first) :=
  fun s => s.moves_token d.isTerminal

theorem number (d : Dialect) (first : Option Char) : Advances (Reader.number d first) := by
  refine (token d first).bind fun text => ?_
  cases numberOfToken text with
  | ok v => exact pure v
  | error e => exact throw _

theorem next : Advances Reader.next := by
  intro s
  unfold Reader.next
  split
  · exact .refl
  · rename_i hnext
    exact Stream.moves_next hnext

theorem character (d : Dialect) : Advances (Reader.character d) := by
  refine next.bind fun first => ?_
  cases first with
  | none => exact throw _
  | some first =>
    refine (token d (some first)).bind fun text => ?_
    cases characterOfToken text with
    | ok c => exact pure _
    | error f => exact throw _

theorem startsNumber (c : Char) : Advances (Reader.startsNumber c) := by
  intro s
  unfold Reader.startsNumber
  split
  · exact .refl
  · split
    · exact s.moves_afterPeek
    · exact .refl

end Advances

theorem moves_stringRest : ∀ (input read : List Char) (s : Stream), s.input = input →
    s.Moves (behind (stringRest input read s))
  | [], read, s, _ => .refl
  | c :: input, read, s, hinput => by
    have hstep := Stream.moves_step hinput
    have hrest := Grammar.input_step_cons hinput
    by_cases hquote : c = '\x22'
    · simp only [stringRest, if_pos hquote]
      exact hstep
    by_cases hescape : c = '\x5c'
    · cases input with
      | nil =>
        simp only [stringRest, if_neg hquote, if_pos hescape]
        exact hstep
      | cons letter input =>
        simp only [stringRest, if_neg hquote, if_pos hescape]
        split
        · refine (hstep.step hrest).trans (moves_stringRest input _ _ ?_)
          exact Grammar.input_step_cons hrest
        · exact hstep.step hrest
    · simp only [stringRest, if_neg hquote, if_neg hescape]
      exact hstep.trans (moves_stringRest input _ _ hrest)

theorem advances_string : Advances string := by
  intro s
  change s.Moves (behind ((Value.string <$> stringRest s.input []) s))
  rw [← bind_pure_comp]
  refine (moves_stringRest s.input [] s rfl).trans ?_
  exact moves_behind_bind _ (fun text => Advances.pure _) s

/-! ## 3. Forms -/

variable {self : Read Found}

theorem advances_container (hself : Advances self) (close : Char) (construct : String) :
    ∀ (loops : Nat) (read : List Value), Advances (container self close construct loops read)
  | 0, _ => Advances.throw _
  | loops + 1, read => by
    intro s
    cases hinput : s.skipBlanks.input with
    | nil =>
      rw [Grammar.container_eq_of_end hinput]
      exact s.moves_skipBlanks
    | cons c input =>
      by_cases hc : c = close
      · subst hc
        rw [Grammar.container_eq_of_closing hinput]
        exact s.moves_skipBlanks.step hinput
      · rw [Grammar.container_eq_of_item hinput hc]
        refine s.moves_skipBlanks.afterPeek.trans (hself.bind (fun found => ?_) _)
        cases found with
        | form v => exact advances_container hself close construct loops (v :: read)
        | nothing => exact advances_container hself close construct loops read
        | ending => exact Advances.throw _

theorem advances_formAfter (hself : Advances self) : ∀ loops, Advances (formAfter self loops)
  | 0 => Advances.throw _
  | loops + 1 => by
    refine hself.bind fun found => ?_
    cases found with
    | form v => exact Advances.pure _
    | nothing => exact advances_formAfter hself loops
    | ending => exact Advances.pure _

/-- The standard macros advance.  A host's own may put back a character of its making. -/
theorem advances_macro (d : Dialect) (hself : Advances self) (loops : Nat) (c : Char)
    (m : ReaderMacro) (hm : ∀ script, m ≠ .custom script) : Advances (m.run d self loops c) := by
  cases m with
  | string => exact advances_string.map some
  | comment => exact fun s => s.moves_skipLine
  | keyword => exact (Advances.token d none).bind fun text => Advances.pure _
  | character => exact (Advances.character d).map some
  | quote operator =>
    refine hself.bind fun found => ?_
    cases found with
    | form v => exact Advances.pure _
    | nothing => exact Advances.throw _
    | ending => exact Advances.throw _
  | list => exact (advances_container hself _ _ loops []).bind fun vs => Advances.pure _
  | vector => exact (advances_container hself _ _ loops []).bind fun vs => Advances.pure _
  | unmatched => exact Advances.throw _
  | custom script => exact absurd rfl (hm script)

theorem standardMacros_not_custom {c : Char} {m : ReaderMacro}
    (h : (Dialect.ofSource source).macroOf c = some m) (script : Char → Script (Option Value)) :
    m ≠ .custom script := by
  have hall : ∀ entry ∈ standardMacros, entry.2 ≠ .custom script := by simp [standardMacros]
  obtain ⟨front, back, hsplit, -⟩ := List.lookup_eq_some_iff.mp h
  have hmem : (c, m) ∈ (Dialect.ofSource source).macros := by
    rw [hsplit]
    exact List.mem_append_right front List.mem_cons_self
  exact hall (c, m) hmem

theorem advances_dispatch (source : String) (hself : Advances self) (loops : Nat) (c : Char) :
    Advances (dispatch (Dialect.ofSource source) self loops c) := by
  intro s
  obtain ⟨u, hstart, -⟩ := Grammar.startsNumber_eq c s
  have hu := Advances.startsNumber c s
  rw [hstart] at hu
  rw [Grammar.dispatch_eq source self loops hstart]
  refine hu.trans ?_
  split
  · exact (Advances.number _ _).map some u
  · cases hfound : (Dialect.ofSource source).macroOf c with
    | some m => exact advances_macro _ hself loops c m (standardMacros_not_custom hfound) u
    | none => exact (Advances.token _ _).bind (fun text => Advances.pure _) u

theorem moves_behind_step {level : Nat} {c : Char} {input : List Char}
    (hself : Advances (step (Dialect.ofSource source) level))
    (hinput : s.skipBlanks.input = c :: input) :
    (s.skipBlanks.step c).Moves (behind (step (Dialect.ofSource source) (level + 1) s)) := by
  rw [Grammar.step_of_cons source level hinput]
  have hdispatch := advances_dispatch source hself level c
  exact (hdispatch.located _).bind (fun answer => Advances.pure _) _

theorem advances_step (source : String) : ∀ level, Advances (step (Dialect.ofSource source) level)
  | 0 => Advances.throw _
  | level + 1 => by
    intro s
    cases hinput : s.skipBlanks.input with
    | nil =>
      rw [Grammar.step_of_end source level hinput]
      exact s.moves_skipBlanks
    | cons c input =>
      refine (s.moves_skipBlanks.step hinput).trans ?_
      exact moves_behind_step (advances_step source level) hinput

theorem advances_readOne (source : String) : Advances (readOne (Dialect.ofSource source)) :=
  fun s => advances_formAfter (advances_step source (allowance s)) (allowance s) s

theorem advances_readRest (source : String) (level : Nat) :
    ∀ (loops : Nat) (read : List Value),
      Advances (readRest (Dialect.ofSource source) level loops read)
  | 0, _ => Advances.throw _
  | loops + 1, read => by
    refine (advances_formAfter (advances_step source level) level).bind fun form => ?_
    cases form with
    | some v => exact advances_readRest source level loops (v :: read)
    | none => exact Advances.pure _

theorem advances_readAll (source : String) : Advances (readAll (Dialect.ofSource source)) :=
  fun s => advances_readRest source (allowance s) (allowance s) [] s

theorem advances_readContainer (source : String) (close : Char) (construct : String) :
    Advances (readContainer (Dialect.ofSource source) close construct) :=
  fun s => advances_container (advances_step source (allowance s)) close construct _ [] s

end Lisp.Reader
