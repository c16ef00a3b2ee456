import Lisp.Proofs.Reader.Place
import Lisp.Proofs.Reader.Progress
import Lisp.Session.Reading

/-!
# The counters of a reader

A host may read as it likes, form by form or character by character, go on after an error, and put
back the character that it has just read.  At any time the reader then tells the exact place in the
text of what it reads next, `Driven.counters_exact`.

To take a character back is exact only for the one read last, since one column is remembered.  The
reader itself puts back no other: a run of characters ends with one that is read and put back, and the
next one is read before another is.  What the host may put back is part of where it has brought the
reader, and `Tracked` keeps the stream in front of that character beside the one behind it.
-/

namespace Lisp

/-! ## 1. Runs, character by character -/

namespace Reader.Stream

theorem skipBlanks_eq (s : Stream) :
    s.skipBlanks =
      match s.next with
      | none => s
      | some (c, t) => if isBlank c then t.skipBlanks else t.unread c := by
  unfold next
  cases hinput : s.input with
  | nil => simp [skipBlanks, skip, afterPeek, hinput]
  | cons c rest =>
    have hrest : (s.step c).input = rest := Grammar.input_step_cons hinput
    by_cases hc : isBlank c = true
    · simp [skipBlanks, skip, hinput, hrest, hc]
    · simp [skipBlanks, skip, afterPeek, hinput, hc]

theorem token_eq (isTerminal : Char → Bool) (s : Stream) :
    s.token isTerminal =
      match s.next with
      | none => ([], s)
      | some (c, t) =>
        if isTerminal c then ([], t.unread c)
        else (c :: (t.token isTerminal).1, (t.token isTerminal).2) := by
  unfold next
  cases hinput : s.input with
  | nil => simp [token, skip, afterPeek, hinput]
  | cons c rest =>
    have hrest : (s.step c).input = rest := Grammar.input_step_cons hinput
    by_cases hc : isTerminal c = true
    · simp [token, skip, afterPeek, hinput, hc]
    · simp [token, skip, hinput, hrest, hc]

end Reader.Stream

namespace Session.Reading

open Lisp.Reader

variable {text source : String} {s : State} {back : Option Char} {c : Char}

/-! ## 2. What a host may do -/

def Step.Reads : Step → Prop
  | .readOne | .readAll | .next | .skipBlanks | .token _ | .container _ _ => True
  | .unread _ | .setMacro _ _ | .isTerminal _ | .sourceName => False

def Answer.character? : Answer → Option Char
  | .character c => c
  | _ => none

/-- The states that a host brings a reader of a text to, with the character that it may put back:
the one that it has just been given. -/
inductive Driven (text source : String) : State → Option Char → Prop
  | start : Driven text source (start text source none none []) none
  | read {s : State} {back : Option Char} (before : Driven text source s back) (act : Step)
      (reads : act.Reads) : Driven text source (s.step act).2 (s.step act).1.character?
  | unread {s : State} {c : Char} (before : Driven text source s (some c)) :
      Driven text source (s.step (.unread c)).2 none

/-! ## 3. What an operation leaves behind -/

theorem State.perform_stream {α : Type} (s : State) (act : Read α) (give : α → Answer) :
    (s.perform act give).2 = { s with stream := behind (act s.stream) } := by
  unfold State.perform
  cases act s.stream <;> rfl

theorem State.step_moves (hdialect : s.dialect = .ofSource source) {act : Step}
    (reads : act.Reads) :
    (s.step act).2.dialect = .ofSource source ∧ s.stream.Moves (s.step act).2.stream := by
  have perform {α : Type} {read : Read α} {give : α → Answer} (hread : Advances read) :
      (s.perform read give).2.dialect = .ofSource source ∧
        s.stream.Moves (s.perform read give).2.stream := by
    rw [State.perform_stream]
    exact ⟨hdialect, hread s.stream⟩
  cases act with
  | readOne => exact perform (hdialect ▸ advances_readOne source)
  | readAll => exact perform (hdialect ▸ advances_readAll source)
  | next => exact perform .next
  | skipBlanks => exact perform fun s => s.moves_skipBlanks
  | token first => exact perform (.token _ first)
  | container close construct =>
    exact perform (hdialect ▸ advances_readContainer source close construct)
  | _ => cases reads

theorem State.perform_character {α : Type} {act : Read α} {give : α → Answer}
    (hgive : ∀ a, (give a).character? = none) : (s.perform act give).1.character? = none := by
  unfold State.perform
  cases act s.stream with
  | ok a t => exact hgive a
  | error stop t => rfl

theorem State.step_character {act : Step} (h : (s.step act).1.character? = some c) :
    ∃ rest, s.stream.input = c :: rest ∧ (s.step act).2.stream = s.stream.step c := by
  cases act with
  | next =>
    cases hinput : s.stream.input with
    | nil => simp [State.step, State.perform, Grammar.next_nil hinput, Answer.character?] at h
    | cons first rest =>
      simp only [State.step, State.perform, Grammar.next_cons hinput, Answer.character?] at h ⊢
      cases h
      exact ⟨rest, rfl, rfl⟩
  | setMacro => cases h
  | isTerminal => cases h
  | sourceName => cases h
  | _ => cases h.symm.trans (State.perform_character fun _ => rfl)

/-! ## 4. The exact place -/

structure Tracked (text source : String) (s : State) (back : Option Char) : Prop where
  dialect : s.dialect = .ofSource source
  place : s.stream.At text.toList
  /-- The character that may be put back was the first one of a stream at its exact place. -/
  back : ∀ c, back = some c →
    ∃ (t : Stream) (rest : List Char), t.At text.toList ∧ t.input = c :: rest ∧
      s.stream = t.step c

theorem Driven.tracked (h : Driven text source s back) : Tracked text source s back := by
  induction h with
  | start => exact ⟨rfl, .start _, nofun⟩
  | @read s back before act reads ih =>
    obtain ⟨hdialect, hmoves⟩ := State.step_moves ih.dialect reads
    refine ⟨hdialect, ih.place.moves hmoves, fun c hc => ?_⟩
    obtain ⟨rest, hinput, hstream⟩ := State.step_character hc
    exact ⟨s.stream, rest, ih.place, hinput, hstream⟩
  | @unread s c before ih =>
    obtain ⟨t, rest, hplace, hinput, hstream⟩ := ih.back c rfl
    have hpeek : s.stream.unread c = t.afterPeek := by
      rw [hstream, Stream.afterPeek, hinput]
    refine ⟨ih.dialect, ?_, nofun⟩
    show (s.stream.unread c).At text.toList
    rw [hpeek]
    exact hplace.afterPeek

theorem State.step_ends (hdialect : s.dialect = .ofSource source) {act : Step}
    (reads : act.Reads) : (s.step act).1 ≠ .stopped .exhausted := by
  have perform {α : Type} {read : Read α} {give : α → Answer} (hread : Ends read s.stream)
      (hgive : ∀ a, give a ≠ .stopped .exhausted) :
      (s.perform read give).1 ≠ .stopped .exhausted := by
    unfold State.perform
    obtain ⟨a, t, hresult⟩ | ⟨e, t, hresult⟩ := hread
    · rw [hresult]
      exact hgive a
    · rw [hresult]
      exact nofun
  have hprogress := progresses source s.stream
  cases act with
  | readOne => exact perform (hdialect ▸ hprogress.ends) nofun
  | readAll => exact perform (hdialect ▸ hprogress.readAll_ends) nofun
  | next =>
    cases hinput : s.stream.input with
    | nil => exact perform (.inl ⟨_, _, Grammar.next_nil hinput⟩) nofun
    | cons c rest => exact perform (.inl ⟨_, _, Grammar.next_cons hinput⟩) nofun
  | skipBlanks => exact perform (.inl ⟨_, _, rfl⟩) nofun
  | token first => exact perform (.inl ⟨_, _, rfl⟩) nofun
  | container close construct =>
    exact perform (hdialect ▸ hprogress.readContainer_ends close construct) nofun
  | _ => cases reads

/-- However a host has driven a reader, past errors and with characters put back, what is left is an
end of the text, and the reader tells the line and the column that it starts at.  And whatever is
read next comes to an end. -/
theorem Driven.counters_exact (h : Driven text source s back) :
    (∃ p q, text.toList = p ++ q ∧ s.stream.input = q ∧
      s.position = ⟨source, 1 + p.count '\n', 1 + columnsBehind p⟩) ∧
    ∀ act : Step, act.Reads → (s.step act).1 ≠ .stopped .exhausted := by
  obtain ⟨hdialect, ⟨p, htext, hline, hcolumn⟩, -⟩ := h.tracked
  refine ⟨⟨p, s.stream.input, htext, rfl, ?_⟩, fun act reads => State.step_ends hdialect reads⟩
  rw [State.position, hdialect, hline, hcolumn, Nat.add_comm (columnsBehind p)]

/-- A newline is put back, and then a list is missed by an error. -/
theorem Driven.counters_exact_past_error : ∃ s : State,
    Driven "a\n (b" "<string>" s none ∧ s.stream.input = "\n (b".toList ∧
      (s.step .readOne).1 =
        .stopped (.error (.read (.unexpectedEnd "list") (some ⟨"<string>", 2, 2⟩))) ∧
      Driven "a\n (b" "<string>" (s.step .readOne).2 none ∧
      (s.step .readOne).2.position = ⟨"<string>", 2, 4⟩ ∧
      ∃ p q, "a\n (b".toList = p ++ q ∧ (s.step .readOne).2.stream.input = q ∧
        (s.step .readOne).2.position = ⟨"<string>", 1 + p.count '\n', 1 + columnsBehind p⟩ := by
  let behind := ((Reading.start "a\n (b" "<string>" none none []).step .next).2.step .next
  let s := (behind.2.step (.unread '\n')).2
  have hback : behind.1.character? = some '\n' := by rfl
  have hdriven : Driven "a\n (b" "<string>" s none :=
    .unread (hback ▸ (Driven.start.read .next trivial).read .next trivial)
  have hstep : s.step .readOne =
      (.stopped (.error (.read (.unexpectedEnd "list") (some ⟨"<string>", 2, 2⟩))),
        ⟨.standard, ⟨[], 2, 3, 2⟩⟩) := by cbv
  have hread := hdriven.read .readOne trivial
  rw [hstep] at hread
  refine ⟨s, hdriven, by rfl, ?_⟩
  rw [hstep]
  exact ⟨rfl, hread, rfl, hread.counters_exact.1⟩

/-- Of two characters put back the second is misplaced: the newline is in the third column. -/
example :
    let s := (Stream.ofText "ab\nc".toList).skip "ab\nc".toList
    (s.unread 'c').unread '\n' = ⟨"\nc".toList, 1, 0, 0⟩ := by
  decide

end Session.Reading

end Lisp
