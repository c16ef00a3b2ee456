import Lisp.Text.Class

/-!
# Streams of characters

A `Stream` is what is left of a source text together with the place of the next character.  One
character can be taken back with its place; the column to go back to is remembered beside the
current one.

The operations take characters off the front (`step`), skip or collect a run of characters
(`skipBlanks`, `token`) and look one character ahead.  A run ends at a character that is read and
taken back, which leaves its trace in the remembered column.
-/

namespace Lisp.Reader

/-- White space and commas separate forms. -/
def isBlank (c : Char) : Bool :=
  c = ',' || Text.isWhitespace c

structure Stream where
  input : List Char
  /-- The line of the next character, from one. -/
  line : Nat
  /-- The number of characters in front of it on its line. -/
  column : Nat
  /-- The column to return to when a character is taken back. -/
  saved : Nat
deriving DecidableEq, Repr

namespace Stream

def ofText (text : List Char) : Stream := ⟨text, 1, 0, 0⟩

def step (s : Stream) (c : Char) : Stream where
  input := s.input.tail
  line := if c = '\n' then s.line + 1 else s.line
  column := if c = '\n' then 0 else s.column + 1
  saved := s.column

def next (s : Stream) : Option (Char × Stream) :=
  match s.input with
  | [] => none
  | c :: _ => some (c, s.step c)

/-- The stream with a character put in front.  The place is exact for the character read last. -/
def unread (s : Stream) (c : Char) : Stream where
  input := c :: s.input
  line := if c = '\n' then max 1 (s.line - 1) else s.line
  column := s.saved
  saved := s.saved - 1

/-- The stream after looking at its first character, if there is one. -/
def afterPeek (s : Stream) : Stream :=
  match s.input with
  | [] => s
  | c :: _ => (s.step c).unread c

/-- The stream behind the given characters, which are its first ones. -/
def skip (s : Stream) (run : List Char) : Stream :=
  run.foldl step s

def skipBlanks (s : Stream) : Stream :=
  (s.skip (s.input.takeWhile isBlank)).afterPeek

/-- The characters in front of the first one that ends a token, and the stream behind them. -/
def token (isTerminal : Char → Bool) (s : Stream) : List Char × Stream :=
  let run := s.input.takeWhile fun c => !isTerminal c
  (run, (s.skip run).afterPeek)

/-- The stream behind the rest of the line, its end included. -/
def skipLine (s : Stream) : Stream :=
  let s := s.skip (s.input.takeWhile (· ≠ '\n'))
  match s.next with
  | none => s
  | some (_, s) => s

theorem input_step (s : Stream) (c : Char) : (s.step c).input = s.input.tail := rfl

theorem input_unread (s : Stream) (c : Char) : (s.unread c).input = c :: s.input := rfl

theorem input_skip (s : Stream) (run : List Char) :
    (s.skip run).input = s.input.drop run.length := by
  induction run generalizing s with
  | nil => rfl
  | cons c run ih =>
    show (skip (s.step c) run).input = _
    rw [ih, input_step, List.drop_tail, List.length_cons]

theorem input_afterPeek (s : Stream) : s.afterPeek.input = s.input := by
  unfold afterPeek
  split
  · rfl
  · simp_all [input_unread, input_step]

end Stream

end Lisp.Reader
