import Lisp.Sample.ReaderMacros

/-!
# Reading sessions

A reader that a host drives operation by operation: its dialect can change between two operations,
and it goes on where the last operation stopped, failed ones included.
-/

namespace Lisp.Session.Reading

open Lisp.Reader

structure State where
  dialect : Dialect
  stream : Stream

def start (text source : String) (predefined : Option (List (String × Value)))
    (hook : Option Sample.MacroKind) (macros : List (Char × Option Sample.MacroKind)) : State :=
  let dialect : Dialect :=
    { Dialect.standard with
      source := source
      predefined := predefined.getD standardPredefined
      hook := hook.map Sample.MacroKind.readerMacro }
  { dialect := macros.foldl (fun d (c, kind) =>
      d.setMacro c (kind.map Sample.MacroKind.readerMacro)) dialect
    stream := .ofText text.toList }

inductive Step where
  | readOne
  | readAll
  | next
  | unread (c : Char)
  | skipBlanks
  | token (first : Option Char)
  | container (close : Char) (construct : String)
  | setMacro (c : Char) (kind : Option Sample.MacroKind)
  | isTerminal (c : Char)
  | sourceName

inductive Answer where
  | nothing
  /-- A form, or none. -/
  | form (v : Option Value)
  | forms (vs : List Value)
  /-- A character, or none. -/
  | character (c : Option Char)
  | text (t : String)
  | flag (b : Bool)
  | stopped (stop : Stop)

def State.perform {α : Type} (s : State) (act : Read α) (give : α → Answer) : Answer × State :=
  match act s.stream with
  | .ok a stream => (give a, { s with stream })
  | .error stop stream => (.stopped stop, { s with stream })

def State.step (s : State) : Step → Answer × State
  | .readOne => s.perform (readOne s.dialect) .form
  | .readAll => s.perform (readAll s.dialect) .forms
  | .next => s.perform next .character
  | .unread c => s.perform (unread c) fun _ => .nothing
  | .skipBlanks => s.perform skipBlanks fun _ => .nothing
  | .token first => s.perform (token s.dialect first) fun run => .text (String.ofList run)
  | .container close construct => s.perform (readContainer s.dialect close construct) .forms
  | .setMacro c kind =>
    (.nothing, { s with
      dialect := s.dialect.setMacro c (kind.map Sample.MacroKind.readerMacro) })
  | .isTerminal c => (.flag (s.dialect.isTerminal c), s)
  | .sourceName => (.text s.dialect.source, s)

def State.position (s : State) : Position :=
  ⟨s.dialect.source, s.stream.line, s.stream.column + 1⟩

/-- Operations in order; with each answer goes the place after it. -/
def run : List Step → State → List (Answer × Position)
  | [], _ => []
  | act :: rest, s =>
    let (answer, s) := s.step act
    (answer, s.position) :: run rest s

end Lisp.Session.Reading
