import Lisp.Reader.Stream
import Lisp.Value.Basic

/-!
# Dialects

A `Dialect` is what a host can adjust about reading: the name of the source, the characters that
dispatch to reader macros, the tokens that stand for values, and a hook that sees every other form
before it is taken for a symbol.

A reader macro is one of the standard ones or the host's own.  The host's own is a `Script`: a
sequence of reading operations, each of which hands its result to the rest of the sequence.
-/

namespace Lisp.Reader

inductive Script (α : Type) where
  | done (a : α)
  | fail (e : Error)
  | next (rest : Option Char → Script α)
  | unread (c : Char) (rest : Script α)
  /-- Asks for the place of the next character. -/
  | position (rest : Position → Script α)
  | skipBlanks (rest : Script α)
  /-- Collects a token behind the given first character. -/
  | token (first : Option Char) (rest : String → Script α)
  | container (close : Char) (construct : String)
      (rest : Except Error (List Value) → Script α)
  | readOne (rest : Except Error (Option Value) → Script α)

/-- What a dispatching character does.  An answer of no value means that nothing was read. -/
inductive ReaderMacro where
  | string
  /-- A comment up to the end of the line. -/
  | comment
  | keyword
  | character
  /-- A list of the given symbol and the next form. -/
  | quote (operator : String)
  | list
  | vector
  | unmatched
  /-- The host's own; it is given the dispatching character. -/
  | custom (script : Char → Script (Option Value))

structure Dialect where
  source : String
  macros : List (Char × ReaderMacro)
  predefined : List (String × Value)
  /-- Sees every form that neither is a number nor dispatches. -/
  hook : Option ReaderMacro

def standardMacros : List (Char × ReaderMacro) :=
  [('\x22', .string), (';', .comment), (':', .keyword), ('\x5c', .character),
   ('\x27', .quote "quote"), ('~', .quote "unquote"), ('\x60', .quote "syntax-quote"),
   ('(', .list), (')', .unmatched), ('[', .vector), (']', .unmatched)]

def standardPredefined : List (String × Value) :=
  [("nil", .nil), ("true", .bool true), ("false", .bool false),
   ("##Inf", .float (Float.ofBits 0x7ff0000000000000)),
   ("##-Inf", .float (Float.ofBits 0xfff0000000000000)),
   ("##NaN", .float (Float.ofBits 0x7ff8000000000000))]

namespace Dialect

def standard : Dialect := ⟨"<string>", standardMacros, standardPredefined, none⟩

def macroOf (d : Dialect) (c : Char) : Option ReaderMacro :=
  d.macros.lookup c

def isTerminal (d : Dialect) (c : Char) : Bool :=
  (d.macroOf c).isSome || isBlank c

/-- Lets a character dispatch to a reader macro, or to nothing. -/
def setMacro (d : Dialect) (c : Char) (m : Option ReaderMacro) : Dialect :=
  { d with macros := (m.map (c, ·)).toList ++ d.macros.filter (·.1 ≠ c) }

/-- What a token that is no number stands for: its predefined value, or the symbol of that name. -/
def symbolValue (d : Dialect) (token : String) : Value :=
  (d.predefined.lookup token).getD (.symbol token)

end Dialect

end Lisp.Reader
