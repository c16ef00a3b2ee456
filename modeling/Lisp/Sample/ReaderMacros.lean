import Lisp.Reader.Basic

/-!
# The reader macros of a sample host

Reader macros that use every reading operation, each on its own.
-/

namespace Lisp.Sample

open Lisp.Reader

inductive MacroKind where
  /-- The next form in a list behind the symbol `deref`. -/
  | deref
  /-- The dispatching character as a keyword. -/
  | trigger
  /-- No form. -/
  | skip
  /-- No form, the next form being passed over. -/
  | discard
  /-- The forms up to a closing brace, as a vector. -/
  | brace
  /-- The token behind the character, as a keyword. -/
  | tag
  /-- The token with the character, as a string. -/
  | token
  /-- Like `tag` behind a number sign, and no form otherwise. -/
  | hashTag
  /-- The number behind the character. -/
  | number
  /-- The place behind the character. -/
  | place
  /-- The next character that is no blank. -/
  | afterSpaces
  /-- An error that has nothing to do with reading. -/
  | fail
  /-- A fault without a place. -/
  | failRead
  /-- A fault with a place of its own. -/
  | failAt
deriving DecidableEq, Repr

namespace MacroKind

def tagScript : Script (Option Value) :=
  .token none fun text => .done (some (.keyword ("tag-" ++ text)))

def script (kind : MacroKind) (c : Char) : Script (Option Value) :=
  match kind with
  | .deref => .readOne fun answer =>
      match answer with
      | .ok (some form) => .done (some (.list [.symbol "deref", form]))
      | .ok none => .fail (.host "nothing to deref")
      | .error e => .fail e
  | .trigger => .done (some (.keyword c.toString))
  | .skip => .done none
  | .discard => .readOne fun answer =>
      match answer with
      | .ok _ => .done none
      | .error e => .fail e
  | .brace => .container '\x7d' "map" fun answer =>
      match answer with
      | .ok forms => .done (some (.vector forms))
      | .error e => .fail e
  | .tag => tagScript
  | .token => .token (some c) fun text => .done (some (.string text))
  | .hashTag => if c = '#' then tagScript else .done none
  | .number => .token none fun text =>
      match numberOfToken text.toList with
      | .ok v => .done (some v)
      | .error e => .fail e
  | .place => .position fun p =>
      .done (some (.list [.string p.file, .int (Int64.ofNat p.line), .int (Int64.ofNat p.column)]))
  | .afterSpaces => .skipBlanks (.next fun found => .done (found.map Value.char))
  | .fail => .fail (.notFound c.toString)
  | .failRead => .fail (.fault (.custom "custom failure"))
  | .failAt => .fail (.read (.custom "placed") (some ⟨"other.sp", 7, 9⟩))

def readerMacro (kind : MacroKind) : ReaderMacro := .custom kind.script

end MacroKind

end Lisp.Sample
