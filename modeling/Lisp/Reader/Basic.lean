import Lisp.Number.Literal
import Lisp.Reader.Dialect
import Lisp.Room
import Lisp.Text.Escape

/-!
# Reading

`readOne` reads the next form of a stream, `readAll` all of them.  Reading runs over a `Stream` and
ends in a result or a `Stop`; the stream it leaves behind is known in both cases, so a host can go
on reading after an error.

`step` reads at most one form.  It recurses through `container` and the quote macros as deeply as
the text nests, and counts levels; a level is worth at least one character, so the length of the
text bounds them.
-/

namespace Lisp.Reader

abbrev Read (α : Type) := EStateM Stop Stream α

inductive Found where
  | form (v : Value)
  /-- Something that is no form, such as a comment. -/
  | nothing
  | ending

@[inline] def fail {α : Type} (e : Error) : Read α :=
  throw (.error e)

@[inline] def failWith {α : Type} (f : ReadFault) : Read α :=
  fail (.fault f)

def position (d : Dialect) : Read Position := do
  let s ← get
  return ⟨d.source, s.line, s.column + 1⟩

def next : Read (Option Char) := fun s =>
  match s.next with
  | none => .ok none s
  | some (c, s) => .ok (some c) s

def unread (c : Char) : Read Unit :=
  modify (·.unread c)

def skipBlanks : Read Unit :=
  modify (·.skipBlanks)

def token (d : Dialect) (first : Option Char) : Read (List Char) := fun s =>
  let (run, s) := s.token d.isTerminal
  .ok (first.toList ++ run) s

def located {α : Type} (start : Position) (act : Read α) : Read α := fun s =>
  match act s with
  | .ok a s => .ok a s
  | .error (.error e) s => .error (.error (e.located start)) s
  | .error stop s => .error stop s

/-- The result of a reading operation as a value, so that what follows can look at an error. -/
def attempt {α : Type} (act : Read α) : Read (Except Error α) := fun s =>
  match act s with
  | .ok a s => .ok (.ok a) s
  | .error (.error e) s => .ok (.error e) s
  | .error stop s => .error stop s

/-! ## Literals -/

def numberOfToken (token : List Char) : Except Error Value :=
  match Number.Literal.read token with
  | some (.int n) => .ok (.int n)
  | some (.float x) => .ok (.float x)
  | none => .error (.fault (.numberFormat (String.ofList token)))

def number (d : Dialect) (first : Option Char) : Read Value := do
  let text ← token d first
  match numberOfToken text with
  | .ok v => return v
  | .error e => fail e

/-- Reads the rest of a string.  The characters read so far come in reverse; the list is what the
stream holds. -/
def stringRest : List Char → List Char → Read String
  | [], _ => failWith (.unexpectedEnd "string")
  | c :: rest, read => fun s =>
    if c = '\x22' then .ok (String.ofList read.reverse) (s.step c)
    else if c = '\x5c' then
      match rest with
      | [] => failWith (.unexpectedEnd "string") (s.step c)
      | letter :: rest =>
        let behind := (s.step c).step letter
        match Text.unescape letter with
        | some meant => stringRest rest (meant :: read) behind
        | none => failWith (.illegalEscape letter) behind
    else stringRest rest (c :: read) (s.step c)

def string : Read Value := fun s =>
  (Value.string <$> stringRest s.input []) s

/-- The character with that hexadecimal code, which may have a plus sign in front. -/
def scalarOfCode (code : List Char) : Option Char :=
  let digits := match code with
    | '+' :: digits => digits
    | digits => digits
  match Number.natOfDigits 16 digits with
  | some n => if h : n.isValidChar then some (Char.ofNatAux n h) else none
  | none => none

/-- The character that the token of a character literal names: itself if it is alone, or else a
character with a name, or one given by its code. -/
def characterOfToken (token : List Char) : Except ReadFault Char :=
  match token with
  | [c] => .ok c
  | _ =>
    match Text.characterNamed (String.ofList token) with
    | some c => .ok c
    | none =>
      match token with
      | 'u' :: code =>
        match scalarOfCode code with
        | some c => .ok c
        | none => .error (.invalidUnicode (String.ofList token))
      | _ => .error (.unsupportedCharacter (String.ofList token))

/-- Reads the rest of a character literal.  Its first character may be anything. -/
def character (d : Dialect) : Read Value := do
  match ← next with
  | none => failWith (.unexpectedEnd "character")
  | some first =>
    match characterOfToken (← token d (some first)) with
    | .ok c => return .char c
    | .error f => failWith f

/-! ## Forms -/

/-- Reads forms up to the closing character.  Forms read so far come in reverse. -/
def container (self : Read Found) (close : Char) (construct : String) :
    Nat → List Value → Read (List Value)
  | 0, _ => throw .exhausted
  | loops + 1, forms => do
    skipBlanks
    match ← next with
    | none => failWith (.unexpectedEnd construct)
    | some c =>
      if c = close then return forms.reverse
      else
        unread c
        match ← self with
        | .form v => container self close construct loops (v :: forms)
        | .nothing => container self close construct loops forms
        | .ending => failWith (.unexpectedEnd construct)

def formAfter (self : Read Found) : Nat → Read (Option Value)
  | 0 => throw .exhausted
  | loops + 1 => do
    match ← self with
    | .form v => return some v
    | .nothing => formAfter self loops
    | .ending => return none

def Script.run {α : Type} (d : Dialect) (self : Read Found) (loops : Nat) : Script α → Read α
  | .done a => return a
  | .fail e => Reader.fail e
  | .next rest => do run d self loops (rest (← Reader.next))
  | .unread c rest => do
    Reader.unread c
    run d self loops rest
  | .position rest => do run d self loops (rest (← Reader.position d))
  | .skipBlanks rest => do
    Reader.skipBlanks
    run d self loops rest
  | .token first rest => do run d self loops (rest (String.ofList (← Reader.token d first)))
  | .container close construct rest => do
    run d self loops (rest (← attempt (Reader.container self close construct loops [])))
  | .readOne rest => do run d self loops (rest (← attempt (formAfter self loops)))

def ReaderMacro.run (d : Dialect) (self : Read Found) (loops : Nat) (c : Char) :
    ReaderMacro → Read (Option Value)
  | .string => some <$> Reader.string
  | .comment => do
    modify (·.skipLine)
    return none
  | .keyword => do return some (.keyword (String.ofList (← token d none)))
  | .character => some <$> Reader.character d
  | .quote operator => do
    match ← self with
    | .form v => return some (.list [.symbol operator, v])
    | .nothing => failWith .quotedNothing
    | .ending => failWith (.unexpectedEnd operator)
  | .list => do return some (.list (← container self ')' "list" loops []))
  | .vector => do return some (.vector (← container self ']' "vector" loops []))
  | .unmatched => failWith (.unmatchedDelimiter c)
  | .custom script => (script c).run d self loops

/-- Whether a character starts a number: a digit does, and a sign in front of a digit.  To see what
follows a sign the next character is read and taken back. -/
def startsNumber (c : Char) : Read Bool := fun s =>
  if Text.isDigit c then .ok true s
  else if c = '+' || c = '-' then
    .ok (s.input.head?.any Text.isDigit) s.afterPeek
  else .ok false s

def dispatch (d : Dialect) (self : Read Found) (loops : Nat) (c : Char) :
    Read (Option Value) := do
  if ← startsNumber c then
    some <$> number d (some c)
  else
    match d.macroOf c with
    | some m => m.run d self loops c
    | none =>
      let answer ← match d.hook with
        | some hook => hook.run d self loops c
        | none => pure none
      match answer with
      | some v => return some v
      | none => return some (d.symbolValue (String.ofList (← token d (some c))))

/-- Reads at most one form, at the given level of nesting counted from the innermost. -/
def step (d : Dialect) : Nat → Read Found
  | 0 => throw .exhausted
  | level + 1 => withRoom level do
    skipBlanks
    let start ← position d
    match ← next with
    | none => return .ending
    | some c =>
      match ← located start (dispatch d (step d level) level c) with
      | some v => return .form v
      | none => return .nothing

/-- More levels and repetitions than a text of that length has. -/
def allowance (s : Stream) : Nat := s.input.length + 2

/-- Reads the next form; nothing at the end of the text. -/
def readOne (d : Dialect) : Read (Option Value) := fun s =>
  formAfter (step d (allowance s)) (allowance s) s

def readRest (d : Dialect) (level : Nat) : Nat → List Value → Read (List Value)
  | 0, _ => throw .exhausted
  | loops + 1, forms => do
    match ← formAfter (step d level) level with
    | some v => readRest d level loops (v :: forms)
    | none => return forms.reverse

def readAll (d : Dialect) : Read (List Value) := fun s =>
  readRest d (allowance s) (allowance s) [] s

def readContainer (d : Dialect) (close : Char) (construct : String) : Read (List Value) := fun s =>
  container (step d (allowance s)) close construct (allowance s) [] s

/-! ## Texts -/

def ofText {α : Type} (act : Read α) (text : String) : Except Stop α :=
  match act (.ofText text.toList) with
  | .ok a _ => .ok a
  | .error stop _ => .error stop

def readText (text : String) : Except Stop (Option Value) :=
  ofText (readOne .standard) text

def readAllText (text : String) : Except Stop (List Value) :=
  ofText (readAll .standard) text

def readAllBytes (bytes : ByteArray) (source : String) : Except Stop (List Value) :=
  match String.fromUTF8? bytes with
  | some text => ofText (readAll { Dialect.standard with source := source }) text
  | none => .error (.error .malformedText)

end Lisp.Reader
