/-!
# Errors

Every way in which reading, analysis or evaluation fails, as a cause, and one function for the words.

* `ReadFault`: what is wrong with a text.
* `Error`: every failure a caller can see.  `Error.message` gives its text.
* `Error.located` attaches the place of the innermost malformed form.
-/

namespace Lisp

/-- The place of a character in a named source; lines and columns count from one. -/
structure Position where
  file : String
  line : Nat
  column : Nat
deriving DecidableEq, Repr

def Position.text (p : Position) : String :=
  s!"{p.file}:{p.line}:{p.column}"

inductive ReadFault where
  | unexpectedEnd (construct : String)
  | unmatchedDelimiter (c : Char)
  /-- A token that starts like a number and is none. -/
  | numberFormat (token : String)
  /-- A backslash in a string before a character that names no escape. -/
  | illegalEscape (c : Char)
  | unsupportedCharacter (token : String)
  /-- A character literal whose code is no Unicode scalar. -/
  | invalidUnicode (token : String)
  /-- A quote in front of something that is no form. -/
  | quotedNothing
  /-- A fault that a reader macro reports in its own words. -/
  | custom (text : String)
deriving DecidableEq, Repr

def ReadFault.message : ReadFault → String
  | .unexpectedEnd construct => "unexpected EOF while reading " ++ construct
  | .unmatchedDelimiter c => "unmatched delimiter '" ++ c.toString ++ "'"
  | .numberFormat token => "illegal number format '" ++ token ++ "'"
  | .illegalEscape c => "illegal escape sequence '\\" ++ c.toString ++ "'"
  | .unsupportedCharacter token => "unsupported character '\\" ++ token ++ "'"
  | .invalidUnicode token => "invalid unicode character '\\" ++ token ++ "'"
  | .quotedNothing => "cannot quote a no-op form"
  | .custom text => text

inductive Arity where
  | exactly (count : Nat)
  | atLeast (count : Nat)
  | more
deriving DecidableEq, Repr

def Arity.message : Arity → String
  | .exactly count => toString count
  | .atLeast count => "at least " ++ toString count
  | .more => "more"

inductive Error where
  /-- A malformed text, with the start of the innermost malformed form once that is known. -/
  | read (fault : ReadFault) (position : Option Position)
  | notFound (name : String)
  /-- A special form or macro call with the wrong parts. -/
  | invalidSpecialForm (form expected actual : String)
  /-- A call of something that is not callable. -/
  | notInvokable (typeName : String)
  /-- An argument that does not convert to the type of its parameter. -/
  | invalidArgumentType (expected actual : String)
  | invalidArgumentCount (expected : Arity) (actual : Nat)
  /-- One frame more than the stack may hold. -/
  | stackOverflow (maxDepth : Nat)
  /-- An order asked of values that have none. -/
  | incomparableTypes (left right : String)
  | invalidBindName (name : String)
  | emptyStack
  /-- An evaluation that ran into a requested interrupt. -/
  | interrupted
  /-- An integer result that 64 bits do not hold. -/
  | integerOverflow (operator : String)
  /-- A task that ended by a panic with that message. -/
  | taskPanic (message : String)
  /-- A stack limit that leaves no room for the global frame. -/
  | zeroMaxDepth
  /-- A byte source that is not well-formed UTF-8. -/
  | malformedText
  /-- A failure that a host function reports in its own words. -/
  | host (text : String)
deriving DecidableEq, Repr

namespace Error

def readMessage (fault : ReadFault) : Option Position → String
  | some p =>
    "syntax error in '" ++ p.file ++ "' (line " ++ toString p.line ++ ", col " ++
      toString p.column ++ "): " ++ fault.message
  | none => "syntax error: " ++ fault.message

def message : Error → String
  | .read fault position => readMessage fault position
  | .notFound name => "unable to resolve symbol '" ++ name ++ "': not found"
  | .invalidSpecialForm form expected actual =>
    "invalid " ++ form ++ " form: expected " ++ expected ++ ", got " ++ actual
  | .notInvokable typeName => "value of type '" ++ typeName ++ "' is not invokable"
  | .invalidArgumentType expected actual =>
    "invalid argument type: expected=" ++ expected ++ ", actual=" ++ actual
  | .invalidArgumentCount expected actual =>
    "invalid number of arguments: expected " ++ expected.message ++ ", got " ++ toString actual
  | .stackOverflow maxDepth => "stack-limit exceeded (max-depth=" ++ toString maxDepth ++ ")"
  | .incomparableTypes left right =>
    "cannot compare values of type '" ++ left ++ "' and '" ++ right ++ "'"
  | .invalidBindName name => "invalid name for def: '" ++ name ++ "'"
  | .emptyStack => "pop from empty stack"
  | .interrupted => "execution interrupted"
  | .integerOverflow operator => "runtime error: integer overflow in '" ++ operator ++ "'"
  | .taskPanic message => "runtime error: panic: " ++ message
  | .zeroMaxDepth => "runtime error: max depth must be at least 1"
  | .malformedText =>
    "runtime error: failed to read source: stream did not contain valid UTF-8"
  | .host text => "runtime error: " ++ text

/-- The error with the place of the form being read.  A place that is already there stays, so the
innermost form wins; an error of another kind becomes a fault of that form, in its own words. -/
def located (start : Position) : Error → Error
  | .read fault none => .read fault (some start)
  | .read fault (some p) => .read fault (some p)
  | other => .read (.custom other.message) (some start)

def reportTag : String := "\x1b[31m[ERROR]\x1b[0m"

def report : Error → List String
  | .read fault position =>
    (reportTag ++ " " ++ fault.message) ::
      (position.map fun p => "  at " ++ p.text).toList
  | other => [reportTag ++ " " ++ other.message]

def hasPosition : Error → Bool
  | .read _ (some _) => true
  | _ => false

def fault (f : ReadFault) : Error := .read f none

end Error

inductive Stop where
  /-- An error, which the caller sees. -/
  | error (e : Error)
  /-- A panic of host code, which unwinds the whole task; the message may be missing. -/
  | panic (message : Option String)
  /-- The allowance of nested steps is used up. -/
  | exhausted
deriving DecidableEq, Repr

end Lisp
