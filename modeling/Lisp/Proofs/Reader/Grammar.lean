import Lisp.Reader.Basic
import Mathlib

/-!
# The grammar of source texts

What a text of the standard dialect is, said without a reader.  Every relation here reads "in front":
`Form input v rest` says that a form which means `v` stands at the front of `input` and that `rest`
is what follows it, and `Text input vs rest` says the same of a sequence of blanks, comments and
forms.  A run of characters is maximal because what follows it has to be a delimiter or the end.

A text means the forms `vs` when `Text input vs []` holds.
-/

namespace Lisp.Reader.Grammar

/-! ## 1. Runs of characters -/

def dispatching : List Char :=
  ['\x22', ';', ':', '\x5c', '\x27', '~', '\x60', '(', ')', '[', ']']

def isDelimiter (c : Char) : Bool := isBlank c || dispatching.contains c

def Delimited (rest : List Char) : Prop := ∀ c ∈ rest.head?, isDelimiter c = true

/-- The characters of `run`, with `rest` behind them, are a maximal run of non-delimiters. -/
structure Run (run rest : List Char) : Prop where
  /-- No delimiter stands inside. -/
  inside : ∀ c ∈ run, isDelimiter c = false
  /-- The run cannot go on. -/
  ends : Delimited rest

/-- Whether a text starts like a number: with a digit, or with a sign in front of a digit. -/
def isNumeric : List Char → Bool
  | '+' :: c :: _ => Text.isDigit c
  | '-' :: c :: _ => Text.isDigit c
  | c :: _ => Text.isDigit c
  | [] => false

def Blanks (input rest : List Char) : Prop :=
  ∃ blanks : List Char, (∀ c ∈ blanks, isBlank c = true) ∧ input = blanks ++ rest

/-- A comment reaches up to the end of its line, or of the whole text. -/
inductive Comment : List Char → List Char → Prop
  | line {body rest : List Char} (oneLine : '\n' ∉ body) :
      Comment (';' :: (body ++ '\n' :: rest)) rest
  | last {body : List Char} (oneLine : '\n' ∉ body) : Comment (';' :: body) []

/-! ## 2. Literals -/

/-- The rest of a string literal behind its opening quote: the characters it means, and what follows
its closing quote. -/
inductive StringRest : List Char → List Char → List Char → Prop
  | close (rest : List Char) : StringRest ('\x22' :: rest) [] rest
  | plain {c : Char} {input text rest : List Char} (noQuote : c ≠ '\x22') (noEscape : c ≠ '\x5c')
      (more : StringRest input text rest) : StringRest (c :: input) (c :: text) rest
  | escape {letter c : Char} {input text rest : List Char} (meant : (letter, c) ∈ Text.escapes)
      (more : StringRest input text rest) : StringRest ('\x5c' :: letter :: input) (c :: text) rest

/-- The character that the text of a character literal means: itself, or the one of that name, or
the one with that code. -/
inductive Names : List Char → Char → Prop
  | itself (c : Char) : Names [c] c
  | name {text : List Char} {c : Char} (known : (String.ofList text, c) ∈ Text.characterNames) :
      Names text c
  | code {digits : List Char} {c : Char} (scalar : scalarOfCode digits = some c) :
      Names ('u' :: digits) c

def quoteOperator : Char → Option String
  | '\x27' => some "quote"
  | '~' => some "unquote"
  | '\x60' => some "syntax-quote"
  | _ => none

/-! ## 3. Texts and forms -/

/-- A sequence of blanks, comments and forms, over what counts as a form. -/
inductive TextOf (form : List Char → Value → List Char → Prop) :
    List Char → List Value → List Char → Prop
  | done (rest : List Char) : TextOf form rest [] rest
  | blank {c : Char} {input rest : List Char} {vs : List Value} (blank : isBlank c = true)
      (more : TextOf form input vs rest) : TextOf form (c :: input) vs rest
  | comment {input mid rest : List Char} {vs : List Value} (comment : Comment input mid)
      (more : TextOf form mid vs rest) : TextOf form input vs rest
  | form {input mid rest : List Char} {v : Value} {vs : List Value} (first : form input v mid)
      (more : TextOf form mid vs rest) : TextOf form input (v :: vs) rest

inductive Form : List Char → Value → List Char → Prop
  /-- A run that starts like a number has to be one. -/
  | number {run rest : List Char} {v : Value} (whole : Run run rest)
      (numeric : isNumeric run = true) (means : numberOfToken run = .ok v) :
      Form (run ++ rest) v rest
  /-- Any other run is a predefined name or a symbol. -/
  | symbol {run rest : List Char} (whole : Run run rest) (nonempty : run ≠ [])
      (plain : isNumeric run = false) :
      Form (run ++ rest)
        ((standardPredefined.lookup (String.ofList run)).getD (.symbol (String.ofList run))) rest
  | string {input text rest : List Char} (body : StringRest input text rest) :
      Form ('\x22' :: input) (.string (String.ofList text)) rest
  | keyword {run rest : List Char} (whole : Run run rest) :
      Form (':' :: (run ++ rest)) (.keyword (String.ofList run)) rest
  /-- The first character behind the backslash may be anything, a delimiter too. -/
  | character {first c : Char} {run rest : List Char} (whole : Run run rest)
      (means : Names (first :: run) c) : Form ('\x5c' :: first :: (run ++ rest)) (.char c) rest
  /-- Blanks may stand behind a quoting character, but no comment. -/
  | quote {q : Char} {operator : String} {input mid rest : List Char} {v : Value}
      (quotes : quoteOperator q = some operator) (blanks : Blanks input mid)
      (quoted : Form mid v rest) : Form (q :: input) (.list [.symbol operator, v]) rest
  | list {input rest : List Char} {vs : List Value} (items : TextOf Form input vs (')' :: rest)) :
      Form ('(' :: input) (.list vs) rest
  | vector {input rest : List Char} {vs : List Value} (items : TextOf Form input vs (']' :: rest)) :
      Form ('[' :: input) (.vector vs) rest

abbrev Text : List Char → List Value → List Char → Prop := TextOf Form

end Lisp.Reader.Grammar
