import Lisp.Expr
import Lisp.Text.Class

/-!
# Special forms

The five forms whose parts are not evaluated like the arguments of a call.  `SpecialForm.parse`
checks the parts and gives the expression.
-/

namespace Lisp

inductive SpecialForm where
  | choice
  | define
  | quote
  | sequence
  /-- A form for a task of its own. -/
  | spawn
deriving DecidableEq, Repr

namespace SpecialForm

def name : SpecialForm → String
  | .choice => "if"
  | .define => "def"
  | .quote => "quote"
  | .sequence => "do"
  | .spawn => "go"

def all : List SpecialForm := [.choice, .define, .quote, .sequence, .spawn]

def named (symbol : String) : Option SpecialForm :=
  all.find? (·.name = symbol)

def invalid (form : SpecialForm) (expected actual : String) : Error :=
  .invalidSpecialForm form.name expected actual

def definedName : Value → Except Error String
  | .symbol name =>
    if Text.isBlankText name then .error (.invalidBindName name) else .ok name
  | other => .error (define.invalid "symbol as first arg" other.typeName)

def parse : SpecialForm → List Value → Except Error Expr
  | .choice, [test, consequent] => .ok (.choice test consequent none)
  | .choice, [test, consequent, alternative] => .ok (.choice test consequent (some alternative))
  | .choice, parts => .error (choice.invalid "2 or 3 args" (toString parts.length))
  | .define, [name, value] => (definedName name).map (.define · value)
  | .define, parts => .error (define.invalid "2 args" (toString parts.length))
  | .quote, [form] => .ok (.quote form)
  | .quote, parts => .error (quote.invalid "1 arg" (toString parts.length))
  | .sequence, forms => .ok (.sequence forms)
  | .spawn, [body] => .ok (.spawn body)
  | .spawn, parts => .error (spawn.invalid "1 arg" (toString parts.length))

end SpecialForm

end Lisp
