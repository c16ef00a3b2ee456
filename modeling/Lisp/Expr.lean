import Lisp.Value.Inspect

/-!
# Analyzed forms

An `Expr` is a form whose kind is settled and whose call targets and arguments are resolved.  The
parts of the special forms stay forms: they are analyzed each time they are run.
-/

namespace Lisp

inductive Expr where
  /-- A value, among them the values that symbols had at analysis. -/
  | const (v : Value)
  | quote (v : Value)
  | define (name : String) (value : Value)
  /-- A choice between two forms, the second of which may be missing. -/
  | choice (test consequent : Value) (alternative : Option Value)
  | sequence (forms : List Value)
  /-- A call, under the printed name of its head. -/
  | invoke (name : String) (target : Expr) (args : List Expr)
  /-- A form to be evaluated by a task of its own. -/
  | spawn (body : Value)

namespace Expr

instance : Inhabited Expr := ⟨.const .nil⟩

mutual

def inspect : Expr → String
  | .const v => "Const(" ++ v.sexpr ++ ")"
  | .quote v => "Quote(" ++ v.sexpr ++ ")"
  | .define name value => "Def(" ++ name ++ " " ++ value.sexpr ++ ")"
  | .choice test consequent alternative =>
    let last := match alternative with
      | some v => " " ++ v.sexpr
      | none => ""
    "If(" ++ test.sexpr ++ " " ++ consequent.sexpr ++ last ++ ")"
  | .sequence forms => "Do(" ++ Value.inspectItems forms ++ ")"
  | .invoke name _ args => "Invoke(" ++ name ++ " " ++ inspectList (inspectArgs args) ++ ")"
  | .spawn body => "Go(" ++ body.sexpr ++ ")"

def inspectArgs : List Expr → List String
  | [] => []
  | e :: rest => inspect e :: inspectArgs rest

end

end Expr

end Lisp
