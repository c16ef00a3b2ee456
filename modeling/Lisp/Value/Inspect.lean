import Lisp.Value.Printer

/-!
# Inspected form of a value

`Value.inspect` shows the kind of a value beside its content, for diagnosis rather than for
reading back.  Lists and vectors are shown as they print.
-/

namespace Lisp

/-- Inspected doubles keep a fraction, and use an exponent from `1e16` on and below `1e-4`. -/
def inspectedFloat : Number.FloatLayout where
  wholeHasFraction := true
  positional := some (-4, 16)
  notANumber := "NaN"
  infinity := "inf"
  negativeInfinity := "-inf"

namespace Text

/-- One character inside quotes of the given kind, as inspection shows it: the usual escapes, the
quote itself escaped, and the other control characters by their code. -/
def inspectedChar (quote : Char) (c : Char) : List Char :=
  if c = '\x00' then ['\x5c', '0']
  else if c = '\t' then ['\x5c', 't']
  else if c = '\r' then ['\x5c', 'r']
  else if c = '\n' then ['\x5c', 'n']
  else if c = '\x5c' || c = quote then ['\x5c', c]
  else if isControl c then
    "\\u".toList ++ '\x7b' :: Number.hexadecimal 1 c.toNat ++ ['\x7d']
  else [c]

def inspectedText (quote : Char) (text : List Char) : String :=
  String.ofList (quote :: (text.flatMap (inspectedChar quote) ++ [quote]))

end Text

def ParamType.inspect : ParamType → String
  | .int => "Int"
  | .float => "Float"
  | .string => "Str"
  | .bool => "Bool"
  | .char => "Char"
  | .list => "Seq"
  | .any => "Any"

def inspectList (items : List String) : String :=
  "[" ++ String.intercalate ", " items ++ "]"

def Signature.inspect (s : Signature) : String :=
  let variadic :=
    match s.variadic with
    | some t => "Some(" ++ t.inspect ++ ")"
    | none => "None"
  "Signature \x7b params: " ++ inspectList (s.params.map ParamType.inspect) ++
    ", variadic: " ++ variadic ++ " \x7d"

namespace Value

def inspect : Value → String
  | .nil => "Nil"
  | .bool b => "Bool(" ++ toString b ++ ")"
  | .int n => "Int(" ++ String.ofList (Number.decimalOfInt64 n) ++ ")"
  | .float x => "Float(" ++ String.ofList (inspectedFloat.text x) ++ ")"
  | .char c => "Char(" ++ Text.inspectedText '\x27' [c] ++ ")"
  | .string text => "String(" ++ Text.inspectedText '\x22' text.toList ++ ")"
  | .symbol name => "Symbol(" ++ name ++ ")"
  | .keyword name => "Keyword(:" ++ name ++ ")"
  | .list items => (Value.list items).sexpr
  | .vector items => (Value.vector items).sexpr
  | .rewriter _ name _ _ => "Macro(" ++ name ++ ")"
  | .native f => "Fn(" ++ f.name ++ ")"
  | .invokable f => "Invokable(" ++ f.name ++ ")"
  | .object o => "Native(" ++ o.typeName ++ ")"

def inspectItems (items : List Value) : String :=
  inspectList (items.map inspect)

end Value

def NativeRef.inspect (f : NativeRef) : String :=
  "NativeFn \x7b name: " ++ Text.inspectedText '\x22' f.name.toList ++ ", signature: " ++
    f.signature.inspect ++ " \x7d"

end Lisp
