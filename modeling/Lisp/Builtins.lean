import Lisp.Library
import Lisp.Value.Order
import Lisp.Value.Printer

/-!
# Builtins

The functions that every program starts with: arithmetic, comparison, `list`, `str`, `type` and
`eval`.

Integer arithmetic is exact or fails; as soon as one operand is a double the result is one.
-/

namespace Lisp.Builtins

/-! ## Arithmetic -/

def int64OfInt (n : Int) : Option Int64 :=
  if Int64.minValue.toInt ≤ n ∧ n ≤ Int64.maxValue.toInt then some (Int64.ofInt n) else none

structure Operator where
  name : String
  /-- The exact result on integers. -/
  onInts : Int → Int → Int
  /-- The result on doubles. -/
  onFloats : Float → Float → Float

namespace Operator

def plus : Operator := ⟨"+", (· + ·), (· + ·)⟩

def times : Operator := ⟨"*", (· * ·), (· * ·)⟩

def minus : Operator := ⟨"-", (· - ·), (· - ·)⟩

end Operator

def toFloat? : Value → Option Float
  | .int n => some (Number.Binary64.ofInt64 n)
  | .float x => some x
  | _ => none

def notANumber (v : Value) : Error := .invalidArgumentType "number" v.typeName

/-- Applies an operation to two values, the left one being checked first. -/
def combine (op : Operator) (a b : Value) : Except Error Value :=
  match a, b with
  | .int m, .int n =>
    match int64OfInt (op.onInts m.toInt n.toInt) with
    | some r => .ok (.int r)
    | none => .error (.integerOverflow op.name)
  | a, b =>
    match toFloat? a, toFloat? b with
    | some x, some y => .ok (.float (op.onFloats x y))
    | none, _ => .error (notANumber a)
    | _, none => .error (notANumber b)

def foldNumbers (op : Operator) (first : Value) (args : List Value) : Except Error Value :=
  args.foldlM (combine op) first

def add (args : List Value) : Except Error Value := foldNumbers .plus (.int 0) args

def multiply (args : List Value) : Except Error Value := foldNumbers .times (.int 1) args

/-- The first value less the others; a single value is taken from zero. -/
def subtract : List Value → Except Error Value
  | [] => .error (.invalidArgumentCount (.atLeast 1) 0)
  | [only] => combine .minus (.int 0) only
  | first :: rest => foldNumbers .minus first rest

/-! ## Comparison -/

/-- Whether each value comes before the next one.  The first pair that does not settles it. -/
def increasing : List Value → Except Error Bool
  | a :: b :: rest => do
    if ← a.lt b then increasing (b :: rest) else return false
  | _ => .ok true

def allEqual : List Value → Bool
  | a :: b :: rest => a.equals b && allEqual (b :: rest)
  | _ => true

/-! ## Text -/

/-- A value in running text: strings and characters bare, nil empty, all else as it prints. -/
def plainText : Value → String
  | .nil => ""
  | .string text => text
  | .char c => c.toString
  | v => v.sexpr

def concat (args : List Value) : String := String.join (args.map plainText)

/-! ## The library -/

def replyOf {α : Type} (give : α → Value) (result : Except Error α) : Reply :=
  Reply.after result fun a => .value (give a)

def ofValues (f : List Value → Reply) : Entry := .native (.ofItems .any f)

def evalArgument : List Value → Procedure Value
  | [form] => .eval form .ofExcept
  | args => .fail (.invalidArgumentCount (.exactly 1) args.length)

def library : Library :=
  [("+", ofValues fun args => replyOf id (add args)),
   ("*", ofValues fun args => replyOf id (multiply args)),
   ("-", ofValues fun args => replyOf id (subtract args)),
   ("<", ofValues fun args => replyOf .bool (increasing args)),
   ("=", ofValues fun args => .value (.bool (allEqual args))),
   ("list", ofValues fun args => .value (.list args)),
   ("str", ofValues fun args => .value (.string (concat args))),
   ("eval", .invokable evalArgument),
   ("type", .native (.ofFunction [.any] fun v => .value (.string (Value.typeName v))))]

end Lisp.Builtins
