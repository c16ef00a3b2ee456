import Lisp.Library
import Lisp.Value.Printer

/-!
# The bindings of a sample host

A host that uses every way of extending the interpreter: typed and variadic native functions,
functions that fail or panic, callables that work on the environment, and objects of its own.
-/

namespace Lisp.Sample

/-- Doubles in running text: a whole number has no fraction, and there is no exponent. -/
def plainFloat : Number.FloatLayout where
  wholeHasFraction := false
  positional := none
  notANumber := "NaN"
  infinity := "inf"
  negativeInfinity := "-inf"

def boolText (b : Bool) : String := if b then "true" else "false"

def intText (n : Int64) : String := String.ofList (Number.decimalOfInt64 n)

def typed (types : List ParamType) (f : Native.Curried types) : Entry :=
  .native (.ofFunction types f)

/-! ## Objects -/

/-- A widget: an object that is equal to the widgets of its number. -/
def widget (n : Int64) : Value :=
  .object {
    typeName := "widget"
    text := "#<widget " ++ intText n ++ ">"
    content := n.toInt
    equals := fun other => other.typeName == "widget" && other.content == n.toInt }

def sealedObject : Value :=
  .object { typeName := "opaque", text := "#<opaque>", content := 0, equals := fun _ => false }

/-! ## Callables on the environment -/

def defineMacro : List Value → Procedure Value
  | [.symbol name, .list params, body] =>
    .freshIdentity fun id =>
      .bind name (.rewriter id name (params.map Value.sexpr) body) (.done (.symbol name))
  | _ => .fail (.host "defmacro: bad arguments")

def withLocal : List Value → Procedure Value
  | [.symbol name, v, form] => .bindLocal name v (.eval form .ofExcept)
  | _ => .fail (.host "with-local: bad arguments")

def bindLocal : List Value → Procedure Value
  | [.symbol name, v] => .bindLocal name v (.done v)
  | _ => .fail (.host "bind-local: bad arguments")

def stop : Procedure Value :=
  .interrupt fun flag =>
    match flag with
    | some _ => .setInterrupt true (.done (.keyword "stopped"))
    | none => .fail (.host "no interrupt flag")

def whereAmI : Procedure Value :=
  .stack fun stack =>
    .done (.list ((Stack.backtrace stack).map fun (name, args) =>
      .list [.string name, .list args]))

def depth : Procedure Value :=
  .stack fun stack => .done (.int (Int64.ofNat (Stack.depth stack)))

def recur : Procedure Value := .eval (.list [.symbol "recur"]) .ofExcept

/-! ## The library -/

def library : Library :=
  [("add", typed [.int, .int] fun (a b : Int64) => .value (.int (a + b))),
   ("describe", typed [.string, .float, .bool, .char]
     fun (s : String) (x : Float) (b : Bool) (c : Char) =>
       .value (.string (s ++ "-" ++ String.ofList (plainFloat.text x) ++ "-" ++ boolText b ++ "-" ++
         c.toString))),
   ("clamp", typed [.int, .int, .int] fun (low x high : Int64) =>
     .value (.int (max low (min x high)))),
   ("half", typed [.float] fun (x : Float) => .value (.float (x / 2.0))),
   ("len", typed [.list] fun (items : List Value) =>
     .value (.int (Int64.ofNat items.length))),
   ("rest", typed [.list] fun (items : List Value) => .value (.list items.tail)),
   ("cons", typed [.any, .list] fun (v : Value) (items : List Value) =>
     .value (.list (v :: items))),
   ("not", typed [.any] fun (v : Value) => .value (.bool (!v.isTruthy))),
   ("char-id", typed [.char] fun (c : Char) => .value (.char c)),
   ("to-sym", typed [.string] fun (s : String) => .value (.symbol s)),
   ("to-kw", typed [.string] fun (s : String) => .value (.keyword s)),
   ("noop", typed [] (.value .nil : Reply)),
   ("hello", typed [] (.value (.string "hello") : Reply)),
   ("fail", typed [] (.error (.host "nope") : Reply)),
   ("fail-str", typed [] (.error (.host "borrowed") : Reply)),
   ("fail-string", typed [.string] fun (s : String) => .error (.host s)),
   ("boom", typed [] (.panic (some "kaboom") : Reply)),
   ("boom-with", typed [.int] fun (n : Int64) => .panic (some ("kaboom " ++ intText n))),
   ("boom-any", typed [] (.panic none : Reply)),
   ("widget", typed [.int] fun (n : Int64) => .value (widget n)),
   ("tick", .counter),
   ("sum", .native (.ofItems .float fun (xs : List Float) =>
     .value (.float (xs.foldl (· + ·) 0.0)))),
   ("count-strings", .native (.ofItems .string fun (ss : List String) =>
     .value (.int (Int64.ofNat ss.length)))),
   ("join", .native ⟨⟨[.string], some .int⟩, fun args =>
     .value (.string (String.intercalate " " (args.map Value.sexpr)))⟩),
   ("defmacro", .invokable defineMacro),
   ("with-local", .invokable withLocal),
   ("bind-local", .invokable bindLocal),
   ("stop", .invokable fun _ => stop),
   ("where", .invokable fun _ => whereAmI),
   ("depth", .invokable fun _ => depth),
   ("recur", .invokable fun _ => recur),
   ("w1", .value (widget 1)),
   ("w1b", .value (widget 1)),
   ("w2", .value (widget 2)),
   ("opaque", .value sealedObject)]

end Lisp.Sample
