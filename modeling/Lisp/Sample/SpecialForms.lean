import Lisp.Host

/-!
# The special forms and analyzers of a sample host
-/

namespace Lisp.Sample

inductive Special where
  | count
  /-- The list of the forms behind the symbol. -/
  | rest
  /-- Its only form, evaluated twice in sequence. -/
  | twice
deriving DecidableEq, Repr

def Special.parse (name : String) : Special → ParseSpecial
  | .count, forms => .done (.const (.int (Int64.ofNat forms.length)))
  | .rest, forms => .done (.quote (.list forms))
  | .twice, [form] => .done (.sequence [form, form])
  | .twice, forms => .fail (.invalidSpecialForm name "1 arg" (toString forms.length))

/-- The special forms of those names; the last one of a name counts. -/
def specials (table : List (String × Special)) : String → Option ParseSpecial := fun name =>
  (table.reverse.lookup name).map (Special.parse name)

def quoteAll : Analyzer := .custom fun form => .done (.const form)

def expandNothing : Expander := .custom fun _ => .done none

def expandSwap : Expander := .custom fun form =>
  match form with
  | .list [.symbol "swap", a, b] => .done (some (.list [b, a]))
  | _ => .done none

end Lisp.Sample
