import Desugar.Text

/-! Values of configuration files and of options that are only passed on. -/
namespace Desugar

inductive Value where
  | null
  | bool (b : Bool)
  | int (n : Int)
  | text (t : Text)
  | list (items : List Value)
  | table (fields : List (Text × Value))
deriving Inhabited, Repr

namespace Value

def isNull : Value → Bool
  | .null => true
  | _ => false

def bool? : Value → Option Bool
  | .bool b => some b
  | _ => none

def text? : Value → Option Text
  | .text t => some t
  | _ => none

def texts? : Value → Option (List Text)
  | .list items => items.mapM text?
  | _ => none

def fields? : Value → Option (List (Text × Value))
  | .table fields => some fields
  | _ => none

/-- A name out of a fixed set: a text, or a table with the name as its only field and
nothing in it. How nothing is written depends on the format. -/
def name? (isNothing : Value → Bool) : Value → Option Text
  | .text name => some name
  | .table [(name, content)] => if isNothing content then some name else none
  | _ => none

/-- Fields by name: those of a table, or items of a list that are fields in the order of
`names`. -/
def record? (names : List Text) : Value → Option (List (Text × Value))
  | .table fields => some fields
  | .list items => if items.length ≤ names.length then some (names.zip items) else none
  | _ => none

/-- Reads the field that goes by one of `names`, or takes the default if there is
none. A field given twice is refused, also under different names. -/
def given {α : Type} (fields : List (Text × Value)) (names : List Text) (read : Value → Option α)
    (default : α) : Option α :=
  match fields.filter fun f => names.contains f.1 with
  | [] => some default
  | [f] => read f.2
  | _ => none

end Value

end Desugar
