import Desugar.Fault
import Desugar.Pattern.Syntax

/-! Patterns for file names: a regular expression between slashes, or a text that has
to occur as it stands. A filter accepts what an include pattern matches and no exclude
pattern does. -/
namespace Desugar

inductive Pattern where
  | literal (text : Text)
  | regex (body : Text) (expression : Regex)

namespace Pattern

/-- The inside of a text between slashes. -/
def body? : Text → Option Text
  | '/' :: cs => if cs.getLast? == some '/' then some cs.dropLast else none
  | _ => none

def parse (raw : Text) : Except Fault Pattern :=
  match body? raw with
  | some body =>
    match Regex.ofText? body with
    | some r => .ok (.regex body r)
    | none => .error (.pattern raw)
  | none => .ok (.literal raw)

def accepts (id : Text) : Pattern → Bool
  | .literal text => Text.occurs text id
  | .regex _ r => r.occursIn id

def text : Pattern → Text
  | .literal text => text
  | .regex body _ => '/' :: body ++ ['/']

end Pattern

structure Filter where
  included : List Pattern
  excluded : List Pattern

namespace Filter

/-- Reads the include patterns first. -/
def ofPatterns (included excluded : List Text) : Except Fault Filter := do
  let included ← included.mapM Pattern.parse
  let excluded ← excluded.mapM Pattern.parse
  pure ⟨included, excluded⟩

/-- Backslashes count as slashes. Names that start with a null character belong to no
file. -/
def accepts (filter : Filter) (id : Text) : Bool :=
  let name := id.map fun c => if c = '\\' then '/' else c
  id.head? != some '\x00' && filter.included.any (Pattern.accepts name) &&
    !filter.excluded.any (Pattern.accepts name)

end Filter

end Desugar
