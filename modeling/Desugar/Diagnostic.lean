import Desugar.Fault

/-! Messages for the user, with the place they are about when there is one. -/
namespace Desugar

inductive Severity where
  | error
  | warning
deriving DecidableEq, Repr

structure Diagnostic where
  severity : Severity
  message : String
  location : Option Location
deriving DecidableEq, Repr

namespace Diagnostic

def error (message : String) : Diagnostic := ⟨.error, message, none⟩

def warning (message : String) : Diagnostic := ⟨.warning, message, none⟩

/-- The same message about the place `l`. -/
def located (d : Diagnostic) (l : Location) : Diagnostic := { d with location := some l }

/-- The message of a fault; a nesting fault has its place apart from its wording. -/
def ofFault : Fault → Diagnostic
  | .tooDeep l limit => (error (Fault.depthMessage limit)).located l
  | fault => error fault.message

/-- The message after its file, line and column. -/
def text (d : Diagnostic) : String :=
  match d.location with
  | some l => s!"{String.ofList l.file}:{l.line}:{l.column}: {d.message}"
  | none => d.message

end Diagnostic

end Desugar
