import Desugar.Position

/-! What can go wrong, as causes, with the wording of each cause in one place. A fault
stops the work on one file only. -/
namespace Desugar

structure Location where
  file : Text
  line : Nat
  column : Nat
deriving DecidableEq, Repr

/-- Why a set of options is refused. -/
inductive Refusal where
  | unknownPass (name : Text)
  | unknownTarget (name : Text)
  | noInclude
  | blankFactory
  | stated (reason : String)
deriving DecidableEq, Repr

namespace Refusal

def message : Refusal → String
  | .unknownPass name => s!"passe inconnue `{String.ofList name}`"
  | .unknownTarget name => s!"cible inconnue `{String.ofList name}`"
  | .noInclude => "`include` ne peut pas être vide"
  | .blankFactory => "fabriques markup vides"
  | .stated reason => reason

end Refusal

inductive Fault where
  | tooDeep (location : Location) (limit : Nat)
  | pattern (raw : Text)
  | span (start stop size : Nat)
  | config (refusal : Refusal)
deriving DecidableEq, Repr

namespace Fault

/-- The wording of a nesting fault without its place. -/
def depthMessage (limit : Nat) : String := s!"imbrication trop profonde (limite {limit})"

/-- The reason why a pattern is no regular expression is not part of the wording. -/
def message : Fault → String
  | .tooDeep l limit => s!"{String.ofList l.file}:{l.line}:{l.column}: {depthMessage limit}"
  | .pattern raw => s!"motif invalide `{String.ofList raw}`: <regex>"
  | .span start stop size => s!"span {start}..{stop} hors source ({size} octets)"
  | .config refusal => s!"config: {refusal.message}"

end Fault

/-- The bytes of `text` from `start` up to `stop`, or the fault that there are none. -/
def Text.slice (text : Text) (start stop : Nat) : Except Fault Text :=
  match Text.slice? text start stop with
  | some piece => .ok piece
  | none => .error (.span start stop (Text.width text))

end Desugar
