import Desugar.Diagnostic

/-! Warnings: constructs that were begun but not recognised, and so are copied. -/
namespace Desugar

namespace Warning

inductive Cause where
  | openStruct (name : Text)
  | openTrait (name : Text)
  | openImpl (name : Text)
  | implWithoutFor (name : Text)
  | pipeWithoutStage
deriving DecidableEq, Repr

def Cause.message : Cause → String
  | .openStruct name => s!"struct `{String.ofList name}` non fermé ; laissé tel quel"
  | .openTrait name => s!"trait `{String.ofList name}` non fermé ; laissé tel quel"
  | .openImpl name => s!"impl `{String.ofList name}` non fermé ; laissé tel quel"
  | .implWithoutFor name => s!"`impl {String.ofList name}` sans `for` non supporté ; laissé tel quel"
  | .pipeWithoutStage => "`|>` sans étape valide ; laissé tel quel"

end Warning

structure Warning where
  cause : Warning.Cause
  place : Position
deriving DecidableEq, Repr

namespace Warning

def diagnostic (file : Text) (w : Warning) : Diagnostic :=
  (Diagnostic.warning w.cause.message).located ⟨file, w.place.line, w.place.column⟩

end Warning

end Desugar
