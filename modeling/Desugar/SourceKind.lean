import Desugar.Text

/-! Kinds of source files, told by their names. -/
namespace Desugar

inductive SourceKind where
  /-- Files named `.bs`. -/
  | plain
  /-- Files named `.bsx`, which may hold markup. -/
  | markup
  /-- All other files, which are read like plain ones. -/
  | foreign
deriving DecidableEq, Repr

namespace SourceKind

/-- The kind of a file; what follows a `?` is not part of its name. -/
def ofId (id : Text) : SourceKind :=
  let name := id.takeWhile (· != '?')
  if ".bsx".toList.isSuffixOf name then .markup
  else if ".bs".toList.isSuffixOf name then .plain
  else .foreign

/-- The extension of the generated file. -/
def outputExtension : SourceKind → Text
  | .markup => "tsx".toList
  | .plain | .foreign => "ts".toList

end SourceKind

end Desugar
