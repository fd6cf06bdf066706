import Desugar.SourceKind

/-! Paths of files as they are written, with `/` between names. -/
namespace Desugar.Path

def isAbsolute (path : Text) : Bool := path.head? == some '/'

/-- The path `rel` as seen from the directory `dir`. -/
def join (dir rel : Text) : Text :=
  if isAbsolute rel || dir.isEmpty then rel
  else if dir.getLast? == some '/' then dir ++ rel
  else dir ++ '/' :: rel

/-- A reversed path without slashes and single dots at its end. -/
def trimReversed : Text → Text
  | '/' :: rev => trimReversed rev
  | '.' :: '/' :: rev => trimReversed rev
  | rev => rev

/-- The path before the last name, and the name. There is none where the path ends in a
dot or two dots. -/
def split? (path : Text) : Option (Text × Text) :=
  let rev := trimReversed path.reverse
  let name := (rev.takeWhile (· != '/')).reverse
  if name.isEmpty || name == ['.'] || name == ['.', '.'] then none
  else some ((rev.dropWhile (· != '/')).reverse, name)

def fileName? (path : Text) : Option Text := (split? path).map Prod.snd

/-- A name before and after its last dot. A dot at the start begins no extension. -/
def splitName (name : Text) : Text × Option Text :=
  let after := (name.reverse.takeWhile (· != '.')).reverse
  let before := (name.reverse.dropWhile (· != '.')).reverse.dropLast
  if before.isEmpty then (name, none) else (before, some after)

def extension? (path : Text) : Option Text := (fileName? path).bind fun n => (splitName n).2

/-- The path without the characters of its extension. -/
def dropExtension (path : Text) : Text :=
  match extension? path with
  | some old => path.take (path.length - old.length)
  | none => path

/-- The path with what follows the stem of its last name replaced. -/
def setExtension (path extension : Text) : Text :=
  match split? path with
  | some (before, name) => before ++ (splitName name).1 ++ '.' :: extension
  | none => path

def withExtension (path extension : Text) : Text := setExtension (dropExtension path) extension

/-! ### Outputs -/

/-- A source file: its path, and the path relative to the root it was found under. -/
structure Input where
  path : Text
  rel : Text
deriving DecidableEq, Repr

/-- Where the code of a source goes: beside it or under the output directory. -/
def output (input : Input) (outDir : Option Text) : Text :=
  let extension := (SourceKind.ofId input.path).outputExtension
  match outDir with
  | some dir => withExtension (join dir input.rel) extension
  | none => withExtension input.path extension

def map (output : Text) : Text := output ++ ".map".toList

end Desugar.Path
