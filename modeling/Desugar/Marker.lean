import Desugar.Text

/-! Markers: cheap signs that a text may have a construct. A text without markers is
passed on as it is. A marker may stand in a comment or a string. -/
namespace Desugar

open Unicode

inductive Marker where
  | struct
  | trait
  | impl
  | binding
  | pipe
deriving DecidableEq, Repr

namespace Marker

def all : List Marker := [.struct, .trait, .impl, .binding, .pipe]

def isNameStart (c : Char) : Bool := c.isAlpha || c == '_' || c == '$'

/-- Do `word`, blanks and a character of `starts` stand at the head of the text? -/
def startsWith (word : Text) (starts : Char → Bool) (text : Text) : Bool :=
  let rest := text.drop word.length
  word.isPrefixOf text && rest.head?.any isBlank && (rest.dropWhile isBlank).head?.any starts

/-- Is there a place, not inside a word, where `startsWith` holds? The character before
the text is `before`. -/
def hasWord (word : Text) (starts : Char → Bool) : (before : Option Char) → Text → Bool
  | _, [] => false
  | before, c :: cs =>
    (!before.any isWord && startsWith word starts (c :: cs)) || hasWord word starts (some c) cs

def occurs (text : Text) : Marker → Bool
  | .struct => hasWord "struct".toList isNameStart none text
  | .trait => hasWord "trait".toList isNameStart none text
  | .impl => hasWord "impl".toList isNameStart none text
  | .binding => hasWord "let".toList (fun c => isNameStart c || c == '[' || c == '{') none text
  | .pipe => Text.occurs ['|', '>'] text

/-- The markers of a text, in the order of `all`. -/
def ofText (text : Text) : List Marker := all.filter (occurs text)

/-- How a marker is shown to the user. -/
def label : Marker → String
  | .struct => "struct"
  | .trait => "trait"
  | .impl => "impl"
  | .binding => "let"
  | .pipe => "|>"

end Marker

end Desugar
