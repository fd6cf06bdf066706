import Desugar.Position

/-! Tokens of the source language: what kind of thing stands where. A token carries
its own characters, so its span follows from the place where it starts. -/
namespace Desugar

inductive Keyword where
  | structWord
  | traitWord
  | implWord
  | forWord
  | letWord
  | importWord
  | exportWord
  | fromWord
deriving DecidableEq, Repr

namespace Keyword

def all : List Keyword := [.structWord, .traitWord, .implWord, .forWord, .letWord, .importWord, .exportWord, .fromWord]

def text : Keyword → Text
  | .structWord => "struct".toList
  | .traitWord => "trait".toList
  | .implWord => "impl".toList
  | .forWord => "for".toList
  | .letWord => "let".toList
  | .importWord => "import".toList
  | .exportWord => "export".toList
  | .fromWord => "from".toList

def ofText? (word : Text) : Option Keyword := all.find? fun k => k.text == word

end Keyword

inductive Bracket where
  | paren
  | brace
  | square
deriving DecidableEq, Repr

inductive Kind where
  | ident
  | keyword (word : Keyword)
  | number
  | string
  | template
  | regex
  /-- A whole element of markup. -/
  | markup
  /-- The operator `|>`. -/
  | pipe
  /-- The arrow `=>`. -/
  | arrow
  /-- Either of `.` and `?.`. -/
  | dot
  | opening (bracket : Bracket)
  | closing (bracket : Bracket)
  | less
  | greater
  | semicolon
  | comma
  | star
  | punct (sign : Char)
  /-- The end of the text. -/
  | eof
deriving DecidableEq, Repr

namespace Kind

/-- Identifiers and keywords: what may name a member after a dot. -/
def isWord : Kind → Bool
  | .ident | .keyword _ => true
  | _ => false

end Kind

structure Token where
  kind : Kind
  text : Text
  place : Position
deriving DecidableEq, Repr

namespace Token

def start (t : Token) : Nat := t.place.offset

def stop (t : Token) : Nat := t.place.offset + Text.width t.text

def span (t : Token) : Span := ⟨t.start, t.stop⟩

/-- The end of the text as a token. -/
def finish (p : Position) : Token := ⟨.eof, [], p⟩

@[simp] theorem start_finish (p : Position) : (finish p).start = p.offset := rfl

@[simp] theorem stop_finish (p : Position) : (finish p).stop = p.offset := rfl

end Token

end Desugar
