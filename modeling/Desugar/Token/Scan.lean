import Desugar.Element
import Desugar.Token

/-! Cutting a text into tokens. Every text has tokens: characters that start nothing
longer are tokens of their own, and blanks and comments between tokens are passed
over. Whether `/` starts a regular expression and `<` an element depends on the tokens
before, which is all the context that is kept. -/
namespace Desugar.Token

open Unicode

def isWordStart (c : Char) : Bool := isAlphabetic c || c == '_' || c == '$'

def isWordRest (c : Char) : Bool := isAlphanumeric c || c == '_' || c == '$'

/-! ### Context -/

/-- What the scanner remembers. A colon that closes a conditional `? :` is followed by
an expression, any other by a type. -/
structure Context where
  last : Option Token
  /-- Conditionals still waiting for their colon. -/
  conditionals : Nat
  /-- Did the last colon close a conditional? -/
  closed : Bool

namespace Context

def empty : Context := ⟨none, 0, false⟩

/-- Words after which an element may start. -/
def elementWords : List Text :=
  ["return".toList, "yield".toList, "default".toList, "case".toList]

/-- Words after which a `/` is no division. -/
def regexWords : List Text :=
  ["return".toList, "typeof".toList, "case".toList, "do".toList, "else".toList, "in".toList,
   "of".toList, "instanceof".toList, "new".toList, "delete".toList, "void".toList,
   "throw".toList, "yield".toList, "await".toList]

def allowsElement (context : Context) : Bool :=
  match context.last with
  | none => true
  | some t =>
    match t.kind with
    | .opening _ | .comma | .semicolon | .arrow => true
    | .punct sign => if sign = ':' then context.closed else ['=', '?', '&', '|', '!'].contains sign
    | .ident => elementWords.contains t.text
    | _ => false

def allowsRegex (context : Context) : Bool :=
  match context.last with
  | none => true
  | some t =>
    match t.kind with
    | .ident => regexWords.contains t.text
    | .number | .string | .template | .regex | .markup | .closing _ => false
    | kind => !kind.isWord

/-- The context after `t`, which stands between the characters `before` and `after`.
A doubled `?` opens no conditional. -/
def push (context : Context) (t : Token) (before after : Option Char) : Context :=
  match t.kind with
  | .punct '?' =>
    if before == some '?' || after == some '?' then { context with last := some t }
    else { context with last := some t, conditionals := context.conditionals + 1 }
  | .punct ':' => ⟨some t, context.conditionals - 1, 0 < context.conditionals⟩
  | .semicolon => { context with last := some t, conditionals := 0 }
  | _ => { context with last := some t }

end Context

/-! ### Single tokens -/

/-- A token's kind and how many characters follow its first one. -/
structure Lexeme where
  kind : Kind
  more : Nat
  tooDeep : Bool

namespace Lexeme

def single (kind : Kind) : Lexeme := ⟨kind, 0, false⟩

def wordKind (word : Text) : Kind :=
  match Keyword.ofText? word with
  | some k => .keyword k
  | none => .ident

def word (c : Char) (cs : Text) : Lexeme :=
  let rest := cs.takeWhile isWordRest
  ⟨wordKind (c :: rest), rest.length, false⟩

/-- A template that nests too deep takes the rest of the text. -/
def template (cs : Text) : Lexeme :=
  match Literal.template? [0] 0 cs with
  | some n => ⟨.template, n, false⟩
  | none => ⟨.template, cs.length, true⟩

/-- An element at the `<` before `cs`; one that nests too deep takes the rest of the
text. -/
def element (cs : Text) : Lexeme :=
  match Element.length? ('<' :: cs) with
  | some n => if 1 < n then ⟨.markup, n - 1, false⟩ else single .less
  | none => ⟨.markup, cs.length, true⟩

def regex (cs : Text) : Lexeme :=
  match Literal.regex? false cs with
  | some n => ⟨.regex, n, false⟩
  | none => single (.punct '/')

/-- The kind of a character that is a token of its own. -/
def signKind (c : Char) : Kind :=
  match c with
  | '(' => .opening .paren
  | ')' => .closing .paren
  | '{' => .opening .brace
  | '}' => .closing .brace
  | '[' => .opening .square
  | ']' => .closing .square
  | '<' => .less
  | '>' => .greater
  | ';' => .semicolon
  | ',' => .comma
  | '.' => .dot
  | '*' => .star
  | c => .punct c

/-- The token that starts at `c`, before `cs`. -/
def read (markup : Bool) (context : Context) (c : Char) (cs : Text) : Lexeme :=
  let next := cs.head?
  if isWordStart c then word c cs
  else if c.isDigit then ⟨.number, Literal.number cs, false⟩
  else if Element.isQuote c then ⟨.string, Literal.quoted c cs, false⟩
  else if c == '`' then template cs
  else if c == '|' && next == some '>' then ⟨.pipe, 1, false⟩
  else if c == '=' && next == some '>' then ⟨.arrow, 1, false⟩
  else if c == '?' && next == some '.' && !(cs.drop 1).head?.any Char.isDigit then ⟨.dot, 1, false⟩
  else if c == '<' && markup && context.allowsElement && Element.isTagStart (c :: cs) &&
      !Element.isTypeParameters cs then element cs
  else if c == '/' && context.allowsRegex then regex cs
  else single (signKind c)

end Lexeme

def restOfLine (cs : Text) : Nat := (cs.takeWhile (· != '\n')).length

/-- Blanks and comments: how many characters after `c` go with it. A line that starts
with `#!` is a comment at the start of the text only. -/
def blank? (first : Bool) (c : Char) (cs : Text) : Option Nat :=
  if isBlank c then some 0
  else if c == '/' && cs.head? == some '/' then some (restOfLine cs)
  else if c == '#' && cs.head? == some '!' && first then some (restOfLine cs)
  else if c == '/' && cs.head? == some '*' then some (Literal.throughComment (cs.drop 1) + 1)
  else none

/-! ### Whole texts -/

/-- All tokens of a text, the last one being its end, and the place where nesting grew
too deep to be followed. -/
structure Scan where
  tokens : List Token
  tooDeep : Option Position

namespace Scan

/-- Tokens from the place `p` on, after passing `skip` characters; `before` is the
character just before. -/
def run (markup : Bool) : (p : Position) → (context : Context) → (before : Option Char) →
    (skip : Nat) → Text → Scan
  | p, _, _, _, [] => ⟨[finish p], none⟩
  | p, context, _, skip + 1, c :: cs => run markup (p.next c) context (some c) skip cs
  | p, context, before, 0, c :: cs =>
    match blank? (p.offset == 0) c cs with
    | some more => run markup (p.next c) context (some c) more cs
    | none =>
      let lexeme := Lexeme.read markup context c cs
      let t : Token := ⟨lexeme.kind, c :: cs.take lexeme.more, p⟩
      let rest := run markup (p.next c) (context.push t before cs.head?) (some c) lexeme.more cs
      ⟨t :: rest.tokens, if lexeme.tooDeep then some p else rest.tooDeep⟩

end Scan

/-- The tokens of `text`, with elements read as such when `markup` is set. -/
def scan (markup : Bool) (text : Text) : Scan :=
  Scan.run markup .origin .empty none 0 text

end Desugar.Token
