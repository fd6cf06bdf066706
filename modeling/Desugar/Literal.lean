import Desugar.Text

/-! Lengths of literals. Each function takes what follows the opening character of a
literal and says how many characters of it still belong to the literal. The scanners
that may step over several characters at once count down a number of characters
`skip` to be passed unread. -/
namespace Desugar.Literal

open Unicode

/-- How many nested templates, elements and groups are followed. -/
def maxDepth : Nat := 256

/-- Characters through the first `c`, or all of them. -/
def through (c : Char) : Text → Nat
  | [] => 0
  | d :: ds => if d == c then 1 else through c ds + 1

def throughComment : Text → Nat
  | [] => 0
  | [_] => 1
  | c :: d :: ds => if c == '*' && d == '/' then 2 else throughComment (d :: ds) + 1

def number : Text → Nat
  | [] => 0
  | c :: cs =>
    if isAsciiAlphanumeric c || c == '_' then number cs + 1
    -- a point only before a digit
    else if c == '.' && (cs.head?.any Char.isDigit) then number cs + 1
    else 0

/-- A quoted string ends after its quote or before the end of its line. A backslash
takes the next character with it unless that is a line end. -/
def quoted (quote : Char) : Text → Nat
  | [] => 0
  | c :: cs =>
    if c == '\\' then
      match cs with
      | [] => 1
      | d :: ds => if d == '\n' then 1 else quoted quote ds + 2
    else if c == '\n' then 0
    else if c == quote then 1
    else quoted quote cs + 1

/-- A string inside a substitution: past its quote or its line end, with every
character after a backslash passed over. -/
def quotedInside (quote : Char) : Text → Nat
  | [] => 0
  | c :: cs =>
    if c == quote || c == '\n' then 1
    else if c == '\\' then
      match cs with
      | [] => 1
      | _ :: ds => quotedInside quote ds + 2
    else quotedInside quote cs + 1

def flags (cs : Text) : Nat := (cs.takeWhile fun c => isAsciiAlphanumeric c || c == '_').length

/-- A regular expression ends at the first `/` outside a character class, flags
included; there is none if the line ends first. -/
def regex? (inClass : Bool) : Text → Option Nat
  | [] => none
  | c :: cs =>
    if c == '\n' then none
    else if c == '\\' then
      match cs with
      | [] => none
      | _ :: ds => (regex? inClass ds).map (· + 2)
    else if c == '[' then (regex? true cs).map (· + 1)
    else if c == ']' then (regex? false cs).map (· + 1)
    else if c == '/' && !inClass then some (flags cs + 1)
    else (regex? inClass cs).map (· + 1)

/-- A template with its nested substitutions. The stack has an entry for each open
part, the innermost first. There is no answer when more than `maxDepth` parts are open
at once; an unclosed template reaches the end of the text. -/
def template? : (stack : List Nat) → (skip : Nat) → Text → Option Nat
  | _, _, [] => some 0
  | stack, skip + 1, _ :: cs => (template? stack skip cs).map (· + 1)
  | [], 0, _ :: _ => some 0
  -- among the characters of a template
  | 0 :: below, 0, c :: cs =>
    if c == '\\' then (template? (0 :: below) 1 cs).map (· + 1)
    else if c == '`' then
      if below.isEmpty then some 1 else (template? below 0 cs).map (· + 1)
    else if c == '$' && cs.head? == some '{' then
      if below.length + 2 > maxDepth then none
      else (template? (1 :: 0 :: below) 1 cs).map (· + 1)
    else (template? (0 :: below) 0 cs).map (· + 1)
  -- in a substitution with so many braces open, its own included
  | (braces + 1) :: below, 0, c :: cs =>
    if c == '{' then (template? ((braces + 2) :: below) 0 cs).map (· + 1)
    else if c == '}' then
      if braces = 0 then (template? below 0 cs).map (· + 1)
      else (template? (braces :: below) 0 cs).map (· + 1)
    else if c == '`' then
      if below.length + 2 > maxDepth then none
      else (template? (0 :: (braces + 1) :: below) 0 cs).map (· + 1)
    else if c == '"' || c == '\'' then
      (template? ((braces + 1) :: below) (quotedInside c cs) cs).map (· + 1)
    else (template? ((braces + 1) :: below) 0 cs).map (· + 1)

end Desugar.Literal
