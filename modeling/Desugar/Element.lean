import Desugar.Literal

/-! Extents of markup elements. An element is never taken apart: only its end is
looked for, so that the whole of it can be copied. Elements and the containers
`{…}` inside them alternate, each followed to a fixed depth. Lengths are numbers of
characters; as with literals, `skip` counts characters to be passed unread. -/
namespace Desugar.Element

open Unicode Literal

def isNameChar (c : Char) : Bool := isAsciiAlphanumeric c || c == '_' || c == '$'

/-- A tag starts at `<` before a letter, the slash of a closing tag, or the `>` of a
fragment. -/
def isTagStart : Text → Bool
  | '<' :: c :: _ => c.isAlpha || c == '/' || c == '>'
  | _ => false

/-- Do type parameters follow a `<`: a name and then a comma or the word `extends`? -/
def isTypeParameters (cs : Text) : Bool :=
  let name := cs.takeWhile isNameChar
  let rest := (cs.dropWhile isNameChar).dropWhile isAsciiBlank
  !name.isEmpty &&
    (rest.head? == some ',' ||
      ("extends".toList.isPrefixOf rest && !(rest.drop 7).head?.any isNameChar))

def throughQuote (quote : Char) : Text → Nat
  | [] => 0
  | c :: cs =>
    if c == '\\' then
      match cs with
      | [] => 1
      | _ :: ds => throughQuote quote ds + 2
    else if c == quote then 1
    else throughQuote quote cs + 1

def isQuote (c : Char) : Bool := c == '"' || c == '\''

/-- An expression, and so an element, may stand after these. -/
def opensExpression (c : Char) : Bool :=
  ['(', ',', '{', '[', '&', '|', '?', ':', '>', '=', '!'].contains c

/-- The rest of an opening tag after its `<`, and whether it closes itself. -/
def openTag? (container? : Text → Option Nat) : (skip : Nat) → Text → Option (Nat × Bool)
  | _, [] => some (0, false)
  | skip + 1, _ :: cs => (openTag? container? skip cs).map fun r => (r.1 + 1, r.2)
  | 0, c :: cs =>
    if isQuote c then (openTag? container? (throughQuote c cs) cs).map fun r => (r.1 + 1, r.2)
    else if c == '{' then
      match container? (c :: cs) with
      | none => none
      | some n => (openTag? container? (n - 1) cs).map fun r => (r.1 + 1, r.2)
    else if c == '/' && cs.head? == some '>' then some (2, true)
    else if c == '>' then some (1, false)
    else (openTag? container? 0 cs).map fun r => (r.1 + 1, r.2)

/-- A run of tags and what stands between them, up to the tag that closes the first
one. Outside all tags it stops at once. -/
def tags? (container? : Text → Option Nat) : (depth skip : Nat) → Text → Option Nat
  | _, _, [] => some 0
  | depth, skip + 1, _ :: cs => (tags? container? depth skip cs).map (· + 1)
  | depth, 0, c :: cs =>
    if isTagStart (c :: cs) then
      if cs.head? == some '/' then
        let n := through '>' (cs.drop 1) + 1
        if depth ≤ 1 then some (n + 1) else (tags? container? (depth - 1) n cs).map (· + 1)
      else
        match openTag? container? 0 cs with
        | none => none
        | some (n, true) =>
          if depth = 0 then some (n + 1) else (tags? container? depth n cs).map (· + 1)
        | some (n, false) => (tags? container? (depth + 1) n cs).map (· + 1)
    else if depth = 0 then some 0
    else if c == '{' then
      match container? (c :: cs) with
      | none => none
      | some n => (tags? container? depth (n - 1) cs).map (· + 1)
    else (tags? container? depth 0 cs).map (· + 1)

/-- A container up to the brace that closes it. `last` is the last character before
here that is not blank. -/
def braces? (element? : Text → Option Nat) :
    (depth : Nat) → (last : Option Char) → (skip : Nat) → Text → Option Nat
  | _, _, _, [] => some 0
  | depth, last, skip, c :: cs =>
    let last' := if isAsciiBlank c then last else some c
    match skip with
    | skip + 1 => (braces? element? depth last' skip cs).map (· + 1)
    | 0 =>
      if c == '{' then (braces? element? (depth + 1) last' 0 cs).map (· + 1)
      else if c == '}' then
        if depth ≤ 1 then some 1 else (braces? element? (depth - 1) last' 0 cs).map (· + 1)
      else if isQuote c || c == '`' then
        (braces? element? depth last' (throughQuote c cs) cs).map (· + 1)
      else if c == '/' && cs.head? == some '/' then
        (braces? element? depth last' (through '\n' cs) cs).map (· + 1)
      else if c == '/' && cs.head? == some '*' then
        (braces? element? depth last' (throughComment (cs.drop 1) + 1) cs).map (· + 1)
      else if isTagStart (c :: cs) && last.any opensExpression then
        match element? (c :: cs) with
        | none => none
        | some n => (braces? element? depth last' (n - 1) cs).map (· + 1)
      else (braces? element? depth last' 0 cs).map (· + 1)

mutual

/-- The length of an element, with `room` levels left for it and its containers. -/
def element? : (room : Nat) → Text → Option Nat
  | 0, _ => none
  | room + 1, cs => tags? (container? room) 0 0 cs

def container? : (room : Nat) → Text → Option Nat
  | 0, _ => none
  | room + 1, cs => braces? (element? room) 0 none 0 cs

end

/-- The length of the element that starts here; none if it nests too deep. -/
def length? (cs : Text) : Option Nat := element? (maxDepth + 1) cs

/-! ### Elements at a byte offset -/

def stopAt? (text : Text) (offset : Nat) : Option Nat :=
  if Text.width text ≤ offset then some (Text.width text)
  else match Text.dropBytes? offset text with
    | none => some offset
    | some cs => (length? cs).map fun n => offset + Text.width (cs.take n)

def isTagStartAt (text : Text) (offset : Nat) : Bool :=
  (Text.dropBytes? offset text).any isTagStart

def isTypeParametersAt (text : Text) (offset : Nat) : Bool :=
  (Text.dropBytes? (offset + 1) text).any isTypeParameters

end Desugar.Element
