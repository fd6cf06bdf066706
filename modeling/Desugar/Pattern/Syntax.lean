import Desugar.Pattern.Automaton

/-! The written form of regular expressions. It is read in one pass over its
characters with a stack of open groups; parts of several characters are read ahead and
then passed over. There is no look-around and no reference to groups. Expressions that
nest too deep, or that are too large as automata, are refused.

Left out, and refused where they are written, are the classes of characters by a property
(`\p` and `\P`), the flags `x` (blanks and comments in an expression) and `R` (lines that end
in a carriage return), and the clearing of the flag `u` (matching bytes). -/
namespace Desugar.Regex

open Unicode

/-- How deep expressions may nest. Groups, repetitions, bracketed classes, operations
on them, and sequences, choices and unions of several members count. -/
def maxDepth : Nat := 250

/-! ### Escapes -/

inductive Escape where
  | char (c : Char)
  | set (characters : Ranges)
  | assert (a : Assertion)

/-- Characters that stand for themselves after a backslash. -/
def isEscapable (c : Char) : Bool :=
  isAscii c && !isAsciiAlphanumeric c && c != '<' && c != '>'

def hexValue? (c : Char) : Option Nat :=
  if c.isDigit then some (c.toNat - 48)
  else if 'a' ≤ c && c ≤ 'f' then some (c.toNat - 87)
  else if 'A' ≤ c && c ≤ 'F' then some (c.toNat - 55)
  else none

/-- The character with the hexadecimal code `digits`. -/
def hexChar? (digits : Text) : Option Char := do
  let values ← digits.mapM hexValue?
  let n := values.foldl (fun n d => 16 * n + d) 0
  if !digits.isEmpty && n.isValidChar then some (Char.ofNat n) else none

/-- A character by its code, after the letter that introduces it: `width` digits, or
any number of them in braces. -/
def hexEscape? (width : Nat) : Text → Option (Escape × Nat)
  | '{' :: cs =>
    let digits := cs.takeWhile (· != '}')
    if (cs.drop digits.length).isEmpty then none
    else (hexChar? digits).map fun c => (.char c, digits.length + 2)
  | cs =>
    if (cs.take width).length = width then (hexChar? (cs.take width)).map fun c => (.char c, width)
    else none

/-- A word's edge, after its letter: a kind of edge may follow in braces. What starts
with anything else than a letter or a minus sign is no kind. -/
def wordEdge? : Text → Option (Assertion × Nat)
  | '{' :: c :: cs =>
    let isKind (c : Char) : Bool := c.isAlpha || c == '-'
    if !isKind c then some (.wordEdge, 0)
    else
      let kind := (c :: cs).takeWhile isKind
      if ((c :: cs).drop kind.length).head? != some '}' then none
      else
        let named := [("start".toList, Assertion.wordStart), ("end".toList, .wordStop),
          ("start-half".toList, .noWordBefore), ("end-half".toList, .noWordAfter)]
        (named.lookup kind).map fun a => (a, kind.length + 2)
  | ['{'] => none
  | _ => some (.wordEdge, 0)

/-- What stands after a backslash, and how many characters it takes. -/
def escape? : Text → Option (Escape × Nat)
  | [] => none
  | c :: cs =>
    let more (width : Nat) := (hexEscape? width cs).map fun r => (r.1, r.2 + 1)
    match c with
    | 'd' => some (.set decimals, 1)
    | 'D' => some (.set decimals.complement, 1)
    | 's' => some (.set blanks, 1)
    | 'S' => some (.set blanks.complement, 1)
    | 'w' => some (.set wordCharacters, 1)
    | 'W' => some (.set wordCharacters.complement, 1)
    | 'b' => (wordEdge? cs).map fun r => (.assert r.1, r.2 + 1)
    | 'B' => some (.assert .noWordEdge, 1)
    | '<' => some (.assert .wordStart, 1)
    | '>' => some (.assert .wordStop, 1)
    | 'A' => some (.assert .start, 1)
    | 'z' => some (.assert .stop, 1)
    | 'n' => some (.char '\n', 1)
    | 't' => some (.char '\t', 1)
    | 'r' => some (.char '\r', 1)
    | 'f' => some (.char '\x0c', 1)
    | 'v' => some (.char '\x0b', 1)
    | 'a' => some (.char '\x07', 1)
    | 'x' => more 2
    | 'u' => more 4
    | 'U' => more 8
    | c => if isEscapable c then some (.char c, 1) else none

/-! ### Flags -/

structure Flags where
  ignoreCase : Bool
  multiLine : Bool
  dotAll : Bool
  /-- Repetitions are lazy where they are greedy otherwise. -/
  lazy : Bool

namespace Flags

def plain : Flags := ⟨false, false, false, false⟩

/-- Sets the flags written by `letters`, or clears those after a minus sign. -/
def setLetters? : (on : Bool) → Flags → Text → Option Flags
  | _, flags, [] => some flags
  | on, flags, c :: cs =>
    match c with
    | '-' => if on && !cs.isEmpty then setLetters? false flags cs else none
    | 'i' => setLetters? on { flags with ignoreCase := on } cs
    | 'm' => setLetters? on { flags with multiLine := on } cs
    | 's' => setLetters? on { flags with dotAll := on } cs
    | 'U' => setLetters? on { flags with lazy := on } cs
    | 'u' => if on then setLetters? on flags cs else none
    | _ => none

/-- Flags as they are written, each at most once. -/
def set? (flags : Flags) (letters : Text) : Option Flags :=
  if letters.eraseDups.length = letters.length then flags.setLetters? true letters else none

/-- A set of characters under the flags. -/
def set (flags : Flags) (characters : Ranges) : Ranges :=
  if flags.ignoreCase then characters.anyCase else characters

end Flags

/-! ### Classes in brackets -/

/-- Operations between the members of a class; all bind alike, from the left. -/
inductive ClassOp where
  | intersection
  | difference
  | symmetricDifference

/-- A set of characters and how deep its written form nests. -/
structure ClassSet where
  characters : Ranges
  depth : Nat

def ClassOp.apply (op : ClassOp) (flags : Flags) (a b : ClassSet) : ClassSet :=
  let a' := flags.set a.characters
  let b' := flags.set b.characters
  let characters := match op with
    | .intersection => a'.intersection b'
    | .difference => a'.difference b'
    | .symmetricDifference => a'.symmetricDifference b'
  ⟨characters, max a.depth b.depth + 1⟩

def classOp? : Text → Option ClassOp
  | '&' :: '&' :: _ => some .intersection
  | '-' :: '-' :: _ => some .difference
  | '~' :: '~' :: _ => some .symmetricDifference
  | _ => none

/-- A class that is open: whether it is a complement, what stands before an operation,
and the members since then. -/
structure OpenClass where
  negated : Bool
  left : Option (ClassSet × ClassOp)
  count : Nat
  held : ClassSet

namespace OpenClass

def start (negated : Bool) : OpenClass := ⟨negated, none, 0, ⟨[], 0⟩⟩

def add (o : OpenClass) (member : ClassSet) : OpenClass :=
  { o with
    count := o.count + 1
    held := ⟨o.held.characters.union member.characters, max o.held.depth member.depth⟩ }

/-- The class so far. -/
def value (flags : Flags) (o : OpenClass) : ClassSet :=
  let right := if 1 < o.count then { o.held with depth := o.held.depth + 1 } else o.held
  match o.left with
  | some (left, op) => op.apply flags left right
  | none => right

def operate (flags : Flags) (o : OpenClass) (op : ClassOp) : OpenClass :=
  { start o.negated with left := some (o.value flags, op) }

def close (flags : Flags) (o : OpenClass) : ClassSet :=
  let value := o.value flags
  let characters := flags.set value.characters
  ⟨if o.negated then characters.complement else characters, value.depth + 1⟩

end OpenClass

/-- One member of a class, and how many characters it takes. -/
def member? : Text → Option (Escape × Nat)
  | [] => none
  | '\\' :: cs => (escape? cs).map fun r => (r.1, r.2 + 1)
  | c :: _ => some (.char c, 1)

/-- A member or a range of members, and how many characters it takes. -/
def memberRange? (cs : Text) : Option (Ranges × Nat) := do
  let (first, used) ← member? cs
  let rest := cs.drop used
  if rest.head? == some '-' && (rest.drop 1).head? != some ']' && (rest.drop 1).head? != some '-' then
    let (last, more) ← member? (rest.drop 1)
    match first, last with
    | .char a, .char b =>
      if a.toNat ≤ b.toNat then some ([(a.toNat, b.toNat)], used + 1 + more) else none
    | _, _ => none
  else
    match first with
    | .char c => some (Ranges.single c, used)
    | .set characters => some (characters, used)
    | .assert _ => none

/-- Sets of ASCII characters that go by a name. -/
def namedSets : List (Text × Ranges) :=
  [("alnum".toList, [(48, 57), (65, 90), (97, 122)]), ("alpha".toList, [(65, 90), (97, 122)]),
   ("ascii".toList, [(0, 127)]), ("blank".toList, [(9, 9), (32, 32)]),
   ("cntrl".toList, [(0, 31), (127, 127)]), ("digit".toList, [(48, 57)]),
   ("graph".toList, [(33, 126)]), ("lower".toList, [(97, 122)]), ("print".toList, [(32, 126)]),
   ("punct".toList, [(33, 47), (58, 64), (91, 96), (123, 126)]), ("space".toList, [(9, 13), (32, 32)]),
   ("upper".toList, [(65, 90)]), ("word".toList, [(48, 57), (65, 90), (95, 95), (97, 122)]),
   ("xdigit".toList, [(48, 57), (65, 70), (97, 102)])]

/-- A named set after an opening bracket, and the characters through its closing one. -/
def namedSet? : Text → Option (Ranges × Nat)
  | ':' :: cs =>
    let caret := if cs.head? == some '^' then 1 else 0
    let name := (cs.drop caret).takeWhile (· != ':')
    let used := caret + name.length
    if (cs.drop used).take 2 == [':', ']'] then
      (namedSets.lookup name).map fun set =>
        (if caret = 1 then Ranges.complement set else set, used + 3)
    else none
  | _ => none

/-- The start of a class after its bracket: a caret, then minus signs, and a closing
bracket that stands first, are taken as they are. -/
def openClass (cs : Text) : OpenClass × Nat :=
  let caret := if cs.head? == some '^' then 1 else 0
  let opened := OpenClass.start (caret = 1)
  let dashes := ((cs.drop caret).takeWhile (· == '-')).length
  let plain (c : Char) : ClassSet := ⟨Ranges.single c, 0⟩
  if dashes = 0 && (cs.drop caret).head? == some ']' then (opened.add (plain ']'), caret + 1)
  else ((List.replicate dashes (plain '-')).foldl OpenClass.add opened, caret + dashes)

/-- A class after its opening bracket, with the classes open around it, and the number
of characters through its closing bracket. -/
def class? (flags : Flags) :
    (skip : Nat) → OpenClass → List OpenClass → (used : Nat) → Text → Option (ClassSet × Nat)
  | _, _, _, _, [] => none
  | skip + 1, inner, outer, used, _ :: cs => class? flags skip inner outer (used + 1) cs
  | 0, inner, outer, used, c :: cs =>
    if c == ']' then
      match outer with
      | [] => some (inner.close flags, used + 1)
      | o :: os => class? flags 0 (o.add (inner.close flags)) os (used + 1) cs
    else if c == '[' then
      match namedSet? cs with
      | some (set, more) => class? flags more (inner.add ⟨set, 0⟩) outer (used + 1) cs
      | none =>
        let (opened, more) := openClass cs
        class? flags more opened (inner :: outer) (used + 1) cs
    else
      match classOp? (c :: cs) with
      | some op => class? flags 1 (inner.operate flags op) outer (used + 1) cs
      | none =>
        match memberRange? (c :: cs) with
        | some (set, more) => class? flags (more - 1) (inner.add ⟨set, 0⟩) outer (used + 1) cs
        | none => none

/-! ### Repetition and groups -/

/-- A number of 32 bits, which blanks may surround, and what follows it. -/
def count? (cs : Text) : Option Nat × Text :=
  let cs := cs.dropWhile isBlank
  let digits := cs.takeWhile Char.isDigit
  let n := digits.foldl (fun n c => 10 * n + (c.toNat - 48)) 0
  (if digits.isEmpty || 0x100000000 ≤ n then none else some n,
    (cs.drop digits.length).dropWhile isBlank)

/-- The bounds of a repetition after its opening brace, and what follows its closing
brace. -/
def bounds? (cs : Text) : Option (Nat × Option Nat × Text) :=
  match count? cs with
  | (some low, '}' :: rest) => some (low, some low, rest)
  | (some low, ',' :: '}' :: rest) => some (low, none, rest)
  | (some low, ',' :: rest) =>
    match count? rest with
    | (some high, '}' :: rest) => if low ≤ high then some (low, some high, rest) else none
    | _ => none
  | _ => none

/-- What an opening parenthesis starts. -/
inductive Opening where
  | capture (name : Option Text)
  | group (flags : Flags)
  | flags (flags : Flags)

def isNameHead (c : Char) : Bool := isAlphabetic c || c == '_'

def isNameTail (c : Char) : Bool :=
  isAlphanumeric c || c == '_' || c == '.' || c == '[' || c == ']'

/-- A group's name up to the `>` that ends it. -/
def groupName? (cs : Text) : Option (Text × Nat) :=
  let name := cs.takeWhile (· != '>')
  if (cs.drop name.length).isEmpty then none
  else if name.head?.any isNameHead && name.all isNameTail then some (name, name.length + 1)
  else none

/-- What stands after an opening parenthesis before the group itself, and how many
characters it takes. -/
def opening? (flags : Flags) : Text → Option (Opening × Nat)
  | '?' :: 'P' :: '<' :: cs => (groupName? cs).map fun r => (.capture (some r.1), r.2 + 3)
  | '?' :: '<' :: cs => (groupName? cs).map fun r => (.capture (some r.1), r.2 + 2)
  | '?' :: cs =>
    let letters := cs.takeWhile fun c => c != ':' && c != ')'
    match cs.drop letters.length with
    | ':' :: _ => (flags.set? letters).map fun f => (.group f, letters.length + 2)
    | ')' :: _ =>
      if letters.isEmpty then none
      else (flags.set? letters).map fun f => (.flags f, letters.length + 2)
    | _ => none
  | _ => some (.capture none, 0)

/-! ### Expressions -/

/-- A part of an expression and how deep its written form nests. -/
structure Part where
  regex : Regex
  depth : Nat
  /-- Flags are parts too, but cannot be repeated. -/
  isFlags : Bool

/-- An expression in the making: the number of its capturing group, if it is one,
alternatives read so far, and the parts of the current one. Both lists have the last one
first. -/
structure Level where
  flags : Flags
  index : Option Nat
  alternatives : List Part
  parts : List Part

namespace Level

def start (flags : Flags) (index : Option Nat) : Level := ⟨flags, index, [], []⟩

/-- Adds a part unless it nests too deep. -/
def push? (l : Level) (r : Regex) (depth : Nat) : Option Level :=
  if maxDepth < depth then none else some { l with parts := ⟨r, depth, false⟩ :: l.parts }

def setFlags (l : Level) (flags : Flags) : Level :=
  { l with flags := flags, parts := ⟨.empty, 0, true⟩ :: l.parts }

def deepest (parts : List Part) : Nat := parts.foldl (fun n part => max n part.depth) 0

/-- The current alternative. -/
def current (l : Level) : Part :=
  match l.parts with
  | [] => ⟨.empty, 0, false⟩
  | [part] => part
  | parts => ⟨concat (parts.reverse.map Part.regex), deepest parts + 1, false⟩

def split (l : Level) : Level := { l with alternatives := l.current :: l.alternatives, parts := [] }

def close (l : Level) : Part :=
  match l.alternatives with
  | [] => l.current
  | alternatives =>
    let parts := l.current :: alternatives
    ⟨choose (parts.reverse.map Part.regex), deepest parts + 1, false⟩

/-- The whole level as a part of the one around it. -/
def group (l : Level) : Regex :=
  match l.index with
  | some i => .group i l.close.regex
  | none => l.close.regex

/-- Repeats the last part. -/
def repeat? (l : Level) (low : Nat) (high : Option Nat) (greedy : Bool) : Option Level :=
  match l.parts with
  | [] => none
  | part :: parts =>
    if part.isFlags then none
    else { l with parts := parts }.push? (part.regex.repeated low high (greedy != l.flags.lazy))
      (part.depth + 1)

end Level

/-- What has been read: the level that is being read, those open around it, and how many
capturing groups there are so far, with the names of those that have one. -/
structure Reading where
  inner : Level
  outer : List Level
  captures : Nat
  names : List Text

namespace Reading

def push? (s : Reading) (r : Regex) (depth : Nat) : Option Reading :=
  (s.inner.push? r depth).map fun inner => { s with inner }

def pushSet? (s : Reading) (characters : Ranges) : Option Reading :=
  s.push? (.ofSet characters) 0

def open? (s : Reading) : Opening → Option Reading
  | .capture name =>
    if name.any s.names.contains then none
    else some
      { inner := .start s.inner.flags (some (s.captures + 1)), outer := s.inner :: s.outer,
        captures := s.captures + 1, names := name.toList ++ s.names }
  | .group flags => some { s with inner := .start flags none, outer := s.inner :: s.outer }
  | .flags flags => some { s with inner := s.inner.setFlags flags }

def close? (s : Reading) : Option Reading :=
  match s.outer with
  | [] => none
  | o :: outer =>
    (o.push? s.inner.group (s.inner.close.depth + 1)).map fun inner => { s with inner, outer }

/-- A repetition; a question mark after it makes it lazy. The number of characters that
it takes includes the mark. -/
def repeat? (s : Reading) (low : Nat) (high : Option Nat) (rest : Text) : Option (Reading × Nat) :=
  let mark := if rest.head? == some '?' then 1 else 0
  (s.inner.repeat? low high (mark = 0)).map fun inner => ({ s with inner }, mark)

/-- What the character `c` starts, and how many characters after it go with it. -/
def step? (s : Reading) (c : Char) (cs : Text) : Option (Reading × Nat) :=
  let flags := s.inner.flags
  let single (s : Option Reading) : Option (Reading × Nat) := s.map fun s => (s, 0)
  match c with
  | '(' => do
    let (opening, used) ← opening? flags cs
    (s.open? opening).map fun s => (s, used)
  | ')' => single s.close?
  | '|' => some ({ s with inner := s.inner.split }, 0)
  | '*' => s.repeat? 0 none cs
  | '+' => s.repeat? 1 none cs
  | '?' => s.repeat? 0 (some 1) cs
  | '{' => do
    let (low, high, rest) ← bounds? cs
    (s.repeat? low high rest).map fun r => (r.1, cs.length - rest.length + r.2)
  | '[' => do
    let (opened, skip) := openClass cs
    let (set, used) ← class? flags skip opened [] 0 cs
    (s.push? (.ofSet set.characters) set.depth).map fun s => (s, used)
  | '\\' => do
    let (escape, used) ← escape? cs
    let s ← match escape with
      | .char d => s.pushSet? (flags.set (Ranges.single d))
      | .set characters => s.pushSet? characters
      | .assert a => s.push? (.assert a) 0
    some (s, used)
  | '.' => single (s.pushSet? (if flags.dotAll then [(0, 0x10FFFF)] else [(0, 9), (11, 0x10FFFF)]))
  | '^' => single (s.push? (.assert (if flags.multiLine then .lineStart else .start)) 0)
  | '$' => single (s.push? (.assert (if flags.multiLine then .lineStop else .stop)) 0)
  | c => single (s.pushSet? (flags.set (Ranges.single c)))

end Reading

/-- Reads an expression, after passing over `skip` characters. -/
def read? : (skip : Nat) → Reading → Text → Option Part
  | _, s, [] => if s.outer.isEmpty then some s.inner.close else none
  | skip + 1, s, _ :: cs => read? skip s cs
  | 0, s, c :: cs =>
    match s.step? c cs with
    | some (s, used) => read? used s cs
    | none => none

/-- The expression written as `text`. -/
def ofText? (text : Text) : Option Regex := do
  let part ← read? 0 ⟨.start .plain none, [], 0, []⟩ text
  if part.depth ≤ maxDepth && Automaton.fits part.regex then some part.regex else none

end Desugar.Regex
