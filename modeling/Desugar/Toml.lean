import Desugar.Value

/-! Reading configuration files in TOML: comments, keys, tables, and values that are
booleans, integers, strings in one line, arrays and inline tables. A key or table that
is given twice makes the file invalid. -/
namespace Desugar.Toml

/-- Values nest less deep than this, and keys have fewer parts. -/
def nestingLimit : Nat := 80

/-! ### Characters and strings -/

def skipBlanks (cs : Text) : Text := cs.dropWhile fun c => c == ' ' || c == '\t'

/-- Control characters other than the tab are allowed nowhere. -/
def isPrintable (c : Char) : Bool := c == '\t' || (0x20 ≤ c.toNat && c.toNat != 0x7f)

/-- What follows a line end. -/
def lineEnd? : Text → Option Text
  | '\n' :: cs => some cs
  | '\r' :: '\n' :: cs => some cs
  | _ => none

/-- What follows a comment, if there is one; the line end does not belong to it. -/
def comment? (cs : Text) : Option Text :=
  match cs with
  | '#' :: rest =>
    let after := rest.dropWhile isPrintable
    if after.isEmpty || (lineEnd? after).isSome then some after else none
  | _ => some cs

def hexValue? (c : Char) : Option Nat :=
  if c.isDigit then some (c.toNat - 48)
  else if 'a' ≤ c && c ≤ 'f' then some (c.toNat - 87)
  else if 'A' ≤ c && c ≤ 'F' then some (c.toNat - 55)
  else none

/-- The character of a hexadecimal code. -/
def hexChar? (digits : Text) : Option Char := do
  let values ← digits.mapM hexValue?
  let n := values.foldl (fun n d => 16 * n + d) 0
  if n.isValidChar then some (Char.ofNat n) else none

/-- A basic string after its quote, and what follows it. -/
def basicString? : Text → Option (Text × Text)
  | [] => none
  | '"' :: cs => some ([], cs)
  | '\\' :: 'u' :: a :: b :: c :: d :: cs => do
    let x ← hexChar? [a, b, c, d]
    (basicString? cs).map fun r => (x :: r.1, r.2)
  | '\\' :: 'U' :: a :: b :: c :: d :: e :: f :: g :: h :: cs => do
    let x ← hexChar? [a, b, c, d, e, f, g, h]
    (basicString? cs).map fun r => (x :: r.1, r.2)
  | '\\' :: c :: cs =>
    let plain := match c with
      | 'b' => some '\x08'
      | 't' => some '\t'
      | 'n' => some '\n'
      | 'f' => some '\x0c'
      | 'r' => some '\r'
      | '"' => some '"'
      | '\\' => some '\\'
      | _ => none
    match plain with
    | some x => (basicString? cs).map fun r => (x :: r.1, r.2)
    | none => none
  | c :: cs => if isPrintable c then (basicString? cs).map fun r => (c :: r.1, r.2) else none

/-- A literal string after its quote, and what follows it. -/
def literalString? : Text → Option (Text × Text)
  | [] => none
  | '\'' :: cs => some ([], cs)
  | c :: cs => if isPrintable c then (literalString? cs).map fun r => (c :: r.1, r.2) else none

/-! ### Keys -/

def isBareKey (c : Char) : Bool := c.isAlpha || c.isDigit || c == '_' || c == '-'

def simpleKey? : Text → Option (Text × Text)
  | '"' :: cs => basicString? cs
  | '\'' :: cs => literalString? cs
  | cs =>
    let key := cs.takeWhile isBareKey
    if key.isEmpty then none else some (key, cs.dropWhile isBareKey)

/-- Keys with dots between them, and what follows them. -/
def keyPath? : (fuel : Nat) → Text → Option (List Text × Text)
  | 0, _ => none
  | fuel + 1, cs => do
    let (key, rest) ← simpleKey? (skipBlanks cs)
    match skipBlanks rest with
    | '.' :: more =>
      let (keys, rest) ← keyPath? fuel more
      some (key :: keys, rest)
    | rest => some ([key], rest)

/-- A key with a limited number of parts, and what follows it. -/
def dottedKey? (cs : Text) : Option (List Text × Text) :=
  (keyPath? (cs.length + 1) cs).filter fun r => r.1.length < nestingLimit

/-! ### Tables -/

/-- How a table came to be: on the way to another one, by a header of its own, or
through dotted keys. -/
inductive Origin where
  | implicit
  | header
  | dotted
deriving DecidableEq, Repr

inductive Item where
  | value (v : Value)
  | table (origin : Origin) (entries : List (Text × Item))

mutual

def Item.toValue : Item → Value
  | .value v => v
  | .table _ entries => .table (Item.toFields entries)

def Item.toFields : List (Text × Item) → List (Text × Value)
  | [] => []
  | (key, item) :: rest => (key, item.toValue) :: Item.toFields rest

end

abbrev Table := List (Text × Item)

namespace Table

def item? (table : Table) (key : Text) : Option Item :=
  (List.find? (fun e => e.1 == key) table).map Prod.snd

def set (table : Table) (key : Text) (item : Item) : Table :=
  if table.any (·.1 == key) then table.map fun e => if e.1 == key then (key, item) else e
  else table ++ [(key, item)]

/-- Defines a key, which may be dotted. Tables with a header of their own cannot be
extended this way. -/
def assign? : List Text → Value → Table → Option Table
  | [], _, _ => none
  | [key], v, table => if (table.item? key).isSome then none else some (table.set key (.value v))
  | key :: keys, v, table =>
    match table.item? key with
    | none => (assign? keys v []).map fun inner => table.set key (.table .dotted inner)
    | some (.table .header _) => none
    | some (.table origin entries) =>
      (assign? keys v entries).map fun inner => table.set key (.table origin inner)
    | some (.value _) => none

/-- Opens the table of a header. -/
def enter? : List Text → Table → Option Table
  | [], _ => none
  | [key], table =>
    match table.item? key with
    | none => some (table.set key (.table .header []))
    | some (.table .implicit entries) => some (table.set key (.table .header entries))
    | some _ => none
  | key :: keys, table =>
    match table.item? key with
    | none => (enter? keys []).map fun inner => table.set key (.table .implicit inner)
    | some (.table origin entries) =>
      (enter? keys entries).map fun inner => table.set key (.table origin inner)
    | some (.value _) => none

/-- Changes the table that the keys of a header lead to. -/
def update? (change : Table → Option Table) : List Text → Table → Option Table
  | [], table => change table
  | key :: keys, table =>
    match table.item? key with
    | some (.table origin entries) =>
      (update? change keys entries).map fun inner => table.set key (.table origin inner)
    | _ => none

end Table

/-! ### Values -/

/-- The digits of a number, single underscores between them left out. -/
def digits? (isDigit : Char → Bool) : Text → Option Text
  | [] => none
  | [c] => if isDigit c then some [c] else none
  | c :: '_' :: cs => if isDigit c then (digits? isDigit cs).map (c :: ·) else none
  | c :: cs => if isDigit c then (digits? isDigit cs).map (c :: ·) else none

def number (base : Nat) (digits : Text) : Nat :=
  digits.foldl (fun n c => base * n + (hexValue? c).getD 0) 0

/-- An integer of 64 bits. -/
def ranged? (n : Int) : Option Value :=
  if -0x8000000000000000 ≤ n && n < 0x8000000000000000 then some (.int n) else none

def unsigned? (digits : Text) : Option Nat := do
  let ds ← digits? Char.isDigit digits
  if ds.length > 1 && ds.head? == some '0' then none else some (number 10 ds)

def integer? (word : Text) : Option Value :=
  let based (base : Nat) (digits : Text) : Option Value := do
    let ds ← digits? (fun c => (hexValue? c).any (· < base)) digits
    ranged? (number base ds)
  match word with
  | '0' :: 'x' :: digits => based 16 digits
  | '0' :: 'o' :: digits => based 8 digits
  | '0' :: 'b' :: digits => based 2 digits
  | '+' :: digits => (unsigned? digits).bind fun n => ranged? n
  | '-' :: digits => (unsigned? digits).bind fun n => ranged? (-n)
  | digits => (unsigned? digits).bind fun n => ranged? n

/-- A word that is a value: a boolean or a number. -/
def word? (word : Text) : Option Value :=
  if word == "true".toList then some (.bool true)
  else if word == "false".toList then some (.bool false)
  else integer? word

def isWordChar (c : Char) : Bool := isBareKey c || c == '+' || c == '.' || c == ':'

/-- What follows blanks, line ends and comments. -/
def skipLines? : (fuel : Nat) → Text → Option Text
  | 0, _ => none
  | fuel + 1, cs => do
    let rest ← comment? (skipBlanks cs)
    match lineEnd? rest with
    | some rest => skipLines? fuel rest
    | none => some rest

mutual

/-- A value, and what follows it. Arrays and inline tables take `room`. -/
def value? : (fuel room : Nat) → Text → Option (Value × Text)
  | 0, _, _ => none
  | fuel + 1, room, cs =>
    match cs, room with
    | '"' :: cs, _ => (basicString? cs).map fun r => (.text r.1, r.2)
    | '\'' :: cs, _ => (literalString? cs).map fun r => (.text r.1, r.2)
    | '[' :: _, 0 | '{' :: _, 0 => none
    | '[' :: cs, room + 1 => (items? fuel room cs).map fun r => (.list r.1, r.2)
    | '{' :: cs, room + 1 =>
      match skipBlanks cs with
      | '}' :: rest => some (.table [], rest)
      | rest => (pairs? fuel room [] rest).map fun r => (.table (Item.toFields r.1), r.2)
    | cs, _ => (word? (cs.takeWhile isWordChar)).map fun v => (v, cs.dropWhile isWordChar)

/-- The rest of an array. A comma may stand after its last item. -/
def items? : (fuel room : Nat) → Text → Option (List Value × Text)
  | 0, _, _ => none
  | fuel + 1, room, cs => do
    match ← skipLines? (cs.length + 1) cs with
    | ']' :: rest => some ([], rest)
    | rest =>
      let (v, rest) ← value? fuel room rest
      match ← skipLines? (rest.length + 1) rest with
      | ',' :: rest => (items? fuel room rest).map fun r => (v :: r.1, r.2)
      | ']' :: rest => some ([v], rest)
      | _ => none

/-- The rest of an inline table, which ends in its line. -/
def pairs? : (fuel room : Nat) → Table → Text → Option (Table × Text)
  | 0, _, _, _ => none
  | fuel + 1, room, table, cs => do
    let (keys, rest) ← dottedKey? cs
    match rest with
    | '=' :: rest =>
      let (v, rest) ← value? fuel room (skipBlanks rest)
      let table ← table.assign? keys v
      match skipBlanks rest with
      | ',' :: rest => pairs? fuel room table rest
      | '}' :: rest => some (table, rest)
      | _ => none
    | _ => none

end

/-! ### Documents -/

/-- What follows the end of a line that may have a comment. -/
def endOfLine? (cs : Text) : Option Text := do
  let rest ← comment? (skipBlanks cs)
  if rest.isEmpty then some [] else lineEnd? rest

/-- Reads lines into the tables so far; keys go to the table of the last header. -/
def lines? : (fuel : Nat) → (header : List Text) → Table → Text → Option Table
  | 0, _, _, _ => none
  | fuel + 1, header, table, cs => do
    let cs ← skipLines? (cs.length + 1) cs
    match cs with
    | [] => some table
    | '[' :: rest =>
      let (keys, rest) ← dottedKey? rest
      match rest with
      | ']' :: rest =>
        let rest ← endOfLine? rest
        lines? fuel keys (← table.enter? keys) rest
      | _ => none
    | cs =>
      let (keys, rest) ← dottedKey? cs
      match rest with
      | '=' :: rest =>
        let (v, rest) ← value? (rest.length + 1) (nestingLimit - 1) (skipBlanks rest)
        let rest ← endOfLine? rest
        lines? fuel header (← table.update? (Table.assign? keys v) header) rest
      | _ => none

/-- The value of a whole file, which may start with a byte order mark. -/
def parse? (text : Text) : Option Value :=
  let text := if text.head? == some '\ufeff' then text.tail else text
  (lines? (text.length + 1) [] [] text).map fun table => .table (Item.toFields table)

/-- Tables and arrays without content stand for nothing. -/
def isNothing : Value → Bool
  | .table fields => fields.isEmpty
  | .list items => items.isEmpty
  | _ => false

end Desugar.Toml
