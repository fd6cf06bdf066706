import Desugar.Text

/-! Writing JSON. Texts of values are put together to texts of lists and objects, in
one line or indented by two blanks for each level. -/
namespace Desugar.Json

def hexDigit (n : Nat) : Char := "0123456789abcdef".toList.getD n '0'

/-- A character inside a quoted text. -/
def escape (c : Char) : Text :=
  if c = '"' then ['\\', '"']
  else if c = '\\' then ['\\', '\\']
  else if c = '\x08' then ['\\', 'b']
  else if c = '\x0c' then ['\\', 'f']
  else if c = '\n' then ['\\', 'n']
  else if c = '\r' then ['\\', 'r']
  else if c = '\t' then ['\\', 't']
  else if c.toNat < 0x20 then
    ['\\', 'u', '0', '0', hexDigit (c.toNat / 16), hexDigit (c.toNat % 16)]
  else [c]

def quote (text : Text) : Text := '"' :: text.flatMap escape ++ ['"']

/-! ### In one line -/

def list (items : List Text) : Text := '[' :: [','].intercalate items ++ [']']

def object (fields : List (Text × Text)) : Text :=
  '{' :: [','].intercalate (fields.map fun f => quote f.1 ++ ':' :: f.2) ++ ['}']

/-! ### Indented -/

def lineEnd (level : Nat) : Text := '\n' :: List.replicate (2 * level) ' '

/-- Items on lines of their own, for a list or object at `level`. -/
def lines (level : Nat) (items : List Text) : Text :=
  lineEnd (level + 1) ++ (',' :: lineEnd (level + 1)).intercalate items ++ lineEnd level

def prettyList (level : Nat) (items : List Text) : Text :=
  if items.isEmpty then ['[', ']'] else '[' :: lines level items ++ [']']

def prettyObject (level : Nat) (fields : List (Text × Text)) : Text :=
  if fields.isEmpty then ['{', '}']
  else '{' :: lines level (fields.map fun f => quote f.1 ++ ':' :: ' ' :: f.2) ++ ['}']

end Desugar.Json
