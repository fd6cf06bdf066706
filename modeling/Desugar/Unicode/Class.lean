import Desugar.Unicode.Alphabetic
import Desugar.Unicode.Decimal
import Desugar.Unicode.Mark
import Desugar.Unicode.Numeric

/-! Character classes. Each test answers ASCII characters by comparison and looks
the others up in the table of their property. -/
namespace Desugar.Unicode

def isAscii (c : Char) : Bool := c.toNat < 128

/-- The property White_Space above ASCII. -/
def blank : Ranges :=
  [(0x85, 0x85), (0xA0, 0xA0), (0x1680, 0x1680), (0x2000, 0x200A), (0x2028, 0x2029),
   (0x202F, 0x202F), (0x205F, 0x205F), (0x3000, 0x3000)]

/-- The property White_Space. -/
def isBlank (c : Char) : Bool :=
  c == ' ' || (9 ≤ c.toNat && c.toNat ≤ 13) || (!isAscii c && blank.has c)

/-- Space, tab, line feed, form feed and carriage return; the vertical tab is not
among them. -/
def isAsciiBlank (c : Char) : Bool :=
  c == ' ' || c == '\t' || c == '\n' || c == '\x0c' || c == '\r'

def isAsciiAlphanumeric (c : Char) : Bool := c.isAlpha || c.isDigit

def isAlphabetic (c : Char) : Bool :=
  if isAscii c then c.isAlpha else alphabetic.has c

def isAlphanumeric (c : Char) : Bool :=
  if isAscii c then isAsciiAlphanumeric c else alphabetic.has c || numeric.has c

/-- Punctuation that connects words, and the two joiners. -/
def connector : Ranges :=
  [(0x200C, 0x200D), (0x203F, 0x2040), (0x2054, 0x2054), (0xFE33, 0xFE34), (0xFE4D, 0xFE4F),
   (0xFF3F, 0xFF3F)]

/-- Characters that words of running text are made of: Alphabetic, marks, decimal
digits, connecting punctuation and the two joiners. -/
def isWord (c : Char) : Bool :=
  if isAscii c then isAsciiAlphanumeric c || c == '_'
  else alphabetic.has c || mark.has c || decimal.has c || connector.has c

/-! ### Whole sets -/

def blanks : Ranges := [(9, 13), (32, 32)] ++ blank

def decimals : Ranges := (48, 57) :: decimal

/-- The characters of `isWord`. -/
def wordCharacters : Ranges :=
  Ranges.union (Ranges.union (Ranges.union [(48, 57), (65, 90), (95, 95), (97, 122)] alphabetic) mark)
    (decimal ++ connector)

end Desugar.Unicode
