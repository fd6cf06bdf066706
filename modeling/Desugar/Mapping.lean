import Desugar.Json
import Desugar.Output

/-! Source maps. Each anchor becomes a segment: generated line and column, source line
and column, written relative to the segment before in digits of base 64. Columns count
UTF-16 units. -/
namespace Desugar.Mapping

/-! ### Places -/

/-- Line and column, both from zero, `offset` bytes after a place at `line` and
`column`. The column is zero when the offset is not between two characters. -/
def locateFrom : (line column : Nat) → Text → (offset : Nat) → Nat × Nat
  | line, column, _, 0 => (line, column)
  | line, _, [], _ + 1 => (line, 0)
  | line, column, c :: cs, offset + 1 =>
    if c.utf8Size ≤ offset + 1 then
      if c = '\n' then locateFrom (line + 1) 0 cs (offset + 1 - c.utf8Size)
      else locateFrom line (column + Text.units [c]) cs (offset + 1 - c.utf8Size)
    else (line, 0)

def locate (text : Text) (offset : Nat) : Nat × Nat := locateFrom 0 0 text offset

structure Segment where
  line : Nat
  column : Nat
  sourceLine : Nat
  sourceColumn : Nat
deriving DecidableEq, Repr

/-- Puts an anchor in its place among later anchors ordered by generated offset; of two
with the same offset the new one stays. -/
def place (a : Anchor) : List Anchor → List Anchor
  | [] => [a]
  | b :: bs =>
    if a.generated < b.generated then a :: b :: bs
    else if a.generated = b.generated then a :: bs
    else b :: place a bs

/-- Anchors inside the generated text by increasing offset, the first of each offset. -/
def arrange (size : Nat) (anchors : List Anchor) : List Anchor :=
  (anchors.filter (·.generated < size)).foldr place []

def segment (source generated : Text) (a : Anchor) : Segment :=
  let g := locate generated a.generated
  let o := locate source (min a.source (Text.width source))
  ⟨g.1, g.2, o.1, o.2⟩

/-! ### Digits -/

def alphabet : Text := "ABCDEFGHIJKLMNOPQRSTUVWXYZabcdefghijklmnopqrstuvwxyz0123456789+/".toList

def digit (n : Nat) : Char := alphabet.getD n 'A'

/-- Digits of five bits, the least first; all but the last carry a sixth bit. -/
def digits (n : Nat) : Text :=
  if n < 32 then [digit n] else digit (n % 32 + 32) :: digits (n / 32)
termination_by n

/-- A signed number, its sign in the lowest bit. -/
def number (n : Int) : Text := digits (if n < 0 then 2 * n.natAbs + 1 else 2 * n.natAbs)

/-! ### Segments -/

/-- The segment written last, and whether it is the first of its line still to come. -/
structure Writer where
  last : Segment
  fresh : Bool

/-- Semicolons lead to the line of the segment, a comma separates it from one on the
same line. -/
def encodeFrom (w : Writer) : List Segment → Text
  | [] => []
  | s :: ss =>
    let column := if w.last.line < s.line then 0 else w.last.column
    List.replicate (s.line - w.last.line) ';' ++
      (if w.fresh || w.last.line < s.line then [] else [',']) ++
      number (s.column - column) ++ number 0 ++ number (s.sourceLine - w.last.sourceLine) ++
      number (s.sourceColumn - w.last.sourceColumn) ++ encodeFrom ⟨s, false⟩ ss

def encode (source generated : Text) (anchors : List Anchor) : Text :=
  encodeFrom ⟨⟨0, 0, 0, 0⟩, true⟩
    ((arrange (Text.width generated) anchors).map (segment source generated))

/-- The source map of the file `id` in version 3 of the format. -/
def render (id source generated : Text) (anchors : List Anchor) : Text :=
  Json.object
    [("version".toList, ['3']), ("file".toList, Json.quote id),
     ("sources".toList, Json.list [Json.quote id]),
     ("sourcesContent".toList, Json.list [Json.quote source]),
     ("names".toList, Json.list []),
     ("mappings".toList, Json.quote (encode source generated anchors))]

end Desugar.Mapping
