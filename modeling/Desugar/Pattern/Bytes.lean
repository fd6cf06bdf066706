import Desugar.Unicode.Ranges

/-! Ranges of code points as ranges of bytes: a range is cut into pieces whose code
points have encodings of the same length that differ freely, byte by byte, within
bounds. -/
namespace Desugar.Bytes

/-- Cuts a range so that each piece fills whole blocks of `2 ^ k` code points or lies in
one, for each `k` in turn. -/
def blocks : List Nat → Nat → Nat → List (Nat × Nat)
  | [], first, last => [(first, last)]
  | k :: ks, first, last =>
    let size := 2 ^ k
    if first / size = last / size then [(first, last)]
    else
      let start := if first % size = 0 then first else (first / size + 1) * size
      let head := if first % size = 0 then [] else [(first, start - 1)]
      if start / size = last / size then head ++ [(start, last)]
      else
        let stop := if last % size = size - 1 then last else last / size * size - 1
        let tail := if last % size = size - 1 then [] else [(stop + 1, last)]
        head ++ blocks ks start stop ++ tail

def encode (n : Nat) : List Nat :=
  if n < 0x80 then [n]
  else if n < 0x800 then [0xC0 + n / 64, 0x80 + n % 64]
  else if n < 0x10000 then [0xE0 + n / 4096, 0x80 + n / 64 % 64, 0x80 + n % 64]
  else [0xF0 + n / 262144, 0x80 + n / 4096 % 64, 0x80 + n / 64 % 64, 0x80 + n % 64]

/-- Code points with encodings of one length; surrogates have none. -/
def zones : List (Nat × Nat) :=
  [(0, 0x7F), (0x80, 0x7FF), (0x800, 0xD7FF), (0xE000, 0xFFFF), (0x10000, 0x10FFFF)]

/-- The encodings of a range, as sequences of ranges of bytes in increasing order. -/
def sequences (r : Nat × Nat) : List (List (Nat × Nat)) :=
  zones.flatMap fun zone =>
    let first := max r.1 zone.1
    let last := min r.2 zone.2
    if last < first then []
    else if last < 0x80 then [[(first, last)]]
    else (blocks [6, 12, 18] first last).map fun p => (encode p.1).zip (encode p.2)

end Desugar.Bytes
