/-! Sets of code points given by ranges. The operations below keep the ranges of a set
in increasing order and apart from each other. -/
namespace Desugar.Unicode

/-- Both ends of a range belong to it. -/
abbrev Ranges := List (Nat × Nat)

namespace Ranges

def has (ranges : Ranges) (c : Char) : Bool :=
  ranges.any fun r => r.1 ≤ c.toNat && c.toNat ≤ r.2

def single (c : Char) : Ranges := [(c.toNat, c.toNat)]

/-- Adds a range and joins it with those that it meets. -/
def insert (r : Nat × Nat) : Ranges → Ranges
  | [] => [r]
  | s :: set =>
    if r.2 + 1 < s.1 then r :: s :: set
    else if s.2 + 1 < r.1 then s :: insert r set
    else insert (min r.1 s.1, max r.2 s.2) set

def union (a b : Ranges) : Ranges := b.foldl (fun set r => insert r set) a

/-- A range without the surrogates at its ends, which are no characters. -/
def withoutSurrogates (r : Nat × Nat) : Option (Nat × Nat) :=
  let first := if 0xD800 ≤ r.1 && r.1 ≤ 0xDFFF then 0xE000 else r.1
  let last := if 0xD800 ≤ r.2 && r.2 ≤ 0xDFFF then 0xD7FF else r.2
  if first ≤ last then some (first, last) else none

/-- What lies between the ranges of a set, from `first` on. -/
def gapsFrom (first : Nat) : Ranges → Ranges
  | [] => if first ≤ 0x10FFFF then [(first, 0x10FFFF)] else []
  | r :: set => if first < r.1 then (first, r.1 - 1) :: gapsFrom (r.2 + 1) set else gapsFrom (r.2 + 1) set

def complement (a : Ranges) : Ranges := (gapsFrom 0 a).filterMap withoutSurrogates

def intersection (a b : Ranges) : Ranges := complement (union (complement a) (complement b))

def difference (a b : Ranges) : Ranges := intersection a (complement b)

def symmetricDifference (a b : Ranges) : Ranges := difference (union a b) (intersection a b)

end Ranges

end Desugar.Unicode
