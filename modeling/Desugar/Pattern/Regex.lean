import Desugar.Text
import Desugar.Unicode.Folding

/-! Regular expressions and whether they match somewhere in a text. They are put
together by `ofSet`, `repeated`, `concat` and `choose`, which keep them in a simple form:
nothing that only matches the empty text is repeated, neighbouring characters are one
literal, and a choice between characters is a set. Matching follows all ways through an
expression at once: from the places where a part may start to the places where it may
end. -/
namespace Desugar

open Unicode

/-! ### Places -/

/-- A place in a text: the character before it, what follows, and how much that is. -/
structure Spot where
  before : Option Char
  rest : Text
  left : Nat

namespace Spot

def next? (set : Ranges) (s : Spot) : Option Spot :=
  match s.rest with
  | [] => none
  | c :: cs => if set.has c then some ⟨some c, cs, s.left - 1⟩ else none

/-- All places from here to the end, `left` being what is left here. -/
def allFrom (before : Option Char) (left : Nat) : Text → List Spot
  | [] => [⟨before, [], 0⟩]
  | c :: cs => ⟨before, c :: cs, left⟩ :: allFrom (some c) (left - 1) cs

/-- Is there a character of a word before the place? -/
def afterWord (s : Spot) : Bool := s.before.any isWord

def beforeWord (s : Spot) : Bool := s.rest.head?.any isWord

/-- The places of both lists, each once. Places stand in the order of the text. -/
def merge : List Spot → List Spot → List Spot
  | [], b => b
  | a, [] => a
  | s :: a, t :: b =>
    if s.left = t.left then s :: merge a b
    else if t.left < s.left then s :: merge a (t :: b)
    else t :: merge (s :: a) b
termination_by a b => a.length + b.length

/-- Where `n` steps of `f` lead. -/
def after (f : List Spot → List Spot) : (n : Nat) → List Spot → List Spot
  | 0, spots => spots
  | n + 1, spots =>
    let next := f spots
    if spots.isEmpty || next.map left == spots.map left then next else after f n next

/-- Where at most `n` steps of `f` lead from `newest`, which were seen last. -/
def within (f : List Spot → List Spot) : (n : Nat) → (seen newest : List Spot) → List Spot
  | 0, seen, _ => seen
  | n + 1, seen, newest =>
    let fresh := (f newest).filter fun s => !seen.any (·.left == s.left)
    if fresh.isEmpty then seen else within f n (merge seen fresh) fresh

end Spot

/-! ### Expressions -/

inductive Assertion where
  | start
  | stop
  | lineStart
  | lineStop
  | wordEdge
  | noWordEdge
  | wordStart
  | wordStop
  /-- No word goes on to here. -/
  | noWordBefore
  | noWordAfter
deriving DecidableEq, Repr

def Assertion.holds : Assertion → Spot → Bool
  | .start, s => s.before.isNone
  | .stop, s => s.rest.isEmpty
  | .lineStart, s => s.before.isNone || s.before == some '\n'
  | .lineStop, s => s.rest.isEmpty || s.rest.head? == some '\n'
  | .wordEdge, s => s.afterWord != s.beforeWord
  | .noWordEdge, s => s.afterWord == s.beforeWord
  | .wordStart, s => !s.afterWord && s.beforeWord
  | .wordStop, s => s.afterWord && !s.beforeWord
  | .noWordBefore, s => !s.afterWord
  | .noWordAfter, s => !s.beforeWord

inductive Regex where
  | empty
  | literal (text : Text)
  | oneOf (characters : Ranges)
  | assert (a : Assertion)
  /-- At least `low` times, and at most `high` times if that is given. -/
  | times (low : Nat) (high : Option Nat) (greedy : Bool) (r : Regex)
  | group (index : Nat) (r : Regex)
  | seq (parts : List Regex)
  | alt (choices : List Regex)

namespace Regex

/-! ### Matching -/

mutual

/-- The places where a match that starts at one of `spots` may end. -/
def ends : Regex → List Spot → List Spot
  | .empty, spots => spots
  | .literal text, spots =>
    text.foldl (fun spots c => spots.filterMap (Spot.next? (Ranges.single c))) spots
  | .oneOf characters, spots => spots.filterMap (Spot.next? characters)
  | .assert a, spots => spots.filter a.holds
  | .times low high _ r, spots =>
    let first := Spot.after (ends r) low spots
    Spot.within (ends r) (high.elim (first.foldl (fun n s => max n s.left) 0 + 1) (· - low)) first first
  | .group _ r, spots => ends r spots
  | .seq parts, spots => endsSeq parts spots
  | .alt choices, spots => endsAlt choices spots

def endsSeq : List Regex → List Spot → List Spot
  | [], spots => spots
  | r :: parts, spots => endsSeq parts (ends r spots)

def endsAlt : List Regex → List Spot → List Spot
  | [], _ => []
  | r :: choices, spots => Spot.merge (ends r spots) (endsAlt choices spots)

end

/-- Is there a match somewhere in the text? -/
def occursIn (r : Regex) (text : Text) : Bool :=
  !(r.ends (Spot.allFrom none text.length text)).isEmpty

/-! ### Lengths -/

/-- What all matches of an expression have in common. -/
structure Shape where
  /-- Bytes of the shortest match; missing when nothing matches. -/
  least : Option Nat
  /-- Bytes of the longest match, if there is one. -/
  most : Option Nat
  /-- Every match starts where the text does. -/
  atStart : Bool
  atStop : Bool

namespace Shape

def nothing : Shape := ⟨some 0, some 0, false, false⟩

def next (a b : Shape) : Shape where
  least := a.least.bind fun m => b.least.map (m + ·)
  most := a.most.bind fun m => b.most.map (m + ·)
  atStart := a.atStart || (a.most == some 0 && b.atStart)
  atStop := b.atStop || (b.most == some 0 && a.atStop)

def or (a b : Shape) : Shape where
  least := a.least.bind fun m => b.least.map (min m)
  most := a.most.bind fun m => b.most.map (max m)
  atStart := a.atStart && b.atStart
  atStop := a.atStop && b.atStop

end Shape

/-- The bytes of a code point. -/
def bytesOf (n : Nat) : Nat := if n < 0x80 then 1 else if n < 0x800 then 2 else if n < 0x10000 then 3 else 4

mutual

def shape : Regex → Shape
  | .empty => .nothing
  | .literal text => ⟨some (Text.width text), some (Text.width text), false, false⟩
  | .oneOf characters =>
    ⟨characters.head?.map fun r => bytesOf r.1, characters.getLast?.map fun r => bytesOf r.2, false, false⟩
  | .assert a => ⟨some 0, some 0, a == .start, a == .stop⟩
  | .times low high _ r =>
    let s := shape r
    ⟨s.least.map (· * low), s.most.bind fun m => high.map (m * ·), s.atStart && 0 < low,
      s.atStop && 0 < low⟩
  | .group _ r => shape r
  | .seq parts => shapeSeq parts
  | .alt choices => shapeAlt choices

def shapeSeq : List Regex → Shape
  | [] => .nothing
  | r :: parts => (shape r).next (shapeSeq parts)

def shapeAlt : List Regex → Shape
  | [] => ⟨none, none, false, false⟩
  | [r] => shape r
  | r :: choices => (shape r).or (shapeAlt choices)

end

/-! ### Construction -/

def ofSet (characters : Ranges) : Regex :=
  match characters with
  | [(first, last)] => if first = last then .literal [Char.ofNat first] else .oneOf characters
  | _ => .oneOf characters

/-- What can only match the empty text is there once or not at all. -/
def repeated (r : Regex) (low : Nat) (high : Option Nat) (greedy : Bool) : Regex :=
  let once := (shape r).most == some 0
  let low := if once then min low 1 else low
  let high := if once then some (high.elim 1 (min · 1)) else high
  if low = 0 && high = some 0 then .empty
  else if low = 1 && high = some 1 then r
  else .times low high greedy r

/-- The parts of a sequence when `r` is put into it. -/
def parts : Regex → List Regex
  | .empty => []
  | .seq parts => parts
  | r => [r]

def joinLiterals : List Regex → List Regex
  | [] => []
  | .literal a :: rest =>
    match joinLiterals rest with
    | .literal b :: rest => .literal (a ++ b) :: rest
    | rest => .literal a :: rest
  | r :: rest => r :: joinLiterals rest

def concat (items : List Regex) : Regex :=
  match joinLiterals (items.flatMap parts) with
  | [] => .empty
  | [r] => r
  | parts => .seq parts

def choices : Regex → List Regex
  | .alt choices => choices
  | r => [r]

/-- The characters of an expression that matches single characters only. -/
def characters? : Regex → Option Ranges
  | .oneOf characters => some characters
  | .literal [c] => some (Ranges.single c)
  | _ => none

/-- A choice without a choice in it. -/
def flatChoice (items : List Regex) : Regex :=
  match items.flatMap choices with
  | [r] => r
  | items =>
    match items.mapM characters? with
    | some sets => ofSet (sets.foldl Ranges.union [])
    | none => .alt items

mutual

def same : Regex → Regex → Bool
  | .empty, .empty => true
  | .literal a, .literal b => a == b
  | .oneOf a, .oneOf b => a == b
  | .assert a, .assert b => a == b
  | .times low high greedy a, .times low' high' greedy' b =>
    low == low' && high == high' && greedy == greedy' && same a b
  | .group i a, .group j b => i == j && same a b
  | .seq as, .seq bs => sameAll as bs
  | .alt as, .alt bs => sameAll as bs
  | _, _ => false

def sameAll : List Regex → List Regex → Bool
  | [], [] => true
  | a :: as, b :: bs => same a b && sameAll as bs
  | _, _ => false

end

/-- How many parts at the start of two sequences are the same. -/
def commonParts : List Regex → List Regex → Nat
  | a :: as, b :: bs => if same a b then commonParts as bs + 1 else 0
  | _, _ => 0

/-- A choice; parts that all choices start with are put in front of it. -/
def choose (items : List Regex) : Regex :=
  match flatChoice items with
  | .alt (.seq first :: others) =>
    let sequences := others.map fun | .seq parts => parts | _ => []
    let common := sequences.foldl (fun n parts => min n (commonParts first parts)) first.length
    if common = 0 then .alt (.seq first :: others)
    else concat (first.take common ++
      [flatChoice ((first :: sequences).map fun parts => concat (parts.drop common))])
  | r => r

end Regex

end Desugar
