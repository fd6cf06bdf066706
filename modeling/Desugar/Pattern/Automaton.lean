import Desugar.Pattern.Bytes
import Desugar.Pattern.Regex
import Std.Data.HashMap

/-! The size of an expression as an automaton on bytes. The automaton is the usual one
with empty moves, and there are two of them: one reads matches forward, the other
backward. Neither is built here; what counts is how much memory it would take, since
expressions whose automata are too large are refused. -/
namespace Desugar.Automaton

open Unicode

/-- States, and bytes that some of them take besides. -/
structure Size where
  states : Nat
  extra : Nat

namespace Size

def none : Size := ⟨0, 0⟩

/-- A state takes 32 bytes. -/
def bytes (s : Size) : Nat := 32 * s.states + s.extra

def plain (s : Size) (n : Nat) : Size := { s with states := s.states + n }

/-- Adds a state with `n` transitions on ranges of bytes. -/
def branching (s : Size) (n : Nat) : Size := ⟨s.states + 1, s.extra + 8 * n⟩

/-- Adds empty moves to states that choose between them. -/
def moves (s : Size) (n : Nat) : Size := { s with extra := s.extra + 4 * n }

end Size

/-- Automata may take ten mebibytes. -/
def limit : Nat := 10 * 0x100000

/-- Does `f` `n` times, but stops when the limit is passed. -/
def grow (f : Size → Size) : (n : Nat) → Size → Size
  | 0, s => s
  | n + 1, s => if limit < s.bytes then s else grow f n (f s)

/-! ### Sets of characters

States with the same transitions are shared as far as they are remembered. What is
remembered has a slot, computed from its content, and goes when something else takes the
slot. -/

/-- Mixes a number into a slot's number. -/
def mix (h : UInt64) (n : Nat) : UInt64 := (h ^^^ n.toUInt64) * 1099511628211

def slot (count : Nat) (content : List Nat) : Nat :=
  (content.foldl mix 14695981039346656037).toNat % count

/-- A transition: a range of bytes and the number of the next state. -/
abbrev Transition := Nat × Nat × Nat

/-- Remembered content with the number of its state, by slot. -/
abbrev Memory := Std.HashMap Nat (List Nat × Nat)

def Memory.find? (memory : Memory) (count : Nat) (content : List Nat) : Option Nat :=
  match memory.get? (slot count content) with
  | some (found, state) => if found == content then some state else none
  | none => none

def Memory.keep (memory : Memory) (count : Nat) (content : List Nat) (state : Nat) : Memory :=
  memory.insert (slot count content) (content, state)

/-- A state in the making: its transitions, and a range of bytes whose next state is
still open. -/
structure Frame where
  done : List Transition
  last : Option (Nat × Nat)

def Frame.close (frame : Frame) (next : Nat) : Frame :=
  match frame.last with
  | some (first, last) => ⟨frame.done ++ [(first, last, next)], none⟩
  | none => frame

structure Building where
  size : Size
  memory : Memory

def Building.state (b : Building) (transitions : List Transition) : Nat × Building :=
  let content := transitions.flatMap fun t => [t.1, t.2.1, t.2.2]
  match b.memory.find? 10000 content with
  | some state => (state, b)
  | none =>
    (b.size.states,
      ⟨b.size.branching transitions.length, b.memory.keep 10000 content b.size.states⟩)

/-- Closes frames from the last to the first; the last leads to `target`. -/
def closeAll (target : Nat) : List Frame → Building → Nat × Building
  | [], b => (target, b)
  | frame :: frames, b =>
    let (next, b) := closeAll target frames b
    b.state (frame.close next).done

/-- Closes the frames behind the one of number `n`, and that one's open range. -/
def closeFrom (target : Nat) : (n : Nat) → List Frame → Building → List Frame × Building
  | _, [], b => ([], b)
  | 0, frame :: frames, b =>
    let (next, b) := closeAll target frames b
    ([frame.close next], b)
  | n + 1, frame :: frames, b =>
    let (frames, b) := closeFrom target n frames b
    (frame :: frames, b)

/-- How many frames have the ranges of a sequence open. -/
def commonRanges : List (Nat × Nat) → List Frame → Nat
  | r :: ranges, frame :: frames => if frame.last == some r then commonRanges ranges frames + 1 else 0
  | _, _ => 0

/-- Opens the ranges of a sequence at the last frame and behind it. -/
def openRanges : List Frame → List (Nat × Nat) → List Frame
  | [], ranges => ranges.map fun r => ⟨[], some r⟩
  | [frame], ranges => { frame with last := ranges.head? } :: ranges.tail.map fun r => ⟨[], some r⟩
  | frame :: frames, ranges => frame :: openRanges frames ranges

/-- Reads sequences in increasing order forward, so that only the last frames change. -/
def forwardSequences (target : Nat) :
    List (List (Nat × Nat)) → List Frame → Building → List Frame × Building
  | [], frames, b => (frames, b)
  | ranges :: rest, frames, b =>
    let common := commonRanges ranges frames
    let (frames, b) := closeFrom target common frames b
    forwardSequences target rest (openRanges frames (ranges.drop common)) b

def forwardSet (characters : Ranges) (s : Size) : Size :=
  let target := s.states
  let (frames, b) :=
    forwardSequences target (characters.flatMap Bytes.sequences) [⟨[], none⟩] ⟨s.plain 1, ∅⟩
  (closeAll target frames b).2.size

/-- The bytes of one sequence, each state leading to the one of the byte before. -/
def backwardSequence : List (Nat × Nat) → (next : Nat) → Building → Building
  | [], _, b => b
  | (first, last) :: ranges, next, b =>
    let content := [next, first, last]
    match b.memory.find? 1000 content with
    | some state => backwardSequence ranges state b
    | none =>
      let state := b.size.states
      backwardSequence ranges state ⟨b.size.plain 1, b.memory.keep 1000 content state⟩

def backwardSet (characters : Ranges) (s : Size) : Size :=
  let sequences := characters.flatMap Bytes.sequences
  let b := sequences.foldl (fun b ranges => backwardSequence ranges (s.states + 1) b) ⟨s.plain 2, ∅⟩
  b.size.moves sequences.length

/-! ### Choices between literals

They share what they start with. A state holds groups of choices: a choice that ends at
the state comes between the choices before and after it, so these do not share. -/

/-- The groups that texts make at a state, the last group first. -/
def groups (texts : List (List Nat)) : List (List (List Nat)) :=
  let reversed := texts.foldl (fun groups text =>
    match groups, text with
    | group :: rest, [] =>
      if groups.all List.isEmpty && !rest.isEmpty then groups else [] :: group :: rest
    | group :: rest, text => (text :: group) :: rest
    | [], text => [[text]]) [[]]
  reversed.map List.reverse

/-- The first bytes of a group, each once, with what follows it in the texts. -/
def branches (group : List (List Nat)) : List (List (List Nat)) :=
  let heads := (group.filterMap List.head?).eraseDups
  heads.map fun byte => (group.filter (·.head? == some byte)).map List.tail

/-- Adds the states for texts of at most `fuel` bytes. Texts that end at once need
none. -/
def literalState : (fuel : Nat) → List (List Nat) → Size → Size
  | 0, _, s => s
  | fuel + 1, texts, s =>
    if texts.all List.isEmpty then s
    else
      let groups := groups texts
      let filled := groups.filter fun group => !group.isEmpty
      let s := filled.foldl (fun s group =>
        let branches := branches group
        let s := branches.foldl (fun s texts => literalState fuel texts s) s
        if branches.length = 1 then s.plain 1 else s.branching branches.length) s
      (s.plain 1).moves (filled.length + groups.length - 1)

def literals (backward : Bool) (texts : List Text) (s : Size) : Size :=
  let bytes := texts.map fun text =>
    let bytes := text.flatMap fun c => Bytes.encode c.toNat
    if backward then bytes.reverse else bytes
  literalState (bytes.foldl (fun n text => max n text.length) 0) bytes (s.plain 1)

/-- The texts of a choice between literals only. -/
def literals? (choices : List Regex) : Option (List Text) :=
  choices.mapM fun | .literal text => some text | _ => none

/-! ### Expressions -/

def set (backward : Bool) (characters : Ranges) (s : Size) : Size :=
  if characters.all (·.2 < 0x80) then (s.plain 1).branching characters.length
  else if backward then backwardSet characters s
  else forwardSet characters s

mutual

def add (backward : Bool) : Regex → Size → Size
  | .empty, s | .assert _, s => s.plain 1
  | .literal text, s => s.plain (Text.width text)
  | .oneOf characters, s => set backward characters s
  | .group _ r, s => if backward then add backward r s else (add backward r (s.plain 1)).plain 1
  | .seq parts, s => addSeq backward parts s
  | .alt choices, s =>
    match literals? choices with
    | some texts => literals backward texts s
    | none => (addAlt backward 0 choices s).moves choices.length
  | .times low high _ r, s =>
    let once := add backward r
    match high with
    | none =>
      if low = 0 then
        if r.shape.least.any (0 < ·) then (once (s.plain 1)).moves 2
        else ((once s).plain 3).moves 4
      else ((grow once low s).plain 1).moves 2
    | some high =>
      if low = 0 && high = 1 then ((once (s.plain 1)).plain 1).moves 2
      else
        let s := if low = 0 then s.plain 1 else grow once low s
        if low = high then s
        else grow (fun s => (once (s.plain 1)).moves 2) (high - low) (s.plain 1)

/-- Parts are added in the order in which they are read. -/
def addSeq (backward : Bool) : List Regex → Size → Size
  | [], s => s
  | r :: parts, s =>
    if backward then add backward r (addSeq backward parts s)
    else addSeq backward parts (add backward r s)

/-- The state that chooses, and the one after the choice, come behind two choices. -/
def addAlt (backward : Bool) : (n : Nat) → List Regex → Size → Size
  | _, [], s => s
  | n, r :: choices, s =>
    let s := add backward r s
    addAlt backward (n + 1) choices (if n = 1 then s.plain 2 else s)

end

/-- The whole automaton. A match may start anywhere unless it has to start at the end
where reading starts; reading forward, it remembers where the match starts and ends. -/
def size (backward : Bool) (r : Regex) : Size :=
  let anchored := if backward then r.shape.atStop else r.shape.atStart
  let s := if anchored then Size.none.plain 1 else ((Size.none.plain 2).branching 1).moves 2
  if backward then (add backward r s).plain 1 else (add backward r (s.plain 1)).plain 2

def fits (r : Regex) : Bool := (size false r).bytes ≤ limit && (size true r).bytes ≤ limit

end Desugar.Automaton
