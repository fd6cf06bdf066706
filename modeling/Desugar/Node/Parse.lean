import Desugar.Literal
import Desugar.Node
import Desugar.Token.Scan
import Desugar.Warning

/-! Finding the constructs in the tokens of a text. Groups in brackets are followed to
find the constructs inside them; all other tokens are stepped over. A construct that
does not come to its end is given up: its first token is stepped over, the failure is
remembered, and what follows is read anew. Only nesting beyond the limit is a fault.

Every reader takes the tokens that follow and says how many of them it used. -/
namespace Desugar.Node.Parse

/-- The text being read. With `remembers`, an attempt that failed once is not made
again. -/
structure Source where
  file : Text
  text : Text
  remembers : Bool

/-- What is remembered while reading: the offsets of tokens whose construct was given
up, and the warnings so far. -/
structure Notes where
  failed : List Nat
  warnings : List Warning

namespace Notes

def empty : Notes := ⟨[], []⟩

def fail (notes : Notes) (t : Token) : Notes := { notes with failed := t.start :: notes.failed }

def warn (notes : Notes) (cause : Warning.Cause) (t : Token) : Notes :=
  let w : Warning := ⟨cause, t.place⟩
  -- what is read twice is warned about once
  if w ∈ notes.warnings then notes else { notes with warnings := notes.warnings ++ [w] }

end Notes

/-- Constructs found in the first `used` tokens. -/
structure Found where
  nodes : List Node
  used : Nat
  notes : Notes

namespace Found

def nothing (notes : Notes) : Found := ⟨[], 0, notes⟩

def step (notes : Notes) : Found := ⟨[], 1, notes⟩

def succ (f : Found) : Found := { f with used := f.used + 1 }

def prepend (nodes : List Node) (f : Found) : Found := { f with nodes := nodes ++ f.nodes }

end Found

/-- Reads constructs up to a closing token, which is not used. The second argument is
the token before. -/
abbrev Inner :=
  (close : Option Kind) → (last : Option Token) → List Token → Notes → Except Fault Found

def headKind (tokens : List Token) : Kind := (tokens.head?.map Token.kind).getD .eof

/-- Was the attempt that starts at `t` given up before? -/
def Source.knows (source : Source) (notes : Notes) (t : Token) : Bool :=
  source.remembers && notes.failed.contains t.start

def stopAfter (used : Nat) (tokens : List Token) : Nat :=
  match (tokens.take used).getLast? with
  | some t => t.stop
  | none => 0

/-! ### Groups and operands -/

/-- A group after its opening token, and whether its closing token was found. -/
def group (inner : Inner) (bracket : Bracket) (first : Token) (tokens : List Token)
    (notes : Notes) : Except Fault (Found × Bool) :=
  match inner (some (.closing bracket)) (some first) tokens notes with
  | .error fault => .error fault
  | .ok f =>
    if headKind (tokens.drop f.used) = .closing bracket then
      .ok (⟨f.nodes, f.used + 2, f.notes⟩, true)
    else .ok (⟨f.nodes, f.used + 1, f.notes⟩, false)

theorem group_eq_bind (inner : Inner) (bracket : Bracket) (first : Token) (tokens : List Token)
    (notes : Notes) :
    group inner bracket first tokens notes =
      (inner (some (.closing bracket)) (some first) tokens notes >>= fun f =>
        if headKind (tokens.drop f.used) = .closing bracket then
          .ok (⟨f.nodes, f.used + 2, f.notes⟩, true)
        else .ok (⟨f.nodes, f.used + 1, f.notes⟩, false)) := by
  unfold group
  cases inner (some (.closing bracket)) (some first) tokens notes <;> rfl

/-- What may follow an expression and belongs to it: members, calls, indices and
tagged templates. -/
def trailers (inner : Inner) : (skip : Nat) → List Token → Notes → Except Fault Found
  | _, [], notes => .ok (.nothing notes)
  | skip + 1, _ :: ts, notes => (trailers inner skip ts notes).map Found.succ
  | 0, t :: ts, notes =>
    match t.kind with
    | .dot =>
      if (headKind ts).isWord then (trailers inner 1 ts notes).map Found.succ
      else .ok (.nothing notes)
    | .opening .paren => do
      let (f, _) ← group inner .paren t ts notes
      let rest ← trailers inner (f.used - 1) ts f.notes
      pure (rest.succ.prepend f.nodes)
    | .opening .square => do
      let (f, _) ← group inner .square t ts notes
      let rest ← trailers inner (f.used - 1) ts f.notes
      pure (rest.succ.prepend f.nodes)
    | .template => (trailers inner 0 ts notes).map Found.succ
    | _ => .ok (.nothing notes)

def primary (inner : Inner) (t : Token) (ts : List Token) (notes : Notes) : Except Fault Found :=
  match t.kind with
  | .opening .paren => (group inner .paren t ts notes).map Prod.fst
  | .opening .square => (group inner .square t ts notes).map Prod.fst
  | _ => .ok (.step notes)

/-- An expression as far as members, calls and indices go. -/
def operand (inner : Inner) (t : Token) (ts : List Token) (notes : Notes) : Except Fault Found := do
  let first ← primary inner t ts notes
  let rest ← trailers inner (first.used - 1) ts first.notes
  pure (rest.succ.prepend first.nodes)

/-! ### Pipes -/

/-- The number of tokens after the first name of a path that continue it. -/
def pathTail : List Token → Nat
  | t :: u :: ts => if t.kind = .dot && u.kind.isWord then pathTail ts + 2 else 0
  | _ => 0

/-- A stage at the head of the tokens with the number of tokens it takes. -/
def stage (source : Source) (inner : Inner) (tokens : List Token) (notes : Notes) :
    Except Fault (Option (Stage × Nat) × Notes) :=
  match tokens with
  | [] => .ok (none, notes)
  | first :: ts =>
    match first.kind with
    | .ident => do
      let used := pathTail ts + 1
      let pathStop := stopAfter used tokens
      let path ← Text.slice source.text first.start pathStop
      match tokens.drop used with
      | opener :: args =>
        if opener.kind = .opening .paren then
          let f ← inner (some (.closing .paren)) (some opener) args notes
          match args.drop f.used with
          | close :: _ =>
            if close.kind = .closing .paren then
              let inside := Block.cover opener.stop close.start f.nodes
              pure (some (.call ⟨first.start, close.stop⟩ path inside.span inside.nodes,
                used + 1 + f.used + 1), f.notes)
            else pure (none, f.notes)
          | [] => pure (none, f.notes)
        else pure (some (.bare ⟨first.start, pathStop⟩ path, used), notes)
      | [] => pure (some (.bare ⟨first.start, pathStop⟩ path, used), notes)
    | .opening .paren => do
      let (f, closed) ← group inner .paren first ts notes
      if closed then
        let whole := Block.cover first.start (stopAfter f.used tokens) f.nodes
        pure (some (.group whole.span whole.nodes, f.used), f.notes)
      else pure (none, f.notes)
    | _ => .ok (none, notes)

structure Stages where
  stages : List Stage
  used : Nat
  notes : Notes

namespace Stages

def succ (s : Stages) : Stages := { s with used := s.used + 1 }

end Stages

/-- The stages of a chain: as many pipes as have a stage. The first pipe without one
is given up. -/
def chain (source : Source) (inner : Inner) :
    (skip : Nat) → List Token → Notes → Except Fault Stages
  | _, [], notes => .ok ⟨[], 0, notes⟩
  | skip + 1, _ :: ts, notes => (chain source inner skip ts notes).map Stages.succ
  | 0, t :: ts, notes =>
    if t.kind = .pipe && !source.knows notes t then do
      let (read, notes) ← stage source inner ts notes
      match read with
      | some (s, used) =>
        let rest ← chain source inner used ts notes
        pure ⟨s :: rest.stages, rest.used + 1, rest.notes⟩
      | none => pure ⟨[], 0, notes.fail t⟩
    else .ok ⟨[], 0, notes⟩

def expression (source : Source) (inner : Inner) (t : Token) (ts : List Token) (notes : Notes) :
    Except Fault Found := do
  let head ← operand inner t ts notes
  match (t :: ts).drop head.used with
  | [] => pure head
  | next :: rest =>
    if next.kind = .pipe then
      let chained ← chain source inner 0 (next :: rest) head.notes
      match chained.stages.getLast? with
      -- the pipe leads to no stage, and what stands before it is no chain
      | none => pure { head with notes := chained.notes.warn .pipeWithoutStage next }
      | some last =>
        let inside := Block.cover t.start (stopAfter head.used (t :: ts)) head.nodes
        pure ⟨[.pipe ⟨t.start, last.span.stop⟩ inside.span inside.nodes chained.stages],
          head.used + chained.used, chained.notes⟩
    else pure head

/-! ### Declarations -/

/-- Type parameters after their `<`, with `depth` of them open: the token that closes
them and the number of tokens through it. -/
def generics : (depth : Nat) → List Token → Option (Token × Nat)
  | _, [] => none
  | depth, t :: ts =>
    match t.kind with
    | .less => (generics (depth + 1) ts).map fun r => (r.1, r.2 + 1)
    | .greater =>
      if depth ≤ 1 then some (t, 1)
      else (generics (depth - 1) ts).map fun r => (r.1, r.2 + 1)
    | .eof | .opening .brace | .closing .brace | .semicolon => none
    | _ => (generics depth ts).map fun r => (r.1, r.2 + 1)

def head (source : Source) : List Token → Except Fault (Option (Head × Nat))
  | [] => .ok none
  | name :: ts =>
    if name.kind = .ident then
      match ts with
      | less :: rest =>
        if less.kind = .less then
          match generics 1 rest with
          | some (greater, used) => do
            let inside ← Text.slice source.text less.stop greater.start
            pure (some (⟨name.text, some (Text.trim inside)⟩, used + 2))
          | none => .ok none
        else .ok (some (⟨name.text, none⟩, 1))
      | [] => .ok (some (⟨name.text, none⟩, 1))
    else .ok none

def field (source : Source) (start stop : Nat) : Except Fault (List Text) := do
  let piece := Text.trim (← Text.slice source.text start stop)
  pure (if piece.isEmpty then [] else [piece])

/-- The fields of a struct after its opening brace, with its closing brace and the
number of tokens through it. The field at hand began at `start`. -/
def fields (source : Source) : (start depth : Nat) → List Token →
    Except Fault (Option (List Text × Token × Nat))
  | _, _, [] => .ok none
  | start, depth, t :: ts =>
    let more (depth : Nat) := do
      let rest ← fields source start depth ts
      pure (rest.map fun r => (r.1, r.2.1, r.2.2 + 1))
    match t.kind with
    | .eof => .ok none
    | .closing bracket =>
      if bracket = .brace && depth = 0 then do
        let last ← field source start t.start
        pure (some (last, t, 1))
      else more (depth - 1)
    | .semicolon =>
      -- only outside all brackets it ends the field
      if depth = 0 then do
        let first ← field source start t.start
        let rest ← fields source t.stop 0 ts
        pure (rest.map fun r => (first ++ r.1, r.2.1, r.2.2 + 1))
      else more depth
    | .opening _ => more (depth + 1)
    | _ => more depth

def giveUp (t : Token) (notes : Notes) : Found := .step (notes.fail t)

def struct (source : Source) (t : Token) (ts : List Token) (notes : Notes) :
    Except Fault Found := do
  match ← head source ts with
  | none => pure (giveUp t notes)
  | some (name, used) =>
    match ts.drop used with
    | opener :: body =>
      if opener.kind = .opening .brace then
        match ← fields source opener.stop 0 body with
        | none => pure (giveUp t (notes.warn (.openStruct name.name) t))
        | some (found, close, inside) =>
          pure ⟨[.struct ⟨t.start, close.stop⟩ name found], used + inside + 2, notes⟩
      else pure (giveUp t notes)
    | [] => pure (giveUp t notes)

/-- A body in braces at the head of the tokens: its block, its closing brace and the
number of tokens through it. Without a closing brace the cause is a warning about the
construct that starts at `t`. -/
def body (inner : Inner) (t : Token) (cause : Warning.Cause) (tokens : List Token) (notes : Notes) :
    Except Fault (Option (Block × Token × Nat) × Notes) :=
  match tokens with
  | [] => .ok (none, notes)
  | opener :: ts =>
    if opener.kind = .opening .brace then do
      let f ← inner (some (.closing .brace)) (some opener) ts notes
      match ts.drop f.used with
      | close :: _ =>
        if close.kind = .closing .brace then
          pure (some (Block.cover opener.stop close.start f.nodes, close, f.used + 2), f.notes)
        else pure (none, f.notes.warn cause t)
      | [] => pure (none, f.notes.warn cause t)
    else .ok (none, notes)

def trait (source : Source) (inner : Inner) (t : Token) (ts : List Token) (notes : Notes) :
    Except Fault Found := do
  match ← head source ts with
  | none => pure (giveUp t notes)
  | some (name, used) =>
    match ← body inner t (.openTrait name.name) (ts.drop used) notes with
    | (none, notes) => pure (giveUp t notes)
    | (some (inside, close, more), notes) =>
      pure ⟨[.trait ⟨t.start, close.stop⟩ name inside.span inside.nodes], used + more + 1, notes⟩

def impl (source : Source) (inner : Inner) (t : Token) (ts : List Token) (notes : Notes) :
    Except Fault Found := do
  match ← head source ts with
  | none => pure (giveUp t notes)
  | some (name, used) =>
    match ts.drop used with
    | [] => pure (giveUp t notes)
    | word :: rest =>
      if word.kind = .keyword .forWord then
        match ← head source rest with
        | none => pure (giveUp t notes)
        | some (target, targetUsed) =>
          match ← body inner t (.openImpl name.name) (rest.drop targetUsed) notes with
          | (none, notes) => pure (giveUp t notes)
          | (some (inside, close, more), notes) =>
            pure ⟨[.impl ⟨t.start, close.stop⟩ name target inside.span inside.nodes],
              used + targetUsed + more + 2, notes⟩
      else if word.kind = .opening .brace then
        pure (giveUp t (notes.warn (.implWithoutFor name.name) t))
      else pure (giveUp t notes)

/-! ### Sequences -/

/-- What starts at the token `t`; `last` is the token before it. -/
def item (source : Source) (inner : Inner) (last : Option Token) (t : Token) (ts : List Token)
    (notes : Notes) : Except Fault Found :=
  match t.kind with
  | .keyword .structWord =>
    if source.knows notes t then .ok (.step notes) else struct source t ts notes
  | .keyword .traitWord =>
    if source.knows notes t then .ok (.step notes) else trait source inner t ts notes
  | .keyword .implWord =>
    if source.knows notes t then .ok (.step notes) else impl source inner t ts notes
  | .keyword .letWord =>
    -- after a dot the word names a member
    if last.any (·.kind = .dot) then .ok (.step notes) else .ok ⟨[.binding t.span], 1, notes⟩
  | .opening .brace => (group inner .brace t ts notes).map Prod.fst
  | .ident | .number | .string | .template | .regex | .markup | .opening .paren
  | .opening .square => expression source inner t ts notes
  | _ => .ok (.step notes)

/-- Items in a row, up to the token `close` or the end. -/
def items (source : Source) (inner : Inner) (close : Option Kind) :
    (last : Option Token) → (skip : Nat) → List Token → Notes → Except Fault Found
  | _, _, [], notes => .ok (.nothing notes)
  | _, skip + 1, t :: ts, notes =>
    (items source inner close (some t) skip ts notes).map Found.succ
  | last, 0, t :: ts, notes =>
    if t.kind = .eof || some t.kind = close then .ok (.nothing notes)
    else do
      let first ← item source inner last t ts notes
      let rest ← items source inner close (some t) (first.used - 1) ts first.notes
      pure (rest.succ.prepend first.nodes)

def tooDeep (source : Source) (tokens : List Token) : Fault :=
  let p := (tokens.head?.map Token.place).getD .origin
  .tooDeep ⟨source.file, p.line, p.column⟩ Literal.maxDepth

/-- A sequence of items, with `room` levels left for it and the groups inside it. -/
def sequence (source : Source) : (room : Nat) → Inner
  | 0 => fun _ _ tokens _ => .error (tooDeep source tokens)
  | room + 1 => fun close last tokens notes =>
    items source (sequence source room) close last 0 tokens notes

end Parse

/-- The constructs of a text that was cut into tokens, and the warnings about those
that were begun but not recognised. -/
def parseTokens (source : Parse.Source) (scan : Token.Scan) : Except Fault (Block × List Warning) :=
  match scan.tooDeep with
  | some p => .error (.tooDeep ⟨source.file, p.line, p.column⟩ Literal.maxDepth)
  | none => do
    let found ← Parse.sequence source Literal.maxDepth none none scan.tokens .empty
    pure (Block.cover 0 (Text.width source.text) found.nodes, found.notes.warnings)

def parse (file text : Text) (markup : Bool) : Except Fault (Block × List Warning) :=
  parseTokens ⟨file, text, true⟩ (Token.scan markup text)

end Desugar.Node
