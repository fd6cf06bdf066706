import Desugar.Position

/-! The constructs of a text. A text is a block: constructs in the order of the text
and copied spans between them. Constructs may hold blocks of their own. -/
namespace Desugar

/-- A declared name with the inside of its type parameters. -/
structure Head where
  name : Text
  generics : Option Text
deriving DecidableEq, Repr

mutual

inductive Node where
  /-- Text without constructs. -/
  | other (span : Span)
  /-- The keyword `let`. -/
  | binding (span : Span)
  | struct (span : Span) (head : Head) (fields : List Text)
  /-- A trait whose body covers the bytes `inner` between its braces. -/
  | trait (span : Span) (head : Head) (inner : Span) (body : List Node)
  /-- The trait `head` implemented for the type `target`. -/
  | impl (span : Span) (head target : Head) (inner : Span) (body : List Node)
  /-- A chain of pipes that starts with the expression at `inner`. -/
  | pipe (span : Span) (inner : Span) (head : List Node) (stages : List Stage)

/-- What stands after a pipe. -/
inductive Stage where
  /-- A path alone. -/
  | bare (span : Span) (path : Text)
  /-- A path with arguments, which cover the bytes `inner` between the parentheses. -/
  | call (span : Span) (path : Text) (inner : Span) (args : List Node)
  /-- An expression in parentheses, which belong to it. -/
  | group (span : Span) (body : List Node)

end

/-- Nodes that cover a span. -/
structure Block where
  span : Span
  nodes : List Node

namespace Stage

def span : Stage → Span
  | .bare span _ | .call span _ _ _ | .group span _ => span

def hole? : Stage → Option Block
  | .bare _ _ => none
  | .call _ _ inner args => some ⟨inner, args⟩
  | .group span body => some ⟨span, body⟩

end Stage

namespace Node

def span : Node → Span
  | .other span | .binding span | .struct span _ _ | .trait span _ _ _ | .impl span _ _ _ _
  | .pipe span _ _ _ => span

/-- The blocks inside a node, which are worked on even where the node itself is
copied. -/
def holes : Node → List Block
  | .other _ | .binding _ | .struct _ _ _ => []
  | .trait _ _ inner body | .impl _ _ _ inner body => [⟨inner, body⟩]
  | .pipe _ inner head stages => ⟨inner, head⟩ :: stages.filterMap Stage.hole?

/-- The span from `start` to `stop` as a node, unless it is empty. -/
def gap (start stop : Nat) : List Node := if start < stop then [.other ⟨start, stop⟩] else []

/-- The given constructs and the spans between them, from `start` to `stop`. -/
def cover (stop : Nat) : (start : Nat) → List Node → List Node
  | start, [] => gap start stop
  | start, n :: ns => gap start n.span.start ++ n :: cover stop n.span.stop ns

end Node

namespace Block

/-- The block of the given constructs from `start` to `stop`. -/
def cover (start stop : Nat) (constructs : List Node) : Block :=
  ⟨⟨start, max stop start⟩, Node.cover stop start constructs⟩

end Block

end Desugar
