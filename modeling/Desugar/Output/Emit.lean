import Desugar.Output
import Desugar.Pass

/-! Writing nodes. Nodes whose pass is enabled are written in the target language,
all others are copied from the source. -/
namespace Desugar.Output

/-- The bytes of the source from `start` up to `stop`; an empty span has no anchor. -/
def verbatim (source : Text) (start stop : Nat) : Except Fault Output :=
  if start < stop then do
    let piece ← Text.slice source start stop
    pure (copied start piece)
  else .ok empty

def generics : Option Text → Text
  | some inside => '<' :: inside ++ ['>']
  | none => []

/-- A struct as a type of its fields. -/
def structCode (head : Head) (fields : List Text) : Text :=
  let declared := "type ".toList ++ head.name ++ generics head.generics
  if fields.isEmpty then declared ++ " = \x7b\x7d;".toList
  else
    declared ++ " = \x7b\n".toList ++
      (fields.map fun f => "  ".toList ++ f ++ ";\n".toList).flatten ++ "\x7d;".toList

def traitOpening (head : Head) : Text :=
  "interface ".toList ++ head.name ++ generics head.generics ++ " \x7b".toList

def implOpening (head target : Head) : Text :=
  "class ".toList ++ target.name ++ head.name ++ "Impl".toList ++ generics head.generics ++
    " implements ".toList ++ head.name ++ generics head.generics ++
    " \x7b\n  constructor(private data: ".toList ++ target.name ++ generics target.generics ++
    ") \x7b\x7d".toList

/-- A call of `path` on the value so far and the written arguments. -/
def callCode (path value args : Text) : Text :=
  if (Text.trim args).isEmpty then path ++ '(' :: value ++ [')']
  else path ++ '(' :: value ++ ", ".toList ++ Text.trimStart args ++ [')']

mutual

def emitNode (passes : Passes) (source : Text) : Node → Except Fault Output
  | .other span => verbatim source span.start span.stop
  | .binding span =>
    if passes.enabled .binding then .ok (mark span.start ++ raw "const".toList)
    else verbatim source span.start span.stop
  | .struct span head fields =>
    if passes.enabled .struct then .ok (mark span.start ++ raw (structCode head fields))
    else verbatim source span.start span.stop
  | .trait span head inner body => do
    if passes.enabled .trait then
      let inside ← emitNodes passes source body
      pure (mark span.start ++ raw (traitOpening head) ++ inside ++ raw ['}'])
    else
      let before ← verbatim source span.start inner.start
      let inside ← emitNodes passes source body
      let after ← verbatim source inner.stop span.stop
      pure (before ++ inside ++ after)
  | .impl span head target inner body => do
    if passes.enabled .impl then
      let inside ← emitNodes passes source body
      pure (mark span.start ++ raw (implOpening head target) ++ inside ++ raw ['}'])
    else
      let before ← verbatim source span.start inner.start
      let inside ← emitNodes passes source body
      let after ← verbatim source inner.stop span.stop
      pure (before ++ inside ++ after)
  | .pipe span inner head stages => do
    if passes.enabled .pipe then
      let value ← emitNodes passes source head
      let code ← applyStages passes source (Text.trim value.code) stages
      pure (mark span.start ++ raw code)
    else
      let before ← verbatim source span.start inner.start
      let value ← emitNodes passes source head
      let rest ← copyStages passes source inner.stop span.stop stages
      pure (before ++ value ++ rest)

def emitNodes (passes : Passes) (source : Text) : List Node → Except Fault Output
  | [] => .ok empty
  | n :: ns => do
    let first ← emitNode passes source n
    let rest ← emitNodes passes source ns
    pure (first ++ rest)

/-- Stages as calls, one around the other, on the value so far. -/
def applyStages (passes : Passes) (source : Text) (value : Text) : List Stage → Except Fault Text
  | [] => .ok value
  | .bare _ path :: stages => applyStages passes source (callCode path value []) stages
  | .call _ path _ args :: stages => do
    let written ← emitNodes passes source args
    applyStages passes source (callCode path value written.code) stages
  | .group _ body :: stages => do
    let written ← emitNodes passes source body
    applyStages passes source (callCode written.code value []) stages

/-- Stages copied from `start` on, up to `stop`, their blocks worked on. -/
def copyStages (passes : Passes) (source : Text) (start stop : Nat) :
    List Stage → Except Fault Output
  | [] => verbatim source start stop
  | .bare _ _ :: stages => copyStages passes source start stop stages
  | .call _ _ inner args :: stages => do
    let before ← verbatim source start inner.start
    let inside ← emitNodes passes source args
    let after ← copyStages passes source inner.stop stop stages
    pure (before ++ inside ++ after)
  | .group span body :: stages => do
    let before ← verbatim source start span.start
    let inside ← emitNodes passes source body
    let after ← copyStages passes source span.stop stop stages
    pure (before ++ inside ++ after)

end

def emit (passes : Passes) (source : Text) (block : Block) : Except Fault Output :=
  emitNodes passes source block.nodes

end Desugar.Output
