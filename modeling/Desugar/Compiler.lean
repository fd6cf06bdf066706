import Desugar.Import
import Desugar.Mapping
import Desugar.Marker
import Desugar.Node.Parse
import Desugar.Options
import Desugar.Output.Emit
import Desugar.Pattern
import Desugar.SourceKind

/-! The compiler: options checked once, then texts compiled one by one. Compiling a
text always gives a result; a fault becomes the only error in it. -/
namespace Desugar

structure Request where
  id : Text
  text : Text
  build : Bool
  ssr : Bool

structure Compilation where
  code : Text
  map : Option Text
  dependencies : List Text
  warnings : List String
  errors : List String
deriving DecidableEq, Repr

namespace Compilation

def failure (message : String) : Compilation := ⟨[], none, [], [], [message]⟩

def isOk (c : Compilation) : Bool := c.errors.isEmpty

end Compilation

/-- What a compilation reports besides its result. -/
inductive Event where
  | compiled (id : Text) (markers : List Marker) (passes : Passes) (build ssr : Bool)
  /-- The start of the generated code. -/
  | output (preview : Text)
  | failed (id : Text) (line : Option Nat) (fault : Fault)

namespace Event

def message : Event → String
  | .compiled _ _ _ _ _ => "compilé"
  | .output _ => "sortie"
  | .failed _ _ _ => "échec de compilation"

end Event

structure Compiler where
  options : Options
  filter : Filter
  passes : Passes

namespace Compiler

def ofOptions (options : Options) : Except Fault Compiler := do
  options.validate
  let filter ← Filter.ofPatterns options.included options.excluded
  let passes ← options.passSet
  pure ⟨options, filter, passes⟩

def accepts (c : Compiler) (id : Text) : Bool := c.filter.accepts id

/-- Is markup read in the file of this name? -/
def readsMarkup (c : Compiler) (id : Text) : Bool :=
  SourceKind.ofId id = .markup && c.options.markupPassthrough

/-- How much of the generated code is reported. -/
def previewLength : Nat := 200

def attempt (c : Compiler) (r : Request) : Except Fault (Compilation × List Event) :=
  let markup := c.readsMarkup r.id
  let markers := Marker.ofText r.text
  -- a text without markers is its own code
  if markers.isEmpty then .ok (⟨r.text, none, Import.ofText markup r.text, [], []⟩, [])
  else do
    let (block, warnings) ← Node.parse r.id r.text markup
    let out ← Output.emit c.passes r.text block
    let map :=
      if c.options.sourceMaps then some (Mapping.render r.id r.text out.code out.anchors) else none
    let events :=
      if c.options.verbose then
        [.compiled r.id markers c.passes r.build r.ssr, .output (out.code.take previewLength)]
      else []
    pure (⟨out.code, map, Import.ofText markup out.code,
      warnings.map fun w => (w.diagnostic r.id).text, []⟩, events)

/-- The result for a text and the events on the way. -/
def compile (c : Compiler) (r : Request) : Compilation × List Event :=
  match c.attempt r with
  | .ok done => done
  | .error fault =>
    let d := Diagnostic.ofFault fault
    (.failure d.text, [.failed r.id (d.location.map Location.line) fault])

def transform (c : Compiler) (r : Request) : Option (Compilation × List Event) :=
  if c.accepts r.id then some (c.compile r) else none

/-- Compiles a single text with options of its own. -/
def compileText (options : Options) (id text : Text) : Compilation × List Event :=
  match ofOptions options with
  | .ok c => c.compile ⟨id, text, false, false⟩
  | .error fault => (.failure fault.message, [])

end Compiler

end Desugar
