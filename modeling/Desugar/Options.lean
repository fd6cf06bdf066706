import Desugar.Pass
import Desugar.Value

/-! Options of the compiler: defaults, reading them from a value, and the layers that
may change them afterwards. -/
namespace Desugar

/-- Language levels, which are passed on to later tools. -/
inductive Target where
  | es5
  | es2015
  | es2020
  | esnext
deriving DecidableEq, Repr

namespace Target

def all : List Target := [.es5, .es2015, .es2020, .esnext]

def name : Target → Text
  | .es5 => "es5".toList
  | .es2015 => "es2015".toList
  | .es2020 => "es2020".toList
  | .esnext => "esnext".toList

def ofName? (name : Text) : Option Target := all.find? (·.name == name)

/-- A target as a user may write it: in any case, with blanks around it, and with
`es6` for `es2015`. -/
def parse (text : Text) : Except Fault Target :=
  let name := Text.lower (Text.trim text)
  if name == "es6".toList then .ok .es2015
  else match ofName? name with
    | some t => .ok t
    | none => .error (.config (.unknownTarget name))

end Target

structure Options where
  included : List Text
  excluded : List Text
  sourceMaps : Bool
  target : Target
  /-- Is markup in `.bsx` files copied? -/
  markupPassthrough : Bool
  markupFactory : Text
  markupFragment : Text
  development : Bool
  verbose : Bool
  /-- Options for later tools. -/
  compilerOptions : List (Text × Value)
  /-- Names of the enabled passes; none means all. -/
  passes : List Text

namespace Options

def default : Options where
  included := ["/\\.bs$/".toList, "/\\.bsx$/".toList]
  excluded := ["/(^|/)node_modules(/|$)/".toList]
  sourceMaps := true
  target := .es2020
  markupPassthrough := true
  markupFactory := "React.createElement".toList
  markupFragment := "React.Fragment".toList
  development := false
  verbose := false
  compilerOptions := []
  passes := []

/-- The fields of options in order. -/
def fieldNames : List Text :=
  ["include".toList, "exclude".toList, "sourceMaps".toList, "target".toList,
   "markupPassthrough".toList, "markupFactory".toList, "markupFragment".toList,
   "development".toList, "verbose".toList, "compilerOptions".toList, "passes".toList]

/-- Options from a value in a format where `isNothing` tells what stands for nothing.
Missing fields keep their default, unknown fields are ignored. -/
def ofValue? (isNothing : Value → Bool) (value : Value) : Option Options := do
  let fields ← value.record? fieldNames
  let d := default
  let included ← Value.given fields ["include".toList] Value.texts? d.included
  let excluded ← Value.given fields ["exclude".toList] Value.texts? d.excluded
  let sourceMaps ← Value.given fields
    ["sourceMaps".toList, "source_maps".toList, "sourcemap".toList] Value.bool? d.sourceMaps
  let target ← Value.given fields ["target".toList]
    (fun v => (v.name? isNothing).bind Target.ofName?) d.target
  let markupPassthrough ← Value.given fields
    ["markupPassthrough".toList, "markup_passthrough".toList, "jsx".toList] Value.bool?
    d.markupPassthrough
  let markupFactory ← Value.given fields
    ["markupFactory".toList, "markup_factory".toList, "jsxFactory".toList] Value.text?
    d.markupFactory
  let markupFragment ← Value.given fields
    ["markupFragment".toList, "markup_fragment".toList, "jsxFragment".toList] Value.text?
    d.markupFragment
  let development ← Value.given fields ["development".toList] Value.bool? d.development
  let verbose ← Value.given fields ["verbose".toList] Value.bool? d.verbose
  let compilerOptions ← Value.given fields
    ["compilerOptions".toList, "compiler_options".toList] Value.fields? d.compilerOptions
  let passes ← Value.given fields ["passes".toList] Value.texts? d.passes
  pure
    { included, excluded, sourceMaps, target, markupPassthrough, markupFactory, markupFragment,
      development, verbose, compilerOptions, passes }

end Options

/-! ### Environment -/

/-- The variables that matter, as far as they are set. -/
structure Environment where
  /-- Development or production; the tool's own variable comes first. -/
  mode : Option Text
  verbose : Option Text
  sourceMaps : Option Text
  target : Option Text

namespace Environment

def ofVariables (get : String → Option Text) : Environment where
  mode := get "BRITESCRIPT_ENV" <|> get "NODE_ENV"
  verbose := get "BRITESCRIPT_VERBOSE"
  sourceMaps := get "BRITESCRIPT_SOURCE_MAPS"
  target := get "BRITESCRIPT_TARGET"

/-- A switch as a user may write it. -/
def switch? (text : Text) : Option Bool :=
  let word := Text.lower (Text.trim text)
  if ["1".toList, "true".toList, "yes".toList, "y".toList, "on".toList].contains word then some true
  else if ["0".toList, "false".toList, "no".toList, "n".toList, "off".toList].contains word then
    some false
  else none

/-- Options changed by the variables; values that cannot be read change nothing. -/
def apply (e : Environment) (o : Options) : Options :=
  { o with
    development := match e.mode with
      | some mode => Text.lower (Text.trim mode) == "development".toList
      | none => o.development
    verbose := (e.verbose.bind switch?).getD o.verbose
    sourceMaps := (e.sourceMaps.bind switch?).getD o.sourceMaps
    target := match e.target.map Target.parse with
      | some (.ok t) => t
      | _ => o.target }

end Environment

/-! ### Overrides -/

/-- Single settings that have the last word. -/
structure Overrides where
  sourceMaps : Option Bool
  target : Option Target
  markupPassthrough : Option Bool
  development : Option Bool
  verbose : Option Bool
  included : Option (List Text)
  excluded : Option (List Text)
  passes : Option (List Text)

namespace Overrides

def apply (w : Overrides) (o : Options) : Options :=
  { o with
    sourceMaps := w.sourceMaps.getD o.sourceMaps
    target := w.target.getD o.target
    markupPassthrough := w.markupPassthrough.getD o.markupPassthrough
    development := w.development.getD o.development
    verbose := w.verbose.getD o.verbose
    included := w.included.getD o.included
    excluded := w.excluded.getD o.excluded
    passes := w.passes.getD o.passes }

end Overrides

/-! ### Validity -/

namespace Options

def passSet (o : Options) : Except Fault Passes := Passes.ofNames o.passes

def validate (o : Options) : Except Fault Unit :=
  if o.included.isEmpty then .error (.config .noInclude)
  else if (Text.trim o.markupFactory).isEmpty || (Text.trim o.markupFragment).isEmpty then
    .error (.config .blankFactory)
  else o.passSet.map fun _ => ()

end Options

end Desugar
