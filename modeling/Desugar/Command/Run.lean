import Desugar.Command.Arguments
import Desugar.Compiler
import Desugar.Toml
import Desugar.Tree

/-! Running commands on a tree of files. A run gives what it prints and the tree as it
leaves it, also when it fails on the way. -/
namespace Desugar.Command

/-- Why a run fails. -/
inductive Failure where
  | notFound (path : Text)
  | unnamed (path : Text)
  | reading (path : Text) (fault : FileFault)
  | invalidConfig (path : Text)
  | invalidOptions (fault : Fault)
  | makingDirectory (path : Text) (fault : FileFault)
  | writing (path : Text) (fault : FileFault)
  | failedFiles (count : Nat)
  | failedFile (path : Text) (error : String)
deriving DecidableEq, Repr

namespace Failure

def message : Failure → String
  | .notFound path => s!"introuvable: {String.ofList path}"
  | .unnamed path => s!"chemin sans nom de fichier: {String.ofList path}"
  | .reading path _ => s!"lecture {String.ofList path}"
  | .invalidConfig path => s!"TOML invalide dans {String.ofList path}"
  | .invalidOptions _ => "options invalides"
  | .makingDirectory path _ => s!"création du dossier de {String.ofList path}"
  | .writing path _ => s!"écriture {String.ofList path}"
  | .failedFiles count => s!"{count} fichier(s) en erreur"
  | .failedFile path error => s!"{String.ofList path}: {error}"

end Failure

/-- What a run leaves. -/
structure Outcome where
  stdout : Text
  stderr : Text
  failure : Option Failure
  tree : Tree

namespace Outcome

/-- A run that fails before it prints or writes anything. -/
def fail (tree : Tree) (failure : Failure) : Outcome := ⟨[], [], some failure, tree⟩

/-- A run that prints and leaves the tree alone. -/
def print (tree : Tree) (stdout : Text) (failure : Option Failure) : Outcome :=
  ⟨stdout, [], failure, tree⟩

end Outcome

/-- A line of output from its pieces. -/
def line (pieces : List Text) : Text := pieces.flatten ++ ['\n']

def decimal (n : Nat) : Text := Nat.toDigits 10 n

/-! ### Options -/

/-- The configuration file that is read when it exists. -/
def defaultConfig : Text := "britescript.toml".toList

def readConfig (tree : Tree) (path : Text) : Except Failure Options :=
  match tree.readText path with
  | .error fault => .error (.reading path fault)
  | .ok text =>
    match (Toml.parse? text).bind (Options.ofValue? Toml.isNothing) with
    | some options => .ok options
    | none => .error (.invalidConfig path)

def Globals.overrides (g : Globals) : Overrides :=
  ⟨if g.noSourceMaps then some false else none, g.target, none, none,
    if g.verbose then some true else none, none, none, none⟩

/-- The configuration file, changed by the environment, changed by the flags. -/
def loadOptions (tree : Tree) (environment : Environment) (g : Globals) : Except Failure Options := do
  let base ← match g.config with
    | some path => readConfig tree path
    | none => if tree.isFile defaultConfig then readConfig tree defaultConfig else .ok .default
  pure (g.overrides.apply (environment.apply base))

/-! ### Inputs -/

/-- The source files under a root, which is a file or a directory. -/
def inputsOf (tree : Tree) (root : Text) : Except Failure (List Path.Input) :=
  match tree.lookup root with
  | .error _ => .error (.notFound root)
  | .ok (_, .file _) =>
    match Path.fileName? root with
    | some name => .ok [⟨root, name⟩]
    | none => .error (.unnamed root)
  | .ok (place, .directory) =>
    .ok ((tree.filesBelow place).map fun names =>
      let rel := ['/'].intercalate names
      ⟨Path.join root rel, rel⟩)

def collectInputs (tree : Tree) : List Text → Except Failure (List Path.Input)
  | [] => .ok []
  | root :: roots => do
    let first ← inputsOf tree root
    let rest ← collectInputs tree roots
    pure (first ++ rest)

/-- Reads and compiles a file under its path as it was given. -/
def compileFile (tree : Tree) (c : Compiler) (path : Text) (build : Bool) :
    Except Failure Compilation :=
  match tree.readText path with
  | .error fault => .error (.reading path fault)
  | .ok text => .ok (c.compile ⟨path, text, build, false⟩).1

/-! ### Building -/

/-- How a build went. -/
structure Report where
  written : List Text
  skipped : Nat
  failed : Nat
  warnings : Nat
deriving DecidableEq, Repr

structure Building where
  tree : Tree
  stdout : Text
  report : Report

/-- Writes a file where its directory may have to be made first. -/
def writeFile (tree : Tree) (path text : Text) : Tree × Option Failure :=
  match tree.makeParent path with
  | (tree, some fault) => (tree, some (.makingDirectory path fault))
  | (tree, none) =>
    match tree.writeText path text with
    | .error fault => (tree, some (.writing path fault))
    | .ok tree => (tree, none)

/-- Writes a compiled file and its map; what was written before a failure stays. -/
def writeOutputs (tree : Tree) (output : Text) (result : Compilation) : Tree × Option Failure :=
  match writeFile tree output result.code, result.map with
  | (tree, none), some map => writeFile tree (Path.map output) map
  | written, _ => written

/-- One input of a build. A file that does not compile is counted, not a failure. -/
def buildFile (c : Compiler) (outDir : Option Text) (b : Building) (input : Path.Input) :
    Building × Option Failure :=
  if !c.accepts input.path then
    ({ b with report := { b.report with skipped := b.report.skipped + 1 } }, none)
  else match compileFile b.tree c input.path true with
    | .error failure => (b, some failure)
    | .ok result =>
      let warned := b.stdout ++
        (result.warnings.map fun w => line ["warning: ".toList, w.toList]).flatten
      let report := { b.report with warnings := b.report.warnings + result.warnings.length }
      if !result.isOk then
        let printed := warned ++
          (result.errors.map fun e => line ["error: ".toList, input.path, ": ".toList, e.toList]).flatten
        (⟨b.tree, printed, { report with failed := report.failed + 1 }⟩, none)
      else
        let output := Path.output input outDir
        match writeOutputs b.tree output result with
        | (tree, some failure) => (⟨tree, warned, report⟩, some failure)
        | (tree, none) => (⟨tree, warned, { report with written := report.written ++ [output] }⟩, none)

/-- Inputs one after the other, up to the first failure. -/
def buildFiles (c : Compiler) (outDir : Option Text) :
    Building → List Path.Input → Building × Option Failure
  | b, [] => (b, none)
  | b, input :: inputs =>
    match buildFile c outDir b input with
    | (b, none) => buildFiles c outDir b inputs
    | (b, some failure) => (b, some failure)

def buildRoots (tree : Tree) (c : Compiler) (roots : List Text) (outDir : Option Text) :
    Building × Option Failure :=
  let start : Building := ⟨tree, [], ⟨[], 0, 0, 0⟩⟩
  match collectInputs tree roots with
  | .error failure => (start, some failure)
  | .ok inputs => buildFiles c outDir start inputs

def summary (r : Report) : Text :=
  line [decimal r.written.length, " fichier(s) écrit(s), ".toList, decimal r.skipped,
    " ignoré(s), ".toList, decimal r.warnings, " avertissement(s)".toList]

def runBuild (tree : Tree) (c : Compiler) (roots : List Text) (outDir : Option Text) : Outcome :=
  match buildRoots tree c roots outDir with
  | (b, some failure) => ⟨b.stdout, [], some failure, b.tree⟩
  | (b, none) =>
    let failure := if 0 < b.report.failed then some (Failure.failedFiles b.report.failed) else none
    ⟨b.stdout ++ summary b.report, [], failure, b.tree⟩

/-! ### Checking -/

structure Checking where
  stdout : Text
  failed : Nat

/-- What is printed about a checked file. -/
def checkLines (path text : Text) (result : Compilation) : Text :=
  let markers := Marker.ofText text
  let labels :=
    if markers.isEmpty then ['-']
    else ", ".toList.intercalate (markers.map fun m => m.label.toList)
  line [path, ": ".toList, labels] ++
    (result.warnings.map fun w => line ["  warning: ".toList, w.toList]).flatten ++
    (result.errors.map fun e => line ["  error: ".toList, e.toList]).flatten

def checkFiles (tree : Tree) (c : Compiler) : Checking → List Path.Input → Checking × Option Failure
  | s, [] => (s, none)
  | s, input :: inputs =>
    if !c.accepts input.path then checkFiles tree c s inputs
    else match tree.readText input.path with
      | .error fault => (s, some (.reading input.path fault))
      | .ok text =>
        let result := (c.compile ⟨input.path, text, false, false⟩).1
        let failed := if result.isOk then s.failed else s.failed + 1
        checkFiles tree c ⟨s.stdout ++ checkLines input.path text result, failed⟩ inputs

def runCheck (tree : Tree) (c : Compiler) (roots : List Text) : Outcome :=
  match collectInputs tree roots with
  | .error failure => .fail tree failure
  | .ok inputs =>
    match checkFiles tree c ⟨[], 0⟩ inputs with
    | (s, some failure) => .print tree s.stdout (some failure)
    | (s, none) => .print tree s.stdout (if 0 < s.failed then some (.failedFiles s.failed) else none)

/-! ### Single files -/

def runDeps (tree : Tree) (c : Compiler) (file : Text) (json : Bool) : Outcome :=
  match compileFile tree c file false with
  | .error failure => .fail tree failure
  | .ok result =>
    match result.errors with
    | error :: _ => .fail tree (.failedFile file error)
    | [] =>
      if json then .print tree (line [Json.list (result.dependencies.map Json.quote)]) none
      else .print tree (result.dependencies.map fun d => line [d]).flatten none

/-- A result as indented JSON. -/
def resultJson (result : Compilation) : Text :=
  let texts (items : List Text) : Text := Json.prettyList 1 (items.map Json.quote)
  let map := match result.map with
    | some m => [("map".toList, Json.quote m)]
    | none => []
  Json.prettyObject 0
    ([("code".toList, Json.quote result.code)] ++ map ++
      [("dependencies".toList, texts result.dependencies),
       ("warnings".toList, texts (result.warnings.map String.toList)),
       ("errors".toList, texts (result.errors.map String.toList))])

def runEmit (tree : Tree) (c : Compiler) (file : Text) (json : Bool) : Outcome :=
  match compileFile tree c file false with
  | .error failure => .fail tree failure
  | .ok result =>
    if json then .print tree (line [resultJson result]) none
    else match result.errors with
      | error :: _ => .fail tree (.failedFile file error)
      | [] =>
        let warnings := (result.warnings.map fun w => line ["warning: ".toList, w.toList]).flatten
        ⟨result.code, warnings, none, tree⟩

/-! ### Commands -/

/-- Runs a command on a tree. -/
def run (tree : Tree) (environment : Environment) (g : Globals) (command : Command) : Outcome :=
  match loadOptions tree environment g with
  | .error failure => .fail tree failure
  | .ok options =>
    match Compiler.ofOptions options with
    | .error fault => .fail tree (.invalidOptions fault)
    | .ok c =>
      match command with
      | .build roots outDir => runBuild tree c roots outDir
      | .check roots => runCheck tree c roots
      | .deps file json => runDeps tree c file json
      | .emit file json => runEmit tree c file json

end Desugar.Command
