import Desugar.Proofs.Inputs
import Desugar.Proofs.Writing

/-! Building. An input is skipped, cannot be read, does not compile, or is written. To the
tree a build does nothing but translate its accepted inputs one after the other. Where it does
not fail, each input in its turn meets its fate, and the report counts the inputs by theirs. -/
namespace Desugar.Command

open Desugar.Tree Desugar.Path

variable {tree tree' : Tree} {c : Compiler} {outDir : Option Text} {b b' : Building}
  {input : Input} {inputs : List Input} {result : Compilation}

/-! ### One input -/

/-- The lines about the warnings of a file. -/
def warningLines (result : Compilation) : Text :=
  (result.warnings.map fun w => line ["warning: ".toList, w.toList]).flatten

def errorLines (path : Text) (result : Compilation) : Text :=
  (result.errors.map fun e => line ["error: ".toList, path, ": ".toList, e.toList]).flatten

/-- How a build goes on after the warnings of a file. -/
def Building.warn (b : Building) (result : Compilation) : Building :=
  ⟨b.tree, b.stdout ++ warningLines result,
    { b.report with warnings := b.report.warnings + result.warnings.length }⟩

theorem buildFile_skipped (h : c.accepts input.path = false) :
    buildFile c outDir b input =
      ({ b with report := { b.report with skipped := b.report.skipped + 1 } }, none) := by
  rw [buildFile, if_pos (by rw [h]; rfl)]

theorem buildFile_unread {failure : Failure} (h : c.accepts input.path)
    (hcompile : compileFile b.tree c input.path true = .error failure) :
    buildFile c outDir b input = (b, some failure) := by
  rw [buildFile, if_neg (by rw [h]; decide), hcompile]

theorem buildFile_failed (h : c.accepts input.path)
    (hcompile : compileFile b.tree c input.path true = .ok result) (hok : result.isOk = false) :
    buildFile c outDir b input =
      (⟨b.tree, (b.warn result).stdout ++ errorLines input.path result,
        { (b.warn result).report with failed := b.report.failed + 1 }⟩, none) := by
  rw [buildFile, if_neg (by rw [h]; decide), hcompile]
  exact if_pos (by rw [hok]; rfl)

/-- What compiles is written, and then counted. -/
theorem buildFile_compiled (h : c.accepts input.path)
    (hcompile : compileFile b.tree c input.path true = .ok result) (hok : result.isOk = true) :
    buildFile c outDir b input =
      match writeOutputs b.tree (Path.output input outDir) result with
      | (tree, some failure) =>
        (⟨tree, (b.warn result).stdout, (b.warn result).report⟩, some failure)
      | (tree, none) =>
        (⟨tree, (b.warn result).stdout, { (b.warn result).report with
          written := b.report.written ++ [Path.output input outDir] }⟩, none) := by
  rw [buildFile, if_neg (by rw [h]; decide), hcompile]
  exact if_neg (by rw [hok]; decide)

theorem writeOutputs_none {output : Text} {result : Compilation} (h : result.map = none) :
    (fun tree => writeOutputs tree output result) =
      fun tree => writeFile tree output result.code := by
  funext tree
  rw [writeOutputs, h]
  rcases writeFile tree output result.code with ⟨t, _ | failure⟩ <;> rfl

/-- A result is written as its code and then its map. -/
theorem writeOutputs_some {output map : Text} {result : Compilation} (h : result.map = some map) :
    (fun tree => writeOutputs tree output result) =
      Change.andThen (fun tree => writeFile tree output result.code)
        fun tree => writeFile tree (Path.map output) map := by
  funext tree
  rw [writeOutputs, Change.andThen, h]
  rcases writeFile tree output result.code with ⟨t, _ | failure⟩ <;> rfl

/-! ### The tree -/

/-- What a build does to the tree for an accepted input. -/
def translate (c : Compiler) (outDir : Option Text) (input : Input) : Change := fun tree =>
  match compileFile tree c input.path true with
  | .error failure => (tree, some failure)
  | .ok result =>
    if !result.isOk then (tree, none)
    else writeOutputs tree (Path.output input outDir) result

theorem translate_error {failure : Failure}
    (h : compileFile tree c input.path true = .error failure) :
    translate c outDir input tree = (tree, some failure) := by
  rw [translate, h]

theorem translate_failed (h : compileFile tree c input.path true = .ok result)
    (hok : result.isOk = false) : translate c outDir input tree = (tree, none) := by
  rw [translate, h]
  exact if_pos (by rw [hok]; rfl)

theorem translate_ok (h : compileFile tree c input.path true = .ok result)
    (hok : result.isOk = true) :
    translate c outDir input tree = writeOutputs tree (Path.output input outDir) result := by
  rw [translate, h]
  exact if_neg (by rw [hok]; decide)

def translateAll (c : Compiler) (outDir : Option Text) : List Input → Change
  | [] => fun tree => (tree, none)
  | input :: inputs => (translate c outDir input).andThen (translateAll c outDir inputs)

theorem buildFile_accepted (b : Building) (h : c.accepts input.path) :
    ((buildFile c outDir b input).1.tree, (buildFile c outDir b input).2) =
      translate c outDir input b.tree := by
  cases hcompile : compileFile b.tree c input.path true with
  | error failure => rw [buildFile_unread h hcompile, translate_error hcompile]
  | ok result =>
    cases hok : result.isOk with
    | false => rw [buildFile_failed h hcompile hok, translate_failed hcompile hok]
    | true =>
      rw [buildFile_compiled h hcompile hok, translate_ok hcompile hok]
      rcases writeOutputs b.tree (Path.output input outDir) result with ⟨t, _ | failure⟩ <;> rfl

/-- A build changes the tree for its accepted inputs one after the other. -/
theorem buildFiles_eq (b : Building) (inputs : List Input) :
    ((buildFiles c outDir b inputs).1.tree, (buildFiles c outDir b inputs).2) =
      translateAll c outDir (inputs.filter (c.accepts ·.path)) b.tree := by
  induction inputs generalizing b with
  | nil => rfl
  | cons input inputs ih =>
    rw [List.filter_cons]
    by_cases haccepts : c.accepts input.path
    · rw [if_pos haccepts, translateAll, Change.andThen, ← buildFile_accepted b haccepts]
      rw [buildFiles]
      rcases buildFile c outDir b input with ⟨b', _ | failure⟩
      · exact ih b'
      · rfl
    · rw [if_neg haccepts, buildFiles, buildFile_skipped (Bool.eq_false_iff.mpr haccepts)]
      exact ih _

/-! ### Fates -/

/-- What becomes of an input that can be read. -/
inductive Fate where
  | skipped
  | failed (result : Compilation)
  | written (result : Compilation)

namespace Fate

def isSkipped : Fate → Bool
  | skipped => true
  | _ => false

def isFailed : Fate → Bool
  | failed _ => true
  | _ => false

def isWritten : Fate → Bool
  | written _ => true
  | _ => false

/-- The lines printed about an input. -/
def lines (path : Text) : Fate → List Text
  | skipped => []
  | failed result =>
    result.warnings.map (fun w => line ["warning: ".toList, w.toList]) ++
      result.errors.map fun e => line ["error: ".toList, path, ": ".toList, e.toList]
  | written result => result.warnings.map fun w => line ["warning: ".toList, w.toList]

/-- The texts that are written for an input, under their paths: its code, and its map where it
has one. -/
def texts (output : Text) : Fate → List (Text × Text)
  | skipped | failed _ => []
  | written result =>
    (output, result.code) :: match result.map with
      | none => []
      | some map => [(Path.map output, map)]

end Fate

/-- How an input meets its fate, and what this does to the tree: nothing, unless the input is
written. -/
inductive Meets (c : Compiler) (outDir : Option Text) (input : Input) :
    Tree → Fate → Tree → Prop where
  | skipped {tree : Tree} : c.accepts input.path = false → Meets c outDir input tree .skipped tree
  | failed {tree : Tree} {result : Compilation} : c.accepts input.path = true →
      compileFile tree c input.path true = .ok result → result.isOk = false →
      Meets c outDir input tree (.failed result) tree
  | written {tree tree' : Tree} {result : Compilation} : c.accepts input.path = true →
      compileFile tree c input.path true = .ok result → result.isOk = true →
      writeOutputs tree (output input outDir) result = (tree', none) →
      Meets c outDir input tree (.written result) tree'

/-- Is a file read and compiled without errors? -/
def compiles (tree : Tree) (c : Compiler) (input : Input) : Bool :=
  match compileFile tree c input.path true with
  | .error _ => false
  | .ok result => result.isOk

/-- What becomes of an input in a tree, unless it cannot be read. -/
def fate? (tree : Tree) (c : Compiler) (input : Input) : Option Fate :=
  if c.accepts input.path then
    match compileFile tree c input.path true with
    | .error _ => none
    | .ok result => some (if result.isOk then .written result else .failed result)
  else some .skipped

theorem Meets.fate?_eq {fate : Fate} (h : Meets c outDir input tree fate tree') :
    fate? tree c input = some fate := by
  cases h with
  | skipped haccepts => simp [fate?, haccepts]
  | failed haccepts hcompile hok => simp [fate?, haccepts, hcompile, hok]
  | written haccepts hcompile hok => simp [fate?, haccepts, hcompile, hok]

/-- Those inputs are written that are accepted and compile. -/
theorem isWritten_of_fate? {fate : Fate} (h : fate? tree c input = some fate) :
    fate.isWritten = (c.accepts input.path && compiles tree c input) := by
  rw [fate?] at h
  rw [compiles]
  cases haccepts : c.accepts input.path with
  | false =>
    rw [haccepts] at h
    cases h
    rfl
  | true =>
    rw [haccepts] at h
    cases hcompile : compileFile tree c input.path true with
    | error failure =>
      rw [hcompile] at h
      cases h
    | ok result =>
      rw [hcompile] at h
      obtain rfl := Option.some.inj h
      cases hok : result.isOk <;> simp [Fate.isWritten, hok]

/-- An input with its fate. -/
structure Deed where
  input : Input
  fate : Fate

namespace Deed

def lines (d : Deed) : List Text := d.fate.lines d.input.path

def texts (outDir : Option Text) (d : Deed) : List (Text × Text) :=
  d.fate.texts (output d.input outDir)

/-- The output of an input that is written. -/
def output? (outDir : Option Text) (d : Deed) : Option Text :=
  match d.fate with
  | .written _ => some (output d.input outDir)
  | _ => none

end Deed

/-- Inputs that meet their fates one after the other. -/
inductive Course (c : Compiler) (outDir : Option Text) : Tree → List Deed → Tree → Prop where
  | nil (tree : Tree) : Course c outDir tree [] tree
  | cons {tree tree' tree'' : Tree} {d : Deed} {deeds : List Deed} :
      Meets c outDir d.input tree d.fate tree' → Course c outDir tree' deeds tree'' →
      Course c outDir tree (d :: deeds) tree''

/-! ### The report -/

def isWarningLine (l : Text) : Bool := "warning: ".toList.isPrefixOf l

theorem isWarningLine_warning (w : Text) : isWarningLine (line ["warning: ".toList, w]) = true :=
  rfl

theorem isWarningLine_error (path e : Text) :
    isWarningLine (line ["error: ".toList, path, ": ".toList, e]) = false := rfl

/-- The lines about warnings can be told from those about errors. -/
theorem countP_lines (path : Text) (fate : Fate) :
    (fate.lines path).countP isWarningLine =
      match fate with
      | .skipped => 0
      | .failed result | .written result => result.warnings.length := by
  have hwarnings (ws : List String) :
      (ws.map fun w => line ["warning: ".toList, w.toList]).countP isWarningLine = ws.length := by
    rw [List.countP_map, List.countP_eq_length]
    exact fun w _ => isWarningLine_warning w.toList
  have herrors (es : List String) : (es.map fun e =>
      line ["error: ".toList, path, ": ".toList, e.toList]).countP isWarningLine = 0 := by
    rw [List.countP_map, List.countP_eq_zero]
    intro e _
    rw [Function.comp_apply, isWarningLine_error]
    exact Bool.false_ne_true
  cases fate with
  | skipped => rfl
  | failed result => rw [Fate.lines, List.countP_append, hwarnings, herrors, Nat.add_zero]
  | written result => exact hwarnings result.warnings

/-- What deeds add to a report. -/
structure Reports (outDir : Option Text) (deeds : List Deed) (before after : Report) : Prop where
  written : after.written = before.written ++ deeds.filterMap (Deed.output? outDir)
  skipped : after.skipped = before.skipped + deeds.countP (·.fate.isSkipped)
  failed : after.failed = before.failed + deeds.countP (·.fate.isFailed)
  warnings : after.warnings = before.warnings + (deeds.flatMap Deed.lines).countP isWarningLine

namespace Reports

variable {deeds deeds' : List Deed} {r r' r'' : Report}

theorem nil (r : Report) : Reports outDir [] r r := by
  constructor <;> simp

theorem append (h : Reports outDir deeds r r') (h' : Reports outDir deeds' r' r'') :
    Reports outDir (deeds ++ deeds') r r'' := by
  constructor
  · rw [h'.written, h.written, List.filterMap_append, List.append_assoc]
  · rw [h'.skipped, h.skipped, List.countP_append, Nat.add_assoc]
  · rw [h'.failed, h.failed, List.countP_append, Nat.add_assoc]
  · rw [h'.warnings, h.warnings, List.flatMap_append, List.countP_append, Nat.add_assoc]

theorem single {d : Deed} (hwritten : r'.written = r.written ++ (d.output? outDir).toList)
    (hskipped : r'.skipped = r.skipped + d.fate.isSkipped.toNat)
    (hfailed : r'.failed = r.failed + d.fate.isFailed.toNat)
    (hwarnings : r'.warnings = r.warnings + d.lines.countP isWarningLine) :
    Reports outDir [d] r r' := by
  constructor
  · rw [hwritten, List.filterMap_cons]
    cases d.output? outDir <;> rfl
  · rw [hskipped, List.countP_singleton]
    cases d.fate.isSkipped <;> rfl
  · rw [hfailed, List.countP_singleton]
    cases d.fate.isFailed <;> rfl
  · rw [hwarnings, List.flatMap_singleton]

end Reports

theorem filterMap_output? (outDir : Option Text) (deeds : List Deed) :
    deeds.filterMap (Deed.output? outDir) =
      ((deeds.filter (·.fate.isWritten)).map Deed.input).map (output · outDir) := by
  induction deeds with
  | nil => rfl
  | cons d deeds ih =>
    obtain ⟨input, fate⟩ := d
    cases fate with
    | skipped => exact ih
    | failed => exact ih
    | written => exact congrArg (output input outDir :: ·) ih

/-- Each input is counted once. -/
theorem length_eq_counts (outDir : Option Text) (deeds : List Deed) :
    deeds.length = (deeds.filterMap (Deed.output? outDir)).length +
      deeds.countP (·.fate.isSkipped) + deeds.countP (·.fate.isFailed) := by
  induction deeds with
  | nil => rfl
  | cons d deeds ih =>
    obtain ⟨input, fate⟩ := d
    rw [List.filterMap_cons, List.countP_cons, List.countP_cons, List.length_cons, ih]
    cases fate <;> simp [Deed.output?, Fate.isSkipped, Fate.isFailed] <;> omega

/-! ### Courses -/

/-- What one input does to a build without a failure. -/
theorem meets_of_buildFile (h : buildFile c outDir b input = (b', none)) :
    ∃ fate, Meets c outDir input b.tree fate b'.tree ∧
      b'.stdout = b.stdout ++ (fate.lines input.path).flatten ∧
      Reports outDir [⟨input, fate⟩] b.report b'.report := by
  cases haccepts : c.accepts input.path with
  | false =>
    rw [buildFile_skipped haccepts] at h
    cases h
    refine ⟨.skipped, .skipped haccepts, by simp [Fate.lines], .single ?_ rfl rfl rfl⟩
    exact (List.append_nil _).symm
  | true =>
    cases hcompile : compileFile b.tree c input.path true with
    | error failure =>
      rw [buildFile_unread haccepts hcompile] at h
      cases h
    | ok result =>
      cases hok : result.isOk with
      | false =>
        rw [buildFile_failed haccepts hcompile hok] at h
        cases h
        refine ⟨.failed result, .failed haccepts hcompile hok, ?_, .single ?_ rfl rfl ?_⟩
        · rw [Fate.lines, List.flatten_append, ← List.append_assoc]
          rfl
        · exact (List.append_nil _).symm
        · exact congrArg (b.report.warnings + ·) (countP_lines input.path (.failed result)).symm
      | true =>
        rw [buildFile_compiled haccepts hcompile hok] at h
        rcases hwrite : writeOutputs b.tree (output input outDir) result with ⟨t, _ | failure⟩
        · rw [hwrite] at h
          cases h
          refine ⟨.written result, .written haccepts hcompile hok hwrite, rfl,
            .single rfl rfl rfl ?_⟩
          exact congrArg (b.report.warnings + ·) (countP_lines input.path (.written result)).symm
        · rw [hwrite] at h
          cases h

/-- A build without a failure goes through all of its inputs. -/
theorem course_of_buildFiles (h : buildFiles c outDir b inputs = (b', none)) :
    ∃ deeds, deeds.map Deed.input = inputs ∧ Course c outDir b.tree deeds b'.tree ∧
      b'.stdout = b.stdout ++ (deeds.flatMap Deed.lines).flatten ∧
      Reports outDir deeds b.report b'.report := by
  induction inputs generalizing b with
  | nil =>
    cases h
    exact ⟨[], rfl, .nil _, by simp, .nil _⟩
  | cons input inputs ih =>
    rw [buildFiles] at h
    rcases hfile : buildFile c outDir b input with ⟨b₁, _ | failure⟩
    · rw [hfile] at h
      obtain ⟨fate, hmeets, hstdout, hreport⟩ := meets_of_buildFile hfile
      obtain ⟨deeds, hinputs, hcourse, hstdout', hreport'⟩ := ih h
      refine ⟨⟨input, fate⟩ :: deeds, by rw [List.map_cons, hinputs], .cons hmeets hcourse, ?_,
        hreport.append hreport'⟩
      rw [hstdout', hstdout, List.flatMap_cons, List.flatten_append, ← List.append_assoc]
      rfl
    · rw [hfile] at h
      cases h

end Desugar.Command
