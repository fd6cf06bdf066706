import Desugar.Proofs.Building
import Desugar.Proofs.Slice

/-! Building twice. What a build does to a tree is one change for each accepted input. Its
outputs never have the name of a source, so each of these changes leaves the inputs as they
are and repeats itself, and so does the whole build. -/
namespace Desugar.Command

open Desugar.Tree Desugar.Path

variable {tree tree' : Tree} {c : Compiler} {outDir : Option Text} {input : Input}
  {inputs : List Input} {kept : Place → Prop}

/-! ### One input -/

theorem Repeats.congr {change change' : Change} {log : Log} (h : Repeats kept change tree log)
    (heq : ∀ t, Grows kept tree t → change' t = change t) : Repeats kept change' tree log := by
  have htree : change' tree = change tree := heq tree (.refl tree)
  constructor
  · rw [htree]
    exact h.evolves
  · exact h.unkept
  · intro t hgrows
    rw [htree] at hgrows ⊢
    rw [heq t (h.grows.trans hgrows)]
    exact h.again hgrows

/-- Outputs are written again at the same places. -/
theorem repeats_writeOutputs {dir name : Text} (h : Cut (base input outDir) dir name)
    (hn : IsName name) (hroot : tree.find? [] = some .directory) (result : Compilation) :
    ∃ log, Repeats Sourced
      (fun tree => writeOutputs tree (Path.output input outDir) result) tree log := by
  have hcode : ∃ log, Repeats Sourced
      (fun tree => writeFile tree (Path.output input outDir) result.code) tree log := by
    rcases h.output hn with ⟨-, hcut⟩ | ⟨-, hcut⟩
    · exact ⟨[], repeats_writeFile_dots hcut tree result.code⟩
    · exact repeats_writeFile hcut isName_outputName (by simp [not_isSource_outputName]) hroot
        result.code
  obtain ⟨log, hcode⟩ := hcode
  cases hmap : result.map with
  | none =>
    rw [writeOutputs_none hmap]
    exact ⟨log, hcode⟩
  | some map =>
    rw [writeOutputs_some hmap]
    by_cases hok : (writeFile tree (Path.output input outDir) result.code).2 = none
    · rcases h.output hn with ⟨-, hcut⟩ | ⟨-, hcut⟩
      · exact absurd hok (writeFile_dots hcut tree result.code)
      · obtain ⟨log', hmap⟩ : ∃ log, Repeats Sourced
            (fun tree => writeFile tree (Path.map (Path.output input outDir)) map)
            (writeFile tree (Path.output input outDir) result.code).1 log :=
          repeats_writeFile hcut.map isName_mapName (by simp [not_isSource_map])
            (hcode.grows.directory hroot) map
        exact ⟨log ++ log', hcode.andThen hok hmap⟩
    · exact ⟨log, hcode.andThen_fails hok⟩

theorem readText_of_grows {path : Text} {place : Place}
    (hg : Grows kept tree tree') (hresolve : tree.resolve path = .ok place)
    (hfile : ∃ c, tree.find? place = some (.file c)) (hk : kept place) :
    tree'.readText path = tree.readText path := by
  obtain ⟨c, hc⟩ := hfile
  obtain ⟨c', hc', hsame⟩ := hg.file hc
  rw [readText, readText, lookup_ok.mpr ⟨hresolve, hc⟩,
    lookup_ok.mpr ⟨resolve_of_grows hg hresolve, hc'⟩, hsame hk]

/-- A source compiles as it did as long as it is kept. -/
theorem compileFile_of_grows {place : Place} {name : Text} (h : IsInput tree input place name)
    (hsource : IsSource input.path) (hg : Grows Sourced tree tree') (build : Bool) :
    compileFile tree' c input.path build = compileFile tree c input.path build := by
  rw [compileFile, compileFile, readText_of_grows hg h.resolve h.file (h.sourced.mpr hsource)]

/-- What is done for an input is done for it again. -/
theorem repeats_translate {place : Place} {name : Text} (h : IsInput tree input place name)
    (hsource : IsSource input.path) (hroot : tree.find? [] = some .directory) :
    ∃ log, Repeats Sourced (translate c outDir input) tree log := by
  have hcompile : ∀ t, Grows Sourced tree t →
      compileFile t c input.path true = compileFile tree c input.path true :=
    fun t hg => compileFile_of_grows h hsource hg true
  cases hresult : compileFile tree c input.path true with
  | error failure =>
    refine ⟨[], .same fun t hg => ?_⟩
    rw [translate_error hresult, translate_error ((hcompile t hg).trans hresult)]
    exact ⟨rfl, rfl⟩
  | ok result =>
    cases hok : result.isOk with
    | false =>
      refine ⟨[], .same fun t hg => ?_⟩
      rw [translate_failed hresult hok, translate_failed ((hcompile t hg).trans hresult) hok]
      exact ⟨rfl, rfl⟩
    | true =>
      obtain ⟨dir, hcut⟩ := h.base outDir
      obtain ⟨log, hlog⟩ := repeats_writeOutputs hcut h.isName hroot result
      refine ⟨log, hlog.congr fun t hg => ?_⟩
      exact translate_ok ((hcompile t hg).trans hresult) hok

/-! ### All inputs -/

theorem repeats_translateAll (hinputs : ∀ input ∈ inputs, IsSource input.path ∧
      ∃ place name, IsInput tree input place name)
    (hroot : tree.find? [] = some .directory) :
    ∃ log, Repeats Sourced (translateAll c outDir inputs) tree log := by
  induction inputs generalizing tree with
  | nil => exact ⟨[], .same fun t _ => ⟨rfl, rfl⟩⟩
  | cons input inputs ih =>
    rw [List.forall_mem_cons] at hinputs
    obtain ⟨⟨hsource, place, name, hinput⟩, hinputs⟩ := hinputs
    obtain ⟨log, hfirst⟩ : ∃ log, Repeats Sourced (translate c outDir input) tree log :=
      repeats_translate hinput hsource hroot
    by_cases hok : (translate c outDir input tree).2 = none
    · have hinputs' : ∀ i ∈ inputs, IsSource i.path ∧
          ∃ place name, IsInput (translate c outDir input tree).1 i place name := by
        intro i hi
        obtain ⟨hs, p, n, hin⟩ := hinputs i hi
        exact ⟨hs, p, n, hin.of_grows hfirst.grows⟩
      obtain ⟨log', hrest⟩ := ih hinputs' (hfirst.grows.directory hroot)
      exact ⟨log ++ log', hfirst.andThen hok hrest⟩
    · exact ⟨log, hfirst.andThen_fails hok⟩

/-! ### Two runs -/

theorem tree_runBuild_error {roots : List Text} {failure : Failure}
    (h : collectInputs tree roots = .error failure) :
    (runBuild tree c roots outDir).tree = tree := by
  rw [runBuild, buildRoots, h]

theorem tree_runBuild {roots : List Text} (h : collectInputs tree roots = .ok inputs) :
    (runBuild tree c roots outDir).tree =
      (translateAll c outDir (inputs.filter (c.accepts ·.path)) tree).1 := by
  rw [runBuild, buildRoots, h, ← buildFiles_eq ⟨tree, [], ⟨[], 0, 0, 0⟩⟩ inputs]
  simp only
  generalize buildFiles c outDir ⟨tree, [], ⟨[], 0, 0, 0⟩⟩ inputs = built
  rcases built with ⟨b, _ | failure⟩ <;> rfl

/-- With the default patterns for inputs, a build made once more leaves every file and every
directory as the build before left it, however that one ended. -/
theorem runBuild_again {options : Options} {c : Compiler} {tree : Tree}
    (hc : Compiler.ofOptions options = .ok c)
    (hincluded : options.included = Options.default.included) (hp : tree.Proper)
    (roots : List Text) (outDir : Option Text) (place : Place) :
    (runBuild (runBuild tree c roots outDir).tree c roots outDir).tree.find? place =
      (runBuild tree c roots outDir).tree.find? place := by
  cases hcollect : collectInputs tree roots with
  | error failure => rw [tree_runBuild_error hcollect, tree_runBuild_error hcollect]
  | ok inputs =>
    have haccepts : ∀ id, c.accepts id → IsSource id := fun id =>
      Compiler.isSource_of_accepts hc hincluded
    have hinputs : ∀ input ∈ inputs.filter (c.accepts ·.path), IsSource input.path ∧
        ∃ place name, IsInput tree input place name := by
      intro input hi
      obtain ⟨hmem, haccepted⟩ := List.mem_filter.mp hi
      exact ⟨haccepts _ haccepted, isInput_of_collectInputs hp hcollect input hmem⟩
    obtain ⟨log, hlog⟩ : ∃ log, Repeats Sourced
        (translateAll c outDir (inputs.filter (c.accepts ·.path))) tree log :=
      repeats_translateAll hinputs hp.root
    -- the second run accepts the same inputs, for it finds the same sources
    obtain ⟨inputs', hcollect', hsame⟩ := collectInputs_again haccepts hlog.grows
      (hlog.evolves.sources hlog.unkept) hcollect
    rw [tree_runBuild hcollect, tree_runBuild hcollect', hsame, (hlog.again (.refl _)).1]
    exact hlog.evolves.find?_replay place

/-- Sources of one name in two directories, and one that is not text. -/
def overlapping : Tree :=
  ⟨[(["srv".toList, "a.bs".toList], .file (.text "let x = y |> f".toList)),
    (["srv".toList, "lib".toList, "a.bs".toList], .file (.text "let z = 1".toList)),
    (["srv".toList, "z.bs".toList], .file (.binary [255]))],
    ["srv".toList, "lib".toList]⟩

/-- The outputs lie among the inputs, two of them in the same place, and the run is aborted. -/
theorem runBuild_again_overlapping :
    let roots := ["/srv/lib".toList, "..".toList]
    let outDir := some "/srv/lib/out".toList
    ∃ c, Compiler.ofOptions .default = .ok c ∧ overlapping.Proper ∧
      (runBuild overlapping c roots outDir).failure =
        some (.reading "../z.bs".toList .invalidData) ∧
      (runBuild overlapping c roots outDir).tree.find?
        ["srv".toList, "lib".toList, "out".toList, "a.ts".toList] =
          some (.file (.text "const x = f(y)".toList)) ∧
      ∀ place,
        (runBuild (runBuild overlapping c roots outDir).tree c roots outDir).tree.find? place =
          (runBuild overlapping c roots outDir).tree.find? place := by
  intro roots outDir
  obtain ⟨c, hc, hrun⟩ := exists_ok_of_map (x := Compiler.ofOptions .default)
    (f := fun c =>
      let outcome := runBuild overlapping c roots outDir
      (outcome.failure,
        outcome.tree.find? ["srv".toList, "lib".toList, "out".toList, "a.ts".toList]))
    (b := (some (.reading "../z.bs".toList .invalidData),
      some (.file (.text "const x = f(y)".toList)))) (by decide +kernel)
  rw [Prod.mk.injEq] at hrun
  have hproper : overlapping.Proper := by decide +kernel
  exact ⟨c, hc, hproper, hrun.1, hrun.2, runBuild_again hc rfl hproper _ _⟩

end Desugar.Command
