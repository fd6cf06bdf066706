import Desugar.Proofs.Overwriting

/-! The account of a build. Each input in its turn is skipped, does not compile, or is written;
the report counts the inputs by what became of them, and the lines that are printed are theirs
too. Only what is written changes files, and only those that its paths lead to. -/
namespace Desugar.Command

open Desugar.Tree Desugar.Path

variable {tree tree' tree'' : Tree} {c : Compiler} {outDir : Option Text} {b b' : Building}
  {input : Input} {inputs : List Input} {result : Compilation}

/-! ### The files -/

/-- The texts under paths at the places that the paths lead to. -/
def placed (tree : Tree) (texts : List (Text × Text)) : Log :=
  texts.filterMap fun t => (tree.resolve t.1).toOption.map (·, t.2)

/-- All the paths lead somewhere. -/
def Placeable (tree : Tree) (texts : List (Text × Text)) : Prop :=
  ∀ t ∈ texts, ∃ p, tree.resolve t.1 = .ok p

variable {kept : Place → Prop} {texts : List (Text × Text)}

theorem Placeable.of_grows (h : Placeable tree texts) (hg : Grows kept tree tree') :
    Placeable tree' texts := by
  intro t ht
  obtain ⟨p, hp⟩ := h t ht
  exact ⟨p, resolve_of_grows hg hp⟩

/-- Where paths lead does not change as the tree grows. -/
theorem placed_of_grows (h : Placeable tree texts) (hg : Grows kept tree tree') :
    placed tree' texts = placed tree texts := by
  refine List.filterMap_congr fun t ht => ?_
  obtain ⟨p, hp⟩ := h t ht
  rw [hp, resolve_of_grows hg hp]

theorem mem_placed {p : Place} (h : p ∈ (placed tree texts).map Prod.fst) :
    ∃ t ∈ texts, tree.resolve t.1 = .ok p := by
  obtain ⟨w, hw, rfl⟩ := List.mem_map.mp h
  obtain ⟨t, ht, heq⟩ := List.mem_filterMap.mp hw
  refine ⟨t, ht, ?_⟩
  cases hresolve : tree.resolve t.1 with
  | error fault =>
    rw [hresolve] at heq
    cases heq
  | ok q =>
    rw [hresolve] at heq
    cases heq
    rfl

/-- A tree that texts were written to, each of them where its path leads in the end. -/
structure Receives (texts : List (Text × Text)) (tree tree' : Tree) : Prop where
  placeable : Placeable tree' texts
  evolves : Evolves (placed tree' texts) tree tree'

namespace Receives

variable {texts' : List (Text × Text)}

theorem refl (tree : Tree) : Receives [] tree tree :=
  ⟨fun _ ht => absurd ht List.not_mem_nil, .refl tree⟩

theorem grows (h : Receives texts tree tree') : Grows (fun _ => False) tree tree' :=
  h.evolves.grows fun _ _ => id

theorem trans (h : Receives texts tree tree') (h' : Receives texts' tree' tree'') :
    Receives (texts ++ texts') tree tree'' := by
  constructor
  · exact fun t ht => (List.mem_append.mp ht).elim (h.placeable.of_grows h'.grows t)
      (h'.placeable t)
  · rw [placed, List.filterMap_append]
    have hplaced : placed tree'' texts = placed tree' texts :=
      placed_of_grows h.placeable h'.grows
    exact (hplaced ▸ h.evolves).trans h'.evolves

theorem writeFile {path text : Text} (h : writeFile tree path text = (tree', none)) :
    Receives [(path, text)] tree tree' := by
  obtain ⟨p, hp, hevolves⟩ := evolves_writeFile (congrArg Prod.snd h)
  rw [h] at hp hevolves
  refine ⟨fun t ht => ⟨p, List.mem_singleton.mp ht ▸ hp⟩, ?_⟩
  have hplaced : placed tree' [(path, text)] = [(p, text)] := by simp [placed, hp, Except.toOption]
  rwa [hplaced]

end Receives

/-- An input that is written puts its texts where their paths lead, and another one nothing. -/
theorem Meets.receives {fate : Fate} (h : Meets c outDir input tree fate tree') :
    Receives (fate.texts (output input outDir)) tree tree' := by
  cases h with
  | skipped => exact .refl tree
  | failed => exact .refl tree
  | @written _ result _ _ _ hwrite =>
    rw [Fate.texts]
    cases hmap : result.map with
    | none =>
      rw [congrFun (writeOutputs_none hmap) tree] at hwrite
      exact .writeFile hwrite
    | some map =>
      rw [congrFun (writeOutputs_some hmap) tree, Change.andThen] at hwrite
      rcases hcode : writeFile tree (output input outDir) result.code with ⟨t, _ | failure⟩
      · rw [hcode] at hwrite
        exact (Receives.writeFile hcode).trans (.writeFile hwrite)
      · rw [hcode] at hwrite
        cases hwrite

theorem Course.receives {deeds : List Deed} (h : Course c outDir tree deeds tree') :
    Receives (deeds.flatMap (Deed.texts outDir)) tree tree' := by
  induction h with
  | nil => exact .refl _
  | cons hmeets _ ih => exact hmeets.receives.trans ih

/-- What is written goes to the outputs that are reported, and to their maps. -/
theorem path_of_mem_texts {deeds : List Deed} {t : Text × Text}
    (h : t ∈ deeds.flatMap (Deed.texts outDir)) :
    ∃ o ∈ deeds.filterMap (Deed.output? outDir), t.1 = o ∨ t.1 = Path.map o := by
  obtain ⟨⟨input, fate⟩, hd, ht⟩ := List.mem_flatMap.mp h
  rw [Deed.texts] at ht
  cases fate with
  | skipped => cases ht
  | failed => cases ht
  | written result =>
    refine ⟨output input outDir, List.mem_filterMap.mpr ⟨_, hd, rfl⟩, ?_⟩
    rcases List.mem_cons.mp ht with rfl | ht
    · exact .inl rfl
    · split at ht
      · cases ht
      · exact .inr (congrArg Prod.fst (List.mem_singleton.mp ht))

/-- The account of a build without a failure. Every input that was collected meets its fate in
its turn, and is counted as written, skipped or failed. The lines that are printed are theirs,
and as many of them are about warnings as are reported. A file in the end holds the last text
written there, or what it held before; so none changes but the outputs that are reported and
their maps. Directories stay. -/
theorem buildRoots_accounts {tree : Tree} {c : Compiler} {roots : List Text}
    {outDir : Option Text} {b : Building} (h : buildRoots tree c roots outDir = (b, none)) :
    ∃ inputs deeds, collectInputs tree roots = .ok inputs ∧ deeds.map Deed.input = inputs ∧
      Course c outDir tree deeds b.tree ∧
      inputs.length = b.report.written.length + b.report.skipped + b.report.failed ∧
      b.report.written = deeds.filterMap (Deed.output? outDir) ∧
      b.report.skipped = deeds.countP (·.fate.isSkipped) ∧
      b.report.failed = deeds.countP (·.fate.isFailed) ∧
      b.stdout = (deeds.flatMap Deed.lines).flatten ∧
      b.report.warnings = (deeds.flatMap Deed.lines).countP isWarningLine ∧
      (∀ p content, b.tree.find? p = some (.file content) ↔
        match lastAt p (placed b.tree (deeds.flatMap (Deed.texts outDir))) with
        | some text => content = .text text
        | none => tree.find? p = some (.file content)) ∧
      (∀ p, (∀ o ∈ b.report.written,
          b.tree.resolve o ≠ .ok p ∧ b.tree.resolve (Path.map o) ≠ .ok p) →
        ∀ content, b.tree.find? p = some (.file content) ↔ tree.find? p = some (.file content)) ∧
      ∀ p, tree.find? p = some .directory → b.tree.find? p = some .directory := by
  rw [buildRoots] at h
  cases hcollect : collectInputs tree roots with
  | error failure =>
    rw [hcollect] at h
    cases h
  | ok inputs =>
    rw [hcollect] at h
    obtain ⟨deeds, hinputs, hcourse, hstdout, hreport⟩ := course_of_buildFiles h
    have hwritten := hreport.written.trans (List.nil_append _)
    have hskipped := hreport.skipped.trans (Nat.zero_add _)
    have hfailed := hreport.failed.trans (Nat.zero_add _)
    have hreceives := hcourse.receives
    refine ⟨inputs, deeds, rfl, hinputs, hcourse, ?_, hwritten, hskipped, hfailed,
      hstdout.trans (List.nil_append _), hreport.warnings.trans (Nat.zero_add _),
      fun p content => hreceives.evolves.file_iff, fun p hp => ?_,
      fun p => hreceives.grows.directory⟩
    · rw [hwritten, hskipped, hfailed, ← hinputs, List.length_map]
      exact length_eq_counts outDir deeds
    · refine hreceives.evolves.sameFiles p fun hmem => ?_
      obtain ⟨t, ht, hresolve⟩ := mem_placed hmem
      obtain ⟨o, ho, hpath⟩ := path_of_mem_texts ht
      obtain ⟨hcode, hmap⟩ := hp o (hwritten ▸ ho)
      rcases hpath with hpath | hpath <;> rw [hpath] at hresolve
      · exact hcode hresolve
      · exact hmap hresolve

/-- The place of an absolute path does not depend on the tree. -/
theorem place_of_absolute {path : Text} {p : Place} (habs : isAbsolute path = true)
    (hdots : ['.', '.'] ∉ names path) (h : tree.resolve path = .ok p) :
    p = (names path).filter leads := by
  have hfollow := (resolve_ok h).2.2
  rw [route, if_pos habs] at hfollow
  exact follow_down hdots hfollow

/-- A text whose brackets nest too deep, a file that is no source, and a source with a pipe
that is left as it is. -/
def troubled : Tree :=
  ⟨[(["srv".toList, "a.bs".toList], .file (.text ("let a = ".toList ++ List.replicate 300 '('))),
    (["srv".toList, "m.md".toList], .file (.text "let m = 1".toList)),
    (["srv".toList, "z.bs".toList], .file (.text "let z = a |> 1".toList))],
    ["home".toList]⟩

/-- The build goes on to the last input, and leaves the other two as they are. -/
theorem buildRoots_accounts_troubled :
    let roots := ["/srv".toList]
    let outDir := some "/srv/out".toList
    ∃ c b, Compiler.ofOptions .default = .ok c ∧
      buildRoots troubled c roots outDir = (b, none) ∧
      b.report = ⟨["/srv/out/z.ts".toList], 1, 1, 1⟩ ∧
      (∃ inputs, collectInputs troubled roots = .ok inputs ∧ inputs.length = 1 + 1 + 1) ∧
      ∀ name ∈ ["a.bs".toList, "m.md".toList, "z.bs".toList], ∀ content,
        b.tree.find? ["srv".toList, name] = some (.file content) ↔
          troubled.find? ["srv".toList, name] = some (.file content) := by
  intro roots outDir
  obtain ⟨c, hc, hbuilt⟩ := exists_ok_of_map (x := Compiler.ofOptions .default)
    (f := fun c =>
      let built := buildRoots troubled c roots outDir
      (built.2, built.1.report))
    (b := (none, ⟨["/srv/out/z.ts".toList], 1, 1, 1⟩)) (by decide +kernel)
  obtain ⟨hnone, hreport⟩ := Prod.mk.inj hbuilt
  have hbuild : buildRoots troubled c roots outDir =
      ((buildRoots troubled c roots outDir).1, none) := Prod.ext rfl hnone
  obtain ⟨inputs, -, hcollect, -, -, hlength, -, -, -, -, -, -, hframe, -⟩ :=
    buildRoots_accounts hbuild
  rw [hreport] at hlength hframe
  refine ⟨c, _, hc, hbuild, hreport, ⟨inputs, hcollect, hlength⟩, fun name hname => ?_⟩
  -- both paths lead through three names
  refine hframe _ (List.forall_mem_singleton.mpr ⟨fun heq => ?_, fun heq => ?_⟩)
  · cases place_of_absolute (by decide) (by decide) heq
  · cases place_of_absolute (by decide) (by decide) heq

end Desugar.Command
