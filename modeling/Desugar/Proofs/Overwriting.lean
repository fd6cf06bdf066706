import Desugar.Proofs.Agreement
import Desugar.Proofs.Rebuilding

/-! What a build overwrites. It does not look for outputs of one path, nor for inputs among its
outputs: files of one name under several roots, or patterns that accept other files than
sources, may cost an output or an input. Sources that are told by their extension are safe,
and so are their outputs as long as none has the relative path of another. -/
namespace Desugar

namespace Tree

variable {tree tree' : Tree}

/-- Where a log has one text for each place, all of them are there in the end. -/
theorem lastAt_of_nodup {log : Log} (h : (log.map Prod.fst).Nodup) {w : Place × Text}
    (hw : w ∈ log) : lastAt w.1 log = some w.2 := by
  induction log with
  | nil => cases hw
  | cons v log ih =>
    rw [List.map_cons, List.nodup_cons] at h
    rw [lastAt]
    rcases List.mem_cons.mp hw with rfl | hw
    · rw [lastAt_eq_none h.1, if_pos rfl]
      rfl
    · rw [ih h.2 hw]
      rfl

end Tree

namespace Command

open Desugar.Tree Desugar.Path

variable {tree tree' : Tree} {c : Compiler} {outDir : Option Text} {b b' : Building}
  {input : Input} {inputs : List Input} {result : Compilation}

/-! ### What was written -/

/-- The texts written for an input at the places of its output and its map. -/
def outputLog (result : Compilation) (p q : Place) : Log :=
  (p, result.code) :: match result.map with
    | none => []
    | some map => [(q, map)]

/-- Where the output of an input and its map go: into one directory, under names made from the
last one of the path they are named after. -/
structure Lands (tree : Tree) (outDir : Option Text) (input : Input) (q : Place) (name : Text) :
    Prop where
  isName : IsName name
  dot : stem name ≠ ['.']
  base : ∃ ns, tree.route (base input outDir) = ns ++ [name] ∧ tree.follow [] ns = .ok q
  code : tree.resolve (output input outDir) = .ok (q ++ [outputName input name])
  map : tree.resolve (map (output input outDir)) = .ok (q ++ [Path.map (outputName input name)])

theorem Lands.of_grows {kept : Place → Prop} {q : Place} {name : Text}
    (h : Lands tree outDir input q name) (hg : Grows kept tree tree') :
    Lands tree' outDir input q name := by
  obtain ⟨ns, hroute, hfollow⟩ := h.base
  exact ⟨h.isName, h.dot, ⟨ns, by rw [route_of_home hg.home, hroute], follow_of_grows hg hfollow⟩,
    resolve_of_grows hg h.code, resolve_of_grows hg h.map⟩

/-- Beside the output of an input there is room for its map. -/
theorem lands_of_resolve {dir name : Text} {p : Place} {content : Content}
    (h : Cut (base input outDir) dir name) (hn : IsName name) (hdot : stem name ≠ ['.'])
    (hcut : Cut (output input outDir) dir (outputName input name))
    (hp : tree.resolve (output input outDir) = .ok p)
    (hfile : tree.find? p = some (.file content)) :
    ∃ q, p = q ++ [outputName input name] ∧ Lands tree outDir input q name := by
  obtain ⟨ns, hroute, hdir⟩ := h.route tree
  obtain ⟨ns', hroute', hdir'⟩ := hcut.route tree
  obtain rfl : ns = ns' := List.append_cancel_right (hdir.symm.trans hdir')
  obtain ⟨hnul, -, hfollow⟩ := resolve_ok hp
  rw [hroute'] at hfollow
  obtain ⟨hn', q, hq, hqdir, rfl⟩ := follow_file hfollow hfile
  refine ⟨q, rfl, hn, hdot, ⟨ns, hroute, hq⟩, hp, ?_⟩
  obtain ⟨ms, hmap, hdir''⟩ := hcut.map.route tree
  obtain rfl : ns = ms := List.append_cancel_right (hdir.symm.trans hdir'')
  rw [resolve_eq, hmap, follow_append, hq]
  · exact follow_name (isName_of_length (by simp [Path.map])) hqdir []
  · simpa [Path.map] using hnul
  · simp [Path.map]

/-- What is written for an input lands in the directory of its output. -/
theorem lands_of_writeOutputs {dir name : Text} (h : Cut (base input outDir) dir name)
    (hn : IsName name)
    (hwrite : writeOutputs tree (output input outDir) result = (tree', none)) :
    ∃ q, Lands tree' outDir input q name ∧
      Evolves (outputLog result (q ++ [outputName input name])
        (q ++ [Path.map (outputName input name)])) tree tree' := by
  rcases h.output hn with ⟨-, hcut⟩ | ⟨hdot, hcut⟩
  · have hcode : (writeFile tree (output input outDir) result.code).2 = none := by
      cases hmap : result.map with
      | none =>
        rw [congrFun (writeOutputs_none hmap) tree] at hwrite
        exact congrArg Prod.snd hwrite
      | some m =>
        rw [congrFun (writeOutputs_some hmap) tree] at hwrite
        exact Change.ok_of_andThen (congrArg Prod.snd hwrite)
    exact absurd hcode (writeFile_dots hcut tree result.code)
  · cases hmap : result.map with
    | none =>
      rw [congrFun (writeOutputs_none hmap) tree] at hwrite
      obtain ⟨p, hp, hevolves⟩ := evolves_writeFile (by rw [hwrite])
      rw [hwrite] at hp hevolves
      obtain ⟨content, hfile⟩ := hevolves.exists_file (List.mem_singleton_self _)
      obtain ⟨q, rfl, hlands⟩ := lands_of_resolve h hn hdot hcut hp hfile
      exact ⟨q, hlands, by rwa [outputLog, hmap]⟩
    | some m =>
      rw [congrFun (writeOutputs_some hmap) tree] at hwrite
      have hok : (writeFile tree (output input outDir) result.code).2 = none :=
        Change.ok_of_andThen (congrArg Prod.snd hwrite)
      rw [Change.andThen_of_ok hok] at hwrite
      obtain ⟨p, hp, hevolves⟩ := evolves_writeFile hok
      obtain ⟨p', hp', hevolves'⟩ := evolves_writeFile (by rw [hwrite])
      rw [hwrite] at hp' hevolves'
      obtain ⟨content, hfile⟩ := hevolves.exists_file (List.mem_singleton_self _)
      obtain ⟨q, rfl, hlands⟩ := lands_of_resolve h hn hdot hcut hp hfile
      have hgrows : Grows (fun _ => False) _ tree' := hevolves'.grows (by simp)
      have hlands' := hlands.of_grows hgrows
      obtain rfl : p' = q ++ [Path.map (outputName input name)] := by
        simpa using hp'.symm.trans hlands'.map
      exact ⟨q, hlands', by rw [outputLog, hmap]; exact hevolves.trans hevolves'⟩

/-! ### Courses -/

variable {deeds : List Deed}

/-- An input with its result, and where they went. -/
structure Landed where
  input : Input
  result : Compilation
  dir : Place
  name : Text

namespace Landed

def file (l : Landed) : Text := outputName l.input l.name

/-- The deed of the build that it comes from. -/
def deed (l : Landed) : Deed := ⟨l.input, .written l.result⟩

def log (l : Landed) : Log :=
  outputLog l.result (l.dir ++ [l.file]) (l.dir ++ [Path.map l.file])

end Landed

/-- All that a build writes lands, and nothing else changes. -/
theorem Course.lands (h : Course c outDir tree deeds tree')
    (hinputs : ∀ d ∈ deeds, ∃ place name, IsInput tree d.input place name) :
    ∃ ls : List Landed, ls.map Landed.deed = deeds.filter (·.fate.isWritten) ∧
      Evolves (ls.flatMap Landed.log) tree tree' ∧
      ∀ l ∈ ls, Lands tree' outDir l.input l.dir l.name ∧
        ∃ place, IsInput tree' l.input place l.name := by
  induction h with
  | nil => exact ⟨[], rfl, .refl _, by simp⟩
  | @cons tree tree' tree'' d deeds hmeets _ ih =>
    rw [List.forall_mem_cons] at hinputs
    obtain ⟨⟨place, name, hinput⟩, hinputs⟩ := hinputs
    obtain ⟨input, fate⟩ := d
    cases hmeets with
    | skipped => exact ih hinputs
    | failed => exact ih hinputs
    | @written _ result _ _ _ hwrite =>
      obtain ⟨dir, hcut⟩ := hinput.base outDir
      obtain ⟨q, hlands, hevolves⟩ := lands_of_writeOutputs hcut hinput.isName hwrite
      have hgrows : Grows (fun _ => False) tree tree' := hevolves.grows (by simp)
      obtain ⟨ls, hdeeds, hrest, hls⟩ := ih fun d hd =>
        have ⟨p, n, hin⟩ := hinputs d hd
        ⟨p, n, hin.of_grows hgrows⟩
      have hgrows' : Grows (fun _ => False) tree' tree'' := hrest.grows (by simp)
      refine ⟨⟨input, result, q, name⟩ :: ls, ?_, hevolves.trans hrest, ?_⟩
      · rw [List.map_cons, hdeeds]
        rfl
      · rw [List.forall_mem_cons]
        exact ⟨⟨hlands.of_grows hgrows', place, (hinput.of_grows hgrows).of_grows hgrows'⟩, hls⟩

theorem Course.written_sublist (h : Course c outDir tree deeds tree') :
    ((deeds.filter (·.fate.isWritten)).map Deed.input).Sublist
      ((deeds.map Deed.input).filter (c.accepts ·.path)) := by
  rw [List.filter_map]
  refine List.Sublist.map _ ?_
  induction h with
  | nil => exact .slnil
  | @cons _ _ _ d deeds hmeets _ ih =>
    obtain ⟨input, fate⟩ := d
    cases hmeets with
    | skipped haccepts => simpa [Fate.isWritten, haccepts] using ih
    | failed haccepts => simpa [Fate.isWritten, haccepts] using ih.cons _
    | written haccepts => simpa [Fate.isWritten, haccepts] using ih

/-! ### Apart -/

/-- Without two dots, the names that lead on make up the place. -/
theorem follow_down {here p : Place} {ns : List Text} (hns : ['.', '.'] ∉ ns)
    (h : tree.follow here ns = .ok p) : p = here ++ ns.filter leads := by
  induction ns generalizing here with
  | nil =>
    cases h
    simp
  | cons n ns ih =>
    rw [List.mem_cons, not_or] at hns
    obtain ⟨-, ⟨hn, hrest⟩ | ⟨hn, -⟩ | ⟨hn, hrest⟩⟩ := follow_cons h
    · rw [ih hns.2 hrest]
      simp [hn]
    · exact absurd hn.symm hns.1
    · rw [ih hns.2 hrest]
      simp [leads_of_isName hn]

theorem follow_names {here p : Place} {ns : List Text} (hns : ∀ n ∈ ns, IsName n)
    (h : tree.follow here ns = .ok p) : p = here ++ ns := by
  have hdots : ['.', '.'] ∉ ns := fun hmem => (hns _ hmem).ne_dots rfl
  have hleads : ns.filter leads = ns :=
    List.filter_eq_self.mpr fun n hn => leads_of_isName (hns n hn)
  rw [follow_down hdots h, hleads]

/-- Beside a source, the directory of its output is its own. -/
theorem Lands.beside {d p : Place} {n : Text} (h : Lands tree none input d n)
    (hp : IsInput tree input p n) : p = d ++ [n] := by
  obtain ⟨ns, hns, hnsd⟩ := h.base
  obtain ⟨c, hfile⟩ := hp.file
  have hfollow := (resolve_ok hp.resolve).2.2
  rw [show tree.route input.path = ns ++ [n] from hns] at hfollow
  obtain ⟨-, q, hq, -, rfl⟩ := follow_file hfollow hfile
  rw [hnsd] at hq
  cases hq
  rfl

/-- Below the output directory, the names of the relative path lead to the output. -/
theorem Lands.below {dir n : Text} {d p : Place} {root : List Text}
    (hroot : ∀ rel, isAbsolute rel = false → tree.route (join dir rel) = root ++ names rel)
    (h : Lands tree (some dir) input d n) (hp : IsInput tree input p n) :
    ∃ ls, input.rel = ['/'].intercalate (ls ++ [n]) ∧
      ∃ here, tree.follow [] root = .ok here ∧ d = here ++ ls := by
  obtain ⟨ns, hns, hnsd⟩ := h.base
  obtain ⟨ls, hrel, hls⟩ := hp.rel
  have hrelative : isAbsolute input.rel = false := by
    rw [hrel]
    exact intercalate_relative (fun l hl => (hls l hl).1.ne_nil) fun l hl => (hls l hl).2
  rw [show tree.route (Path.base input (some dir)) = _ from hroot input.rel hrelative, hrel,
    names_intercalate (by simp) fun l hl => (hls l hl).2, ← List.append_assoc] at hns
  obtain rfl := List.append_cancel_right hns
  refine ⟨ls, hrel, ?_⟩
  rw [follow_append] at hnsd
  cases hhere : tree.follow [] root with
  | error fault =>
    rw [hhere] at hnsd
    cases hnsd
  | ok here =>
    rw [hhere] at hnsd
    exact ⟨here, rfl, follow_names (fun l hl => (hls l (List.mem_append_left _ hl)).1) hnsd⟩

/-- Outputs of different sources land under different names, or in different directories:
beside sources at different places, or below one directory by different relative paths. -/
theorem Lands.apart {i j : Input} {d e p q : Place} {m n : Text}
    (hi : Lands tree outDir i d m) (hj : Lands tree outDir j e n)
    (hip : IsInput tree i p m) (hjq : IsInput tree j q n)
    (hiext : HasSourceExtension i.path) (hjext : HasSourceExtension j.path) (hpq : p ≠ q)
    (hrel : outDir ≠ none → i.rel ≠ j.rel) : (d, outputName i m) ≠ (e, outputName j n) := by
  intro heq
  obtain ⟨rfl, hname⟩ := Prod.mk.inj heq
  obtain ⟨di, hdi⟩ := hip.path
  obtain ⟨dj, hdj⟩ := hjq.path
  obtain rfl := hiext.name_inj hdi hi.isName hjext hdj hj.isName hname
  cases outDir with
  | none => exact hpq ((hi.beside hip).trans (hj.beside hjq).symm)
  | some dir =>
    obtain ⟨root, -, hroot⟩ := route_join tree dir
    obtain ⟨ls, hils, here, hhere, hd⟩ := hi.below hroot hip
    obtain ⟨ls', hjls, here', hhere', hd'⟩ := hj.below hroot hjq
    rw [hhere] at hhere'
    cases hhere'
    obtain rfl := List.append_cancel_left (hd.symm.trans hd')
    exact hrel (by simp) (hils.trans hjls.symm)

/-! ### Nothing lost -/

theorem outputName_ne_map (input : Input) (name n : Text) : outputName input name ≠ Path.map n := by
  intro heq
  have hout : '.' :: outputExtension input <:+ outputName input name := List.suffix_append _ _
  have hmap : ".map".toList <:+ outputName input name := heq ▸ List.suffix_append n _
  rcases outputExtension_cases input with hext | hext <;> rw [hext] at hout <;>
    rcases List.suffix_or_suffix_of_suffix hout hmap with h | h <;> exact absurd h (by decide)

namespace Landed

/-- In another directory or under another name. -/
def Apart (l m : Landed) : Prop := (l.dir, l.file) ≠ (m.dir, m.file)

theorem mem_log {l : Landed} {w : Place × Text} (h : w ∈ l.log) :
    w.1 = l.dir ++ [l.file] ∨ w.1 = l.dir ++ [Path.map l.file] := by
  rw [log, outputLog] at h
  rcases List.mem_cons.mp h with rfl | h
  · exact .inl rfl
  · split at h
    · cases h
    · obtain rfl := List.mem_singleton.mp h
      exact .inr rfl

theorem not_sourced {l : Landed} {w : Place × Text} (h : w ∈ l.log) : ¬ Sourced w.1 := by
  rcases mem_log h with h | h <;> rw [h, sourced_concat]
  · exact not_isSource_outputName l.input l.name
  · exact not_isSource_map l.file

/-- Outputs and maps of what landed apart are at different places. -/
theorem Apart.places {l m : Landed} (h : l.Apart m) :
    l.dir ++ [l.file] ≠ m.dir ++ [m.file] ∧ l.dir ++ [l.file] ≠ m.dir ++ [Path.map m.file] ∧
      l.dir ++ [Path.map l.file] ≠ m.dir ++ [m.file] ∧
      l.dir ++ [Path.map l.file] ≠ m.dir ++ [Path.map m.file] := by
  have hconcat : ∀ {d e : Place} {x y : Text}, d ++ [x] = e ++ [y] → d = e ∧ x = y := by
    intro d e x y heq
    simpa using List.append_inj' heq rfl
  refine ⟨fun heq => ?_, fun heq => ?_, fun heq => ?_, fun heq => ?_⟩
  · obtain ⟨hd, hx⟩ := hconcat heq
    exact h (by rw [hd, hx])
  · exact outputName_ne_map _ _ _ (hconcat heq).2
  · exact outputName_ne_map _ _ _ (hconcat heq).2.symm
  · obtain ⟨hd, hx⟩ := hconcat heq
    exact h (by rw [hd, List.append_cancel_right hx])

theorem nodup_log (l : Landed) : (l.log.map Prod.fst).Nodup := by
  rw [log, outputLog]
  cases l.result.map with
  | none => simp
  | some m =>
    have hne : l.file ≠ Path.map l.file := outputName_ne_map l.input l.name l.file
    simpa using hne

/-- What landed apart is written at one place each. -/
theorem nodup_logs {ls : List Landed} (h : ls.Pairwise Apart) :
    ((ls.flatMap log).map Prod.fst).Nodup := by
  induction ls with
  | nil => simp
  | cons l ls ih =>
    rw [List.pairwise_cons] at h
    rw [List.flatMap_cons, List.map_append, List.nodup_append]
    refine ⟨l.nodup_log, ih h.2, ?_⟩
    intro p hp q hq
    obtain ⟨w, hw, rfl⟩ := List.mem_map.mp hp
    obtain ⟨v, hv, rfl⟩ := List.mem_map.mp hq
    obtain ⟨m, hm, hv⟩ := List.mem_flatMap.mp hv
    obtain ⟨h₁, h₂, h₃, h₄⟩ := (h.1 m hm).places
    rcases mem_log hw with hw | hw <;> rcases mem_log hv with hv | hv <;> rw [hw, hv] <;> assumption

end Landed

/-- An input never changes what has the name of a source. -/
theorem Meets.grows {fate : Fate} {place : Place} {name : Text}
    (h : Meets c outDir input tree fate tree') (hinput : IsInput tree input place name) :
    Grows Sourced tree tree' := by
  cases h with
  | skipped => exact .refl tree
  | failed => exact .refl tree
  | @written _ result _ _ _ hwrite =>
    obtain ⟨dir, hcut⟩ := hinput.base outDir
    obtain ⟨q, -, hevolves⟩ := lands_of_writeOutputs hcut hinput.isName hwrite
    exact hevolves.grows fun w hw => Landed.not_sourced (l := ⟨input, result, q, name⟩) hw

theorem fate?_of_grows {place : Place} {name : Text} (hinput : IsInput tree input place name)
    (hsource : c.accepts input.path → IsSource input.path) (hg : Grows Sourced tree tree') :
    fate? tree' c input = fate? tree c input := by
  rw [fate?, fate?]
  split
  next haccepts => rw [compileFile_of_grows hinput (hsource haccepts) hg]
  next => rfl

/-- Where only names of sources are accepted, each input meets the fate that it had before the
first was written. -/
theorem Course.fate?_eq (h : Course c outDir tree deeds tree')
    (hinputs : ∀ d ∈ deeds, ∃ place name, IsInput tree d.input place name)
    (hsource : ∀ d ∈ deeds, c.accepts d.input.path → IsSource d.input.path) :
    ∀ d ∈ deeds, fate? tree c d.input = some d.fate := by
  induction h with
  | nil => simp
  | @cons tree tree' tree'' head deeds hmeets _ ih =>
    rw [List.forall_mem_cons] at hinputs hsource ⊢
    obtain ⟨⟨place, name, hhead⟩, hinputs⟩ := hinputs
    have hgrows := hmeets.grows hhead
    refine ⟨hmeets.fate?_eq, fun d hd => ?_⟩
    obtain ⟨p, n, hin⟩ := hinputs d hd
    rw [← fate?_of_grows hin (hsource.2 d hd) hgrows]
    refine ih (fun e he => ?_) hsource.2 d hd
    obtain ⟨p', n', hin'⟩ := hinputs e he
    exact ⟨p', n', hin'.of_grows hgrows⟩

/-- Two outputs are the same where the paths they are named after agree but for the extension,
and what they are compiled to has the same one. -/
theorem output_eq_iff_of_lands {l m : Landed} (hl : Lands tree outDir l.input l.dir l.name)
    (hm : Lands tree outDir m.input m.dir m.name) (hli : ∃ place, IsInput tree l.input place l.name)
    (hmi : ∃ place, IsInput tree m.input place m.name) :
    output l.input outDir = output m.input outDir ↔
      trunk (base l.input outDir) = trunk (base m.input outDir) ∧
        outputExtension l.input = outputExtension m.input := by
  obtain ⟨p, hin⟩ := hli
  obtain ⟨q, hin'⟩ := hmi
  obtain ⟨d, hd⟩ := hin.base outDir
  obtain ⟨e, he⟩ := hin'.base outDir
  exact output_eq_iff hd hl.isName hl.dot he hm.isName hm.dot

theorem pairwise_rel_of_root {root : Text} (h : collectInputs tree [root] = .ok inputs)
    (hfiles : inputs.Pairwise fun i j => tree.resolve i.path ≠ tree.resolve j.path) :
    inputs.Pairwise fun i j => i.rel ≠ j.rel := by
  obtain ⟨first, rest, hfirst, hrest, rfl⟩ := collectInputs_cons h
  cases hrest
  rw [List.append_nil] at hfiles ⊢
  rw [inputsOf] at hfirst
  split at hfirst
  next => cases hfirst
  next =>
    split at hfirst
    next =>
      cases hfirst
      exact List.pairwise_singleton _ _
    next => cases hfirst
  next place _ =>
    cases hfirst
    -- the path of an input is made from the root and the relative path
    refine hfiles.imp_of_mem fun {i j} hi hj hne hrel => hne ?_
    obtain ⟨ns, -, rfl⟩ := List.mem_map.mp hi
    obtain ⟨ms, -, rfl⟩ := List.mem_map.mp hj
    exact congrArg (fun rel => tree.resolve (join root rel)) hrel

/-- What landed apart can be told apart by where its paths lead. -/
theorem pairwise_resolve {ls : List Landed}
    (h : ∀ l ∈ ls, Lands tree outDir l.input l.dir l.name) (hapart : ls.Pairwise Landed.Apart) :
    (ls.map (fun l => output l.input outDir) ++
        (ls.map fun l => output l.input outDir).map Path.map).Pairwise
      fun o o' => tree.resolve o ≠ tree.resolve o' := by
  have hcode : ∀ l ∈ ls, tree.resolve (output l.input outDir) = .ok (l.dir ++ [l.file]) :=
    fun l hl => (h l hl).code
  have hmap : ∀ l ∈ ls, tree.resolve (Path.map (output l.input outDir)) =
      .ok (l.dir ++ [Path.map l.file]) := fun l hl => (h l hl).map
  rw [List.pairwise_append, List.map_map, List.pairwise_map, List.pairwise_map]
  refine ⟨?_, ?_, ?_⟩
  · refine hapart.imp_of_mem fun {l m} hl hm hlm heq => ?_
    rw [hcode l hl, hcode m hm] at heq
    exact hlm.places.1 (Except.ok.inj heq)
  · refine hapart.imp_of_mem fun {l m} hl hm hlm heq => ?_
    simp only [Function.comp_apply, hmap l hl, hmap m hm] at heq
    exact hlm.places.2.2.2 (Except.ok.inj heq)
  · intro o ho o' ho' heq
    obtain ⟨l, hl, rfl⟩ := List.mem_map.mp ho
    obtain ⟨m, hm, rfl⟩ := List.mem_map.mp ho'
    simp only [Function.comp_apply, hcode l hl, hmap m hm] at heq
    have hconcat := List.append_inj' (Except.ok.inj heq) rfl
    exact outputName_ne_map _ _ _ (List.cons.inj hconcat.2).1

theorem grows_of_landed {ls : List Landed} (h : Evolves (ls.flatMap Landed.log) tree tree') :
    Grows Sourced tree tree' := by
  refine h.grows fun w hw => ?_
  obtain ⟨l, -, hw⟩ := List.mem_flatMap.mp hw
  exact Landed.not_sourced hw

theorem source_kept {ls : List Landed} {place : Place} {name : Text}
    (h : Evolves (ls.flatMap Landed.log) tree tree')
    (hls : ∀ l ∈ ls, Lands tree' outDir l.input l.dir l.name) (hin : IsInput tree input place name)
    (hsource : IsSource input.path) :
    tree'.readText input.path = tree.readText input.path ∧ ∀ l ∈ ls,
      tree'.resolve (output l.input outDir) ≠ tree'.resolve input.path ∧
      tree'.resolve (Path.map (output l.input outDir)) ≠ tree'.resolve input.path := by
  have hgrows := grows_of_landed h
  have hplace : Sourced place := hin.sourced.mpr hsource
  refine ⟨readText_of_grows hgrows hin.resolve hin.file hplace, fun l hl => ?_⟩
  rw [(hls l hl).code, (hls l hl).map, resolve_of_grows hgrows hin.resolve]
  constructor <;> intro heq <;> rw [← Except.ok.inj heq, sourced_concat] at hplace
  · exact not_isSource_outputName _ _ hplace
  · exact not_isSource_map _ hplace

theorem pairwise_apart {ls : List Landed} {accepted : List Input}
    (hls : ∀ l ∈ ls, Lands tree outDir l.input l.dir l.name ∧
      ∃ place, IsInput tree l.input place l.name)
    (hsub : (ls.map Landed.input).Sublist accepted)
    (hext : ∀ i ∈ accepted, HasSourceExtension i.path)
    (hfiles : accepted.Pairwise fun i j => tree.resolve i.path ≠ tree.resolve j.path)
    (hrel : outDir ≠ none → accepted.Pairwise fun i j => i.rel ≠ j.rel) :
    ls.Pairwise Landed.Apart := by
  have hrel' : accepted.Pairwise fun i j => outDir ≠ none → i.rel ≠ j.rel := by
    by_cases hout : outDir = none
    · exact hfiles.imp fun _ h => absurd hout h
    · exact (hrel hout).imp fun h _ => h
  have hpair := List.pairwise_map.mp ((hfiles.and hrel').sublist hsub)
  refine hpair.imp_of_mem fun {l m} hl hm hne => ?_
  obtain ⟨hlands, p, hin⟩ := hls l hl
  obtain ⟨hlands', q, hin'⟩ := hls m hm
  have hmem : ∀ k ∈ ls, k.input ∈ accepted := fun k hk =>
    hsub.subset (List.mem_map_of_mem hk)
  refine hlands.apart hlands' hin hin' (hext _ (hmem l hl)) (hext _ (hmem m hm)) ?_ hne.2
  rintro rfl
  exact hne.1 (hin.resolve.trans hin'.resolve.symm)

/-- What landed apart is there in the end. -/
theorem readText_of_apart {ls : List Landed} (h : Evolves (ls.flatMap Landed.log) tree tree')
    (hapart : ls.Pairwise Landed.Apart) {l : Landed} (hl : l ∈ ls)
    (hlands : Lands tree' outDir l.input l.dir l.name) :
    tree'.readText (output l.input outDir) = .ok l.result.code ∧
      ∀ m, l.result.map = some m →
        tree'.readText (Path.map (output l.input outDir)) = .ok m := by
  have hthere : ∀ w ∈ l.log, tree'.find? w.1 = some (.file (.text w.2)) := by
    intro w hw
    have hmem : w ∈ ls.flatMap Landed.log := List.mem_flatMap.mpr ⟨l, hl, hw⟩
    rw [h.file_iff, lastAt_of_nodup (Landed.nodup_logs hapart) hmem]
  refine ⟨readText_ok.mpr ⟨_, hlands.code, ?_⟩, fun m hm => readText_ok.mpr ⟨_, hlands.map, ?_⟩⟩
  · exact hthere _ List.mem_cons_self
  · exact hthere (l.dir ++ [Path.map l.file], m) (by simp [Landed.log, outputLog, hm])

/-- What a build without a failure overwrites. The outputs it reports are those of the inputs
that are accepted and compile when their turn comes; two of them are the same exactly where the
paths they are named after agree but for the extension, and the outputs have the same one. Where
all accepted inputs have names of sources, these compile as they did before the build and are
left as they are. Where they are told by their extension, are different files, and lie beside
their outputs, under one root, or under different relative paths, no output or map takes the
place of another, and each holds in the end what its source was compiled to. -/
theorem buildRoots_overwrites {tree : Tree} {c : Compiler} {roots : List Text}
    {outDir : Option Text} {inputs : List Input} {b : Building} (hp : tree.Proper)
    (hcollect : collectInputs tree roots = .ok inputs)
    (hbuild : buildRoots tree c roots outDir = (b, none)) :
    let accepted := inputs.filter (c.accepts ·.path)
    ∃ deeds, deeds.map Deed.input = inputs ∧ Course c outDir tree deeds b.tree ∧
      let done := (deeds.filter (·.fate.isWritten)).map Deed.input
      b.report.written = done.map (output · outDir) ∧
      (∀ i ∈ done, ∀ j ∈ done, output i outDir = output j outDir ↔
        trunk (base i outDir) = trunk (base j outDir) ∧ outputExtension i = outputExtension j) ∧
      ((∀ i ∈ accepted, IsSource i.path) →
        done = accepted.filter (compiles tree c) ∧
        ∀ i ∈ accepted, b.tree.readText i.path = tree.readText i.path ∧
          ∀ o ∈ b.report.written, b.tree.resolve o ≠ b.tree.resolve i.path ∧
            b.tree.resolve (Path.map o) ≠ b.tree.resolve i.path) ∧
      ((∀ i ∈ accepted, HasSourceExtension i.path) →
        inputs.Pairwise (fun i j => tree.resolve i.path ≠ tree.resolve j.path) →
        outDir = none ∨ roots.length = 1 ∨ accepted.Pairwise (fun i j => i.rel ≠ j.rel) →
        (b.report.written ++ b.report.written.map Path.map).Pairwise
          (fun o o' => b.tree.resolve o ≠ b.tree.resolve o') ∧
        ∀ i ∈ accepted, ∀ result, compileFile tree c i.path true = .ok result →
          result.isOk = true →
          b.tree.readText (output i outDir) = .ok result.code ∧
          ∀ m, result.map = some m → b.tree.readText (Path.map (output i outDir)) = .ok m) := by
  intro accepted
  rw [buildRoots, hcollect] at hbuild
  obtain ⟨deeds, rfl, hcourse, -, hreport⟩ := course_of_buildFiles hbuild
  have hinputs : ∀ i ∈ deeds.map Deed.input, ∃ place name, IsInput tree i place name :=
    isInput_of_collectInputs hp hcollect
  have hdeeds : ∀ d ∈ deeds, ∃ place name, IsInput tree d.input place name := fun d hd =>
    hinputs d.input (List.mem_map_of_mem hd)
  obtain ⟨ls, hdone, hevolves, hls⟩ := hcourse.lands hdeeds
  have hlanded : (deeds.filter (·.fate.isWritten)).map Deed.input = ls.map Landed.input := by
    rw [← hdone, List.map_map]
    rfl
  have hsub : (ls.map Landed.input).Sublist accepted := hlanded ▸ hcourse.written_sublist
  have hlands : ∀ l ∈ ls, Lands b.tree outDir l.input l.dir l.name := fun l hl => (hls l hl).1
  have hwritten : b.report.written = ls.map fun l => output l.input outDir := by
    rw [hreport.written, filterMap_output?, hlanded, List.map_map]
    rfl
  refine ⟨deeds, rfl, hcourse, ?_, fun i hi j hj => ?_, fun hsource => ?_,
    fun hext hfiles hrel => ?_⟩
  · rw [hwritten, hlanded, List.map_map]
    rfl
  · rw [hlanded] at hi hj
    obtain ⟨l, hl, rfl⟩ := List.mem_map.mp hi
    obtain ⟨m, hm, rfl⟩ := List.mem_map.mp hj
    exact output_eq_iff_of_lands (hlands l hl) (hlands m hm) (hls l hl).2 (hls m hm).2
  · refine ⟨?_, fun i hi => ?_⟩
    · have hfates := hcourse.fate?_eq hdeeds fun d hd haccepts =>
        hsource d.input (List.mem_filter.mpr ⟨List.mem_map_of_mem hd, haccepts⟩)
      rw [List.filter_filter, List.filter_map]
      refine congrArg _ (List.filter_congr fun d hd => ?_)
      rw [isWritten_of_fate? (hfates d hd), Bool.and_comm]
      rfl
    · obtain ⟨place, name, hin⟩ := hinputs i (List.mem_filter.mp hi).1
      obtain ⟨hread, hapart⟩ := source_kept hevolves hlands hin (hsource i hi)
      refine ⟨hread, fun o ho => ?_⟩
      rw [hwritten] at ho
      obtain ⟨l, hl, rfl⟩ := List.mem_map.mp ho
      exact hapart l hl
  · have haccepted : ∀ i ∈ accepted, ∃ place name, IsInput tree i place name := fun i hi =>
      hinputs i (List.mem_filter.mp hi).1
    have hgrows := grows_of_landed hevolves
    have hfiles' : accepted.Pairwise fun i j => b.tree.resolve i.path ≠ b.tree.resolve j.path := by
      refine (hfiles.sublist List.filter_sublist).imp_of_mem fun {i j} hi hj hne => ?_
      obtain ⟨p, m, hin⟩ := haccepted i hi
      obtain ⟨q, n, hin'⟩ := haccepted j hj
      rwa [hin.resolve, hin'.resolve, ← resolve_of_grows hgrows hin.resolve,
        ← resolve_of_grows hgrows hin'.resolve] at hne
    have hrel' : outDir ≠ none → accepted.Pairwise fun i j => i.rel ≠ j.rel := by
      intro hout
      rcases hrel with hnone | hone | hpairwise
      · exact absurd hnone hout
      · obtain ⟨root, rfl⟩ := List.length_eq_one_iff.mp hone
        exact (pairwise_rel_of_root hcollect hfiles).sublist List.filter_sublist
      · exact hpairwise
    have hapart := pairwise_apart hls hsub hext hfiles' hrel'
    refine ⟨?_, fun i hi result hcompile hok => ?_⟩
    · rw [hwritten]
      exact pairwise_resolve hlands hapart
    · have hsource : ∀ d ∈ deeds, c.accepts d.input.path → IsSource d.input.path := by
        intro d hd haccepts
        obtain ⟨place, name, hin⟩ := hdeeds d hd
        obtain ⟨dir, hcut⟩ := hin.path
        exact (hext d.input (List.mem_filter.mpr ⟨List.mem_map_of_mem hd, haccepts⟩)).isSource hcut
          hin.isName
      obtain ⟨hmem, haccepts⟩ := List.mem_filter.mp hi
      obtain ⟨d, hd, rfl⟩ := List.mem_map.mp hmem
      -- the fate before the build is the one in the course of it
      have hfate : fate? tree c d.input = some (.written result) := by
        simp [fate?, haccepts, hcompile, hok]
      have hd' : d = ⟨d.input, .written result⟩ := by
        have heq := Option.some.inj ((hcourse.fate?_eq hdeeds hsource d hd).symm.trans hfate)
        rw [← heq]
      have hlog : d ∈ ls.map Landed.deed := by
        rw [hdone, List.mem_filter]
        exact ⟨hd, by rw [hd']; rfl⟩
      obtain ⟨l, hl, heq⟩ := List.mem_map.mp hlog
      obtain ⟨hinput, hresult⟩ : l.input = d.input ∧ l.result = result := by
        rw [hd'] at heq
        simpa [Landed.deed] using heq
      rw [← hinput, ← hresult]
      exact readText_of_apart hevolves hapart hl (hlands l hl)

/-- A tree of texts with its working directory. -/
def textTree (home : List String) (files : List (List String × String)) : Tree :=
  ⟨files.map fun f => (f.1.map String.toList, .file (.text f.2.toList)), home.map String.toList⟩

/-- Sources of both kinds, one of them further down, outside of the working directory. -/
def threeSources : Tree :=
  textTree ["srv", "work"] [(["srv", "src", "a.bs"], "let a = 1"),
    (["srv", "src", "a.bsx"], "let b = 2"), (["srv", "src", "lib", "a.bs"], "let c = x |> f")]

def threeInputs : List Input :=
  [⟨"/srv/src/a.bs".toList, "a.bs".toList⟩, ⟨"/srv/src/a.bsx".toList, "a.bsx".toList⟩,
    ⟨"/srv/src/lib/a.bs".toList, "lib/a.bs".toList⟩]

/-- Under one root, sources that differ in kind or directory have outputs of their own. -/
theorem buildRoots_overwrites_nothing :
    let roots := ["/srv/src".toList]
    let outDir := some "../out".toList
    ∃ c b, Compiler.ofOptions .default = .ok c ∧ threeSources.Proper ∧
      collectInputs threeSources roots = .ok threeInputs ∧
      buildRoots threeSources c roots outDir = (b, none) ∧
      (∀ i ∈ threeInputs.filter (c.accepts ·.path), HasSourceExtension i.path) ∧
      threeInputs.Pairwise (fun i j => threeSources.resolve i.path ≠ threeSources.resolve j.path) ∧
      b.report.written = ["../out/a.ts".toList, "../out/a.tsx".toList, "../out/lib/a.ts".toList] ∧
      (b.report.written ++ b.report.written.map Path.map).Pairwise
        (fun o o' => b.tree.resolve o ≠ b.tree.resolve o') := by
  intro roots outDir
  obtain ⟨c, hc, hbuilt⟩ := exists_ok_of_map (x := Compiler.ofOptions .default)
    (f := fun c =>
      let built := buildRoots threeSources c roots outDir
      (built.2, built.1.report.written))
    (b := (none, ["../out/a.ts".toList, "../out/a.tsx".toList, "../out/lib/a.ts".toList]))
    (by decide +kernel)
  rw [Prod.mk.injEq] at hbuilt
  have hproper : threeSources.Proper := by decide +kernel
  have hcollect : collectInputs threeSources roots = .ok threeInputs := by rfl
  have hall : ∀ i ∈ threeInputs, HasSourceExtension i.path := by decide +kernel
  have hext : ∀ i ∈ threeInputs.filter (c.accepts ·.path), HasSourceExtension i.path :=
    fun i hi => hall i (List.mem_filter.mp hi).1
  have hfiles : threeInputs.Pairwise
      fun i j => threeSources.resolve i.path ≠ threeSources.resolve j.path := by
    decide +kernel
  have hbuild : buildRoots threeSources c roots outDir =
      ((buildRoots threeSources c roots outDir).1, none) := Prod.ext rfl hbuilt.1
  obtain ⟨-, -, -, -, -, -, hapart⟩ := buildRoots_overwrites hproper hcollect hbuild
  exact ⟨c, _, hc, hproper, hcollect, hbuild, hext, hfiles, hbuilt.2,
    (hapart hext hfiles (.inr (.inl rfl))).1⟩

/-- A build that overwrites what it wrote before or what it was to read: for inputs that are
different files it reports no failure, but the same output twice, or an output that is an
input. -/
def Overwrites (options : Options) (tree : Tree) (roots : List Text) (outDir : Option Text) :
    Prop :=
  ∃ c inputs, Compiler.ofOptions options = .ok c ∧ collectInputs tree roots = .ok inputs ∧
    inputs.Pairwise (fun i j => tree.resolve i.path ≠ tree.resolve j.path) ∧
    (buildRoots tree c roots outDir).2 = none ∧
    (¬ (buildRoots tree c roots outDir).1.report.written.Nodup ∨
      ∃ i ∈ inputs, i.path ∈ (buildRoots tree c roots outDir).1.report.written)

theorem overwrites_of_inputs {options : Options} {roots : List Text} (inputs : List Input)
    (written : List Text) (hcollect : collectInputs tree roots = .ok inputs)
    (hfiles : inputs.Pairwise fun i j => tree.resolve i.path ≠ tree.resolve j.path)
    (hbuild : (Compiler.ofOptions options).toOption.map (fun c =>
      ((buildRoots tree c roots outDir).2, (buildRoots tree c roots outDir).1.report.written)) =
        some (none, written))
    (h : ¬ written.Nodup ∨ ∃ i ∈ inputs, i.path ∈ written) :
    Overwrites options tree roots outDir := by
  obtain ⟨c, hc, hbuilt⟩ := exists_ok_of_map hbuild
  rw [Prod.mk.injEq] at hbuilt
  refine ⟨c, inputs, hc, hcollect, hfiles, hbuilt.1, ?_⟩
  rwa [hbuilt.2]

/-- Files of one name under two roots, a name that is all extension beside one that has it
twice, a file of another kind that is accepted, and one that is only skipped. -/
theorem overwrites_of_names :
    Overwrites .default (textTree [] [(["a", "x.bs"], "let a = 1"), (["b", "x.bs"], "let b = 2")])
      ["a".toList, "b".toList] (some "out".toList) ∧
    Overwrites .default (textTree [] [([".bs"], "let a = 1"), ([".bs.bs"], "let b = 2")])
      [".".toList] none ∧
    Overwrites { Options.default with included := ["/\\.ts$/".toList] }
      (textTree [] [(["a.ts"], "let a = 1")]) [".".toList] none ∧
    Overwrites .default (textTree [] [(["a.bs"], "let a = 1"), (["a.ts"], "const a = 0")])
      [".".toList] none := by
  refine ⟨?_, ?_, ?_, ?_⟩
  · exact overwrites_of_inputs
      [⟨"a/x.bs".toList, "x.bs".toList⟩, ⟨"b/x.bs".toList, "x.bs".toList⟩]
      ["out/x.ts".toList, "out/x.ts".toList] rfl (by decide +kernel) (by decide +kernel)
      (.inl (by decide))
  · exact overwrites_of_inputs
      [⟨"./.bs".toList, ".bs".toList⟩, ⟨"./.bs.bs".toList, ".bs.bs".toList⟩]
      ["./.bs.ts".toList, "./.bs.ts".toList] rfl (by decide +kernel) (by decide +kernel)
      (.inl (by decide))
  · exact overwrites_of_inputs [⟨"./a.ts".toList, "a.ts".toList⟩] ["./a.ts".toList] rfl
      (by decide +kernel) (by decide +kernel) (.inr ⟨_, List.mem_singleton_self _, by decide⟩)
  · exact overwrites_of_inputs
      [⟨"./a.bs".toList, "a.bs".toList⟩, ⟨"./a.ts".toList, "a.ts".toList⟩] ["./a.ts".toList] rfl
      (by decide +kernel) (by decide +kernel) (.inr (by decide))

end Command

end Desugar
