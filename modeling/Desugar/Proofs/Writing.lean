import Desugar.Command.Run
import Desugar.Proofs.Growth

/-! Writing files. A change of a tree repeats itself if, made once more on what grew out of its
result, it puts the same texts at the same places and ends alike. Changes that repeat
themselves can be made one after the other; a file is written by making its directory and then
putting its text there. -/
namespace Desugar

namespace Command

open Desugar.Tree Desugar.Path

variable {tree tree' : Tree}

/-! ### Writing files -/

/-- A change of a tree that may fail on the way. -/
abbrev Change := Tree → Tree × Option Failure

/-- The change puts the texts of the log in the tree, none of them at a `kept` place. Made
once more, on what grew out of its result, it puts the same texts again and ends alike. -/
structure Repeats (kept : Place → Prop) (change : Change) (tree : Tree) (log : Log) : Prop where
  evolves : Evolves log tree (change tree).1
  unkept : ∀ w ∈ log, ¬ kept w.1
  again {tree' : Tree} : Grows kept (change tree).1 tree' →
    (change tree').1 = replay tree' log ∧ (change tree').2.isSome = (change tree).2.isSome

/-- One change, and where it does not fail another one. -/
def Change.andThen (change change' : Change) : Change := fun tree =>
  match change tree with
  | (tree, none) => change' tree
  | failed => failed

theorem Change.andThen_of_ok {change change' : Change} (h : (change tree).2 = none) :
    change.andThen change' tree = change' (change tree).1 := by
  have heq : change tree = ((change tree).1, none) := Prod.ext rfl h
  rw [Change.andThen, heq]

theorem Change.andThen_of_fails {change change' : Change} (h : (change tree).2 ≠ none) :
    change.andThen change' tree = change tree := by
  rw [Change.andThen]
  split
  next heq => exact absurd (congrArg Prod.snd heq) h
  next => rfl

theorem Change.ok_of_andThen {change change' : Change}
    (h : (change.andThen change' tree).2 = none) : (change tree).2 = none :=
  Decidable.byContradiction fun hfail => hfail (Change.andThen_of_fails hfail ▸ h)

namespace Repeats

variable {kept : Place → Prop} {change change' : Change} {log log' : Log}

theorem grows (h : Repeats kept change tree log) : Grows kept tree (change tree).1 :=
  h.evolves.grows h.unkept

theorem same (h : ∀ tree', Grows kept tree tree' → (change tree').1 = tree' ∧
    (change tree').2.isSome = (change tree).2.isSome) : Repeats kept change tree [] := by
  have hself : (change tree).1 = tree := (h tree (.refl tree)).1
  refine ⟨?_, by simp, fun hgrows => h _ (hself ▸ hgrows)⟩
  rw [hself]
  exact .refl tree

theorem andThen_fails (h : Repeats kept change tree log) (hfail : (change tree).2 ≠ none) :
    Repeats kept (change.andThen change') tree log := by
  constructor
  · rw [Change.andThen_of_fails hfail]
    exact h.evolves
  · exact h.unkept
  · intro tree' hgrows
    rw [Change.andThen_of_fails hfail] at hgrows ⊢
    obtain ⟨htree, hends⟩ := h.again hgrows
    have hfail' : (change tree').2 ≠ none := by
      rw [← Option.isSome_iff_ne_none] at hfail ⊢
      exact hends.trans hfail
    rw [Change.andThen_of_fails hfail']
    exact ⟨htree, hends⟩

/-- One change after the other is made again by making the one and the other again. -/
theorem andThen (h : Repeats kept change tree log) (hok : (change tree).2 = none)
    (h' : Repeats kept change' (change tree).1 log') :
    Repeats kept (change.andThen change') tree (log ++ log') := by
  constructor
  · rw [Change.andThen_of_ok hok]
    exact h.evolves.trans h'.evolves
  · intro w hw
    exact (List.mem_append.mp hw).elim (h.unkept w) (h'.unkept w)
  · intro tree' hgrows
    rw [Change.andThen_of_ok hok] at hgrows ⊢
    obtain ⟨htree, hends⟩ := h.again (h'.grows.trans hgrows)
    have hok' : (change tree').2 = none := by
      rw [hok] at hends
      simpa using hends
    -- the texts of the first change go where there are files already
    have hfiles : ∀ w ∈ log, ∃ c, tree'.find? w.1 = some (.file c) := by
      intro w hw
      obtain ⟨c, hc⟩ := h.evolves.exists_file hw
      obtain ⟨c', hc', -⟩ := (h'.grows.trans hgrows).file hc
      exact ⟨c', hc'⟩
    obtain ⟨htree', hends'⟩ := h'.again (hgrows.trans (grows_replay h.unkept hfiles))
    rw [Change.andThen_of_ok hok', htree]
    refine ⟨?_, hends'⟩
    rw [htree', replay, replay, replay, List.foldl_append]

end Repeats

section WriteFile

variable {kept : Place → Prop} {path : Text}

/-- Makes the directory of a path. -/
def makeRoom (path : Text) : Change := fun tree =>
  match tree.makeParent path with
  | (tree, some fault) => (tree, some (.makingDirectory path fault))
  | (tree, none) => (tree, none)

/-- Puts a text where a path leads. -/
def putText (path text : Text) : Change := fun tree =>
  match tree.writeText path text with
  | .error fault => (tree, some (.writing path fault))
  | .ok tree => (tree, none)

/-- A file is written by making its directory and then putting its text there. -/
theorem writeFile_eq (path text : Text) :
    (fun tree => writeFile tree path text) = (makeRoom path).andThen (putText path text) := by
  funext tree
  rw [writeFile, Change.andThen, makeRoom]
  rcases tree.makeParent path with ⟨t, _ | fault⟩ <;> rfl

theorem makeRoom_ok (h : (makeRoom path tree).2 = none) :
    tree.makeParent path = ((makeRoom path tree).1, none) := by
  rcases hparent : tree.makeParent path with ⟨t, _ | fault⟩
  · rw [makeRoom, hparent]
  · rw [makeRoom, hparent] at h
    cases h

theorem repeats_makeRoom (path : Text) (tree : Tree) : Repeats kept (makeRoom path) tree [] := by
  have hfst : ∀ t, (makeRoom path t).1 = (t.makeParent path).1 := by
    intro t
    rw [makeRoom]
    rcases t.makeParent path with ⟨t, _ | fault⟩ <;> rfl
  have hsnd : ∀ t, (makeRoom path t).2.isSome = (t.makeParent path).2.isSome := by
    intro t
    rw [makeRoom]
    rcases t.makeParent path with ⟨t, _ | fault⟩ <;> rfl
  rcases makeParent_cases tree.home path with ⟨fault, hstay⟩ | ⟨ns, hmake⟩
  · exact .same fun t hgrows => by simp [hfst, hsnd, hstay t hgrows.home, hstay tree rfl]
  · have hfirst := hmake tree rfl
    refine ⟨?_, by simp, fun {t} hgrows => ?_⟩
    · rw [hfst, hfirst]
      exact evolves_makeDirectories tree false [] ns
    · rw [hfst, hfirst] at hgrows
      have hmade : Grows kept tree _ := (evolves_makeDirectories tree false [] ns).grows (by simp)
      rw [hfst, hsnd, hsnd, hfirst, hmake t (hmade.trans hgrows).home]
      exact makeDirectories_again false hgrows

theorem putText_error {fault : FileFault} (h : tree.resolve path = .error fault) (text : Text) :
    putText path text tree = (tree, some (.writing path fault)) := by
  rw [putText, writeText, h]
  rfl

theorem putText_directory {p : Place} (h : tree.resolve path = .ok p)
    (hp : tree.find? p = some .directory) (text : Text) :
    putText path text tree = (tree, some (.writing path .isDirectory)) := by
  have hwrite : tree.writeText path text = .error .isDirectory := by
    rw [writeText, h]
    simp only [bind, Except.bind, hp]
  rw [putText, hwrite]

theorem putText_ok {p : Place} (h : tree.resolve path = .ok p)
    (hp : tree.find? p ≠ some .directory) (text : Text) :
    putText path text tree = (tree.put p (.file (.text text)), none) := by
  have hwrite : tree.writeText path text = .ok (tree.put p (.file (.text text))) := by
    rw [writeText, h]
    -- `hp` rules out the branch of directories
    simp only [bind, Except.bind]
    rfl
  rw [putText, hwrite]

/-- Where a path leads to a place, its text is put again at that place. -/
theorem repeats_putText {p : Place} (h : tree.resolve path = .ok p) (hk : ¬ kept p)
    (text : Text) :
    Repeats kept (putText path text) tree
      (if tree.find? p = some .directory then [] else [(p, text)]) := by
  by_cases hp : tree.find? p = some .directory
  · rw [if_pos hp]
    refine .same fun t hgrows => ?_
    rw [putText_directory h hp, putText_directory (resolve_of_grows hgrows h) (hgrows.directory hp)]
    exact ⟨rfl, rfl⟩
  · rw [if_neg hp]
    constructor
    · rw [putText_ok h hp]
      exact .write hp (.refl _)
    · simpa using hk
    · rw [putText_ok h hp]
      intro tree' hgrows
      have hfile : (tree.put p (.file (.text text))).find? p = some (.file (.text text)) := by
        rw [find?_put, if_pos rfl]
      obtain ⟨c, hc, -⟩ := hgrows.file hfile
      have hresolve := resolve_of_grows ((Grows.put_file hp hk (.text text)).trans hgrows) h
      rw [putText_ok hresolve (by simp [hc])]
      exact ⟨rfl, rfl⟩

/-- Two dots lead to a directory, if anywhere. -/
theorem putText_dots {dir : Text} (h : Cut path dir ['.', '.']) (tree : Tree) (text : Text) :
    ∃ failure, putText path text tree = (tree, some failure) := by
  cases hresolve : tree.resolve path with
  | error fault => exact ⟨_, putText_error hresolve text⟩
  | ok p =>
    obtain ⟨ns, hroute, -⟩ := h.route tree
    have hfollow := (resolve_ok hresolve).2.2
    rw [hroute] at hfollow
    exact ⟨_, putText_directory hresolve (directory_of_dots hfollow) text⟩

/-- Nothing is written at two dots, though directories may be made on the way. -/
theorem writeFile_dots {dir : Text} (h : Cut path dir ['.', '.']) (tree : Tree) (text : Text) :
    (writeFile tree path text).2 ≠ none := by
  rw [congrFun (writeFile_eq path text) tree]
  by_cases hok : (makeRoom path tree).2 = none
  · obtain ⟨failure, hfailure⟩ := putText_dots h (makeRoom path tree).1 text
    rw [Change.andThen_of_ok hok, hfailure]
    simp
  · rwa [Change.andThen_of_fails hok]

theorem repeats_writeFile_dots {dir : Text} (h : Cut path dir ['.', '.']) (tree : Tree)
    (text : Text) : Repeats kept (fun tree => writeFile tree path text) tree [] := by
  rw [writeFile_eq]
  have hroom : Repeats kept (makeRoom path) tree [] := repeats_makeRoom path tree
  by_cases hok : (makeRoom path tree).2 = none
  · refine hroom.andThen hok (.same fun t _ => ?_)
    obtain ⟨failure, hfailure⟩ := putText_dots h t text
    obtain ⟨failure', hfailure'⟩ := putText_dots h (makeRoom path tree).1 text
    rw [hfailure, hfailure']
    exact ⟨rfl, rfl⟩
  · exact hroom.andThen_fails hok

/-- Writing a file can be made again where its name stands at no kept place. -/
theorem repeats_writeFile {dir name : Text} (h : Cut path dir name) (hn : IsName name)
    (hk : ∀ q, ¬ kept (q ++ [name])) (hroot : tree.find? [] = some .directory) (text : Text) :
    ∃ log, Repeats kept (fun tree => writeFile tree path text) tree log := by
  rw [writeFile_eq]
  have hroom : Repeats kept (makeRoom path) tree [] := repeats_makeRoom path tree
  by_cases hok : (makeRoom path tree).2 = none
  · have hparent := makeRoom_ok hok
    by_cases hnul : '\x00' ∈ path
    · have htext : Repeats kept (putText path text) (makeRoom path tree).1 [] := by
        refine .same fun t _ => ?_
        rw [putText_error (resolve_nul hnul t), putText_error (resolve_nul hnul _)]
        exact ⟨rfl, rfl⟩
      exact ⟨_, hroom.andThen hok htext⟩
    · obtain ⟨q, hq⟩ := resolve_makeParent h hn hroot (by rw [hparent]) hnul
      rw [hparent] at hq
      exact ⟨_, hroom.andThen hok (repeats_putText hq (hk q) text)⟩
  · exact ⟨[], hroom.andThen_fails hok⟩

theorem putText_none {text : Text} (h : (putText path text tree).2 = none) :
    ∃ p, tree.resolve path = .ok p ∧ tree.find? p ≠ some .directory := by
  cases hresolve : tree.resolve path with
  | error fault =>
    rw [putText_error hresolve] at h
    cases h
  | ok p =>
    refine ⟨p, rfl, fun hp => ?_⟩
    rw [putText_directory hresolve hp] at h
    cases h

theorem writeFile_none {text : Text} (h : (writeFile tree path text).2 = none) :
    (makeRoom path tree).2 = none ∧ (putText path text (makeRoom path tree).1).2 = none ∧
      (writeFile tree path text).1 = (putText path text (makeRoom path tree).1).1 := by
  rw [congrFun (writeFile_eq path text) tree] at h ⊢
  by_cases hok : (makeRoom path tree).2 = none
  · rw [Change.andThen_of_ok hok] at h ⊢
    exact ⟨hok, h, rfl⟩
  · rw [Change.andThen_of_fails hok] at h
    exact absurd h hok

/-- What was written stands where its path leads. -/
theorem evolves_writeFile {text : Text} (h : (writeFile tree path text).2 = none) :
    ∃ p, (writeFile tree path text).1.resolve path = .ok p ∧
      Evolves [(p, text)] tree (writeFile tree path text).1 := by
  obtain ⟨-, htext, htree⟩ := writeFile_none h
  obtain ⟨p, hp, hdir⟩ := putText_none htext
  have hroom : Repeats (fun _ => False) (makeRoom path) tree [] := repeats_makeRoom path tree
  rw [putText_ok hp hdir] at htree
  refine ⟨p, ?_, ?_⟩
  · rw [htree]
    have hgrows : Grows (fun _ => False) _ _ := .put_file hdir id (.text text)
    exact resolve_of_grows hgrows hp
  · rw [htree]
    exact hroom.evolves.trans (.write hdir (.refl _))

end WriteFile

end Command

end Desugar
