import Desugar.Proofs.Building
import Desugar.Proofs.Compilation
import Desugar.Proofs.Slice

/-! Commands on one file. Checking, building, printing and listing dependencies each read and
compile the file on their own. They come to the same result, and a build writes what the
others print. -/
namespace Desugar

namespace Tree

variable {tree tree' : Tree}

theorem readText_ok {path text : Text} :
    tree.readText path = .ok text ↔
      ∃ p, tree.resolve path = .ok p ∧ tree.find? p = some (.file (.text text)) := by
  constructor
  · intro h
    rw [readText] at h
    cases hlookup : tree.lookup path with
    | error fault =>
      rw [hlookup] at h
      cases h
    | ok found =>
      rw [hlookup] at h
      obtain ⟨p, _ | _ | _⟩ := found <;> cases h
      exact ⟨p, lookup_ok.mp hlookup⟩
  · rintro ⟨p, hp⟩
    rw [readText, lookup_ok.mpr hp]
    rfl

/-- The files of both trees are the same except at some places. -/
def SameFiles (places : List Place) (tree tree' : Tree) : Prop :=
  ∀ p ∉ places, ∀ c, tree'.find? p = some (.file c) ↔ tree.find? p = some (.file c)

theorem lastAt_eq_none {p : Place} {log : Log} (h : p ∉ log.map Prod.fst) :
    lastAt p log = none := by
  induction log with
  | nil => rfl
  | cons w log ih =>
    rw [List.map_cons, List.mem_cons, not_or] at h
    rw [lastAt, ih h.2, if_neg h.1]
    rfl

theorem Evolves.sameFiles {log : Log} (h : Evolves log tree tree') :
    SameFiles (log.map Prod.fst) tree tree' := by
  intro p hp c
  rw [h.file_iff, lastAt_eq_none hp]

end Tree

namespace Command

open Desugar.Tree Desugar.Path

variable {tree : Tree} {c : Compiler} {file path text : Text} {outDir : Option Text}

/-! ### Where a file can be written -/

/-- A file can be written there. -/
def Writable (tree : Tree) (path : Text) : Prop := (writeFile tree path []).2 = none

instance (tree : Tree) (path : Text) : Decidable (Writable tree path) :=
  inferInstanceAs (Decidable (_ = _))

theorem writable_iff :
    Writable tree path ↔ (makeRoom path tree).2 = none ∧
      ∃ p, (makeRoom path tree).1.resolve path = .ok p ∧
        (makeRoom path tree).1.find? p ≠ some .directory := by
  constructor
  · intro h
    obtain ⟨hroom, htext, -⟩ := writeFile_none h
    exact ⟨hroom, putText_none htext⟩
  · rintro ⟨hroom, p, hp, hdir⟩
    rw [Writable, congrFun (writeFile_eq path []) tree, Change.andThen_of_ok hroom,
      putText_ok hp hdir]

theorem Writable.writeFile (h : Writable tree path) (text : Text) :
    ∃ p, (makeRoom path tree).1.resolve path = .ok p ∧
      (makeRoom path tree).1.find? p ≠ some .directory ∧
      writeFile tree path text = ((makeRoom path tree).1.put p (.file (.text text)), none) := by
  obtain ⟨hroom, p, hp, hdir⟩ := writable_iff.mp h
  refine ⟨p, hp, hdir, ?_⟩
  rw [congrFun (writeFile_eq path text) tree, Change.andThen_of_ok hroom, putText_ok hp hdir]

theorem Writable.ok (h : Writable tree path) (text : Text) :
    (Command.writeFile tree path text).2 = none := by
  obtain ⟨p, -, -, hwrite⟩ := h.writeFile text
  rw [hwrite]

/-- A map needs no other directory than its output. -/
theorem makeParent_map {dir name : Text} (h : Cut path dir name) (hn : IsName name) (tree : Tree) :
    tree.makeParent (Path.map path) = tree.makeParent path := by
  obtain ⟨ns, hroute, hdir⟩ := h.route tree
  obtain ⟨ms, hroute', hdir'⟩ := h.map.route tree
  obtain rfl : ns = ms := List.append_cancel_right (hdir.symm.trans hdir')
  have hmap : IsName (Path.map name) := isName_of_length (by simp [Path.map])
  rw [makeParent_eq hroute (leads_of_isName hn), makeParent_eq hroute' (leads_of_isName hmap)]

theorem makeRoom_map {dir name : Text} (h : Cut path dir name) (hn : IsName name) (tree : Tree) :
    (makeRoom (Path.map path) tree).1 = (makeRoom path tree).1 := by
  rw [makeRoom, makeRoom, makeParent_map h hn]
  rcases tree.makeParent path with ⟨t, _ | fault⟩ <;> rfl

/-- Behind an output its map can still be written. -/
theorem Writable.map {dir name : Text} (h : Cut path dir name) (hn : IsName name)
    (hpath : Writable tree path) (hmap : Writable tree (Path.map path)) (text : Text) :
    Writable (Command.writeFile tree path text).1 (Path.map path) := by
  obtain ⟨p, hp, hdir, hwrite⟩ := hpath.writeFile text
  obtain ⟨hroom, q, hq, hqdir⟩ := writable_iff.mp hmap
  rw [makeRoom_map h hn] at hq hqdir
  have hgrows : Grows (fun _ => False) (makeRoom path tree).1
      ((makeRoom path tree).1.put p (.file (.text text))) := .put_file hdir id _
  have hrepeats : Repeats (fun _ => False) (makeRoom (Path.map path)) tree [] :=
    repeats_makeRoom (Path.map path) tree
  obtain ⟨hsame, hends⟩ := hrepeats.again (by rw [makeRoom_map h hn]; exact hgrows)
  rw [hwrite, writable_iff, hsame]
  refine ⟨by simpa [hroom] using hends, q, resolve_of_grows hgrows hq, ?_⟩
  show ((makeRoom path tree).1.put p (.file (.text text))).find? q ≠ some .directory
  rw [find?_put]
  by_cases hqp : q = p
  · simp [hqp]
  · -- above the output there are directories only, and the map is none
    have hprefix : ¬ q <+: p := fun hprefix => hqdir
      (above_of_follow (resolve_ok hp).2.2 (above_nil _) q hprefix hqp)
    rwa [if_neg hqp, if_neg hprefix, Option.or_none]

/-! ### Written outputs -/

end Command

end Desugar
