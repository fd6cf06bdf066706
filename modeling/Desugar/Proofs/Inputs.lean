import Desugar.Command.Run
import Desugar.Proofs.Decoding
import Desugar.Proofs.Growth

/-! The inputs of a build. In a proper tree every input is a file that its path leads to. The
default patterns accept only names of sources, so a tree in which the source files are still
the same, each in its place, gives the same accepted inputs in the same order. -/
namespace Desugar

open Unicode

/-! ### Proper trees -/

namespace Tree

/-- The tree could be one of a file system: entries stand at names that a path can spell,
and a file has nothing below it. -/
structure Proper (tree : Tree) : Prop where
  ne_nil : ∀ e ∈ tree.entries, e.1 ≠ []
  isName : ∀ e ∈ tree.entries, ∀ n ∈ e.1, Path.IsName n
  solid : ∀ e ∈ tree.entries, ∀ n ∈ e.1, '/' ∉ n
  noNul : ∀ e ∈ tree.entries, ∀ n ∈ e.1, '\x00' ∉ n
  leaf : ∀ e ∈ tree.entries, e.2 ≠ .directory → ∀ f ∈ tree.entries, e.1 <+: f.1 → f = e

instance (tree : Tree) : Decidable tree.Proper :=
  decidable_of_iff
    ((∀ e ∈ tree.entries, e.1 ≠ []) ∧ (∀ e ∈ tree.entries, ∀ n ∈ e.1, Path.IsName n) ∧
      (∀ e ∈ tree.entries, ∀ n ∈ e.1, '/' ∉ n) ∧ (∀ e ∈ tree.entries, ∀ n ∈ e.1, '\x00' ∉ n) ∧
      ∀ e ∈ tree.entries, e.2 ≠ .directory → ∀ f ∈ tree.entries, e.1 <+: f.1 → f = e)
    ⟨fun h => ⟨h.1, h.2.1, h.2.2.1, h.2.2.2.1, h.2.2.2.2⟩,
      fun h => ⟨h.ne_nil, h.isName, h.solid, h.noNul, h.leaf⟩⟩

namespace Proper

variable {tree : Tree}

theorem root (h : tree.Proper) : tree.find? [] = some .directory := by
  have hnone : tree.entries.find? (·.1 == []) = none := by
    rw [List.find?_eq_none]
    intro e he
    simpa using h.ne_nil e he
  rw [find?, hnone]
  rfl

theorem find?_of_mem (h : tree.Proper) {e : Place × Entry} (he : e ∈ tree.entries)
    (hfile : e.2 ≠ .directory) : tree.find? e.1 = some e.2 := by
  cases hx : tree.entries.find? (·.1 == e.1) with
  | none =>
    have := List.find?_eq_none.mp hx e he
    simp at this
  | some x =>
    have hxe : x.1 = e.1 := by simpa using List.find?_some hx
    have heq := h.leaf e he hfile x (List.mem_of_find?_eq_some hx) (hxe ▸ List.prefix_rfl)
    rw [find?, hx, heq]

/-- What an entry lies in are directories. -/
theorem above_of_mem (h : tree.Proper) {e : Place × Entry} (he : e ∈ tree.entries) :
    tree.Above e.1 := by
  intro q hq hne
  cases hx : tree.entries.find? (·.1 == q) with
  | none =>
    have hany : (q.isPrefixOf tree.home || tree.entries.any (q.isPrefixOf ·.1)) = true := by
      rw [Bool.or_eq_true, List.any_eq_true]
      exact .inr ⟨e, he, List.isPrefixOf_iff_prefix.mpr hq⟩
    rw [find?, hx]
    simp only [hany, if_true]
  | some x =>
    have hxq : x.1 = q := by simpa using List.find?_some hx
    have hdir : x.2 = .directory := Decidable.byContradiction fun hxfile =>
      have heq := h.leaf x (List.mem_of_find?_eq_some hx) hxfile e he (hxq ▸ hq)
      hne (by rw [← hxq, heq])
    rw [find?, hx]
    exact congrArg some hdir

end Proper

/-! ### Names below a directory -/

variable {tree : Tree}

theorem follow_below {here : Place} {ns : List Text} (hns : ∀ n ∈ ns, Path.IsName n)
    (habove : tree.Above (here ++ ns)) : tree.follow here ns = .ok (here ++ ns) := by
  induction ns generalizing here with
  | nil => simp [follow]
  | cons n ns ih =>
    have hdir : tree.find? here = some .directory :=
      habove here (List.prefix_append here _) (by simp)
    rw [List.forall_mem_cons] at hns
    rw [follow_name hns.1 hdir, ih hns.2 (by simpa using habove)]
    simp

/-- A path under a directory leads on from there. -/
theorem follow_join {root rel : Text} {place : Place} (hrel : Path.isAbsolute rel = false)
    (h : tree.follow [] (tree.route root) = .ok place) :
    tree.follow [] (tree.route (Path.join root rel)) = tree.follow place (names rel) := by
  obtain ⟨ms, hroot, hjoin⟩ := Path.route_join tree root
  have hms : tree.follow [] ms = .ok place := by
    rcases hroot with hroot | hroot
    · rwa [hroot] at h
    · rw [hroot] at h
      obtain ⟨q, hq, hlast⟩ := follow_concat h
      rw [follow_stay (by decide) (follow_cons hlast).1] at hlast
      cases hlast
      exact hq
  rw [hjoin rel hrel, follow_append, hms]
  rfl

end Tree

namespace Tree

variable {tree : Tree}

theorem lookup_ok {path : Text} {p : Place} {e : Entry} :
    tree.lookup path = .ok (p, e) ↔ tree.resolve path = .ok p ∧ tree.find? p = some e := by
  rw [lookup]
  cases hresolve : tree.resolve path with
  | error fault => simp [bind, Except.bind]
  | ok q =>
    simp only [bind, Except.bind]
    constructor
    · intro h
      split at h
      next e' he' =>
        cases h
        exact ⟨rfl, he'⟩
      next => cases h
    · rintro ⟨hq, he⟩
      cases hq
      rw [he]
      rfl

end Tree

/-! ### Sources -/

namespace Tree

variable {tree tree' : Tree}

/-- Places whose last name is one of a source. -/
def Sourced (p : Place) : Prop := Path.IsSource (p.getLastD [])

instance (p : Place) : Decidable (Sourced p) := inferInstanceAs (Decidable (Path.IsSource _))

@[simp]
theorem sourced_concat {q : Place} {n : Text} : Sourced (q ++ [n]) ↔ Path.IsSource n := by
  simp [Sourced]

/-- Files at such places. -/
def isSourceFile (e : Place × Entry) : Bool := e.2 != .directory && decide (Sourced e.1)

theorem filter_insert {f : Place × Entry → Bool} {p : Place} {e : Entry}
    {es : List (Place × Entry)} (hnew : f (p, e) = false)
    (hold : ∀ x ∈ es, x.1 = p → f x = false) : (insert p e es).filter f = es.filter f := by
  induction es with
  | nil => simp [insert, hnew]
  | cons x es ih =>
    rw [List.forall_mem_cons] at hold
    rw [insert]
    split
    next heq =>
      have hx := hold.1 (eq_of_beq heq).symm
      simp [hnew, hx]
    next =>
      split
      · simp [hnew]
      · rw [List.filter_cons, List.filter_cons, ih hold.2]

/-- Writing at other places leaves the source files as they are. -/
theorem Evolves.sources {log : Log} (h : Evolves log tree tree')
    (hlog : ∀ w ∈ log, ¬ Sourced w.1) :
    tree'.entries.filter isSourceFile = tree.entries.filter isSourceFile := by
  induction h with
  | refl => rfl
  | @make log tree tree' p hp _ ih =>
    refine (ih hlog).trans (filter_insert rfl fun x hx hxp => ?_)
    exact absurd hp (find?_ne_none_iff.mpr (.inr ⟨x, hx, hxp ▸ List.prefix_rfl⟩))
  | @write log tree tree' p text hp _ ih =>
    rw [List.forall_mem_cons] at hlog
    refine (ih hlog.2).trans (filter_insert ?_ fun x _ hxp => ?_)
    · simp [isSourceFile, hlog.1]
    · simp [isSourceFile, hxp, hlog.1]

end Tree

namespace Command

open Desugar.Tree Desugar.Path

variable {tree : Tree} {root : Text} {input : Input} {inputs : List Input}

/-! ### Collected inputs -/

/-- The input is the file of this name at a place of the tree. Its relative path is made of
names. -/
structure IsInput (tree : Tree) (input : Input) (place : Place) (name : Text) : Prop where
  resolve : tree.resolve input.path = .ok place
  file : ∃ c, tree.find? place = some (.file c)
  last : ∃ q, place = q ++ [name]
  path : ∃ d, Cut input.path d name
  rel : ∃ ns, input.rel = ['/'].intercalate (ns ++ [name]) ∧
    ∀ n ∈ ns ++ [name], IsName n ∧ '/' ∉ n

theorem IsInput.isName {place : Place} {name : Text} (h : IsInput tree input place name) :
    IsName name := by
  obtain ⟨ns, -, hns⟩ := h.rel
  exact (hns name (by simp)).1

/-- A path to a file is an input by itself. -/
theorem isInput_file {place : Place} {c : Content} (hresolve : tree.resolve root = .ok place)
    (hfile : tree.find? place = some (.file c)) :
    ∃ name, fileName? root = some name ∧ IsInput tree ⟨root, name⟩ place name := by
  obtain ⟨dir, name, hcut⟩ := exists_cut root
  obtain ⟨ns, hroute, -⟩ := hcut.route tree
  have hfollow := (resolve_ok hresolve).2.2
  rw [hroute] at hfollow
  obtain ⟨hn, q, -, -, hplace⟩ := follow_file hfollow hfile
  refine ⟨name, by rw [fileName?, hcut.split?_of_isName hn]; rfl, ?_⟩
  refine ⟨hresolve, ⟨c, hfile⟩, ⟨q, hplace⟩, ⟨dir, hcut⟩, [], by simp, ?_⟩
  simpa using ⟨hn, hcut.solid⟩

/-- A file below a directory is an input under the path of the directory. -/
theorem isInput_below (hp : tree.Proper) {place : Place} (hresolve : tree.resolve root = .ok place)
    (hdir : tree.find? place = some .directory) {ns : List Text} {c : Content}
    (he : (place ++ ns, .file c) ∈ tree.entries) :
    ∃ name, IsInput tree ⟨join root (['/'].intercalate ns), ['/'].intercalate ns⟩
      (place ++ ns) name := by
  have hfile : tree.find? (place ++ ns) = some (.file c) := hp.find?_of_mem he (by simp)
  have habove : tree.Above (place ++ ns) := hp.above_of_mem he
  have hname : ∀ n ∈ ns, IsName n := fun n hn => hp.isName _ he n (List.mem_append_right _ hn)
  have hsolid : ∀ n ∈ ns, '/' ∉ n := fun n hn => hp.solid _ he n (List.mem_append_right _ hn)
  have hnul : ∀ n ∈ ns, '\x00' ∉ n := fun n hn => hp.noNul _ he n (List.mem_append_right _ hn)
  have hne : ns ≠ [] := by
    rintro rfl
    rw [List.append_nil, hdir] at hfile
    cases hfile
  obtain ⟨hroot, hrootne, hfollow⟩ := resolve_ok hresolve
  have hrel : isAbsolute (['/'].intercalate ns) = false :=
    intercalate_relative (fun n hn => (hname n hn).ne_nil) hsolid
  have hpath : tree.resolve (join root (['/'].intercalate ns)) = .ok (place ++ ns) := by
    rw [resolve_eq, follow_join hrel hfollow, names_intercalate hne hsolid]
    · exact follow_below hname habove
    · intro hmem
      rcases mem_join hmem with h | h | h
      · cases h
      · exact hroot h
      · rcases Mapping.mem_intercalate h with h | ⟨n, hn, h⟩
        · cases h
        · exact hnul n hn h
    · exact join_ne_nil hrootne hrel
  obtain ⟨ms, n, rfl⟩ : ∃ ms n, ns = ms ++ [n] := ⟨_, _, (List.dropLast_concat_getLast hne).symm⟩
  obtain ⟨d, hd, heq⟩ := intercalate_concat ms n
  have hcut : Cut (['/'].intercalate (ms ++ [n])) d n := ⟨heq, hd, hsolid n (by simp)⟩
  exact ⟨n, hpath, ⟨c, hfile⟩, ⟨place ++ ms, by simp⟩, hcut.join root, ms, rfl,
    fun m hm => ⟨hname m hm, hsolid m hm⟩⟩

theorem mem_filesBelow {place : Place} {ns : List Text} (h : ns ∈ tree.filesBelow place) :
    ∃ c, (place ++ ns, .file c) ∈ tree.entries := by
  obtain ⟨⟨p, e⟩, he, hns⟩ := List.mem_filterMap.mp h
  cases e with
  | directory => cases hns
  | file c =>
    simp only at hns
    split at hns
    next hprefix =>
      cases hns
      obtain ⟨rest, rfl⟩ := List.isPrefixOf_iff_prefix.mp hprefix
      exact ⟨c, by simpa using he⟩
    next => cases hns

theorem isInput_of_inputsOf (hp : tree.Proper) (h : inputsOf tree root = .ok inputs)
    (hi : input ∈ inputs) : ∃ place name, IsInput tree input place name := by
  rw [inputsOf] at h
  split at h
  next => cases h
  next place c hlookup =>
    obtain ⟨hresolve, hfile⟩ := lookup_ok.mp hlookup
    obtain ⟨name, hname, hinput⟩ := isInput_file hresolve hfile
    rw [hname] at h
    cases h
    obtain rfl := List.mem_singleton.mp hi
    exact ⟨place, name, hinput⟩
  next place hlookup =>
    obtain ⟨hresolve, hdir⟩ := lookup_ok.mp hlookup
    cases h
    obtain ⟨ns, hns, rfl⟩ := List.mem_map.mp hi
    obtain ⟨c, he⟩ := mem_filesBelow hns
    exact ⟨place ++ ns, isInput_below hp hresolve hdir he⟩

theorem collectInputs_cons {roots : List Text}
    (h : collectInputs tree (root :: roots) = .ok inputs) :
    ∃ first rest, inputsOf tree root = .ok first ∧ collectInputs tree roots = .ok rest ∧
      inputs = first ++ rest := by
  rw [collectInputs] at h
  cases hfirst : inputsOf tree root with
  | error failure =>
    rw [hfirst] at h
    cases h
  | ok first =>
    cases hrest : collectInputs tree roots with
    | error failure =>
      rw [hfirst, hrest] at h
      cases h
    | ok rest =>
      rw [hfirst, hrest] at h
      cases h
      exact ⟨first, rest, rfl, rfl, rfl⟩

/-- All inputs of a proper tree are files of it. -/
theorem isInput_of_collectInputs (hp : tree.Proper) {roots : List Text}
    (h : collectInputs tree roots = .ok inputs) :
    ∀ input ∈ inputs, ∃ place name, IsInput tree input place name := by
  induction roots generalizing inputs with
  | nil =>
    cases h
    simp
  | cons root roots ih =>
    obtain ⟨first, rest, hfirst, hrest, rfl⟩ := collectInputs_cons h
    intro input hi
    rcases List.mem_append.mp hi with hi | hi
    · exact isInput_of_inputsOf hp hfirst hi
    · exact ih hrest input hi

theorem IsInput.of_grows {tree' : Tree} {kept : Place → Prop} {place : Place} {name : Text}
    (h : IsInput tree input place name) (hg : Grows kept tree tree') :
    IsInput tree' input place name := by
  obtain ⟨c, hc⟩ := h.file
  obtain ⟨c', hc', -⟩ := hg.file hc
  exact ⟨resolve_of_grows hg h.resolve, ⟨c', hc'⟩, h.last, h.path, h.rel⟩

/-- Beside the input or under the output directory, its name is the last one. -/
theorem IsInput.base {place : Place} {name : Text} (h : IsInput tree input place name)
    (outDir : Option Text) : ∃ dir, Cut (base input outDir) dir name := by
  cases outDir with
  | none => exact h.path
  | some dir =>
    obtain ⟨ns, hrel, hns⟩ := h.rel
    obtain ⟨d, hd, heq⟩ := intercalate_concat ns name
    exact Cut.join ⟨hrel.trans heq, hd, (hns name (by simp)).2⟩ dir

theorem IsInput.sourced {place : Place} {name : Text} (h : IsInput tree input place name) :
    Sourced place ↔ IsSource input.path := by
  obtain ⟨q, rfl⟩ := h.last
  obtain ⟨d, hd⟩ := h.path
  rw [hd.eq, hd.slash.isSource, sourced_concat]

theorem isSource_below {ns : List Text} (h : IsSource (join root (['/'].intercalate ns))) :
    ∃ ms n, ns = ms ++ [n] ∧ IsSource n := by
  obtain ⟨d, hd, heq⟩ := join_eq root (['/'].intercalate ns)
  rw [heq, hd.isSource] at h
  rcases List.eq_nil_or_concat ns with rfl | ⟨ms, n, rfl⟩
  · exact absurd h (by decide)
  · rw [List.concat_eq_append] at h ⊢
    obtain ⟨d, hd, heq⟩ := intercalate_concat ms n
    rw [heq, hd.isSource] at h
    exact ⟨ms, n, rfl, h⟩

/-! ### Inputs of a second run -/

variable {tree' : Tree} {accepts : Text → Bool}

/-- The input for the file that names lead to from a directory. -/
def inputBelow (root : Text) (ns : List Text) : Input :=
  ⟨join root (['/'].intercalate ns), ['/'].intercalate ns⟩

/-- Of the files below a directory, only source files can be accepted. -/
theorem accepted_below (haccepts : ∀ id, accepts id → IsSource id) (root : Text) (place : Place)
    (tree : Tree) :
    ((tree.filesBelow place).map (inputBelow root)).filter (accepts ·.path) =
      (((Tree.mk (tree.entries.filter isSourceFile) []).filesBelow place).map
        (inputBelow root)).filter (accepts ·.path) := by
  rw [List.filter_map, List.filter_map, filesBelow, filesBelow, List.filter_filterMap,
    List.filter_filterMap, List.filterMap_filter]
  congr 1
  refine List.filterMap_congr fun e _ => ?_
  by_cases hsource : isSourceFile e
  · rw [if_pos hsource]
  · rw [if_neg hsource, Option.filter_eq_none_iff]
    intro ns hns haccepted
    obtain ⟨p, e⟩ := e
    cases e with
    | directory => cases hns
    | file c =>
      simp only at hns
      split at hns
      next hprefix =>
        cases hns
        obtain ⟨ns, rfl⟩ := List.isPrefixOf_iff_prefix.mp hprefix
        rw [List.drop_left] at haccepted
        obtain ⟨ms, n, rfl, hn⟩ := isSource_below (haccepts _ haccepted)
        apply hsource
        simp [isSourceFile, ← List.append_assoc, hn]
      next => cases hns

/-- Where trees have the same source files and a root is of the same kind in both, the same
inputs under it are accepted. -/
theorem inputsOf_again (haccepts : ∀ id, accepts id → IsSource id) {kept : Place → Prop}
    (hg : Grows kept tree tree')
    (hsources : tree'.entries.filter isSourceFile = tree.entries.filter isSourceFile)
    (h : inputsOf tree root = .ok inputs) :
    ∃ inputs', inputsOf tree' root = .ok inputs' ∧
      inputs'.filter (accepts ·.path) = inputs.filter (accepts ·.path) := by
  rw [inputsOf] at h
  split at h
  next => cases h
  next place c hlookup =>
    obtain ⟨hresolve, hfile⟩ := lookup_ok.mp hlookup
    obtain ⟨c', hfile', -⟩ := hg.file hfile
    refine ⟨inputs, ?_, rfl⟩
    rw [inputsOf, lookup_ok.mpr ⟨resolve_of_grows hg hresolve, hfile'⟩]
    exact h
  next place hlookup =>
    obtain ⟨hresolve, hdir⟩ := lookup_ok.mp hlookup
    cases h
    refine ⟨(tree'.filesBelow place).map (inputBelow root), ?_, ?_⟩
    · rw [inputsOf, lookup_ok.mpr ⟨resolve_of_grows hg hresolve, hg.directory hdir⟩]
      rfl
    · rw [accepted_below haccepts, hsources]
      exact (accepted_below haccepts root place tree).symm

theorem collectInputs_again (haccepts : ∀ id, accepts id → IsSource id) {kept : Place → Prop}
    (hg : Grows kept tree tree')
    (hsources : tree'.entries.filter isSourceFile = tree.entries.filter isSourceFile)
    {roots : List Text} (h : collectInputs tree roots = .ok inputs) :
    ∃ inputs', collectInputs tree' roots = .ok inputs' ∧
      inputs'.filter (accepts ·.path) = inputs.filter (accepts ·.path) := by
  induction roots generalizing inputs with
  | nil => exact ⟨[], rfl, by cases h; rfl⟩
  | cons root roots ih =>
    obtain ⟨first, rest, hfirst, hrest, rfl⟩ := collectInputs_cons h
    obtain ⟨first', hfirst', heq⟩ := inputsOf_again haccepts hg hsources hfirst
    obtain ⟨rest', hrest', heq'⟩ := ih hrest
    refine ⟨first' ++ rest', ?_, by rw [List.filter_append, List.filter_append, heq, heq']⟩
    rw [collectInputs, hfirst', hrest']
    rfl

end Command

/-! ### What the default patterns accept -/

namespace Regex

theorem rest_suffix_of_mem_allFrom {before : Option Char} {left : Nat} {text : Text} {s : Spot}
    (h : s ∈ Spot.allFrom before left text) : s.rest <:+ text := by
  induction text generalizing before left with
  | nil =>
    obtain rfl := List.mem_singleton.mp h
    exact List.suffix_rfl
  | cons c cs ih =>
    rcases List.mem_cons.mp h with rfl | h
    · exact List.suffix_rfl
    · exact (ih h).trans (List.suffix_cons c cs)

theorem rest_of_next? {c : Char} {s s' : Spot} (h : s.next? (Ranges.single c) = some s') :
    s.rest = c :: s'.rest := by
  rw [Spot.next?] at h
  split at h
  · cases h
  next d cs hrest =>
    split at h
    next hd =>
      cases h
      have hcd : d = c := by
        simp only [Ranges.has, Ranges.single, List.any_cons, List.any_nil, Bool.or_false,
          Bool.and_eq_true, decide_eq_true_eq] at hd
        exact Char.toNat_inj.mp (Nat.le_antisymm hd.2 hd.1)
      rw [hrest, hcd]
    next => cases h

/-- A literal ends where the text behind it goes on. -/
theorem rest_of_mem_literal {text : Text} {spots : List Spot} {s : Spot}
    (h : s ∈ ends (.literal text) spots) : ∃ s' ∈ spots, s'.rest = text ++ s.rest := by
  induction text generalizing spots with
  | nil => exact ⟨s, h, rfl⟩
  | cons c text ih =>
    obtain ⟨s', hs', hrest⟩ := ih h
    obtain ⟨s'', hs'', hnext⟩ := List.mem_filterMap.mp hs'
    exact ⟨s'', hs'', by rw [rest_of_next? hnext, hrest]; rfl⟩

theorem suffix_of_occursIn {text id : Text}
    (h : occursIn (.seq [.literal text, .assert .stop]) id) : text <:+ id := by
  rw [occursIn] at h
  obtain ⟨s, hs⟩ := List.exists_mem_of_ne_nil _ (by simpa using h)
  obtain ⟨hs, hstop⟩ :=
    List.mem_filter.mp (show s ∈ ends (.assert .stop) (ends (.literal text) _) from hs)
  obtain ⟨s', hs', hrest⟩ := rest_of_mem_literal hs
  have hend : s.rest = [] := by simpa [Assertion.holds] using hstop
  rw [hend, List.append_nil] at hrest
  exact hrest ▸ rest_suffix_of_mem_allFrom hs'

/-- What is read from a text is its expression, if it is not refused for its size. -/
theorem eq_of_ofText? {text : Text} {r r' : Regex} (h : ofText? text = some r)
    (hread : (read? 0 ⟨.start .plain none, [], 0, []⟩ text).map Part.regex = some r') : r = r' := by
  obtain ⟨part, hpart, rfl⟩ := Option.map_eq_some_iff.mp hread
  rw [ofText?, hpart] at h
  simp only [Option.bind_eq_bind, Option.bind_some] at h
  split at h
  · exact (Option.some.inj h).symm
  · cases h

end Regex

/-- A pattern for the end of a name accepts what ends so. -/
theorem Pattern.suffix_of_accepts {raw body text id : Text} {p : Pattern}
    (hbody : body? raw = some body)
    (hread : (Regex.read? 0 ⟨.start .plain none, [], 0, []⟩ body).map Regex.Part.regex =
      some (.seq [.literal text, .assert .stop]))
    (hp : parse raw = .ok p) (h : p.accepts id) : text <:+ id := by
  rw [parse, hbody] at hp
  simp only at hp
  split at hp
  next r hr =>
    cases hp
    obtain rfl := Regex.eq_of_ofText? hr hread
    exact Regex.suffix_of_occursIn h
  next => cases hp

theorem suffix_of_slashed {text id : Text} (hslash : '/' ∉ text)
    (h : text <:+ id.map fun c => if c = '\\' then '/' else c) : text <:+ id := by
  obtain ⟨front, hfront⟩ := h
  obtain ⟨a, b, rfl, -, rfl⟩ := List.append_eq_map_iff.mp hfront
  have hsame : b.map (fun c => if c = '\\' then '/' else c) = b := by
    refine (List.map_congr_left fun c hc => ?_).trans (List.map_id b)
    have hne : (if c = '\\' then '/' else c) ≠ '/' := fun heq =>
      hslash (List.mem_map.mpr ⟨c, hc, heq⟩)
    split at hne
    · exact absurd rfl hne
    next hback => rw [if_neg hback]; rfl
  rw [hsame]
  exact List.suffix_append a b

/-- A step that succeeds gives a value to go on with. -/
theorem exists_ok_of_bind {α β : Type} {x : Except Fault α} {f : α → Except Fault β} {b : β}
    (h : x >>= f = .ok b) : ∃ a, x = .ok a ∧ f a = .ok b := by
  cases x with
  | error fault => cases h
  | ok a => exact ⟨a, rfl, h⟩

/-- The default patterns accept only names of sources. -/
theorem Compiler.isSource_of_accepts {options : Options} {c : Compiler}
    (hc : ofOptions options = .ok c) (hincluded : options.included = Options.default.included)
    {id : Text} (h : c.accepts id) : Path.IsSource id := by
  obtain ⟨-, -, hc⟩ := exists_ok_of_bind hc
  obtain ⟨filter, hfilter, hc⟩ := exists_ok_of_bind hc
  obtain ⟨passes, -, hc⟩ := exists_ok_of_bind hc
  obtain ⟨included, hparsed, hfilter⟩ := exists_ok_of_bind hfilter
  obtain ⟨excluded, -, hfilter⟩ := exists_ok_of_bind hfilter
  cases hfilter
  cases hc
  rw [hincluded, Options.default, List.mapM_cons] at hparsed
  obtain ⟨p, hp, hparsed⟩ := exists_ok_of_bind hparsed
  obtain ⟨ps, hps, hparsed⟩ := exists_ok_of_bind hparsed
  rw [List.mapM_cons] at hps
  obtain ⟨q, hq, hps⟩ := exists_ok_of_bind hps
  cases hps
  cases hparsed
  simp only [accepts, Filter.accepts, Bool.and_eq_true, List.any_cons, List.reverse_nil,
    List.any_nil, Bool.or_false, Bool.or_eq_true] at h
  exact h.1.2.imp
    (fun h => suffix_of_slashed (by decide) (Pattern.suffix_of_accepts rfl rfl hp h))
    (fun h => suffix_of_slashed (by decide) (Pattern.suffix_of_accepts rfl rfl hq h))

end Desugar
