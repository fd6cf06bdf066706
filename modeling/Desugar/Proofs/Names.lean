import Desugar.Tree

/-! Paths and the names in them. A path is cut behind its last slash. Where a name stands
there, it is the last one on the way, and replacing its extension changes nothing before
it; only a name that starts with two dots and has no third is lost that way. -/
namespace Desugar

namespace Tree

/-! ### Names on the way -/

theorem names_ne_nil (path : Text) : names path ≠ [] := by
  induction path with
  | nil => simp [names]
  | cons c cs ih =>
    rw [names]
    split
    · simp
    · split <;> simp

theorem names_cons {c : Char} (hc : c ≠ '/') {cs n : Text} {ns : List Text}
    (h : names cs = n :: ns) : names (c :: cs) = (c :: n) :: ns := by
  rw [names, if_neg hc, h]

/-- A slash parts names. -/
theorem names_append (s t : Text) : names (s ++ '/' :: t) = names s ++ names t := by
  induction s with
  | nil => simp [names]
  | cons c s ih =>
    by_cases hc : c = '/'
    · simp [names, hc, ih]
    · obtain ⟨n, ns, hn⟩ := List.exists_cons_of_ne_nil (names_ne_nil s)
      rw [List.cons_append, names_cons hc (ih.trans (by rw [hn]; rfl)), names_cons hc hn]
      rfl

theorem names_of_solid {n : Text} (h : '/' ∉ n) : names n = [n] := by
  induction n with
  | nil => rfl
  | cons c n ih =>
    rw [List.mem_cons, not_or] at h
    exact names_cons (Ne.symm h.1) (ih h.2)

theorem names_intercalate {ns : List Text} (hne : ns ≠ []) (h : ∀ n ∈ ns, '/' ∉ n) :
    names (['/'].intercalate ns) = ns := by
  induction ns with
  | nil => exact absurd rfl hne
  | cons n ns ih =>
    cases ns with
    | nil => simpa using names_of_solid (h n (by simp))
    | cons m ms =>
      rw [List.intercalate_cons_cons, List.append_assoc, List.singleton_append, names_append,
        names_of_solid (h n (by simp)), ih (by simp) fun k hk => h k (List.mem_cons_of_mem n hk)]
      rfl

end Tree

namespace Path

/-! ### Cutting a path -/

/-- What is neither empty nor stands for a directory by its place. -/
structure IsName (n : Text) : Prop where
  ne_nil : n ≠ []
  ne_dot : n ≠ ['.']
  ne_dots : n ≠ ['.', '.']

instance (n : Text) : Decidable (IsName n) :=
  decidable_of_iff (n ≠ [] ∧ n ≠ ['.'] ∧ n ≠ ['.', '.'])
    ⟨fun h => ⟨h.1, h.2.1, h.2.2⟩, fun h => ⟨h.ne_nil, h.ne_dot, h.ne_dots⟩⟩

/-- What stands before a name: nothing, or something that ends in a slash. -/
def IsDir (dir : Text) : Prop := dir = [] ∨ ∃ d, dir = d ++ ['/']

theorem IsDir.append {a b : Text} (ha : IsDir a) (hb : IsDir b) : IsDir (a ++ b) := by
  rcases hb with rfl | ⟨b, rfl⟩
  · rwa [List.append_nil]
  · exact .inr ⟨a ++ b, (List.append_assoc a b _).symm⟩

/-- What has no slash and ends a path does not reach over a slash. -/
theorem IsDir.suffix {dir rest s : Text} (h : IsDir dir) (hs : '/' ∉ s) :
    s <:+ dir ++ rest ↔ s <:+ rest := by
  refine ⟨fun hsuffix => ?_, fun hsuffix => hsuffix.trans (List.suffix_append dir rest)⟩
  rcases h with rfl | ⟨d, rfl⟩
  · exact hsuffix
  · have hrest : '/' :: rest <:+ d ++ ['/'] ++ rest := ⟨d, by simp⟩
    rcases List.suffix_or_suffix_of_suffix hsuffix hrest with hshort | hlong
    · rcases List.suffix_cons_iff.mp hshort with rfl | hshort
      · simp at hs
      · exact hshort
    · exact absurd (hlong.subset List.mem_cons_self) hs

/-- The path is cut behind its last slash. -/
structure Cut (path dir last : Text) : Prop where
  eq : path = dir ++ last
  slash : IsDir dir
  solid : '/' ∉ last

theorem exists_cut (path : Text) : ∃ dir last, Cut path dir last := by
  induction path with
  | nil => exact ⟨[], [], rfl, .inl rfl, by simp⟩
  | cons c cs ih =>
    obtain ⟨dir, last, rfl, hslash, hsolid⟩ := ih
    rcases hslash with rfl | ⟨d, rfl⟩
    · by_cases hc : c = '/'
      · exact ⟨[c], last, rfl, .inr ⟨[], by rw [hc]; rfl⟩, hsolid⟩
      · exact ⟨[], c :: last, rfl, .inl rfl, by simp [Ne.symm hc, hsolid]⟩
    · exact ⟨c :: (d ++ ['/']), last, rfl, .inr ⟨c :: d, rfl⟩, hsolid⟩

theorem bne_of_not_mem {c : Char} {s : Text} (h : c ∉ s) : ∀ d ∈ s.reverse, (d != c) = true := by
  intro d hd
  rw [bne_iff_ne]
  rintro rfl
  exact h (List.mem_reverse.mp hd)

namespace Cut

variable {path dir name : Text}

theorem replace (h : Cut path dir name) {name' : Text} (hsolid : '/' ∉ name') :
    Cut (dir ++ name') dir name' :=
  ⟨rfl, h.slash, hsolid⟩

theorem names (h : Cut path dir name) :
    ∃ ns, Tree.names path = ns ++ [name] ∧ Tree.names dir = ns ++ [[]] := by
  obtain ⟨rfl, rfl | ⟨d, rfl⟩, hsolid⟩ := h
  · exact ⟨[], Tree.names_of_solid hsolid, rfl⟩
  · refine ⟨Tree.names d, ?_, Tree.names_append d []⟩
    rw [List.append_assoc, List.singleton_append, Tree.names_append, Tree.names_of_solid hsolid]

theorem isAbsolute_eq (h : Cut path dir name) : isAbsolute path = isAbsolute dir := by
  obtain ⟨rfl, rfl | ⟨d, rfl⟩, hsolid⟩ := h
  · cases name with
    | nil => rfl
    | cons c name => simpa [isAbsolute] using (List.ne_of_not_mem_cons hsolid).symm
  · cases d <;> rfl

/-- What leads to the directory of a path leads on to the path. -/
theorem route (h : Cut path dir name) (tree : Tree) :
    ∃ ns, tree.route path = ns ++ [name] ∧ tree.route dir = ns ++ [[]] := by
  obtain ⟨ns, hpath, hdir⟩ := h.names
  rw [Tree.route, Tree.route, h.isAbsolute_eq, hpath, hdir]
  split
  · exact ⟨ns, rfl, rfl⟩
  · exact ⟨tree.home ++ ns, (List.append_assoc _ _ _).symm, (List.append_assoc _ _ _).symm⟩

theorem reverse_eq (h : Cut path dir name) (hne : name ≠ []) (hdot : name ≠ ['.']) :
    trimReversed path.reverse = name.reverse ++ dir.reverse := by
  rw [h.eq, List.reverse_append]
  have hsolid : '/' ∉ name.reverse := by simpa using h.solid
  cases hr : name.reverse with
  | nil => exact absurd (List.reverse_eq_nil_iff.mp hr) hne
  | cons c cs =>
    rw [hr, List.mem_cons, not_or] at hsolid
    rw [List.cons_append]
    -- a name that is not a dot alone has a character before its last dot, which is no slash
    rw [trimReversed]
    · intro rev hrev
      exact hsolid.1 (List.cons.inj hrev).1.symm
    · intro rev hrev
      obtain ⟨rfl, hcs⟩ := List.cons.inj hrev
      cases cs with
      | nil => exact hdot (by rw [← List.reverse_reverse name, hr]; rfl)
      | cons d ds => exact hsolid.2 ((List.cons.inj hcs).1 ▸ List.mem_cons_self)

theorem split_last (h : Cut path dir name) :
    (name.reverse ++ dir.reverse).takeWhile (· != '/') = name.reverse ∧
      (name.reverse ++ dir.reverse).dropWhile (· != '/') = dir.reverse := by
  have hall := bne_of_not_mem h.solid
  rw [List.takeWhile_append_of_pos hall, List.dropWhile_append_of_pos hall]
  rcases h.slash with rfl | ⟨d, rfl⟩ <;> simp

theorem split?_of_isName (h : Cut path dir name) (hn : IsName name) :
    split? path = some (dir, name) := by
  obtain ⟨htake, hdrop⟩ := h.split_last
  rw [split?, h.reverse_eq hn.ne_nil hn.ne_dot]
  simp [htake, hdrop, hn.ne_nil, hn.ne_dot, hn.ne_dots]

theorem split?_of_dots (h : Cut path dir ['.', '.']) : split? path = none := by
  obtain ⟨htake, -⟩ := h.split_last
  rw [split?, h.reverse_eq (by simp) (by simp)]
  simp only [htake]
  rfl

end Cut

/-! ### Extensions -/

theorem splitName_append (stem : Text) {extension : Text} (hdot : '.' ∉ extension) :
    splitName (stem ++ '.' :: extension) =
      if stem = [] then (stem ++ '.' :: extension, none) else (stem, some extension) := by
  have hall := bne_of_not_mem hdot
  have hreverse : (stem ++ '.' :: extension).reverse =
      extension.reverse ++ '.' :: stem.reverse := by simp
  simp only [splitName, hreverse, List.takeWhile_append_of_pos hall,
    List.dropWhile_append_of_pos hall]
  by_cases hstem : stem = [] <;> simp [hstem]

theorem splitName_of_not_mem {name : Text} (hdot : '.' ∉ name) : splitName name = (name, none) := by
  have hdrop : name.reverse.dropWhile (· != '.') = [] := by
    rw [← List.append_nil name.reverse, List.dropWhile_append_of_pos (bne_of_not_mem hdot),
      List.dropWhile_nil]
  simp [splitName, hdrop]

/-- A name has no extension, or ends in a dot and what follows it. -/
theorem splitName_cases (name : Text) :
    splitName name = (name, none) ∨
      ∃ stem extension, name = stem ++ '.' :: extension ∧ stem ≠ [] ∧ '.' ∉ extension ∧
        splitName name = (stem, some extension) := by
  by_cases hdot : '.' ∈ name
  · obtain ⟨back, front, hsplit, hback⟩ :=
      List.eq_append_cons_of_mem (List.mem_reverse.mpr hdot)
    have hname : name = front.reverse ++ '.' :: back.reverse := by
      rw [← List.reverse_reverse name, hsplit]
      simp
    have hext : '.' ∉ back.reverse := by simpa using hback
    by_cases hstem : front.reverse = []
    · left
      rw [hname, splitName_append _ hext, if_pos hstem]
    · right
      refine ⟨_, _, hname, hstem, hext, ?_⟩
      rw [hname, splitName_append _ hext, if_neg hstem]
  · exact .inl (splitName_of_not_mem hdot)

/-- What stands before the last dot of a name, unless the dot comes first. -/
def stem (name : Text) : Text := (splitName name).1

namespace Cut

variable {path dir name : Text}

theorem setExtension_eq (h : Cut path dir name) (hn : IsName name) (extension : Text) :
    setExtension path extension = dir ++ stem name ++ '.' :: extension := by
  rw [setExtension, h.split?_of_isName hn]
  rfl

theorem extension?_eq (h : Cut path dir name) (hn : IsName name) :
    extension? path = (splitName name).2 := by
  rw [extension?, fileName?, h.split?_of_isName hn]
  rfl

theorem dropExtension_eq {old s : Text} (h : Cut path dir name) (hn : IsName name)
    (hname : name = s ++ '.' :: old) (hsplit : splitName name = (s, some old)) :
    dropExtension path = dir ++ (s ++ ['.']) := by
  have hpath : path = dir ++ (s ++ ['.']) ++ old := by
    rw [h.eq, hname]
    simp
  have hlength : path.length - old.length = (dir ++ (s ++ ['.'])).length := by
    apply Nat.sub_eq_of_eq_add
    rw [hpath]
    exact List.length_append
  rw [dropExtension, h.extension?_eq hn, hsplit]
  show path.take (path.length - old.length) = _
  rw [hlength, hpath]
  exact List.take_left

/-- Only what follows the stem of the last name is replaced. -/
theorem withExtension_eq (h : Cut path dir name) (hn : IsName name) (hdot : stem name ≠ ['.'])
    (extension : Text) : withExtension path extension = dir ++ stem name ++ '.' :: extension := by
  rcases splitName_cases name with hnone | ⟨s, old, hname, hs, -, hsplit⟩
  · rw [withExtension, dropExtension, h.extension?_eq hn, hnone]
    exact h.setExtension_eq hn extension
  · have hstem : stem name = s := by rw [stem, hsplit]
    have hstem' : stem (s ++ ['.']) = s := by
      rw [stem, splitName_append s (by simp), if_neg hs]
    have hn' : IsName (s ++ ['.']) := by
      refine ⟨by simp, ?_, ?_⟩
      · simpa using hs
      · rw [hstem] at hdot
        intro heq
        have heq' : s ++ ['.'] = ['.'] ++ ['.'] := heq
        exact hdot (List.append_cancel_right heq')
    have hsolid : '/' ∉ s ++ ['.'] := by
      have := h.solid
      simp_all
    rw [withExtension, h.dropExtension_eq hn hname hsplit,
      (h.replace hsolid).setExtension_eq hn', hstem', hstem]

/-- With a dot for its stem, the name becomes the one of the directory above. -/
theorem withExtension_of_dot (h : Cut path dir name) (hn : IsName name) (hdot : stem name = ['.'])
    (extension : Text) : withExtension path extension = dir ++ ['.', '.'] := by
  rcases splitName_cases name with hnone | ⟨s, old, hname, hs, -, hsplit⟩
  · rw [stem, hnone] at hdot
    exact absurd hdot hn.ne_dot
  · obtain rfl : s = ['.'] := by rw [← hdot, stem, hsplit]
    have hsplit? : split? (dir ++ ['.', '.']) = none := (h.replace (by simp)).split?_of_dots
    have hdrop : dropExtension path = dir ++ ['.', '.'] := h.dropExtension_eq hn hname hsplit
    rw [withExtension, hdrop, setExtension, hsplit?]

end Cut

/-! ### Joined paths -/

theorem join_eq (dir rel : Text) : ∃ d, IsDir d ∧ join dir rel = d ++ rel := by
  rw [join]
  split
  · exact ⟨[], .inl rfl, rfl⟩
  · split
    next hlast =>
      obtain ⟨r, rfl⟩ := List.getLast?_eq_some_iff.mp (eq_of_beq hlast)
      exact ⟨r ++ ['/'], .inr ⟨r, rfl⟩, rfl⟩
    next => exact ⟨dir ++ ['/'], .inr ⟨dir, rfl⟩, by simp⟩

theorem Cut.join {rel d name : Text} (h : Cut rel d name) (dir : Text) :
    ∃ d', Cut (join dir rel) d' name := by
  obtain ⟨x, hx, heq⟩ := join_eq dir rel
  exact ⟨x ++ d, by rw [heq, h.eq, List.append_assoc], hx.append h.slash, h.solid⟩

theorem isAbsolute_join (dir : Text) {rel : Text} (hrel : isAbsolute rel = false) :
    isAbsolute (join dir rel) = isAbsolute dir := by
  rw [join, hrel]
  cases dir with
  | nil => exact hrel
  | cons c dir =>
    simp only [List.isEmpty_cons, Bool.or_self, Bool.false_eq_true, if_false]
    split <;> rfl

/-- What is joined to a directory follows the names of the directory. -/
theorem names_join (dir : Text) :
    ∃ ms, (Tree.names dir = ms ∨ Tree.names dir = ms ++ [[]]) ∧
      ∀ rel, isAbsolute rel = false → Tree.names (join dir rel) = ms ++ Tree.names rel := by
  by_cases hempty : dir = []
  · subst hempty
    exact ⟨[], .inr rfl, fun rel hrel => by rw [join, hrel]; rfl⟩
  · have hjoin : ∀ rel, isAbsolute rel = false →
        join dir rel = if dir.getLast? == some '/' then dir ++ rel else dir ++ '/' :: rel := by
      intro rel hrel
      simp [join, hrel, hempty]
    by_cases hslash : dir.getLast? = some '/'
    · obtain ⟨d, rfl⟩ := List.getLast?_eq_some_iff.mp hslash
      refine ⟨Tree.names d, .inr (Tree.names_append d []), fun rel hrel => ?_⟩
      rw [hjoin rel hrel, if_pos (by simp), List.append_assoc]
      exact Tree.names_append d rel
    · refine ⟨Tree.names dir, .inl rfl, fun rel hrel => ?_⟩
      rw [hjoin rel hrel, if_neg (by simpa using hslash), Tree.names_append]

theorem route_join (tree : Tree) (dir : Text) :
    ∃ ms, (tree.route dir = ms ∨ tree.route dir = ms ++ [[]]) ∧
      ∀ rel, isAbsolute rel = false → tree.route (join dir rel) = ms ++ Tree.names rel := by
  obtain ⟨ms, hdir, hjoin⟩ := names_join dir
  cases habs : isAbsolute dir with
  | true =>
    refine ⟨ms, by simpa [Tree.route, habs] using hdir, fun rel hrel => ?_⟩
    simp [Tree.route, isAbsolute_join dir hrel, habs, hjoin rel hrel]
  | false =>
    refine ⟨tree.home ++ ms, ?_, fun rel hrel => ?_⟩
    · rcases hdir with hdir | hdir
      · exact .inl (by simp [Tree.route, habs, hdir])
      · exact .inr (by simp [Tree.route, habs, hdir])
    · simp [Tree.route, isAbsolute_join dir hrel, habs, hjoin rel hrel]

theorem join_ne_nil {dir rel : Text} (hdir : dir ≠ []) (hrel : isAbsolute rel = false) :
    join dir rel ≠ [] := by
  obtain ⟨c, dir, rfl⟩ := List.exists_cons_of_ne_nil hdir
  rw [join, hrel]
  simp only [List.isEmpty_cons, Bool.or_self, Bool.false_eq_true, if_false]
  split <;> simp

theorem mem_join {c : Char} {dir rel : Text} (h : c ∈ join dir rel) :
    c = '/' ∨ c ∈ dir ∨ c ∈ rel := by
  rw [join] at h
  split at h
  · exact .inr (.inr h)
  · split at h
    · exact .inr (List.mem_append.mp h)
    · simp only [List.mem_append, List.mem_cons] at h
      rcases h with h | rfl | h
      · exact .inr (.inl h)
      · exact .inl rfl
      · exact .inr (.inr h)

theorem intercalate_concat (ns : List Text) (n : Text) :
    ∃ d, IsDir d ∧ ['/'].intercalate (ns ++ [n]) = d ++ n := by
  induction ns with
  | nil => exact ⟨[], .inl rfl, by simp⟩
  | cons m ns ih =>
    obtain ⟨d, hd, heq⟩ := ih
    obtain ⟨k, ks, hk⟩ := List.exists_cons_of_ne_nil (l := ns ++ [n]) (by simp)
    refine ⟨m ++ ['/'] ++ d, .append (.inr ⟨m, rfl⟩) hd, ?_⟩
    rw [List.cons_append, hk, List.intercalate_cons_cons, ← hk, heq]
    simp

theorem intercalate_relative {ns : List Text} (hne : ∀ n ∈ ns, n ≠ [])
    (hsolid : ∀ n ∈ ns, '/' ∉ n) : isAbsolute (['/'].intercalate ns) = false := by
  cases ns with
  | nil => rfl
  | cons n ns =>
    rw [List.forall_mem_cons] at hne hsolid
    obtain ⟨c, cs, rfl⟩ := List.exists_cons_of_ne_nil hne.1
    have hc : c ≠ '/' := fun h => hsolid.1 (h ▸ List.mem_cons_self)
    cases ns with
    | nil => simpa [isAbsolute] using hc
    | cons m ms => simpa [isAbsolute, List.intercalate_cons_cons] using hc

/-! ### Outputs -/

/-- The path whose extension is replaced in the name of an output. -/
def base (input : Input) (outDir : Option Text) : Text :=
  match outDir with
  | some dir => join dir input.rel
  | none => input.path

/-- The extension of an output. -/
def outputExtension (input : Input) : Text := (SourceKind.ofId input.path).outputExtension

theorem output_eq (input : Input) (outDir : Option Text) :
    output input outDir = withExtension (base input outDir) (outputExtension input) := by
  cases outDir <;> rfl

theorem outputExtension_cases (input : Input) :
    outputExtension input = "ts".toList ∨ outputExtension input = "tsx".toList := by
  rw [outputExtension]
  cases SourceKind.ofId input.path <;> simp [SourceKind.outputExtension]

theorem dotless_outputExtension (input : Input) : '.' ∉ outputExtension input := by
  rcases outputExtension_cases input with h | h <;> rw [h] <;> decide

/-- The last name of an output, made from the last name of the path it is named after. -/
def outputName (input : Input) (name : Text) : Text := stem name ++ '.' :: outputExtension input

theorem stem_ne_nil {name : Text} (h : name ≠ []) : stem name ≠ [] := by
  rcases splitName_cases name with hnone | ⟨s, old, -, hs, -, hsplit⟩
  · rwa [stem, hnone]
  · rwa [stem, hsplit]

theorem stem_subset (name : Text) : stem name ⊆ name := by
  rcases splitName_cases name with hnone | ⟨s, old, hname, -, -, hsplit⟩
  · rw [stem, hnone]
    exact List.Subset.refl name
  · rw [stem, hsplit, hname]
    exact List.subset_append_left s _

theorem isName_of_length {n : Text} (h : 2 < n.length) : IsName n := by
  refine ⟨?_, ?_, ?_⟩ <;> rintro rfl <;> simp at h

section OutputName

variable {input : Input} {name : Text}

theorem isName_outputName : IsName (outputName input name) := by
  apply isName_of_length
  rcases outputExtension_cases input with hext | hext <;> simp [outputName, hext]

theorem isName_mapName : IsName (map (outputName input name)) := by
  apply isName_of_length
  simp [outputName, map]
  omega

theorem solid_outputName (h : '/' ∉ name) : '/' ∉ outputName input name := by
  have hstem : '/' ∉ stem name := fun hmem => h (stem_subset name hmem)
  rcases outputExtension_cases input with hext | hext <;> simp [outputName, hext, hstem]

theorem solid_map {n : Text} (h : '/' ∉ n) : '/' ∉ map n := by
  simp [map, h]

end OutputName

/-- An output is named after its source unless a dot is all that is left of the name. -/
theorem Cut.output {input : Input} {outDir : Option Text} {dir name : Text}
    (h : Cut (base input outDir) dir name) (hn : IsName name) :
    stem name = ['.'] ∧ Cut (output input outDir) dir ['.', '.'] ∨
      stem name ≠ ['.'] ∧ Cut (output input outDir) dir (outputName input name) := by
  rw [output_eq]
  by_cases hdot : stem name = ['.']
  · left
    rw [h.withExtension_of_dot hn hdot]
    exact ⟨hdot, h.replace (by simp)⟩
  · right
    rw [h.withExtension_eq hn hdot, List.append_assoc]
    exact ⟨hdot, h.replace (solid_outputName h.solid)⟩

/-- A path without the extension of its last name. -/
def trunk (path : Text) : Text :=
  match split? path with
  | some (dir, name) => dir ++ stem name
  | none => path

theorem Cut.trunk_eq {path dir name : Text} (h : Cut path dir name) (hn : IsName name) :
    trunk path = dir ++ stem name := by
  rw [trunk, h.split?_of_isName hn]

/-- Outputs are the same if what stands before their extensions is, and the extensions are. -/
theorem output_eq_iff {i j : Input} {outDir : Option Text} {d e m n : Text}
    (hi : Cut (base i outDir) d m) (hm : IsName m) (hidot : stem m ≠ ['.'])
    (hj : Cut (base j outDir) e n) (hn : IsName n) (hjdot : stem n ≠ ['.']) :
    output i outDir = output j outDir ↔
      trunk (base i outDir) = trunk (base j outDir) ∧ outputExtension i = outputExtension j := by
  rw [output_eq, output_eq, hi.withExtension_eq hm hidot, hj.withExtension_eq hn hjdot,
    hi.trunk_eq hm, hj.trunk_eq hn]
  refine ⟨fun h => ?_, fun h => by rw [h.1, h.2]⟩
  have hsplit := congrArg splitName h
  rw [splitName_append _ (dotless_outputExtension i),
    splitName_append _ (dotless_outputExtension j),
    if_neg (by simp [stem_ne_nil hm.ne_nil]), if_neg (by simp [stem_ne_nil hn.ne_nil])] at hsplit
  simpa using hsplit

theorem Cut.map {path dir name : Text} (h : Cut path dir name) :
    Cut (Path.map path) dir (Path.map name) := by
  rw [Path.map, h.eq, List.append_assoc]
  exact h.replace (solid_map h.solid)

/-! ### Names of sources -/

/-- What the names of sources end in. -/
def IsSource (n : Text) : Prop := ".bs".toList <:+ n ∨ ".bsx".toList <:+ n

instance (n : Text) : Decidable (IsSource n) := inferInstanceAs (Decidable (_ ∨ _))

theorem not_isSource {n s : Text} (hs : s ∈ [".ts".toList, ".tsx".toList, ".map".toList])
    (h : s <:+ n) : ¬ IsSource n := by
  have hapart : ∀ s ∈ [".ts".toList, ".tsx".toList, ".map".toList],
      ∀ t ∈ [".bs".toList, ".bsx".toList], ¬ s <:+ t ∧ ¬ t <:+ s := by decide
  have hnot : ∀ t ∈ [".bs".toList, ".bsx".toList], ¬ t <:+ n := by
    intro t ht hsuffix
    rcases List.suffix_or_suffix_of_suffix h hsuffix with hst | hts
    · exact (hapart s hs t ht).1 hst
    · exact (hapart s hs t ht).2 hts
  rintro (hbs | hbsx)
  · exact hnot _ (by simp) hbs
  · exact hnot _ (by simp) hbsx

theorem not_isSource_outputName (input : Input) (name : Text) :
    ¬ IsSource (outputName input name) := by
  have hsuffix : '.' :: outputExtension input <:+ outputName input name :=
    List.suffix_append _ _
  refine not_isSource ?_ hsuffix
  rcases outputExtension_cases input with hext | hext <;> simp [hext]

theorem not_isSource_map (n : Text) : ¬ IsSource (map n) :=
  not_isSource (by simp) (List.suffix_append n _)

theorem IsDir.isSource {dir rest : Text} (h : IsDir dir) :
    IsSource (dir ++ rest) ↔ IsSource rest := by
  rw [IsSource, IsSource, h.suffix (by decide), h.suffix (by decide)]

/-! ### Sources by extension -/

/-- Sources that are told by their extension, in paths that are read to their end. -/
structure HasSourceExtension (path : Text) : Prop where
  extension : extension? path = some "bs".toList ∨ extension? path = some "bsx".toList
  noQuery : '?' ∉ path

instance (path : Text) : Decidable (HasSourceExtension path) :=
  decidable_of_iff ((extension? path = some "bs".toList ∨ extension? path = some "bsx".toList) ∧
    '?' ∉ path) ⟨fun h => ⟨h.1, h.2⟩, fun h => ⟨h.extension, h.noQuery⟩⟩

theorem splitName_eq {name s e : Text} (h : splitName name = (s, some e)) :
    name = s ++ '.' :: e := by
  rcases splitName_cases name with hnone | ⟨s', e', hname, -, -, hsplit⟩
  · rw [hnone] at h
    cases h
  · rw [hsplit] at h
    cases h
    exact hname

namespace HasSourceExtension

variable {input : Input} {dir name : Text}

theorem ofId_eq (h : HasSourceExtension input.path) :
    SourceKind.ofId input.path =
      if ".bsx".toList.isSuffixOf input.path then .markup
      else if ".bs".toList.isSuffixOf input.path then .plain else .foreign := by
  have hall : ∀ c ∈ input.path, (c != '?') = true := by
    intro c hc
    rw [bne_iff_ne]
    rintro rfl
    exact h.noQuery hc
  have hquery : (input.path ++ []).takeWhile (· != '?') = input.path ++ [].takeWhile (· != '?') :=
    List.takeWhile_append_of_pos hall
  rw [List.append_nil, List.takeWhile_nil, List.append_nil] at hquery
  rw [SourceKind.ofId, hquery]

/-- The name of such a source is its stem and an extension that tells the one of the output. -/
theorem name_eq (h : HasSourceExtension input.path) (hcut : Cut input.path dir name)
    (hn : IsName name) :
    name = stem name ++ ".bs".toList ∧ outputExtension input = "ts".toList ∨
      name = stem name ++ ".bsx".toList ∧ outputExtension input = "tsx".toList := by
  have hpath : ∀ s : Text, name = stem name ++ s → s <:+ input.path := fun s hs =>
    ⟨dir ++ stem name, by rw [hcut.eq, List.append_assoc, ← hs]⟩
  have hext := h.extension
  rw [hcut.extension?_eq hn] at hext
  rcases hext with hext | hext
  · left
    have hname : name = stem name ++ ".bs".toList := splitName_eq (Prod.ext rfl hext)
    have hnot : ¬ ".bsx".toList.isSuffixOf input.path := by
      rw [List.isSuffixOf_iff_suffix]
      intro hsuffix
      rcases List.suffix_or_suffix_of_suffix (hpath _ hname) hsuffix with hs | hs <;>
        exact absurd hs (by decide)
    refine ⟨hname, ?_⟩
    rw [outputExtension, h.ofId_eq, if_neg hnot,
      if_pos (List.isSuffixOf_iff_suffix.mpr (hpath _ hname))]
    rfl
  · right
    have hname : name = stem name ++ ".bsx".toList := splitName_eq (Prod.ext rfl hext)
    refine ⟨hname, ?_⟩
    rw [outputExtension, h.ofId_eq, if_pos (List.isSuffixOf_iff_suffix.mpr (hpath _ hname))]
    rfl

theorem isSource (h : HasSourceExtension input.path) (hcut : Cut input.path dir name)
    (hn : IsName name) : IsSource input.path := by
  rw [hcut.eq, hcut.slash.isSource]
  rcases h.name_eq hcut hn with ⟨hname, -⟩ | ⟨hname, -⟩
  · exact .inl (hname ▸ List.suffix_append _ _)
  · exact .inr (hname ▸ List.suffix_append _ _)

/-- The output's name tells the name of the source. -/
theorem name_inj {other : Input} {dir' name' : Text} (h : HasSourceExtension input.path)
    (hcut : Cut input.path dir name) (hn : IsName name) (h' : HasSourceExtension other.path)
    (hcut' : Cut other.path dir' name') (hn' : IsName name')
    (heq : outputName input name = outputName other name') : name = name' := by
  have hsplit := congrArg splitName heq
  rw [outputName, outputName, splitName_append _ (dotless_outputExtension input),
    splitName_append _ (dotless_outputExtension other),
    if_neg (stem_ne_nil hn.ne_nil), if_neg (stem_ne_nil hn'.ne_nil)] at hsplit
  obtain ⟨hstem, hsame⟩ :
      stem name = stem name' ∧ outputExtension input = outputExtension other := by
    simpa using hsplit
  rcases h.name_eq hcut hn with ⟨hname, hi⟩ | ⟨hname, hi⟩ <;>
    rcases h'.name_eq hcut' hn' with ⟨hname', hj⟩ | ⟨hname', hj⟩
  · rw [hname, hname', hstem]
  · rw [hi, hj] at hsame
    exact absurd hsame (by decide)
  · rw [hi, hj] at hsame
    exact absurd hsame (by decide)
  · rw [hname, hname', hstem]

end HasSourceExtension

end Path

end Desugar
