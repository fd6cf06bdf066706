import Desugar.Proofs.Names

/-! Trees that grow. Making directories where nothing is and putting texts where no directory
is leaves directories directories and files files, so what could be followed still leads to
the same place. The texts put on the way form a log; after its last text for a place that
place holds this text, so putting them all once more changes nothing. -/
namespace Desugar

namespace Tree

variable {tree tree' : Tree}

/-! ### Putting something at a place -/

theorem find?_insert (p : Place) (e : Entry) (es : List (Place × Entry)) (q : Place) :
    (insert p e es).find? (·.1 == q) =
      if q = p then some (p, e) else es.find? (·.1 == q) := by
  induction es with
  | nil => by_cases hq : q = p <;> simp [insert, hq, Ne.symm]
  | cons x es ih =>
    rw [insert]
    by_cases hpx : p = x.1
    · by_cases hq : q = p <;> simp [← hpx, hq, Ne.symm]
    · rw [if_neg (by simpa using hpx)]
      split
      · by_cases hq : q = p <;> simp [hq, Ne.symm]
      · rw [List.find?_cons, List.find?_cons, ih]
        by_cases hxq : x.1 = q
        · have hqp : q ≠ p := fun h => hpx (h.symm.trans hxq.symm)
          simp only [beq_iff_eq.mpr hxq, if_neg hqp]
        · rw [beq_eq_false_iff_ne.mpr hxq]

theorem any_insert (f : Place → Bool) (p : Place) (e : Entry) (es : List (Place × Entry)) :
    (insert p e es).any (fun x => f x.1) = (f p || es.any fun x => f x.1) := by
  induction es with
  | nil => rfl
  | cons x es ih =>
    rw [insert]
    by_cases hpx : p = x.1
    · simp [hpx]
    · rw [if_neg (by simpa using hpx)]
      split
      · simp
      · simp [ih, Bool.or_left_comm]

/-- Where something is put, the places on the way to it are there too. -/
theorem find?_put (tree : Tree) (p : Place) (e : Entry) (q : Place) :
    (tree.put p e).find? q =
      if q = p then some e
      else (tree.find? q).or (if q <+: p then some .directory else none) := by
  simp only [find?, put, find?_insert, any_insert]
  by_cases hq : q = p
  · simp [hq]
  · simp only [if_neg hq]
    cases tree.entries.find? (·.1 == q) with
    | some x => simp
    | none =>
      simp only [← List.isPrefixOf_iff_prefix]
      cases q.isPrefixOf tree.home <;> cases q.isPrefixOf p <;>
        cases tree.entries.any fun x => q.isPrefixOf x.1 <;> rfl

theorem find?_ne_none_iff {p : Place} :
    tree.find? p ≠ none ↔ p <+: tree.home ∨ ∃ x ∈ tree.entries, p <+: x.1 := by
  rw [find?]
  cases hx : tree.entries.find? (·.1 == p) with
  | some x =>
    have hxp : x.1 = p := by simpa using List.find?_some hx
    have hmem : x ∈ tree.entries := List.mem_of_find?_eq_some hx
    simp only [ne_eq, reduceCtorEq, not_false_eq_true, true_iff]
    exact .inr ⟨x, hmem, hxp ▸ List.prefix_rfl⟩
  | none => by_cases hp : p <+: tree.home <;> simp [hp]

theorem find?_ne_none_above {p q : Place} (hq : q <+: p) (hp : tree.find? p ≠ none) :
    tree.find? q ≠ none := by
  rw [find?_ne_none_iff] at hp ⊢
  rcases hp with hhome | ⟨x, hx, hpx⟩
  · exact .inl (hq.trans hhome)
  · exact .inr ⟨x, hx, hq.trans hpx⟩

theorem find?_put_eq_file {p q : Place} (hq : q ≠ p) (e : Entry) {c : Content} :
    (tree.put p e).find? q = some (.file c) ↔ tree.find? q = some (.file c) := by
  rw [find?_put, if_neg hq]
  cases tree.find? q with
  | some x => rw [Option.some_or]
  | none =>
    rw [Option.none_or]
    split <;> simp

/-- Putting something where something is already changes that place only. -/
theorem find?_put_of_ne_none {p : Place} (hp : tree.find? p ≠ none) (e : Entry) (q : Place) :
    (tree.put p e).find? q = if q = p then some e else tree.find? q := by
  rw [find?_put]
  by_cases hqp : q = p
  · rw [if_pos hqp, if_pos hqp]
  · rw [if_neg hqp, if_neg hqp]
    split
    next hprefix =>
      obtain ⟨x, hx⟩ := Option.ne_none_iff_exists'.mp (find?_ne_none_above hprefix hp)
      rw [hx, Option.some_or]
    next => rw [Option.or_none]

/-! ### Growing -/

/-- What is a directory or a file in the one tree is so in the other; at `kept` places files
are the same. -/
structure Grows (kept : Place → Prop) (tree tree' : Tree) : Prop where
  home : tree'.home = tree.home
  directory {p : Place} : tree.find? p = some .directory → tree'.find? p = some .directory
  file {p : Place} {c : Content} : tree.find? p = some (.file c) →
    ∃ c', tree'.find? p = some (.file c') ∧ (kept p → c' = c)

namespace Grows

variable {kept : Place → Prop} {tree'' : Tree} {p : Place}

theorem refl (tree : Tree) : Grows kept tree tree := ⟨rfl, id, fun h => ⟨_, h, fun _ => rfl⟩⟩

theorem trans (h : Grows kept tree tree') (h' : Grows kept tree' tree'') :
    Grows kept tree tree'' := by
  refine ⟨h'.home.trans h.home, fun hp => h'.directory (h.directory hp), fun hp => ?_⟩
  obtain ⟨c', hc', hsame⟩ := h.file hp
  obtain ⟨c'', hc'', hsame'⟩ := h'.file hc'
  exact ⟨c'', hc'', fun hk => (hsame' hk).trans (hsame hk)⟩

/-- A directory may be made where nothing is. -/
theorem put_directory (hp : tree.find? p = none) : Grows kept tree (tree.put p .directory) := by
  refine ⟨rfl, ?_, ?_⟩
  · intro q hq
    have hqp : q ≠ p := by
      rintro rfl
      rw [hp] at hq
      cases hq
    rw [find?_put, if_neg hqp, hq, Option.some_or]
  · intro q c hq
    have hqp : q ≠ p := by
      rintro rfl
      rw [hp] at hq
      cases hq
    exact ⟨c, by rw [find?_put, if_neg hqp, hq, Option.some_or], fun _ => rfl⟩

/-- A file may be put where no directory is. -/
theorem put_file (hp : tree.find? p ≠ some .directory) (hk : ¬ kept p) (c : Content) :
    Grows kept tree (tree.put p (.file c)) := by
  refine ⟨rfl, ?_, ?_⟩
  · intro q hq
    have hqp : q ≠ p := fun h => hp (h ▸ hq)
    rw [find?_put, if_neg hqp, hq, Option.some_or]
  · intro q c' hq
    by_cases hqp : q = p
    · exact ⟨c, by rw [find?_put, if_pos hqp], fun hk' => absurd (hqp ▸ hk') hk⟩
    · exact ⟨c', by rw [find?_put, if_neg hqp, hq, Option.some_or], fun _ => rfl⟩

end Grows

/-! ### Logs -/

/-- Texts put at places, one after the other. -/
abbrev Log := List (Place × Text)

/-- From the one tree to the other, directories are made where nothing is, and the texts of
the log are put where no directory is. -/
inductive Evolves : Log → Tree → Tree → Prop where
  | refl (tree : Tree) : Evolves [] tree tree
  | make {log : Log} {tree tree' : Tree} {p : Place} : tree.find? p = none →
      Evolves log (tree.put p .directory) tree' → Evolves log tree tree'
  | write {log : Log} {tree tree' : Tree} {p : Place} {text : Text} :
      tree.find? p ≠ some .directory → Evolves log (tree.put p (.file (.text text))) tree' →
      Evolves ((p, text) :: log) tree tree'

/-- The text put at a place last. -/
def lastAt (p : Place) : Log → Option Text
  | [] => none
  | w :: log => (lastAt p log).or (if p = w.1 then some w.2 else none)

/-- The texts of a log put in a tree. -/
def replay (tree : Tree) (log : Log) : Tree :=
  log.foldl (fun tree w => tree.put w.1 (.file (.text w.2))) tree

theorem lastAt_isSome {log : Log} {w : Place × Text} (h : w ∈ log) :
    ∃ text, lastAt w.1 log = some text := by
  induction log with
  | nil => cases h
  | cons v log ih =>
    rw [lastAt]
    rcases List.mem_cons.mp h with rfl | h
    · rw [if_pos rfl]
      cases lastAt w.1 log with
      | none => exact ⟨_, rfl⟩
      | some text => exact ⟨_, rfl⟩
    · obtain ⟨text, htext⟩ := ih h
      exact ⟨text, by rw [htext, Option.some_or]⟩

namespace Evolves

variable {kept : Place → Prop} {log log' : Log} {tree'' : Tree} {p : Place}

theorem trans (h : Evolves log tree tree') (h' : Evolves log' tree' tree'') :
    Evolves (log ++ log') tree tree'' := by
  induction h with
  | refl => exact h'
  | make hp _ ih => exact .make hp (ih h')
  | write hp _ ih => exact .write hp (ih h')

theorem grows (h : Evolves log tree tree') (hk : ∀ w ∈ log, ¬ kept w.1) :
    Grows kept tree tree' := by
  induction h with
  | refl => exact .refl _
  | make hp _ ih => exact (Grows.put_directory hp).trans (ih hk)
  | write hp _ ih =>
    rw [List.forall_mem_cons] at hk
    exact (Grows.put_file hp hk.1 _).trans (ih hk.2)

/-- The files after writing: at each place the last text put there, or what was there. -/
theorem file_iff (h : Evolves log tree tree') {c : Content} :
    tree'.find? p = some (.file c) ↔
      match lastAt p log with
      | some text => c = .text text
      | none => tree.find? p = some (.file c) := by
  induction h with
  | refl => rfl
  | @make log tree tree' q hq _ ih =>
    rw [ih]
    cases lastAt p log with
    | some text => rfl
    | none =>
      by_cases hpq : p = q
      · subst hpq
        simp [find?_put, hq]
      · exact find?_put_eq_file hpq _
  | @write log tree tree' q text hq _ ih =>
    rw [ih, lastAt]
    cases lastAt p log with
    | some text' => rfl
    | none =>
      by_cases hpq : p = q
      · simp [find?_put, hpq, eq_comm]
      · simpa [hpq] using find?_put_eq_file hpq _

theorem exists_file (h : Evolves log tree tree') {w : Place × Text} (hw : w ∈ log) :
    ∃ c, tree'.find? w.1 = some (.file c) := by
  obtain ⟨text, htext⟩ := lastAt_isSome hw
  exact ⟨.text text, h.file_iff.mpr (by rw [htext])⟩

end Evolves

theorem find?_replay {log : Log} (h : ∀ w ∈ log, tree.find? w.1 ≠ none) (p : Place) :
    (replay tree log).find? p =
      match lastAt p log with
      | some text => some (.file (.text text))
      | none => tree.find? p := by
  induction log generalizing tree with
  | nil => rfl
  | cons w log ih =>
    rw [List.forall_mem_cons] at h
    have hput : ∀ v ∈ log, (tree.put w.1 (.file (.text w.2))).find? v.1 ≠ none := by
      intro v hv
      rw [find?_put_of_ne_none h.1]
      split
      · simp
      · exact h.2 v hv
    rw [lastAt]
    show (replay (tree.put w.1 (.file (.text w.2))) log).find? p = _
    rw [ih hput, find?_put_of_ne_none h.1]
    cases lastAt p log with
    | some text => rfl
    | none => by_cases hp : p = w.1 <;> simp [hp]

theorem grows_replay {kept : Place → Prop} {log : Log} (hk : ∀ w ∈ log, ¬ kept w.1)
    (h : ∀ w ∈ log, ∃ c, tree.find? w.1 = some (.file c)) : Grows kept tree (replay tree log) := by
  induction log generalizing tree with
  | nil => exact .refl tree
  | cons w log ih =>
    rw [List.forall_mem_cons] at hk h
    obtain ⟨c, hc⟩ := h.1
    have hput : Grows kept tree (tree.put w.1 (.file (.text w.2))) :=
      .put_file (by simp [hc]) hk.1 _
    refine hput.trans (ih hk.2 fun v hv => ?_)
    obtain ⟨c', hc'⟩ := h.2 v hv
    obtain ⟨c'', hc'', -⟩ := hput.file hc'
    exact ⟨c'', hc''⟩

/-- Putting the texts of a log once more changes nothing. -/
theorem Evolves.find?_replay {log : Log} (h : Evolves log tree tree') (p : Place) :
    (replay tree' log).find? p = tree'.find? p := by
  rw [Tree.find?_replay fun w hw => ?_]
  · cases hlast : lastAt p log with
    | none => rfl
    | some text => exact (h.file_iff.mpr (by rw [hlast])).symm
  · obtain ⟨c, hc⟩ := h.exists_file hw
    simp [hc]

/-! ### Following names -/

theorem follow_append (tree : Tree) (here : Place) (ns ms : List Text) :
    tree.follow here (ns ++ ms) = (tree.follow here ns).bind fun p => tree.follow p ms := by
  induction ns generalizing here with
  | nil => rfl
  | cons n ns ih =>
    rw [List.cons_append, follow, follow]
    split
    · rfl
    · rfl
    · split
      · exact ih here
      · split
        · exact ih _
        · exact ih _

theorem leads_of_isName {n : Text} (h : Path.IsName n) : leads n := by
  simp [leads, h.ne_nil, h.ne_dot]

theorem isName_of_leads {n : Text} (h : leads n) (hdots : n ≠ ['.', '.']) : Path.IsName n := by
  simp only [leads, Bool.and_eq_true, Bool.not_eq_true', List.isEmpty_eq_false_iff,
    bne_iff_ne] at h
  exact ⟨h.1, h.2, hdots⟩

/-- What a name that leads on from a place leads to. -/
theorem follow_cons {here p : Place} {n : Text} {ns : List Text}
    (h : tree.follow here (n :: ns) = .ok p) :
    tree.find? here = some .directory ∧
      (leads n = false ∧ tree.follow here ns = .ok p ∨
        n = ['.', '.'] ∧ tree.follow here.dropLast ns = .ok p ∨
        Path.IsName n ∧ tree.follow (here ++ [n]) ns = .ok p) := by
  rw [follow] at h
  split at h
  · cases h
  · cases h
  · next hdir =>
    refine ⟨hdir, ?_⟩
    split at h
    next hn => exact .inl ⟨by simpa using hn, h⟩
    next hn =>
      have hleads : leads n := by simpa using hn
      split at h
      next hdots => exact .inr (.inl ⟨eq_of_beq hdots, h⟩)
      next hdots => exact .inr (.inr ⟨isName_of_leads hleads (by simpa using hdots), h⟩)

theorem follow_name {here : Place} {n : Text} (hn : Path.IsName n)
    (hdir : tree.find? here = some .directory) (ns : List Text) :
    tree.follow here (n :: ns) = tree.follow (here ++ [n]) ns := by
  rw [follow, hdir]
  simp [leads_of_isName hn, hn.ne_dots]

theorem follow_up {here : Place} (hdir : tree.find? here = some .directory) (ns : List Text) :
    tree.follow here (['.', '.'] :: ns) = tree.follow here.dropLast ns := by
  rw [follow, hdir]
  rfl

theorem follow_stay {here : Place} {n : Text} (hn : leads n = false)
    (hdir : tree.find? here = some .directory) (ns : List Text) :
    tree.follow here (n :: ns) = tree.follow here ns := by
  rw [follow, hdir]
  simp [hn]

theorem follow_of_grows {kept : Place → Prop} (hg : Grows kept tree tree') {here p : Place}
    {ns : List Text} (h : tree.follow here ns = .ok p) : tree'.follow here ns = .ok p := by
  induction ns generalizing here with
  | nil => exact h
  | cons n ns ih =>
    obtain ⟨hdir, ⟨hn, hrest⟩ | ⟨rfl, hrest⟩ | ⟨hn, hrest⟩⟩ := follow_cons h
    · rw [follow_stay hn (hg.directory hdir)]
      exact ih hrest
    · rw [follow_up (hg.directory hdir)]
      exact ih hrest
    · rw [follow_name hn (hg.directory hdir)]
      exact ih hrest

/-- All that a place lies in are directories. -/
def Above (tree : Tree) (place : Place) : Prop :=
  ∀ q, q <+: place → q ≠ place → tree.find? q = some .directory

theorem above_nil (tree : Tree) : tree.Above [] := by
  intro q hq hne
  exact absurd (List.prefix_nil.mp hq) hne

theorem Above.concat {here : Place} (h : tree.Above here)
    (hdir : tree.find? here = some .directory) (n : Text) : tree.Above (here ++ [n]) := by
  intro q hq hne
  rcases List.prefix_concat_iff.mp hq with rfl | hq
  · exact absurd rfl hne
  · by_cases hqh : q = here
    · rw [hqh, hdir]
    · exact h q hq hqh

theorem Above.dropLast {here : Place} (h : tree.Above here) : tree.Above here.dropLast := by
  intro q hq hne
  refine h q (hq.trans (List.dropLast_prefix here)) ?_
  rintro rfl
  have hlength := hq.length_le
  rw [List.length_dropLast] at hlength
  have hnil : q = [] := List.eq_nil_of_length_eq_zero (by omega)
  exact hne (by rw [hnil]; rfl)

/-- What a directory lies in is a directory; the root lies in itself. -/
theorem Above.directory_dropLast {here : Place} (h : tree.Above here)
    (hdir : tree.find? here = some .directory) : tree.find? here.dropLast = some .directory := by
  by_cases hself : here.dropLast = here
  · rwa [hself]
  · exact h _ (List.dropLast_prefix here) hself

/-- Names lead from directory to directory, whatever is at their end. -/
theorem above_of_follow {here p : Place} {ns : List Text} (h : tree.follow here ns = .ok p)
    (habove : tree.Above here) : tree.Above p := by
  induction ns generalizing here with
  | nil =>
    cases h
    exact habove
  | cons n ns ih =>
    obtain ⟨hdir, ⟨-, hrest⟩ | ⟨-, hrest⟩ | ⟨-, hrest⟩⟩ := follow_cons h
    · exact ih hrest habove
    · exact ih hrest habove.dropLast
    · exact ih hrest (habove.concat hdir n)

theorem follow_concat {here p : Place} {ns : List Text} {n : Text}
    (h : tree.follow here (ns ++ [n]) = .ok p) :
    ∃ q, tree.follow here ns = .ok q ∧ tree.follow q [n] = .ok p := by
  rw [follow_append] at h
  cases hq : tree.follow here ns with
  | error fault =>
    rw [hq] at h
    cases h
  | ok q =>
    rw [hq] at h
    exact ⟨q, rfl, h⟩

/-- Two dots at the end lead to a directory. -/
theorem directory_of_dots {p : Place} {ns : List Text}
    (h : tree.follow [] (ns ++ [['.', '.']]) = .ok p) : tree.find? p = some .directory := by
  obtain ⟨q, hq, hlast⟩ := follow_concat h
  obtain ⟨hdir, ⟨hn, -⟩ | ⟨-, hrest⟩ | ⟨hn, -⟩⟩ := follow_cons hlast
  · exact absurd hn (by decide)
  · cases hrest
    exact (above_of_follow hq (above_nil tree)).directory_dropLast hdir
  · exact absurd rfl hn.ne_dots

/-- A file is at the end of a name. -/
theorem follow_file {p : Place} {ns : List Text} {n : Text} {c : Content}
    (h : tree.follow [] (ns ++ [n]) = .ok p) (hfile : tree.find? p = some (.file c)) :
    Path.IsName n ∧ ∃ q, tree.follow [] ns = .ok q ∧ tree.find? q = some .directory ∧
      p = q ++ [n] := by
  obtain ⟨q, hq, hlast⟩ := follow_concat h
  obtain ⟨hdir, ⟨-, hrest⟩ | ⟨rfl, -⟩ | ⟨hn, hrest⟩⟩ := follow_cons hlast
  · cases hrest
    rw [hdir] at hfile
    cases hfile
  · rw [directory_of_dots h] at hfile
    cases hfile
  · cases hrest
    exact ⟨hn, q, hq, hdir, rfl⟩

theorem resolve_ok {path : Text} {p : Place} (h : tree.resolve path = .ok p) :
    '\x00' ∉ path ∧ path ≠ [] ∧ tree.follow [] (tree.route path) = .ok p := by
  rw [resolve] at h
  split at h
  · cases h
  next hnul =>
    split at h
    · cases h
    next hempty => exact ⟨by simpa using hnul, by simpa using hempty, h⟩

theorem resolve_eq {path : Text} (hnul : '\x00' ∉ path) (hne : path ≠ []) (tree : Tree) :
    tree.resolve path = tree.follow [] (tree.route path) := by
  simp [resolve, hnul, hne]

theorem resolve_nul {path : Text} (hnul : '\x00' ∈ path) (tree : Tree) :
    tree.resolve path = .error .invalidInput := by
  simp [resolve, hnul]

theorem route_of_home (h : tree'.home = tree.home) (path : Text) :
    tree'.route path = tree.route path := by
  rw [route, route, h]

theorem resolve_of_grows {kept : Place → Prop} (hg : Grows kept tree tree') {path : Text}
    {p : Place} (h : tree.resolve path = .ok p) : tree'.resolve path = .ok p := by
  obtain ⟨hnul, hne, hfollow⟩ := resolve_ok h
  rw [resolve_eq hnul hne, route_of_home hg.home]
  exact follow_of_grows hg hfollow

/-! ### Making directories -/

theorem evolves_makeDirectories (tree : Tree) (made : Bool) (here : Place) (ns : List Text) :
    Evolves [] tree (tree.makeDirectories made here ns).1 := by
  induction ns generalizing tree made here with
  | nil => exact .refl tree
  | cons n ns ih =>
    rw [makeDirectories]
    split
    · exact ih tree made _
    · split
      · exact ih tree made _
      · exact .refl tree
      next hnone => exact .make hnone (ih _ true _)

theorem directory_makeDirectories {p : Place} (made : Bool) (here : Place) (ns : List Text)
    (h : tree.find? p = some .directory) :
    (tree.makeDirectories made here ns).1.find? p = some .directory :=
  have hgrows : Grows (fun _ => True) tree _ :=
    (evolves_makeDirectories tree made here ns).grows (by simp)
  hgrows.directory h

section Steps

variable {made : Bool} {here : Place} {n : Text} {ns : List Text}

theorem makeDirectories_up :
    tree.makeDirectories made here (['.', '.'] :: ns) =
      tree.makeDirectories made here.dropLast ns := by
  simp [makeDirectories]

theorem makeDirectories_directory (hn : n ≠ ['.', '.'])
    (h : tree.find? (here ++ [n]) = some .directory) :
    tree.makeDirectories made here (n :: ns) = tree.makeDirectories made (here ++ [n]) ns := by
  simp [makeDirectories, hn, h]

theorem makeDirectories_none (hn : n ≠ ['.', '.']) (h : tree.find? (here ++ [n]) = none) :
    tree.makeDirectories made here (n :: ns) =
      (tree.put (here ++ [n]) .directory).makeDirectories true (here ++ [n]) ns := by
  simp [makeDirectories, hn, h]

theorem makeDirectories_file (hn : n ≠ ['.', '.']) {c : Content}
    (h : tree.find? (here ++ [n]) = some (.file c)) (made : Bool) (ns : List Text) :
    ∃ fault, tree.makeDirectories made here (n :: ns) = (tree, some fault) := by
  rw [makeDirectories, if_neg (by simpa using hn), h]
  exact ⟨_, rfl⟩

end Steps

/-- Where directories were made, none is made again, and what was in the way still is. -/
theorem makeDirectories_again {kept : Place → Prop} {made : Bool} (made' : Bool) {here : Place}
    {ns : List Text} (h : Grows kept (tree.makeDirectories made here ns).1 tree') :
    (tree'.makeDirectories made' here ns).1 = tree' ∧
      (tree'.makeDirectories made' here ns).2.isSome =
        (tree.makeDirectories made here ns).2.isSome := by
  induction ns generalizing tree made made' here with
  | nil => exact ⟨rfl, rfl⟩
  | cons n ns ih =>
    by_cases hn : n = ['.', '.']
    · subst hn
      rw [makeDirectories_up] at h ⊢
      rw [makeDirectories_up]
      exact ih made' h
    · cases hfind : tree.find? (here ++ [n]) with
      | none =>
        rw [makeDirectories_none hn hfind] at h ⊢
        have hmade : (tree.put (here ++ [n]) .directory).find? (here ++ [n]) = some .directory := by
          rw [find?_put, if_pos rfl]
        have hmade' := directory_makeDirectories true (here ++ [n]) ns hmade
        rw [makeDirectories_directory hn (h.directory hmade')]
        exact ih made' h
      | some e =>
        cases e with
        | directory =>
          rw [makeDirectories_directory hn hfind] at h ⊢
          have hfind' := directory_makeDirectories made (here ++ [n]) ns hfind
          rw [makeDirectories_directory hn (h.directory hfind')]
          exact ih made' h
        | file c =>
          obtain ⟨fault, hfault⟩ := makeDirectories_file hn hfind made ns
          rw [hfault] at h ⊢
          obtain ⟨c', hc', -⟩ := h.file hfind
          obtain ⟨fault', hfault'⟩ := makeDirectories_file hn hc' made' ns
          rw [hfault']
          exact ⟨rfl, rfl⟩

theorem Above.put_directory {place p : Place} (h : tree.Above place) (hp : tree.find? p = none) :
    (tree.put p .directory).Above place :=
  have hgrows : Grows (fun _ => True) tree _ := .put_directory hp
  fun q hq hne => hgrows.directory (h q hq hne)

/-- Made directories can be followed. -/
theorem follow_makeDirectories {made : Bool} {here : Place} {ns : List Text}
    (hok : (tree.makeDirectories made here (ns.filter leads)).2 = none)
    (habove : tree.Above here) (hdir : tree.find? here = some .directory) :
    ∃ p, (tree.makeDirectories made here (ns.filter leads)).1.follow here ns = .ok p ∧
      (tree.makeDirectories made here (ns.filter leads)).1.find? p = some .directory := by
  induction ns generalizing tree made here with
  | nil => exact ⟨here, rfl, hdir⟩
  | cons n ns ih =>
    rw [List.filter_cons] at hok ⊢
    by_cases hn : leads n
    · rw [if_pos hn] at hok ⊢
      have hdir' := directory_makeDirectories made here (n :: ns.filter leads) hdir
      by_cases hdots : n = ['.', '.']
      · subst hdots
        rw [makeDirectories_up] at hok hdir' ⊢
        rw [follow_up hdir']
        exact ih hok habove.dropLast (habove.directory_dropLast hdir)
      · rw [follow_name (isName_of_leads hn hdots) hdir']
        cases hfind : tree.find? (here ++ [n]) with
        | none =>
          rw [makeDirectories_none hdots hfind] at hok ⊢
          have hmade : (tree.put (here ++ [n]) .directory).find? (here ++ [n]) =
              some .directory := by
            rw [find?_put, if_pos rfl]
          exact ih hok ((habove.concat hdir n).put_directory hfind) hmade
        | some e =>
          cases e with
          | directory =>
            rw [makeDirectories_directory hdots hfind] at hok ⊢
            exact ih hok (habove.concat hdir n) hfind
          | file c =>
            obtain ⟨fault, hfault⟩ := makeDirectories_file hdots hfind made (ns.filter leads)
            rw [hfault] at hok
            cases hok
    · rw [if_neg hn] at hok ⊢
      rw [follow_stay (by simpa using hn) (directory_makeDirectories made here _ hdir)]
      exact ih hok habove hdir

theorem makeParent_eq {path name : Text} {ns : List Text} (h : tree.route path = ns ++ [name])
    (hname : leads name) :
    tree.makeParent path =
      if (ns.filter leads).any (·.contains '\x00') then (tree, some .invalidInput)
      else tree.makeDirectories false [] (ns.filter leads) := by
  have habove : ((tree.route path).filter leads).dropLast = ns.filter leads := by
    rw [h, List.filter_append, List.filter_cons_of_pos hname, List.filter_nil,
      List.dropLast_concat]
  rw [makeParent, habove]

/-- In all trees with one working directory alike, nothing is made for a path, or directories
of certain names. -/
theorem makeParent_cases (home : Place) (path : Text) :
    (∃ fault, ∀ tree : Tree, tree.home = home → tree.makeParent path = (tree, fault)) ∨
      ∃ ns, ∀ tree : Tree, tree.home = home →
        tree.makeParent path = tree.makeDirectories false [] ns := by
  obtain ⟨ns, hns⟩ : ∃ ns, ∀ tree : Tree, tree.home = home →
      ((tree.route path).filter leads).dropLast = ns := by
    refine ⟨((Tree.mk [] home).route path |>.filter leads).dropLast, fun tree hhome => ?_⟩
    rw [show tree.route path = (Tree.mk [] home).route path from route_of_home hhome path]
  cases hnul : ns.any (·.contains '\x00') with
  | true =>
    refine .inl ⟨some .invalidInput, fun tree hhome => ?_⟩
    rw [makeParent, hns tree hhome, hnul]
    rfl
  | false =>
    refine .inr ⟨ns, fun tree hhome => ?_⟩
    rw [makeParent, hns tree hhome, hnul]
    rfl

/-- Where the directory of a path was made, the path leads to a place in it. -/
theorem resolve_makeParent {path dir name : Text} (h : Path.Cut path dir name)
    (hn : Path.IsName name) (hroot : tree.find? [] = some .directory)
    (hok : (tree.makeParent path).2 = none) (hnul : '\x00' ∉ path) :
    ∃ q, (tree.makeParent path).1.resolve path = .ok (q ++ [name]) := by
  obtain ⟨ns, hroute, -⟩ := h.route tree
  have hne : path ≠ [] := by
    rintro rfl
    exact hn.ne_nil (List.append_eq_nil_iff.mp h.eq.symm).2
  have hmake := makeParent_eq hroute (leads_of_isName hn)
  split at hmake
  · rw [hmake] at hok
    cases hok
  · have hevolves := evolves_makeDirectories tree false [] (ns.filter leads)
    have hgrows : Grows (fun _ => True) tree _ := hevolves.grows (by simp)
    rw [hmake] at hok ⊢
    obtain ⟨q, hq, hqdir⟩ := follow_makeDirectories hok (above_nil tree) hroot
    refine ⟨q, ?_⟩
    rw [resolve_eq hnul hne, route_of_home hgrows.home, hroute, follow_append, hq]
    exact follow_name hn hqdir []

end Tree

end Desugar
