import Desugar.Proofs.Coverage

/-! Two runs of the readers side by side, over the tokens of one text. The runs may differ in the
name of their file, in whether they remember failed attempts, and in how they read what stands
between brackets. They find the same constructs in as many tokens, and a relation between their
notes is kept along the way. Each construct begins at a token where an attempt came to its end.
The readers are followed once, and what is said of two runs elsewhere are instances of it. -/
namespace Desugar

open Text Token

/-! ### Where constructs begin -/

/-- The operator before the stage, which is the token before its first one, is in `P`. -/
def Stage.Led (all : List Token) (P : Token → Prop) (s : Stage) : Prop :=
  ∃ front t u rest, all = front ++ t :: u :: rest ∧ u.kind ≠ .eof ∧ u.start = s.span.start ∧ P t

/-- A declaration begins at a token in `P`, and the stages of a chain are led by such tokens. -/
def Node.Begun (all : List Token) (P : Token → Prop) : Node → Prop
  | .struct span _ _ | .trait span _ _ _ | .impl span _ _ _ _ => ∃ t, t.start = span.start ∧ P t
  | .pipe _ _ _ stages => ∀ s ∈ stages, s.Led all P
  | .other _ | .binding _ => True

/-- The stage begins with the first of the tokens, and what it holds begins at tokens in `P`. -/
structure Stage.ReadAt (all : List Token) (P : Token → Prop) (tokens : List Token) (s : Stage) :
    Prop where
  first : ∃ u us, tokens = u :: us ∧ u.kind ≠ .eof ∧ u.start = s.span.start
  begun : s.Throughout (Node.Begun all P)

/-- The fault in a file of another name. -/
def Fault.inFile (file : Text) : Fault → Fault
  | .tooDeep l limit => .tooDeep { l with file := file } limit
  | fault => fault

namespace Node.Parse

/-! ### Notes that grow -/

structure Notes.Below (notes later : Notes) : Prop where
  failed : notes.failed ⊆ later.failed
  warnings : notes.warnings ⊆ later.warnings

section Below

variable {notes later last : Notes}

theorem Notes.Below.refl : notes.Below notes := ⟨List.Subset.refl _, List.Subset.refl _⟩

theorem Notes.Below.trans (h : notes.Below later) (h' : later.Below last) : notes.Below last :=
  ⟨List.Subset.trans h.failed h'.failed, List.Subset.trans h.warnings h'.warnings⟩

theorem failed_warn (notes : Notes) (cause : Warning.Cause) (t : Token) :
    (notes.warn cause t).failed = notes.failed := by
  unfold Notes.warn
  dsimp only
  split <;> rfl

theorem warnings_warn (notes : Notes) (cause : Warning.Cause) (t : Token) :
    (notes.warn cause t).warnings =
      if ⟨cause, t.place⟩ ∈ notes.warnings then notes.warnings
      else notes.warnings ++ [⟨cause, t.place⟩] := by
  unfold Notes.warn
  dsimp only
  split <;> rfl

theorem mem_warnings_warn {notes : Notes} {cause : Warning.Cause} {t : Token} {w : Warning} :
    w ∈ (notes.warn cause t).warnings ↔ w ∈ notes.warnings ∨ w = ⟨cause, t.place⟩ := by
  rw [warnings_warn]
  split
  next h => exact (or_iff_left_of_imp fun heq => heq ▸ h).symm
  next => rw [List.mem_append, List.mem_singleton]

theorem below_fail (notes : Notes) (t : Token) : notes.Below (notes.fail t) :=
  ⟨List.subset_cons_self _ _, List.Subset.refl _⟩

theorem below_warn (notes : Notes) (cause : Warning.Cause) (t : Token) :
    notes.Below (notes.warn cause t) :=
  ⟨by rw [failed_warn]; exact List.Subset.refl _, fun _ hw => mem_warnings_warn.mpr (.inl hw)⟩

end Below

/-! ### Two computations -/

/-- What is said of the second of two runs. -/
inductive Mode where
  /-- It returns whenever the first one does. -/
  | total
  /-- It returns unless the notes go beyond `last`. -/
  | within (last : Notes)
  /-- It reads `file`, and it fails where the first one does. -/
  | moved (file : Text)

/-- The second run may have failed when the first one has come to these notes. -/
def Mode.Excuses : Mode → Notes → Prop
  | .within last, notes => ¬ notes.Below last
  | .total, _ | .moved _, _ => False

theorem Mode.Excuses.mono {mode : Mode} {notes later : Notes} (h : mode.Excuses notes)
    (hle : notes.Below later) : mode.Excuses later := by
  cases mode with
  | total | moved => exact h
  | within last => exact fun hlast => h (hle.trans hlast)

/-- Two computations, of which the first one starts from `notes`. What it returns is related to
what the second one returns, or would return had it not failed. -/
structure Tracks {α β : Type} (mode : Mode) (notes : Notes) (notesOf : α → Notes)
    (P : α → β → Prop) (x : Except Fault α) (y : Except Fault β) : Prop where
  grows : ∀ a, x = .ok a → notes.Below (notesOf a)
  same : ∀ a, x = .ok a →
    ∃ b, P a b ∧ (y = .ok b ∨ mode.Excuses (notesOf a) ∧ ∃ fault, y = .error fault)
  fault : ∀ file, mode = .moved file → ∀ fault, x = .error fault → y = .error (fault.inFile file)

namespace Tracks

variable {α β γ δ : Type} {mode : Mode} {notes : Notes} {notesOf : α → Notes}
  {notesOf' : γ → Notes} {P Q : α → β → Prop} {P' : γ → δ → Prop} {x : Except Fault α}
  {y : Except Fault β}

theorem pure {a : α} {b : β} (hgrows : notes.Below (notesOf a)) (h : P a b) :
    Tracks mode notes notesOf P (.ok a) (.ok b) := by
  refine ⟨?_, ?_, fun _ _ _ => nofun⟩
  · rintro _ ⟨⟩
    exact hgrows
  · rintro _ ⟨⟩
    exact ⟨b, h, .inl rfl⟩

theorem error {fault : Fault} (hmode : ∀ file, mode ≠ .moved file) :
    Tracks mode notes notesOf P (.error fault) y :=
  ⟨fun _ => nofun, fun _ => nofun, fun file h => absurd h (hmode file)⟩

theorem bind {f : α → Except Fault γ} {g : β → Except Fault δ}
    (h : Tracks mode notes notesOf P x y)
    (hfg : ∀ a b, x = .ok a → P a b → Tracks mode (notesOf a) notesOf' P' (f a) (g b)) :
    Tracks mode notes notesOf' P' (x >>= f) (y >>= g) := by
  cases hx : x with
  | error fault =>
    refine ⟨fun _ => nofun, fun _ => nofun, ?_⟩
    rintro file hmode _ ⟨⟩
    rw [h.fault file hmode fault hx]
    rfl
  | ok a =>
    obtain ⟨b, hab, hy⟩ := h.same a hx
    have hnext := hfg a b hx hab
    refine ⟨fun c hc => (h.grows a hx).trans (hnext.grows c hc), fun c hc => ?_, ?_⟩
    · obtain ⟨d, hcd, hd⟩ := hnext.same c hc
      refine ⟨d, hcd, ?_⟩
      rcases hy with rfl | ⟨hexcused, fault, rfl⟩
      · exact hd
      · exact .inr ⟨hexcused.mono (hnext.grows c hc), fault, rfl⟩
    · rintro file rfl fault hfault
      rcases hy with rfl | ⟨hexcused, -⟩
      · exact hnext.fault file rfl fault hfault
      · exact hexcused.elim

theorem map {f : α → γ} {g : β → δ} (h : Tracks mode notes notesOf P x y)
    (hnotes : ∀ a, notesOf' (f a) = notesOf a) (hfg : ∀ a b, P a b → P' (f a) (g b)) :
    Tracks mode notes notesOf' P' (x.map f) (y.map g) := by
  have hbind : Tracks mode notes notesOf' P' (x >>= fun a => .ok (f a))
      (y >>= fun b => .ok (g b)) :=
    h.bind fun a b _ hab => .pure (by rw [hnotes]; exact .refl) (hfg a b hab)
  cases x <;> cases y <;> exact hbind

theorem imp (h : Tracks mode notes notesOf P x y) (hPQ : ∀ a b, x = .ok a → P a b → Q a b) :
    Tracks mode notes notesOf Q x y := by
  refine ⟨h.grows, fun a ha => ?_, h.fault⟩
  obtain ⟨b, hab, hy⟩ := h.same a ha
  exact ⟨b, hPQ a b ha hab, hy⟩

/-- A step that both runs make alike, without taking notes. -/
theorem after {ε : Type} {z : Except Fault ε} {f : ε → Except Fault α} {g : ε → Except Fault β}
    (hz : Returns (fun _ => True) z) (hfg : ∀ a, Tracks mode notes notesOf P (f a) (g a)) :
    Tracks mode notes notesOf P (z >>= f) (z >>= g) := by
  obtain ⟨a, rfl, -⟩ := hz.exists_ok
  exact hfg a

theorem total_ok {a : α} (h : Tracks .total notes notesOf P x y) (ha : x = .ok a) :
    ∃ b, y = .ok b ∧ P a b := by
  obtain ⟨b, hab, hy⟩ := h.same a ha
  exact ⟨b, hy.resolve_right fun hexcused => hexcused.1, hab⟩

end Tracks

/-! ### Attempts -/

/-- The declaration that starts at the keyword `t`. -/
def declaration (source : Source) (inner : Inner) (t : Token) (ts : List Token) (notes : Notes) :
    Except Fault Found :=
  match t.kind with
  | .keyword .structWord => struct source t ts notes
  | .keyword .traitWord => trait source inner t ts notes
  | .keyword .implWord => impl source inner t ts notes
  | _ => .ok (.step notes)

/-- What an attempt comes to: whether it reached its end, how many tokens are passed at
once, and what was noted on the way. -/
structure Attempt where
  ended : Bool
  used : Nat
  notes : Notes

/-- The attempt at `t`, which is a keyword or a pipe. -/
def attempt (source : Source) (inner : Inner) (t : Token) (ts : List Token) (notes : Notes) :
    Except Fault Attempt :=
  if t.kind = .pipe then
    (stage source inner ts notes).map fun r =>
      ⟨r.1.isSome, 1, if r.1.isSome then r.2 else r.2.fail t⟩
  else (declaration source inner t ts notes).map fun f => ⟨!f.nodes.isEmpty, f.used, f.notes⟩

/-- The attempt at `t` is made in vain. -/
def Vain (source : Source) (inner : Inner) (t : Token) (ts : List Token) : Prop :=
  ∃ notes later, attempt source inner t ts notes = .ok ⟨false, 1, later⟩

/-- The kinds of tokens at which attempts are made. -/
def Begins (t : Token) : Prop :=
  t.kind = .pipe ∨ t.kind = .keyword .structWord ∨ t.kind = .keyword .traitWord ∨
    t.kind = .keyword .implWord

theorem Begins.kind_ne {t : Token} (h : Begins t) : t.kind ≠ .eof := by
  rcases h with h | h | h | h <;> rw [h] <;> nofun

section Attempts

variable {source : Source} {inner : Inner} {t : Token} {ts : List Token} {notes : Notes}

theorem attempt_of_pipe (hk : t.kind = .pipe) {read : Option (Stage × Nat)} {later : Notes}
    (h : stage source inner ts notes = .ok (read, later)) :
    attempt source inner t ts notes =
      .ok ⟨read.isSome, 1, if read.isSome then later else later.fail t⟩ := by
  rw [attempt, if_pos hk, h]
  rfl

theorem attempt_of_declaration (hpipe : t.kind ≠ .pipe) {f : Found}
    (h : declaration source inner t ts notes = .ok f) :
    attempt source inner t ts notes = .ok ⟨!f.nodes.isEmpty, f.used, f.notes⟩ := by
  rw [attempt, if_neg hpipe, h]
  rfl

theorem item_of_begins (source : Source) (inner : Inner) (last : Option Token) (ts : List Token)
    (notes : Notes) (ht : Begins t) (hpipe : t.kind ≠ .pipe) :
    item source inner last t ts notes =
      if source.knows notes t then .ok (.step notes) else declaration source inner t ts notes := by
  unfold item declaration
  rcases ht with hk | hk | hk | hk
  · exact absurd hk hpipe
  all_goals simp only [hk]

/-- A reader that does not remember has tried in vain where it finds a chain without stages. -/
theorem vain_of_chain (hk : t.kind = .pipe) (hr : source.remembers = false) {r : Stages}
    (h : chain source inner 0 (t :: ts) notes = .ok r) (hs : r.stages = []) :
    Vain source inner t ts := by
  rw [chain, if_pos (by simp [hk, Source.knows, hr])] at h
  cases hread : stage source inner ts notes with
  | error fault =>
    rw [hread] at h
    cases h
  | ok read =>
    rw [hread] at h
    obtain ⟨_ | ⟨s, used⟩, later⟩ := read
    · exact ⟨notes, _, attempt_of_pipe hk hread⟩
    · dsimp only [bind, Except.bind] at h
      split at h
      next => cases h
      next =>
        cases h
        cases hs

end Attempts

/-! ### Readers side by side -/

/-- The same constructs in as many tokens, with notes in the relation `R`. The constructs begin at
tokens in `P`. -/
structure Found.Alike (all : List Token) (R : Notes → Notes → Prop) (P : Token → Prop)
    (f g : Found) : Prop where
  nodes : f.nodes = g.nodes
  used : f.used = g.used
  notes : R f.notes g.notes
  begun : Throughout (Begun all P) f.nodes

/-- Notes with which the construct at `t` is given up, perhaps with a warning. -/
inductive Notes.Quits (R : Notes → Notes → Prop) (t : Token) : Notes → Notes → Prop where
  | silent {notes notes' : Notes} : R notes notes' → Notes.Quits R t notes notes'
  | warned {notes notes' : Notes} (cause : Warning.Cause) :
      R notes notes' → Notes.Quits R t (notes.warn cause t) (notes'.warn cause t)

/-- Both readers come to the same end at `t`, or both give up there. -/
inductive Found.Agrees (all : List Token) (R : Notes → Notes → Prop) (P : Token → Prop)
    (t : Token) : Found → Found → Prop where
  | found {f g : Found} :
      f.nodes ≠ [] → (P t → f.Alike all R P g) → Found.Agrees all R P t f g
  | givenUp {notes notes' : Notes} :
      notes.Quits R t notes' → Found.Agrees all R P t (giveUp t notes) (giveUp t notes')

/-- Two readers of what stands between brackets stay side by side. -/
def Inner.Tracks (mode : Mode) (all : List Token) (R : Notes → Notes → Prop) (P : Token → Prop)
    (inner inner' : Inner) : Prop :=
  ∀ (close : Option Kind) (last : Option Token) (tokens : List Token) (notes notes' : Notes),
    tokens <:+ all → R notes notes' →
      Parse.Tracks mode notes Found.notes (Found.Alike all R P) (inner close last tokens notes)
        (inner' close last tokens notes')

/-- Warnings and failures keep the relation `R` between the notes of two readers of one text, and
attempts of the first one come to their end at tokens in `P` only. -/
structure Keeps (source other : Source) (mode : Mode) (all : List Token) (inner : Inner)
    (R : Notes → Notes → Prop) (P : Token → Prop) : Prop where
  layout : Layout source.text all
  text : other.text = source.text
  /-- What the first reader leaves out, the second one does too. -/
  knows {notes notes' : Notes} {t : Token} :
    R notes notes' → source.knows notes t = true → other.knows notes' t = true
  /-- What only the second reader leaves out leads the first one to nothing. -/
  known {notes notes' : Notes} {t : Token} {ts : List Token} :
    Begins t → t :: ts <:+ all → R notes notes' → source.knows notes t = false →
      other.knows notes' t = true → (∀ file, mode ≠ .moved file) ∧
        ∀ a, attempt source inner t ts notes = .ok a →
          a.ended = false ∧ a.used = 1 ∧ R a.notes notes'
  ended {notes : Notes} {t : Token} {ts : List Token} {a : Attempt} :
    Begins t → t :: ts <:+ all → attempt source inner t ts notes = .ok a → a.ended = true → P t
  warn {notes notes' : Notes} {t : Token} {ts : List Token} (cause : Warning.Cause) :
    Begins t → t :: ts <:+ all → (source.remembers = false → Vain source inner t ts) →
      R notes notes' → R (notes.warn cause t) (notes'.warn cause t)
  fail {notes₀ notes notes' : Notes} {t : Token} {ts : List Token} :
    Begins t → t :: ts <:+ all →
      attempt source inner t ts notes₀ = .ok ⟨false, 1, notes.fail t⟩ → R notes notes' →
        R (notes.fail t) (notes'.fail t)

section Readers

variable {source other : Source} {mode : Mode} {all tokens ts : List Token} {t : Token}
  {R : Notes → Notes → Prop} {P : Token → Prop} {inner inner' : Inner} {notes notes' : Notes}

theorem suffix_of_cons (h : t :: ts <:+ all) : ts <:+ all := (List.suffix_cons t ts).trans h

theorem suffix_of_drop (h : tokens <:+ all) (n : Nat) {rest : List Token}
    (hd : tokens.drop n = rest) : rest <:+ all :=
  hd ▸ (List.drop_suffix n tokens).trans h

theorem Found.alike_nothing (hR : R notes notes') :
    (Found.nothing notes).Alike all R P (.nothing notes') :=
  ⟨rfl, rfl, hR, Throughout.nil⟩

theorem Found.alike_step (hR : R notes notes') :
    (Found.step notes).Alike all R P (.step notes') :=
  ⟨rfl, rfl, hR, Throughout.nil⟩

theorem Found.Alike.eq {f g : Found} (h : f.Alike all Eq P g) : f = g := by
  obtain ⟨nodes, used, notes⟩ := f
  obtain ⟨_, _, _⟩ := g
  obtain ⟨rfl, rfl, rfl, -⟩ := h
  rfl

theorem Found.Alike.succ {f g : Found} (h : f.Alike all R P g) : f.succ.Alike all R P g.succ :=
  ⟨h.nodes, congrArg (· + 1) h.used, h.notes, h.begun⟩

theorem Found.Alike.prepend {f g : Found} {nodes : List Node} (h : f.Alike all R P g)
    (hnodes : Throughout (Begun all P) nodes) :
    (f.prepend nodes).Alike all R P (g.prepend nodes) :=
  ⟨congrArg (nodes ++ ·) h.nodes, h.used, h.notes, Throughout.append_iff.mpr ⟨hnodes, h.begun⟩⟩

theorem throughout_cover {start stop : Nat} {ns : List Node} (h : Throughout (Begun all P) ns) :
    Throughout (Begun all P) (Block.cover start stop ns).nodes :=
  (Throughout.cover_iff fun _ => trivial).mpr h

/-! ### Groups and operands -/

theorem group_tracks (hinner : inner.Tracks mode all R P inner') (bracket : Bracket)
    (first : Token) (hts : tokens <:+ all) (hR : R notes notes') :
    Tracks mode notes (fun r => r.1.notes) (fun r r' => r.1.Alike all R P r'.1 ∧ r.2 = r'.2)
      (group inner bracket first tokens notes) (group inner' bracket first tokens notes') := by
  rw [group_eq_bind, group_eq_bind]
  refine (hinner _ _ _ _ _ hts hR).bind ?_
  rintro ⟨nodes, used, later⟩ ⟨_, _, later'⟩ - ⟨rfl, rfl, hlater, hbegun⟩
  dsimp only
  split <;> exact .pure .refl ⟨⟨rfl, rfl, hlater, hbegun⟩, rfl⟩

theorem trailers_tracks (hinner : inner.Tracks mode all R P inner') (skip : Nat)
    (hts : tokens <:+ all) (hR : R notes notes') :
    Tracks mode notes Found.notes (Found.Alike all R P) (trailers inner skip tokens notes)
      (trailers inner' skip tokens notes') := by
  induction tokens generalizing skip notes notes' with
  | nil =>
    simp only [trailers]
    exact .pure .refl (Found.alike_nothing hR)
  | cons t ts ih =>
    have hrest := suffix_of_cons hts
    have hsucc (skip : Nat) : Tracks mode notes Found.notes (Found.Alike all R P)
        ((trailers inner skip ts notes).map Found.succ)
        ((trailers inner' skip ts notes').map Found.succ) :=
      (ih skip hrest hR).map (fun _ => rfl) fun _ _ h => h.succ
    have hstop : Tracks mode notes Found.notes (Found.Alike all R P) (.ok (.nothing notes))
        (.ok (.nothing notes')) := .pure .refl (Found.alike_nothing hR)
    -- a group, and then the loop on what follows it
    have hgroup (bracket : Bracket) : Tracks mode notes Found.notes (Found.Alike all R P)
        (do
          let r ← group inner bracket t ts notes
          let rest ← trailers inner (r.1.used - 1) ts r.1.notes
          Pure.pure (rest.succ.prepend r.1.nodes))
        (do
          let r ← group inner' bracket t ts notes'
          let rest ← trailers inner' (r.1.used - 1) ts r.1.notes
          Pure.pure (rest.succ.prepend r.1.nodes)) := by
      refine (group_tracks hinner bracket t hrest hR).bind ?_
      rintro ⟨⟨nodes, used, later⟩, closed⟩ ⟨⟨_, _, later'⟩, _⟩ - ⟨⟨rfl, rfl, hlater, hbegun⟩, rfl⟩
      exact (ih (used - 1) hrest hlater).bind fun _ _ _ h => .pure .refl (h.succ.prepend hbegun)
    cases skip with
    | succ skip =>
      simp only [trailers]
      exact hsucc skip
    | zero =>
      simp only [trailers]
      split
      next =>
        split
        next => exact hsucc 1
        next => exact hstop
      next => exact hgroup .paren
      next => exact hgroup .square
      next => exact hsucc 0
      next => exact hstop

theorem operand_tracks (hinner : inner.Tracks mode all R P inner') (hts : ts <:+ all)
    (hR : R notes notes') :
    Tracks mode notes Found.notes (Found.Alike all R P) (operand inner t ts notes)
      (operand inner' t ts notes') := by
  have hprimary : Tracks mode notes Found.notes (Found.Alike all R P) (primary inner t ts notes)
      (primary inner' t ts notes') := by
    unfold primary
    split
    next => exact (group_tracks hinner .paren t hts hR).map (fun _ => rfl) fun _ _ h => h.1
    next => exact (group_tracks hinner .square t hts hR).map (fun _ => rfl) fun _ _ h => h.1
    next => exact .pure .refl (Found.alike_step hR)
  refine hprimary.bind ?_
  rintro ⟨nodes, used, later⟩ ⟨_, _, later'⟩ - ⟨rfl, rfl, hlater, hbegun⟩
  exact (trailers_tracks hinner (used - 1) hts hlater).bind fun _ _ _ h =>
    .pure .refl (h.succ.prepend hbegun)

/-! ### Pipes -/

theorem returns_path (hall : Layout source.text all) {first : Token} (hts : first :: ts <:+ all)
    (hk : first.kind = .ident) :
    Returns (fun _ => True)
      (slice source.text first.start (stopAfter (pathTail ts + 1) (first :: ts))) := by
  obtain ⟨us, rest, rfl, hlen, -⟩ := isPath_pathTail (t := first) (by rw [hk]; rfl) ts
  obtain ⟨front, hsplit⟩ := hts
  obtain ⟨path, hpath⟩ := exists_slice?_path hall hsplit.symm
  rw [hlen]
  exact (Ends.of_slice? hpath).mono fun _ _ => trivial

theorem stage_tracks (hkeeps : Keeps source other mode all inner R P)
    (hinner : inner.Tracks mode all R P inner') (hts : tokens <:+ all) (hR : R notes notes') :
    Tracks mode notes Prod.snd
      (fun r r' => r.1 = r'.1 ∧ R r.2 r'.2 ∧
        ∀ s used, r.1 = some (s, used) → Stage.ReadAt all P tokens s)
      (stage source inner tokens notes) (stage other inner' tokens notes') := by
  unfold stage
  rw [hkeeps.text]
  split
  next => exact .pure .refl ⟨rfl, hR, nofun⟩
  next first ts =>
    split
    next hk =>
      have hfirst : first.kind ≠ .eof := by rw [hk]; nofun
      refine .after (returns_path hkeeps.layout hts hk) fun path => ?_
      -- a path without arguments holds nothing
      have hbare (stop : Nat) (s : Stage) (used : Nat)
          (h : some (Stage.bare ⟨first.start, stop⟩ path, pathTail ts + 1) = some (s, used)) :
          Stage.ReadAt all P (first :: ts) s := by
        cases h
        exact ⟨⟨first, ts, rfl, hfirst, rfl⟩, nofun⟩
      split
      next opener args hdrop =>
        split
        next =>
          have hargs := suffix_of_cons (suffix_of_drop hts _ hdrop)
          refine (hinner _ _ _ _ _ hargs hR).bind ?_
          rintro ⟨nodes, used, later⟩ ⟨_, _, later'⟩ - ⟨rfl, rfl, hlater, hbegun⟩
          dsimp only
          split
          next =>
            split
            next =>
              refine .pure .refl ⟨rfl, hlater, ?_⟩
              rintro s used ⟨⟩
              refine ⟨⟨first, ts, rfl, hfirst, rfl⟩, ?_⟩
              rintro b ⟨⟩
              exact throughout_cover hbegun
            next => exact .pure .refl ⟨rfl, hlater, nofun⟩
          next => exact .pure .refl ⟨rfl, hlater, nofun⟩
        next => exact .pure .refl ⟨rfl, hR, hbare _⟩
      next => exact .pure .refl ⟨rfl, hR, hbare _⟩
    next hk =>
      refine (group_tracks hinner .paren first (suffix_of_cons hts) hR).bind ?_
      rintro ⟨⟨nodes, used, later⟩, closed⟩ ⟨⟨_, _, later'⟩, _⟩ - ⟨⟨rfl, rfl, hlater, hbegun⟩, rfl⟩
      dsimp only
      split
      next =>
        refine .pure .refl ⟨rfl, hlater, ?_⟩
        rintro s used ⟨⟩
        refine ⟨⟨first, ts, rfl, by rw [hk]; nofun, rfl⟩, ?_⟩
        rintro b ⟨⟩
        exact throughout_cover hbegun
      next => exact .pure .refl ⟨rfl, hlater, nofun⟩
    next => exact .pure .refl ⟨rfl, hR, nofun⟩

/-- The same stages in as many tokens, with notes in the relation `R`. The stages are led by
tokens in `P`, and what they hold begins at such tokens. -/
structure Stages.Alike (all : List Token) (R : Notes → Notes → Prop) (P : Token → Prop)
    (s s' : Stages) : Prop where
  stages : s.stages = s'.stages
  used : s.used = s'.used
  notes : R s.notes s'.notes
  led : ∀ st ∈ s.stages, st.Led all P
  begun : ∀ st ∈ s.stages, st.Throughout (Begun all P)

theorem Stages.alike_nil (hR : R notes notes') :
    Stages.Alike all R P ⟨[], 0, notes⟩ ⟨[], 0, notes'⟩ :=
  ⟨rfl, rfl, hR, nofun, nofun⟩

/-- One more stage in front, led by the pipe `t`. -/
theorem Stages.Alike.cons {r r' : Stages} {s : Stage} (h : r.Alike all R P r')
    (hts : t :: ts <:+ all) (ht : P t) (hs : s.ReadAt all P ts) :
    Stages.Alike all R P ⟨s :: r.stages, r.used + 1, r.notes⟩
      ⟨s :: r'.stages, r'.used + 1, r'.notes⟩ := by
  obtain ⟨u, us, rfl, hu, hstart⟩ := hs.first
  obtain ⟨front, hsplit⟩ := hts
  exact ⟨congrArg (s :: ·) h.stages, congrArg (· + 1) h.used, h.notes,
    List.forall_mem_cons.mpr ⟨⟨front, t, u, us, hsplit.symm, hu, hstart, ht⟩, h.led⟩,
    List.forall_mem_cons.mpr ⟨hs.begun, h.begun⟩⟩

theorem chain_tracks (hkeeps : Keeps source other mode all inner R P)
    (hinner : inner.Tracks mode all R P inner') (skip : Nat) (hts : tokens <:+ all)
    (hR : R notes notes') :
    Tracks mode notes Stages.notes (Stages.Alike all R P) (chain source inner skip tokens notes)
      (chain other inner' skip tokens notes') := by
  induction tokens generalizing skip notes notes' with
  | nil =>
    simp only [chain]
    exact .pure .refl (Stages.alike_nil hR)
  | cons t ts ih =>
    have hrest := suffix_of_cons hts
    cases skip with
    | succ skip =>
      simp only [chain]
      exact (ih skip hrest hR).map (fun _ => rfl) fun _ _ h =>
        ⟨h.stages, congrArg (· + 1) h.used, h.notes, h.led, h.begun⟩
    | zero =>
      have hstop : Tracks mode notes Stages.notes (Stages.Alike all R P) (.ok ⟨[], 0, notes⟩)
          (.ok ⟨[], 0, notes'⟩) := .pure .refl (Stages.alike_nil hR)
      have hstage := stage_tracks hkeeps hinner hrest hR
      by_cases hk : t.kind = .pipe
      · cases hfirst : source.knows notes t with
        | true =>
          simpa [chain, hk, hfirst, hkeeps.knows hR hfirst] using hstop
        | false =>
          cases hsecond : other.knows notes' t with
          | true =>
            -- the first reader tries, in vain
            obtain ⟨hmode, hvain⟩ := hkeeps.known (.inl hk) hts hR hfirst hsecond
            simp only [chain, hk, hfirst, hsecond, decide_true, Bool.not_true, Bool.not_false,
              Bool.and_true, Bool.and_false, Bool.false_eq_true, if_true, if_false]
            cases hread : stage source inner ts notes with
            | error fault => exact .error hmode
            | ok r =>
              obtain ⟨read, later⟩ := r
              obtain ⟨hnone, -, hlater⟩ := hvain _ (attempt_of_pipe hk hread)
              rw [Option.isSome_eq_false_iff, Option.isNone_iff_eq_none] at hnone
              subst hnone
              exact .pure ((hstage.grows _ hread).trans (below_fail later t))
                (Stages.alike_nil hlater)
          | false =>
            simp only [chain, hk, hfirst, hsecond, decide_true, Bool.not_false, Bool.and_true,
              if_true]
            refine hstage.bind ?_
            rintro ⟨_ | ⟨s, used⟩, later⟩ ⟨_, later'⟩ hread ⟨rfl, hlater, hs⟩
            · exact .pure (below_fail later t)
                (Stages.alike_nil (hkeeps.fail (.inl hk) hts (attempt_of_pipe hk hread) hlater))
            · have ht : P t := hkeeps.ended (.inl hk) hts (attempt_of_pipe hk hread) rfl
              exact (ih used hrest hlater).bind fun r r' _ h =>
                .pure .refl (h.cons hts ht (hs s used rfl))
      · simpa [chain, hk] using hstop

theorem expression_tracks (hkeeps : Keeps source other mode all inner R P)
    (hinner : inner.Tracks mode all R P inner') (hts : t :: ts <:+ all) (hR : R notes notes') :
    Tracks mode notes Found.notes (Found.Alike all R P) (expression source inner t ts notes)
      (expression other inner' t ts notes') := by
  refine (operand_tracks hinner (suffix_of_cons hts) hR).bind ?_
  rintro ⟨nodes, used, later⟩ ⟨_, _, later'⟩ - ⟨rfl, rfl, hlater, hbegun⟩
  dsimp only
  split
  next => exact .pure .refl ⟨rfl, rfl, hlater, hbegun⟩
  next next rest hdrop =>
    have hnext := suffix_of_drop hts used hdrop
    split
    next hk =>
      refine (chain_tracks hkeeps hinner 0 hnext hlater).bind ?_
      rintro ⟨stages, usedStages, last⟩ ⟨_, _, last'⟩ hchain ⟨rfl, rfl, hlast, hled, hinside⟩
      dsimp only
      split
      next hnone =>
        have hvain (hr : source.remembers = false) : Vain source inner next rest :=
          vain_of_chain hk hr hchain (List.getLast?_eq_none_iff.mp hnone)
        exact .pure (below_warn last _ next)
          ⟨rfl, rfl, hkeeps.warn .pipeWithoutStage (.inl hk) hnext hvain hlast, hbegun⟩
      next =>
        exact .pure .refl ⟨rfl, rfl, hlast,
          Throughout.pipe_iff.mpr ⟨hled, throughout_cover hbegun, hinside⟩⟩
    next => exact .pure .refl ⟨rfl, rfl, hlater, hbegun⟩

/-! ### Declarations -/

theorem head_of_text (htext : other.text = source.text) (tokens : List Token) :
    head other tokens = head source tokens := by
  unfold head
  rw [htext]

theorem fields_of_text (htext : other.text = source.text) (start depth : Nat)
    (tokens : List Token) : fields other start depth tokens = fields source start depth tokens := by
  induction tokens generalizing start depth with
  | nil => rfl
  | cons t ts ih => simp only [fields, field, ih, htext]

theorem returns_head (hall : Layout source.text all) (hts : tokens <:+ all) :
    Returns (fun _ => True) (head source tokens) := by
  obtain ⟨front, hsplit⟩ := hts
  exact (head_ends hall hsplit.symm).mono fun _ _ => trivial

theorem returns_fields (hall : Layout source.text all) {opener : Token}
    (hts : opener :: tokens <:+ all) :
    Returns (fun _ => True) (fields source opener.stop 0 tokens) := by
  obtain ⟨front, hsplit⟩ := hts
  exact (fields_opened hall hsplit.symm).mono fun _ _ => trivial

/-- Both readers give up at `t`, with notes made since `notes`. -/
theorem tracks_giveUp {later later' : Notes} (hgrows : notes.Below later)
    (h : later.Quits R t later') :
    Tracks mode notes Found.notes (Found.Agrees all R P t) (.ok (giveUp t later))
      (.ok (giveUp t later')) :=
  .pure (hgrows.trans (below_fail later t)) (.givenUp h)

theorem struct_tracks (hkeeps : Keeps source other mode all inner R P) (hts : t :: ts <:+ all)
    (hR : R notes notes') :
    Tracks mode notes Found.notes (Found.Agrees all R P t) (struct source t ts notes)
      (struct other t ts notes') := by
  have hrest := suffix_of_cons hts
  have hgiven : Tracks mode notes Found.notes (Found.Agrees all R P t) (.ok (giveUp t notes))
      (.ok (giveUp t notes')) := tracks_giveUp .refl (.silent hR)
  unfold struct
  rw [head_of_text hkeeps.text]
  refine .after (returns_head hkeeps.layout hrest) fun name => ?_
  split
  next => exact hgiven
  next name used =>
    split
    next opener body hdrop =>
      split
      next =>
        rw [fields_of_text hkeeps.text]
        have hbody := suffix_of_drop hrest used hdrop
        refine .after (returns_fields hkeeps.layout hbody) fun found => ?_
        split
        next => exact tracks_giveUp (below_warn notes _ t) (.warned _ hR)
        next =>
          refine .pure .refl (.found (List.cons_ne_nil _ _) fun ht => ⟨rfl, rfl, hR, ?_⟩)
          exact List.forall_mem_singleton.mpr ⟨t, rfl, ht⟩
      next => exact hgiven
    next => exact hgiven

/-- A body that both read alike, or notes with which the construct before it is given up. -/
theorem body_tracks (hinner : inner.Tracks mode all R P inner') (t : Token)
    (cause : Warning.Cause) (hts : tokens <:+ all) (hR : R notes notes') :
    Tracks mode notes Prod.snd
      (fun r r' => r.1 = r'.1 ∧ (r.1 = none → r.2.Quits R t r'.2) ∧
        ∀ b close used, r.1 = some (b, close, used) →
          R r.2 r'.2 ∧ Throughout (Begun all P) b.nodes)
      (body inner t cause tokens notes) (body inner' t cause tokens notes') := by
  unfold body
  split
  next => exact .pure .refl ⟨rfl, fun _ => .silent hR, nofun⟩
  next opener ts =>
    split
    next =>
      refine (hinner _ _ _ _ _ (suffix_of_cons hts) hR).bind ?_
      rintro ⟨nodes, used, later⟩ ⟨_, _, later'⟩ - ⟨rfl, rfl, hlater, hbegun⟩
      dsimp only
      split
      next =>
        split
        next =>
          refine .pure .refl ⟨rfl, nofun, ?_⟩
          rintro b close used ⟨⟩
          exact ⟨hlater, throughout_cover hbegun⟩
        next => exact .pure (below_warn later cause t) ⟨rfl, fun _ => .warned cause hlater, nofun⟩
      next => exact .pure (below_warn later cause t) ⟨rfl, fun _ => .warned cause hlater, nofun⟩
    next => exact .pure .refl ⟨rfl, fun _ => .silent hR, nofun⟩

theorem trait_tracks (hkeeps : Keeps source other mode all inner R P)
    (hinner : inner.Tracks mode all R P inner') (hts : t :: ts <:+ all) (hR : R notes notes') :
    Tracks mode notes Found.notes (Found.Agrees all R P t) (trait source inner t ts notes)
      (trait other inner' t ts notes') := by
  have hrest := suffix_of_cons hts
  unfold trait
  rw [head_of_text hkeeps.text]
  refine .after (returns_head hkeeps.layout hrest) fun name => ?_
  split
  next => exact tracks_giveUp .refl (.silent hR)
  next name used =>
    refine (body_tracks hinner t _ (suffix_of_drop hrest used rfl) hR).bind ?_
    rintro ⟨_ | ⟨b, close, more⟩, later⟩ ⟨_, later'⟩ - ⟨rfl, hquits, hread⟩
    · exact tracks_giveUp .refl (hquits rfl)
    · obtain ⟨hlater, hbegun⟩ := hread b close more rfl
      exact .pure .refl (.found (List.cons_ne_nil _ _) fun ht =>
        ⟨rfl, rfl, hlater, Throughout.trait_iff.mpr ⟨⟨t, rfl, ht⟩, hbegun⟩⟩)

theorem impl_tracks (hkeeps : Keeps source other mode all inner R P)
    (hinner : inner.Tracks mode all R P inner') (hts : t :: ts <:+ all) (hR : R notes notes') :
    Tracks mode notes Found.notes (Found.Agrees all R P t) (impl source inner t ts notes)
      (impl other inner' t ts notes') := by
  have hrest := suffix_of_cons hts
  have hgiven : Tracks mode notes Found.notes (Found.Agrees all R P t) (.ok (giveUp t notes))
      (.ok (giveUp t notes')) := tracks_giveUp .refl (.silent hR)
  unfold impl
  rw [head_of_text hkeeps.text]
  refine .after (returns_head hkeeps.layout hrest) fun name => ?_
  split
  next => exact hgiven
  next name used =>
    split
    next => exact hgiven
    next word rest hdrop =>
      have htarget := suffix_of_cons (suffix_of_drop hrest used hdrop)
      split
      next =>
        rw [head_of_text hkeeps.text]
        refine .after (returns_head hkeeps.layout htarget) fun target => ?_
        split
        next => exact hgiven
        next target targetUsed =>
          refine (body_tracks hinner t _ (suffix_of_drop htarget targetUsed rfl) hR).bind ?_
          rintro ⟨_ | ⟨b, close, more⟩, later⟩ ⟨_, later'⟩ - ⟨rfl, hquits, hread⟩
          · exact tracks_giveUp .refl (hquits rfl)
          · obtain ⟨hlater, hbegun⟩ := hread b close more rfl
            exact .pure .refl (.found (List.cons_ne_nil _ _) fun ht =>
              ⟨rfl, rfl, hlater, Throughout.impl_iff.mpr ⟨⟨t, rfl, ht⟩, hbegun⟩⟩)
      next =>
        split
        next => exact tracks_giveUp (below_warn notes _ t) (.warned _ hR)
        next => exact hgiven

theorem declaration_tracks (hkeeps : Keeps source other mode all inner R P)
    (hinner : inner.Tracks mode all R P inner') (ht : Begins t) (hpipe : t.kind ≠ .pipe)
    (hts : t :: ts <:+ all) (hR : R notes notes') :
    Tracks mode notes Found.notes (Found.Agrees all R P t) (declaration source inner t ts notes)
      (declaration other inner' t ts notes') := by
  unfold declaration
  rcases ht with hk | hk | hk | hk
  · exact absurd hk hpipe
  · rw [hk]
    exact struct_tracks hkeeps hts hR
  · rw [hk]
    exact trait_tracks hkeeps hinner hts hR
  · rw [hk]
    exact impl_tracks hkeeps hinner hts hR

/-! ### Sequences -/

/-- A declaration that is read or given up by both readers. -/
theorem Found.Agrees.alike (hkeeps : Keeps source other mode all inner R P) (ht : Begins t)
    (hpipe : t.kind ≠ .pipe) (hts : t :: ts <:+ all) {f g : Found} (h : f.Agrees all R P t g)
    (hf : declaration source inner t ts notes = .ok f) : f.Alike all R P g := by
  have hattempt := attempt_of_declaration hpipe hf
  cases h with
  | found hne halike => exact halike (hkeeps.ended ht hts hattempt (by simpa using hne))
  | @givenUp later later' hquits =>
    have hR : R later later' := by
      cases hquits with
      | silent hR => exact hR
      | warned cause hR => exact hkeeps.warn cause ht hts (fun _ => ⟨_, _, hattempt⟩) hR
    exact Found.alike_step (hkeeps.fail ht hts hattempt hR)

/-- A declaration that is tried by both readers, or left out by the second one or by both. -/
theorem declared_tracks (hkeeps : Keeps source other mode all inner R P)
    (hinner : inner.Tracks mode all R P inner') (last : Option Token) (ht : Begins t)
    (hpipe : t.kind ≠ .pipe) (hts : t :: ts <:+ all) (hR : R notes notes') :
    Tracks mode notes Found.notes (Found.Alike all R P) (item source inner last t ts notes)
      (item other inner' last t ts notes') := by
  rw [item_of_begins _ _ _ _ _ ht hpipe, item_of_begins _ _ _ _ _ ht hpipe]
  have hagrees := declaration_tracks hkeeps hinner ht hpipe hts hR
  cases hfirst : source.knows notes t with
  | true =>
    rw [hkeeps.knows hR hfirst]
    exact .pure .refl (Found.alike_step hR)
  | false =>
    cases hsecond : other.knows notes' t with
    | true =>
      -- the second reader steps over the keyword, the first one gives up there
      obtain ⟨hmode, hvain⟩ := hkeeps.known ht hts hR hfirst hsecond
      simp only [Bool.false_eq_true, if_true, if_false]
      cases hread : declaration source inner t ts notes with
      | error fault => exact .error hmode
      | ok f =>
        obtain ⟨hend, hused, hlater⟩ := hvain _ (attempt_of_declaration hpipe hread)
        have hnil : f.nodes = [] := by simpa using hend
        exact .pure (hagrees.grows f hread) ⟨hnil, hused, hlater, hnil ▸ Throughout.nil⟩
    | false =>
      simp only [Bool.false_eq_true, if_false]
      exact hagrees.imp fun f g hf h => h.alike hkeeps ht hpipe hts hf

theorem item_tracks (hkeeps : Keeps source other mode all inner R P)
    (hinner : inner.Tracks mode all R P inner') (last : Option Token) (hts : t :: ts <:+ all)
    (hR : R notes notes') :
    Tracks mode notes Found.notes (Found.Alike all R P) (item source inner last t ts notes)
      (item other inner' last t ts notes') := by
  have hstep : Tracks mode notes Found.notes (Found.Alike all R P) (.ok (.step notes))
      (.ok (.step notes')) := .pure .refl (Found.alike_step hR)
  by_cases ht : Begins t ∧ t.kind ≠ .pipe
  · exact declared_tracks hkeeps hinner last ht.1 ht.2 hts hR
  · unfold item
    split
    next hk => exact absurd ⟨.inr (.inl hk), by rw [hk]; nofun⟩ ht
    next hk => exact absurd ⟨.inr (.inr (.inl hk)), by rw [hk]; nofun⟩ ht
    next hk => exact absurd ⟨.inr (.inr (.inr hk)), by rw [hk]; nofun⟩ ht
    next =>
      split
      next => exact hstep
      next => exact .pure .refl ⟨rfl, rfl, hR, List.forall_mem_singleton.mpr trivial⟩
    next =>
      exact (group_tracks hinner .brace t (suffix_of_cons hts) hR).map (fun _ => rfl)
        fun _ _ h => h.1
    -- a token that begins nothing
    case h_14 => exact hstep
    all_goals exact expression_tracks hkeeps hinner hts hR

theorem items_tracks (hkeeps : Keeps source other mode all inner R P)
    (hinner : inner.Tracks mode all R P inner') (close : Option Kind) (last : Option Token)
    (skip : Nat) (hts : tokens <:+ all) (hR : R notes notes') :
    Tracks mode notes Found.notes (Found.Alike all R P)
      (items source inner close last skip tokens notes)
      (items other inner' close last skip tokens notes') := by
  induction tokens generalizing last skip notes notes' with
  | nil =>
    simp only [items]
    exact .pure .refl (Found.alike_nothing hR)
  | cons t ts ih =>
    have hrest := suffix_of_cons hts
    cases skip with
    | succ skip =>
      simp only [items]
      exact (ih (some t) skip hrest hR).map (fun _ => rfl) fun _ _ h => h.succ
    | zero =>
      simp only [items]
      split
      next => exact .pure .refl (Found.alike_nothing hR)
      next =>
        refine (item_tracks hkeeps hinner last hts hR).bind ?_
        rintro ⟨nodes, used, later⟩ ⟨_, _, later'⟩ - ⟨rfl, rfl, hlater, hbegun⟩
        exact (ih (some t) (used - 1) hrest hlater).bind fun _ _ _ h =>
          .pure .refl (h.succ.prepend hbegun)

end Readers

/-! ### Relations that every note keeps -/

/-- Whatever is given up or warned about, the notes stay in the relation. -/
structure Closed (R : Notes → Notes → Prop) : Prop where
  fail {notes notes' : Notes} (t : Token) : R notes notes' → R (notes.fail t) (notes'.fail t)
  warn {notes notes' : Notes} (cause : Warning.Cause) (t : Token) :
    R notes notes' → R (notes.warn cause t) (notes'.warn cause t)

theorem closed_eq : Closed Eq where
  fail _ h := h ▸ rfl
  warn _ _ h := h ▸ rfl

section Closed

variable {source other : Source} {all : List Token} {R : Notes → Notes → Prop}

/-- Readers that leave out the same. -/
theorem Closed.keeps (hR : Closed R) (hall : Layout source.text all)
    (htext : other.text = source.text)
    (hknows : ∀ notes notes' t, R notes notes' → other.knows notes' t = source.knows notes t)
    (mode : Mode) (inner : Inner) : Keeps source other mode all inner R (fun _ => True) where
  layout := hall
  text := htext
  knows h hfirst := (hknows _ _ _ h).trans hfirst
  known _ _ h hfirst hsecond := by
    rw [hknows _ _ _ h, hfirst] at hsecond
    cases hsecond
  ended _ _ _ _ := trivial
  warn cause _ _ _ h := hR.warn cause _ h
  fail _ _ _ h := hR.fail _ h

/-- More room for nesting makes no difference to what is read, if less suffices. -/
theorem Closed.sequence_tracks (hR : Closed R) (hall : Layout source.text all)
    (htext : other.text = source.text)
    (hknows : ∀ notes notes' t, R notes notes' → other.knows notes' t = source.knows notes t)
    {room room' : Nat} (h : room ≤ room') :
    (sequence source room).Tracks .total all R (fun _ => True) (sequence other room') := by
  induction room generalizing room' with
  | zero => exact fun _ _ _ _ _ _ _ => .error nofun
  | succ room ih =>
    obtain ⟨room', rfl⟩ : ∃ n, room' = n + 1 := ⟨room' - 1, by omega⟩
    have hkeeps := hR.keeps hall htext hknows .total (sequence source room)
    exact fun close last tokens notes notes' hts hnotes =>
      items_tracks hkeeps (ih (Nat.le_of_succ_le_succ h)) close last 0 hts hnotes

end Closed

end Node.Parse

end Desugar
