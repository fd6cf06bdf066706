import Desugar.Proofs.Comparison
import Desugar.Proofs.Heads

/-! Pipes that are left alone. A pipe stands at the beginning of an item only where it leads no
stage. Behind an operand or the last stage of a chain it was then given up, and behind an
operand there is a warning about it. The notes of a reader only grow, so a reader that may not
go beyond the notes made in the end reads the same; what this one reads is left as they say. -/
namespace Desugar

namespace Phrase

open Text Token Node.Parse

/-- Items in a row. A pipe at which an item begins is `left` behind the role before it. -/
inductive IsRowLeaving (text : Text) (all : List Token) (left : Option Role → Token → Prop)
    (inside : Inside) (close : Option Kind) :
    List Role → (us rest : List Token) → List Node → Prop where
  | nil {rest : List Token} : IsRowLeaving text all left inside close [] [] rest []
  | snoc {roles : List Role} {role : Role} {us vs rest : List Token} {ns ms : List Node} :
      IsRowLeaving text all left inside close roles us (vs ++ rest) ns →
      ¬ Stops close (vs ++ rest) →
      (∀ t, (vs ++ rest).head? = some t → t.kind = .pipe → left roles.getLast? t) →
      IsItem text all inside role vs rest ms →
      IsRowLeaving text all left inside close (roles ++ [role]) (us ++ vs) rest (ns ++ ms)

/-- What is read with `room` levels left, with the pipes that begin items `left` at every
depth. -/
def ReadsLeaving (text : Text) (all : List Token) (left : Option Role → Token → Prop) :
    (room : Nat) → Inside
  | 0 => fun _ _ _ _ => False
  | room + 1 => fun close us rest ns =>
    ∃ roles, IsRowLeaving text all left (ReadsLeaving text all left room) close roles us rest ns

end Phrase

namespace Node.Parse

open Text Token Phrase

/-! ### Readers within notes -/

open Classical in
/-- The reader, failing where its notes go beyond `last`. -/
noncomputable def Inner.within (source : Source) (last : Notes) (inner : Inner) : Inner :=
  fun close before tokens notes =>
    match inner close before tokens notes with
    | .error fault => .error fault
    | .ok f => if f.notes.Below last then .ok f else .error (tooDeep source tokens)

section Within

variable {source : Source} {all : List Token} {last : Notes} {inner : Inner}

theorem within_eq_ok {close : Option Kind} {before : Option Token} {tokens : List Token}
    {notes : Notes} {f : Found} :
    inner.within source last close before tokens notes = .ok f ↔
      inner close before tokens notes = .ok f ∧ f.notes.Below last := by
  unfold Inner.within
  cases inner close before tokens notes with
  | error fault => exact iff_of_false nofun fun h => by cases h.1
  | ok g =>
    dsimp only
    split
    next hlast =>
      constructor
      · rintro ⟨⟩
        exact ⟨rfl, hlast⟩
      · exact fun h => h.1
    next hlast =>
      refine iff_of_false nofun ?_
      rintro ⟨⟨⟩, hlast'⟩
      exact hlast hlast'

/-- A reader beside itself within `last`. -/
theorem Inner.Tracks.within (h : inner.Tracks .total all Eq (fun _ => True) inner) :
    inner.Tracks (.within last) all Eq (fun _ => True) (inner.within source last) := by
  rintro close before tokens notes _ hts rfl
  have hself := h close before tokens notes notes hts rfl
  refine ⟨hself.grows, fun f hf => ?_, nofun⟩
  obtain ⟨_, _, halike⟩ := hself.total_ok hf
  refine ⟨f, ⟨rfl, rfl, rfl, halike.begun⟩, ?_⟩
  by_cases hlast : f.notes.Below last
  · exact .inl (within_eq_ok.mpr ⟨hf, hlast⟩)
  · exact .inr ⟨hlast, _, by rw [Inner.within, hf]; exact if_neg hlast⟩

theorem Inner.Tracks.within_self (h : inner.Tracks .total all Eq (fun _ => True) inner) :
    (inner.within source last).Tracks .total all Eq (fun _ => True)
      (inner.within source last) := by
  rintro close before tokens notes _ hts rfl
  have hself := h close before tokens notes notes hts rfl
  refine ⟨fun f hf => hself.grows f (within_eq_ok.mp hf).1, fun f hf => ?_, nofun⟩
  obtain ⟨_, _, halike⟩ := hself.total_ok (within_eq_ok.mp hf).1
  exact ⟨f, ⟨rfl, rfl, rfl, halike.begun⟩, .inl hf⟩

end Within

/-! ### Pipes without a stage -/

/-- How a pipe is left behind an item: it was given up if that is an expression, and there is a
warning about it if that is no chain. -/
structure Notes.Leaves (notes : Notes) (role : Option Role) (t : Token) : Prop where
  failed : role = some .operand ∨ role = some .chain → t.start ∈ notes.failed
  warned : role = some .operand → ⟨.pipeWithoutStage, t.place⟩ ∈ notes.warnings

theorem Notes.Leaves.mono {notes later : Notes} {role : Option Role} {t : Token}
    (h : notes.Leaves role t) (hle : notes.Below later) : later.Leaves role t :=
  ⟨fun hrole => hle.failed (h.failed hrole), fun hrole => hle.warnings (h.warned hrole)⟩

theorem leaves_first (notes : Notes) (t : Token) : notes.Leaves none t := by
  refine ⟨fun h => ?_, fun h => ?_⟩
  · rcases h with h | h <;> cases h
  · cases h

section Items

variable {source : Source} {all : List Token} {inside : Inside} {inner : Inner} {t : Token}

/-- A chain ends on a pipe only if the pipe was given up. -/
theorem chain_fails (hr : source.remembers = true) (skip : Nat) (ts : List Token)
    (notes : Notes) :
    Yields (fun r => ∀ p rest, ts.drop r.used = p :: rest → p.kind = .pipe →
        p.start ∈ r.notes.failed) (chain source inner skip ts notes) := by
  induction ts generalizing skip notes with
  | nil =>
    unfold chain
    intro p rest h
    cases h
  | cons t ts ih =>
    cases skip with
    | succ skip => exact (ih skip notes).map fun _ h => h
    | zero =>
      rw [chain]
      split
      next =>
        have hstage : Yields (fun _ => True) (stage source inner ts notes) := by
          cases stage source inner ts notes <;> trivial
        refine hstage.bind ?_
        rintro ⟨_ | ⟨s, used⟩, later⟩ -
        · rintro p rest ⟨⟩ _
          exact List.mem_cons_self
        · exact (ih used later).bind fun _ h => h
      next hno =>
        rintro p rest ⟨⟩ hk
        simpa [Source.knows, hr, hk] using hno

/-- An item and what it leaves behind it. -/
def Found.TakesLeaving (source : Source) (all : List Token) (inside : Inside) (t : Token)
    (tokens : List Token) (f : Found) : Prop :=
  ∃ role us rest, tokens = us ++ rest ∧ f.used = us.length + 1 ∧
    IsItem source.text all inside role (t :: us) rest f.nodes ∧
    ∀ p, rest.head? = some p → p.kind = .pipe → f.notes.Leaves (some role) p

theorem expression_leaves (hall : Layout source.text all) (hr : source.remembers = true)
    (hinner : inner.Sound (TooDeep source.file) all 0 inside) {front tokens : List Token}
    (notes : Notes) (h : all = front ++ t :: tokens) (hk : Phrase.Begins t) :
    Ends (TooDeep source.file) (Found.TakesLeaving source all inside t tokens)
      (expression source inner t tokens notes) := by
  refine (operand_takes hinner.soundAt notes h (Nat.zero_le _) hk).bind ?_
  rintro f ⟨us, rest, rfl, hused, hoperand⟩
  obtain ⟨last, hlast⟩ : ∃ last, (t :: us).getLast? = some last := ⟨_, List.getLast?_cons⟩
  have hstop : stopAfter f.used (t :: (us ++ rest)) = last.stop := by
    rw [hused]
    exact stopAfter_append hlast
  have hspan : Within source.text t.start last.stop (t :: us) :=
    (Within.whole (hall.sublist (by rw [h]; simp))).span rfl hlast
  have hdrop : (t :: (us ++ rest)).drop f.used = rest := by
    rw [hused, List.drop_succ_cons, List.drop_left]
  rw [hdrop]
  split
  next => exact ⟨.operand, us, [], rfl, hused, .operand hoperand, nofun⟩
  next next rest =>
    split
    next hn =>
      refine ((chain_ends hall hinner.soundAt (front ++ t :: us) (next :: rest) f.notes
        (by rw [h]; simp) (Nat.zero_le _)).and_yields
        (chain_fails hr 0 (next :: rest) f.notes)).bind ?_
      rintro chained ⟨⟨vs, rest', hvs, hvused, hchain⟩, hfails⟩
      have hfailed (p : Token) (hp : rest'.head? = some p) (hk : p.kind = .pipe) :
          p.start ∈ chained.notes.failed := by
        obtain ⟨more, rfl⟩ := List.head?_eq_some_iff.mp hp
        exact hfails p more (by rw [hvs, hvused, List.drop_left]) hk
      split
      next hnone =>
        rw [List.getLast?_eq_none_iff] at hnone
        rw [hnone] at hchain
        cases hchain
        refine ⟨.operand, us, next :: rest, rfl, hused, .operand hoperand, ?_⟩
        rintro p ⟨⟩ hp
        refine ⟨fun _ => ?_, fun _ => mem_warnings_warn.mpr (.inr rfl)⟩
        rw [failed_warn]
        exact hfailed next (by rw [← List.nil_append rest', ← hvs]; rfl) hp
      next stage hstage =>
        rw [hstop, cover_eq hspan.le]
        refine ⟨.chain, us ++ vs, rest', by rw [hvs, List.append_assoc], ?_,
          .chain rfl hlast (hvs ▸ hoperand) hchain hstage, fun p hp hk => ⟨fun _ => ?_, nofun⟩⟩
        · simp only [hused, hvused, List.length_append]
          omega
        · exact hfailed p hp hk
    next hn =>
      refine ⟨.operand, us, next :: rest, rfl, hused, .operand hoperand, ?_⟩
      rintro p ⟨⟩ hp
      exact absurd hp hn

theorem item_of_begins_operand (hk : Phrase.Begins t) (before : Option Token) (ts : List Token)
    (notes : Notes) :
    item source inner before t ts notes = expression source inner t ts notes := by
  rcases hk with hk | hk | hk
  · unfold item
    cases hkind : t.kind with
    | ident | number | string | template | regex | markup => rfl
    | _ =>
      rw [hkind] at hk
      cases hk
  · unfold item
    rw [hk]
  · unfold item
    rw [hk]

/-- Only an expression begins like one. -/
theorem begins_of_isItem {role : Role} {us rest : List Token} {ns : List Node}
    (h : IsItem source.text all inside role (t :: us) rest ns)
    (hrole : some role = some Role.operand ∨ some role = some Role.chain) : Phrase.Begins t := by
  generalize hts : t :: us = ts at h
  cases h with
  | operand ho =>
    obtain ⟨first, tail, rfl, hfirst⟩ := ho.begins
    exact (List.cons.inj hts).1 ▸ hfirst
  | chain _ _ ho _ _ =>
    obtain ⟨first, tail, rfl, hfirst⟩ := ho.begins
    exact (List.cons.inj hts).1 ▸ hfirst
  | _ => rcases hrole with hrole | hrole <;> cases hrole

theorem item_leaves (hall : Layout source.text all) (hr : source.remembers = true)
    (hinner : inner.Sound (TooDeep source.file) all 0 inside) {front tokens : List Token}
    (notes : Notes) (h : all = front ++ t :: tokens) (hne : t.kind ≠ .eof) :
    Ends (TooDeep source.file) (Found.TakesLeaving source all inside t tokens)
      (item source inner front.getLast? t tokens notes) := by
  by_cases hk : Phrase.Begins t
  · rw [item_of_begins_operand hk]
    exact expression_leaves hall hr hinner notes h hk
  · refine (item_takes hall hinner.soundAt notes h (Nat.zero_le _) hne).mono ?_
    rintro f ⟨us, rest, htokens, hused, role, hitem⟩
    refine ⟨role, us, rest, htokens, hused, hitem, fun p _ _ => ⟨fun hrole => ?_, fun hrole => ?_⟩⟩
    · exact absurd (begins_of_isItem hitem hrole) hk
    · exact absurd (begins_of_isItem hitem (.inl hrole)) hk

theorem Tracks.yields_below {α β : Type} {mode : Mode} {notes : Notes} {notesOf : α → Notes}
    {P : α → β → Prop} {x : Except Fault α} {y : Except Fault β}
    (h : Tracks mode notes notesOf P x y) : Yields (fun a => notes.Below (notesOf a)) x := by
  cases x with
  | error fault => trivial
  | ok a => exact h.grows a rfl

/-- Items go on up to the closing token. The invariant is that those read so far are a row, and
that the pipe that may come next is left as the notes say. -/
theorem items_leave (hall : Layout source.text all) (hr : source.remembers = true)
    (last : Notes) (hinner : inner.Sound (TooDeep source.file) all 0 inside)
    (hself : inner.Tracks .total all Eq (fun _ => True) inner) (close : Option Kind)
    (front tokens : List Token) (notes : Notes) (h : all = front ++ tokens) :
    Ends (TooDeep source.file)
      (fun f => f.notes.Below last → f.Covers (fun us rest ns => (∃ roles,
        IsRowLeaving source.text all last.Leaves inside close roles us rest ns) ∧
        Stops close rest) tokens)
      (items source inner close front.getLast? 0 tokens notes) := by
  rw [← List.append_nil front]
  refine (items_keep (P := fun us rest ns notes => all = front ++ us ++ rest ∧ ∃ roles,
    (∀ p, rest.head? = some p → p.kind = .pipe → notes.Leaves roles.getLast? p) ∧
    (notes.Below last → IsRowLeaving source.text all last.Leaves inside close roles us rest ns))
    ?_ [] [] tokens notes
    ⟨by simpa using h, [], fun p _ _ => leaves_first notes p, fun _ => .nil⟩).mono ?_
  · rintro us t ts ns notes ⟨hsplit, roles, hleft, hrow⟩ hstop
    have hkeeps := closed_eq.keeps hall rfl (fun _ _ _ heq => heq ▸ rfl) .total inner
    refine ((item_leaves hall hr hinner notes hsplit fun hk => hstop (.inl hk)).and_yields
      (item_tracks hkeeps hself _ ⟨_, hsplit.symm⟩ rfl).yields_below).mono ?_
    rintro f ⟨⟨role, vs, rest, rfl, hused, hitem, hnext⟩, hbelow⟩
    refine ⟨vs, rest, rfl, hused, by simp [hsplit], roles ++ [role], ?_, fun hlast => ?_⟩
    · rwa [List.getLast?_concat]
    · refine (hrow (hbelow.trans hlast)).snoc hstop (fun p hp hk => ?_) hitem
      exact (hleft p hp hk).mono (hbelow.trans hlast)
  · rintro f ⟨us, rest, htokens, hused, ⟨_, roles, _, hrow⟩, hstop⟩ hlast
    exact ⟨us, rest, htokens, hused, ⟨roles, hrow hlast⟩, hstop⟩

/-- By induction on the room. -/
theorem sequence_leaves (hall : Layout source.text all) (hr : source.remembers = true)
    (last : Notes) (room : Nat) :
    ((sequence source room).within source last).Sound (TooDeep source.file) all 0
      (ReadsLeaving source.text all last.Leaves room) := by
  induction room with
  | zero => exact fun close front tokens notes h _ => ⟨_, _, rfl⟩
  | succ room ih =>
    intro close front tokens notes h hfront
    have hself : (sequence source room).Tracks .total all Eq (fun _ => True)
        (sequence source room) :=
      closed_eq.sequence_tracks hall rfl (fun _ _ _ heq => heq ▸ rfl) (Nat.le_refl room)
    have hsound := sequence_sound hall (room + 1) close front tokens notes h hfront
    cases hread : sequence source (room + 1) close front.getLast? tokens notes with
    | error fault =>
      rw [hread] at hsound
      rw [Inner.within, hread]
      exact hsound
    | ok f =>
      by_cases hlast : f.notes.Below last
      · rw [within_eq_ok.mpr ⟨hread, hlast⟩]
        have hkeeps := closed_eq.keeps hall rfl (fun _ _ _ heq => heq ▸ rfl) (.within last)
          (sequence source room)
        have hwithin : (sequence source room).Tracks (.within last) all Eq (fun _ => True)
            ((sequence source room).within source last) := hself.within
        obtain ⟨_, halike, hsame⟩ := (items_tracks hkeeps hwithin close front.getLast? 0
          ⟨front, h.symm⟩ rfl).same f hread
        obtain rfl := halike.eq
        have hitems := items_leave hall hr last ih hself.within_self close front tokens notes h
        rw [hsame.resolve_right fun hexcused => hexcused.1 hlast] at hitems
        exact hitems hlast
      · rw [Inner.within, hread]
        simp only [if_neg hlast]
        exact ⟨_, _, rfl⟩

end Items

/-- The constructs of a text are read from its tokens so that every pipe that is left alone
directly behind an operand or a stage was given up, and directly behind an operand has a
warning. This holds at every depth. -/
theorem pipes_left_alone {file text : Text} {markup : Bool} {block : Block}
    {warnings : List Warning} (h : parse file text markup = .ok (block, warnings)) :
    ∃ found us rest,
      sequence ⟨file, text, true⟩ Literal.maxDepth none none (scan markup text).tokens .empty =
        .ok found ∧
      found.notes.warnings = warnings ∧ block = Block.cover 0 (width text) found.nodes ∧
      (scan markup text).tokens = us ++ rest ∧ headKind rest = .eof ∧
      ReadsLeaving text (scan markup text).tokens found.notes.Leaves Literal.maxDepth none us rest
        found.nodes := by
  have hall := layout_scan markup text
  obtain ⟨-, found, hread, hblock, hwarnings⟩ := parseTokens_eq_ok.mp h
  have hsound := @sequence_leaves ⟨file, text, true⟩ _ hall rfl found.notes Literal.maxDepth
    none [] _ .empty rfl (Nat.le_refl 0)
  rw [List.getLast?_nil, within_eq_ok.mpr ⟨hread, .refl⟩] at hsound
  obtain ⟨us, rest, htokens, -, hreads, hstop⟩ := hsound
  exact ⟨found, us, rest, hread, hwarnings.symm, hblock, htokens, hstop.resolve_right nofun, hreads⟩

/-- Of the pipes that are given up, the one behind a stage has no warning. -/
theorem pipes_left_alone_behind_stage :
    let text := "x |> f |> 5; g(y |> 6)".toList
    let tokens := (scan false text).tokens
    ∃ block warnings found us rest, parse [] text false = .ok (block, warnings) ∧
      warnings.map (fun w => (w.cause, w.place.offset)) = [(.pipeWithoutStage, 17)] ∧
      sequence ⟨[], text, true⟩ Literal.maxDepth none none tokens .empty = .ok found ∧
      found.notes.failed = [17, 7] ∧ tokens = us ++ rest ∧
      ReadsLeaving text tokens found.notes.Leaves Literal.maxDepth none us rest found.nodes := by
  intro text tokens
  obtain ⟨⟨block, warnings⟩, h, hwarnings⟩ :=
    exists_ok_of_map (x := parse [] text false)
      (f := fun r => r.2.map fun w => (w.cause, w.place.offset))
      (b := [(.pipeWithoutStage, 17)]) (by decide +kernel)
  obtain ⟨found, us, rest, hread, -, -, htokens, -, hreads⟩ := pipes_left_alone h
  obtain ⟨found', hread', hfailed⟩ :=
    exists_ok_of_map (x := sequence ⟨[], text, true⟩ Literal.maxDepth none none tokens .empty)
      (f := fun f => f.notes.failed) (b := [17, 7]) (by decide +kernel)
  rw [hread] at hread'
  cases hread'
  exact ⟨block, warnings, found, us, rest, h, hwarnings, hread, hfailed, htokens, hreads⟩

end Node.Parse

end Desugar
