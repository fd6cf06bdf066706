import Desugar.Proofs.Comparison

/-! Remembering failed attempts changes nothing. A reader that remembers is run beside one
that tries every attempt again, and both find the same constructs and give the same
warnings. What an attempt comes to depends on its tokens alone, so one that failed before
fails again, and its warnings have been given. -/
namespace Desugar

namespace Node.Parse

open Token

/-- The same text, read by trying every attempt again. -/
def Source.plain (source : Source) : Source := { source with remembers := false }

/-! ### Trying an attempt again -/

section Retrying

variable {source : Source} {all ts : List Token} {t : Token} {room room' : Nat}
  {notes notes' : Notes} {R : Notes → Notes → Prop}

theorem Closed.flip (hR : Closed R) : Closed (flip R) where
  fail t h := hR.fail t h
  warn cause t h := hR.warn cause t h

/-- With more room an attempt comes to the same. -/
theorem Closed.attempt_tracks (hR : Closed R) (hall : Layout source.text all) (ht : Begins t)
    (hts : t :: ts <:+ all) (hnotes : R notes notes') (hroom : room ≤ room') {a : Attempt}
    (ha : attempt source.plain (sequence source.plain room) t ts notes = .ok a) :
    ∃ b, attempt source.plain (sequence source.plain room') t ts notes' = .ok b ∧
      a.ended = b.ended ∧ a.used = b.used ∧ R a.notes b.notes := by
  have hplain : Layout source.plain.text all := hall
  have hknows (n n' : Notes) (t : Token) (_ : R n n') :
      source.plain.knows n' t = source.plain.knows n t := rfl
  have hkeeps : Keeps source.plain source.plain .total all (sequence source.plain room) R
      (fun _ => True) := hR.keeps hplain rfl hknows .total _
  have hinner : (sequence source.plain room).Tracks .total all R (fun _ => True)
      (sequence source.plain room') := hR.sequence_tracks hplain rfl hknows hroom
  by_cases hk : t.kind = .pipe
  · cases hread : stage source.plain (sequence source.plain room) ts notes with
    | error fault =>
      rw [attempt, if_pos hk, hread] at ha
      cases ha
    | ok r =>
      obtain ⟨⟨read, later'⟩, hread', rfl, hlater, -⟩ :=
        (stage_tracks hkeeps hinner (suffix_of_cons hts) hnotes).total_ok hread
      rw [attempt_of_pipe hk hread] at ha
      cases ha
      refine ⟨_, attempt_of_pipe hk hread', rfl, rfl, ?_⟩
      cases r.1.isSome with
      | true => exact hlater
      | false => exact hR.fail t hlater
  · cases hread : declaration source.plain (sequence source.plain room) t ts notes with
    | error fault =>
      rw [attempt, if_neg hk, hread] at ha
      cases ha
    | ok f =>
      obtain ⟨g, hread', hagrees⟩ :=
        (declaration_tracks hkeeps hinner ht hk hts hnotes).total_ok hread
      have halike := hagrees.alike hkeeps ht hk hts hread
      rw [attempt_of_declaration hk hread] at ha
      cases ha
      exact ⟨_, attempt_of_declaration hk hread', by rw [halike.nodes], halike.used, halike.notes⟩

/-- If the second reader has given no warnings but those of `base`, the first one has given
just these. -/
def Settled (base : List Warning) (notes notes' : Notes) : Prop :=
  notes'.warnings ⊆ base → notes.warnings = base

theorem closed_settled (base : List Warning) : Closed (Settled base) where
  fail _ h := h
  warn {notes notes'} cause t h := by
    intro hsub
    have heq : notes.warnings = base := h fun w hw => hsub (mem_warnings_warn.mpr (.inl hw))
    rw [warnings_warn, heq, if_pos (hsub (mem_warnings_warn.mpr (.inr rfl)))]

/-- An attempt made twice comes to the same, and the second time gives no warning that the
first did not. -/
theorem attempt_settled (hall : Layout source.text all) {a b : Attempt} (ht : Begins t)
    (hts : t :: ts <:+ all)
    (ha : attempt source.plain (sequence source.plain room) t ts notes = .ok a)
    (hb : attempt source.plain (sequence source.plain room') t ts notes' = .ok b) :
    a.ended = b.ended ∧ a.used = b.used ∧ Settled notes.warnings a.notes b.notes := by
  have hclosed := closed_settled notes.warnings
  have hstart : Settled notes.warnings notes notes' := fun _ => rfl
  rcases Nat.le_total room room' with hroom | hroom
  · obtain ⟨b', hb', h⟩ := hclosed.attempt_tracks hall ht hts hstart hroom ha
    rw [hb] at hb'
    cases hb'
    exact h
  · obtain ⟨a', ha', hended, hused, h⟩ := hclosed.flip.attempt_tracks hall ht hts hstart hroom hb
    rw [ha] at ha'
    cases ha'
    exact ⟨hended.symm, hused.symm, h⟩

end Retrying

/-! ### What is remembered -/

section Remembering

variable {source : Source} {all : List Token} {t : Token}

/-- Trying again at `t` is in vain. -/
def TriedInVain (source : Source) (all : List Token) (t : Token) : Prop :=
  Begins t ∧ ∃ ts room, t :: ts <:+ all ∧ Vain source.plain (sequence source.plain room) t ts

/-- Trying again at `t` comes to its end. -/
def TriedToEnd (source : Source) (all : List Token) (t : Token) : Prop :=
  Begins t ∧ ∃ ts room notes a, t :: ts <:+ all ∧
    attempt source.plain (sequence source.plain room) t ts notes = .ok a ∧ a.ended = true

/-- Tokens that start at one offset are tried alike. -/
theorem TriedInVain.not_triedToEnd (hall : Layout source.text all) (h : TriedInVain source all t)
    {u : Token} (hstart : u.start = t.start) : ¬ TriedToEnd source all u := by
  rintro ⟨hu, us, room', notes', a, hus, ha, hended⟩
  obtain ⟨ht, ts, room, hts, notes, later, hvain⟩ := h
  obtain ⟨rfl, rfl⟩ := hall.suffix_eq hus hts hstart hu.kind_ne ht.kind_ne
  obtain ⟨hsame, -⟩ := attempt_settled hall ht hts ha hvain
  rw [hended] at hsame
  cases hsame

/-- The attempt at the token that starts at `offset` was made in vain, and its warnings are
among those given. -/
def Known (source : Source) (all : List Token) (warnings : List Warning) (offset : Nat) : Prop :=
  ∃ t ts room notes notes', Begins t ∧ t :: ts <:+ all ∧ t.start = offset ∧
    attempt source.plain (sequence source.plain room) t ts notes = .ok ⟨false, 1, notes'⟩ ∧
    notes'.warnings ⊆ warnings

theorem Known.mono {warnings warnings' : List Warning} {offset : Nat}
    (h : Known source all warnings offset) (hsub : warnings ⊆ warnings') :
    Known source all warnings' offset := by
  obtain ⟨t, ts, room, notes, notes', ht, hts, hstart, hattempt, hwarned⟩ := h
  exact ⟨t, ts, room, notes, notes', ht, hts, hstart, hattempt, List.Subset.trans hwarned hsub⟩

/-- Both readers have given the same warnings, about tokens tried in vain, and the second one
remembers only attempts that were made in vain. -/
structure Beside (source : Source) (all : List Token) (notes notes' : Notes) : Prop where
  warnings : notes.warnings = notes'.warnings
  warned : ∀ w ∈ notes'.warnings, ∃ t, TriedInVain source all t ∧ w.place = t.place
  known : ∀ offset ∈ notes'.failed, Known source all notes'.warnings offset

theorem keeps_beside (hall : Layout source.text all) (room : Nat) :
    Keeps source.plain source .total all (sequence source.plain room) (Beside source all)
      (TriedToEnd source all) where
  layout := hall
  text := rfl
  knows _ hfirst := (Bool.false_ne_true hfirst).elim
  known {notes notes' t ts} ht hts h _ hsecond := by
    refine ⟨nofun, fun a ha => ?_⟩
    have hoffset : t.start ∈ notes'.failed := by
      have hboth : source.remembers = true ∧ t.start ∈ notes'.failed := by
        simpa [Source.knows] using hsecond
      exact hboth.2
    obtain ⟨u, us, room', notes₀, later, hu, hus, hstart, hattempt, hwarned⟩ :=
      h.known t.start hoffset
    obtain ⟨rfl, rfl⟩ := hall.suffix_eq hus hts hstart hu.kind_ne ht.kind_ne
    obtain ⟨hended, hused, hsettled⟩ := attempt_settled hall ht hts ha hattempt
    have hsame := hsettled (h.warnings ▸ hwarned)
    exact ⟨hended, hused, hsame.trans h.warnings, h.warned, h.known⟩
  ended ht hts ha hended := ⟨ht, _, room, _, _, hts, ha, hended⟩
  warn {notes notes' t ts} cause ht hts hvain h := by
    refine ⟨by rw [warnings_warn, warnings_warn, h.warnings], fun w hw => ?_,
      fun offset hoffset => ?_⟩
    · rcases mem_warnings_warn.mp hw with hw | rfl
      · exact h.warned w hw
      · exact ⟨t, ⟨ht, ts, room, hts, hvain rfl⟩, rfl⟩
    · rw [failed_warn] at hoffset
      exact (h.known offset hoffset).mono (below_warn notes' cause t).warnings
  fail {notes₀ notes notes' t ts} ht hts hattempt h := by
    refine ⟨h.warnings, h.warned, fun offset hoffset => ?_⟩
    rcases List.mem_cons.mp hoffset with rfl | hoffset
    · exact ⟨t, ts, room, notes₀, _, ht, hts, rfl, hattempt, h.warnings ▸ List.Subset.refl _⟩
    · exact h.known offset hoffset

theorem sequence_beside (source : Source) (hall : Layout source.text all) (room : Nat) :
    (sequence source.plain room).Tracks .total all (Beside source all) (TriedToEnd source all)
      (sequence source room) := by
  induction room with
  | zero => exact fun _ _ _ _ _ _ _ => .error nofun
  | succ room ih =>
    exact fun close last tokens notes notes' hts hR =>
      items_tracks (keeps_beside hall room) ih close last 0 hts hR

theorem beside_empty (source : Source) (all : List Token) : Beside source all .empty .empty :=
  ⟨rfl, nofun, nofun⟩

end Remembering

end Node.Parse

namespace Node

open Parse

/-- What is read by trying every attempt again is read just so when failed attempts are
remembered, with the same warnings in the same order. -/
theorem parse_of_retrying {file text : Text} {markup : Bool} {block : Block}
    {warnings : List Warning}
    (h : parseTokens ⟨file, text, false⟩ (Token.scan markup text) = .ok (block, warnings)) :
    parse file text markup = .ok (block, warnings) := by
  have hall := Token.layout_scan markup text
  obtain ⟨hdeep, f, hread, rfl, rfl⟩ := parseTokens_eq_ok.mp h
  obtain ⟨g, hread', hnodes, -, hnotes, -⟩ := (sequence_beside ⟨file, text, true⟩ hall _ _ _ _ _ _
    List.suffix_rfl (beside_empty _ _)).total_ok hread
  exact parseTokens_eq_ok.mpr ⟨hdeep, g, hread', by rw [hnodes], hnotes.warnings⟩

/-- A trait inside a stage inside a trait, none of them closed. -/
theorem parse_of_retrying_unclosed :
    let text := "let a = b |> c; trait A \x7b x |> f( trait B \x7b".toList
    ∃ block warnings,
      parseTokens ⟨"a.bs".toList, text, false⟩ (Token.scan false text) = .ok (block, warnings) ∧
      block.nodes.map Node.span = [⟨0, 3⟩, ⟨3, 8⟩, ⟨8, 14⟩, ⟨14, 43⟩] ∧
      warnings.map (fun w => (w.cause, w.place.offset)) =
        [(.openTrait ['B'], 34), (.pipeWithoutStage, 28), (.openTrait ['A'], 16)] ∧
      parse "a.bs".toList text false = .ok (block, warnings) := by
  intro text
  obtain ⟨⟨block, warnings⟩, h, hread⟩ :=
    exists_ok_of_map (x := parseTokens ⟨"a.bs".toList, text, false⟩ (Token.scan false text))
      (f := fun r => (r.1.nodes.map Node.span, r.2.map fun w => (w.cause, w.place.offset)))
      (b := ([⟨0, 3⟩, ⟨3, 8⟩, ⟨8, 14⟩, ⟨14, 43⟩],
        [(.openTrait ['B'], 34), (.pipeWithoutStage, 28), (.openTrait ['A'], 16)]))
      (by decide +kernel)
  obtain ⟨hnodes, hwarnings⟩ := Prod.mk.inj hread
  exact ⟨block, warnings, h, hnodes, hwarnings, parse_of_retrying h⟩

end Node

end Desugar
