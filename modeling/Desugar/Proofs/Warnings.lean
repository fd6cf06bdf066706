import Desugar.Proofs.Remembering

/-! Warnings are about what was left alone. A warning is given about a token at which an attempt
was made in vain. With enough room nothing fails, so the text can also be read by trying every
attempt again, and its constructs begin at tokens at which an attempt came to its end. No token
is both. -/
namespace Desugar

open Text Token Node.Parse

/-- The stage begins with the token behind `t`. -/
def Stage.IsBehind (all : List Token) (t : Token) (s : Stage) : Prop :=
  ∃ front u rest, all = front ++ t :: u :: rest ∧ u.start = s.span.start

def Node.isDeclaration : Node → Bool
  | .struct _ _ _ | .trait _ _ _ _ | .impl _ _ _ _ _ => true
  | _ => false

section Begun

variable {all : List Token} {P : Token → Prop}

theorem Node.Begun.of_isDeclaration {n : Node} (h : n.Begun all P) (hn : n.isDeclaration = true) :
    ∃ t, t.start = n.span.start ∧ P t := by
  cases n with
  | other | binding | pipe => cases hn
  | struct | trait | impl => exact h

/-- A stage has one operator, since no two tokens begin at one place. -/
theorem Stage.Led.of_isBehind {text : Text} (hall : Layout text all) {s : Stage}
    (h : s.Led all P) {t : Token} (ht : s.IsBehind all t) : P t := by
  obtain ⟨front, t', u, rest, hsplit, hu, hstart, hP⟩ := h
  obtain ⟨front', u', rest', hsplit', hstart'⟩ := ht
  have hsuffix : u :: rest <:+ all := ⟨front ++ [t'], by simp [hsplit]⟩
  have hsuffix' : u' :: rest' <:+ all := ⟨front' ++ [t], by simp [hsplit']⟩
  have heq : u.start = u'.start := hstart.trans hstart'.symm
  have hu' : u'.kind ≠ .eof := by
    intro hk
    have hend := (hall.stands u' (hsuffix'.subset List.mem_cons_self)).start_of_eof hk
    have hlt := (hall.stands u (hsuffix.subset List.mem_cons_self)).start_lt_width hu
    omega
  obtain ⟨rfl, rfl⟩ := hall.suffix_eq hsuffix hsuffix' heq hu hu'
  have hfront : (front ++ [t']) ++ u :: rest = (front' ++ [t]) ++ u :: rest := by
    simp [← hsplit, ← hsplit']
  have hlast := (List.append_inj' (List.append_cancel_right hfront) rfl).2
  rwa [List.singleton_inj.mp hlast] at hP

end Begun

namespace Node.Parse

/-- The warnings of a text are about tokens tried in vain, and its constructs begin at tokens
tried to the end. -/
theorem tried_of_parse {file text : Text} {markup : Bool} {block : Block}
    {warnings : List Warning} (h : parse file text markup = .ok (block, warnings)) :
    let source : Source := ⟨file, text, true⟩
    let tokens := (scan markup text).tokens
    (∀ w ∈ warnings, ∃ t, TriedInVain source tokens t ∧ w.place = t.place) ∧
      Throughout (Begun tokens (TriedToEnd source tokens)) block.nodes := by
  intro source tokens
  have hall : Layout source.text tokens := layout_scan markup text
  obtain ⟨-, f, hread, rfl, rfl⟩ := parseTokens_eq_ok.mp h
  -- with room for both readers, the one that remembers reads as before, and the other one
  -- does not fail
  let room := Literal.maxDepth + tokens.length + 1
  have hmore : (sequence source Literal.maxDepth).Tracks .total tokens Eq (fun _ => True)
      (sequence source room) :=
    closed_eq.sequence_tracks hall rfl (fun _ _ _ heq => heq ▸ rfl) (by omega)
  obtain ⟨_, hread', halike⟩ :=
    (hmore none none tokens .empty .empty List.suffix_rfl rfl).total_ok hread
  obtain rfl := halike.eq
  obtain ⟨g, hretried, -⟩ := Ends.exists_ok
    (@sequence_returns source.plain tokens hall room none [] tokens .empty rfl (by simp; omega))
  obtain ⟨_, hbeside, hsame, -, hwarned, hbegun⟩ := (sequence_beside source hall room none none
    tokens .empty .empty List.suffix_rfl (beside_empty _ _)).total_ok hretried
  rw [hread'] at hbeside
  cases hbeside
  exact ⟨hwarned.warned, throughout_cover (hsame ▸ hbegun)⟩

/-- A warning is about a token at which no declaration begins, at any depth, and which is the
operator of no stage. -/
theorem exists_left_alone {file text : Text} {markup : Bool} {block : Block}
    {warnings : List Warning} (h : parse file text markup = .ok (block, warnings)) :
    ∀ w ∈ warnings, ∃ t ∈ (scan markup text).tokens, Begins t ∧ w.place = t.place ∧
      ∀ n ∈ subnodesOf block.nodes, (n.isDeclaration = true → n.span.start ≠ t.start) ∧
        ∀ span inner head stages, n = .pipe span inner head stages →
          ∀ s ∈ stages, ¬ s.IsBehind (scan markup text).tokens t := by
  have hall := layout_scan markup text
  obtain ⟨hwarned, hbegun⟩ := tried_of_parse h
  intro w hw
  obtain ⟨t, hvain, hplace⟩ := hwarned w hw
  obtain ⟨ht, ts, room, hts, -⟩ := id hvain
  have hmem : t ∈ (scan markup text).tokens := hts.subset List.mem_cons_self
  refine ⟨t, hmem, ht, hplace, fun n hn => ⟨fun hdeclared hstart => ?_, ?_⟩⟩
  · obtain ⟨u, hu, hended⟩ := (hbegun n hn).of_isDeclaration hdeclared
    exact hvain.not_triedToEnd hall (hu.trans hstart) hended
  · rintro span inner head stages rfl s hs hbehind
    have hled : s.Led _ (TriedToEnd ⟨file, text, true⟩ (scan markup text).tokens) :=
      hbegun _ hn s hs
    exact hvain.not_triedToEnd hall rfl (hled.of_isBehind hall hbehind)

/-- The last chain was first read inside a struct inside a stage inside a trait, none of which
comes to its end. -/
theorem exists_left_alone_unclosed :
    let text := ("struct R \x7b a \x7d b |> c |> 1; impl X \x7b d \x7d\n" ++
      "trait T \x7b e |> f(struct S \x7b g |> h").toList
    ∃ block warnings, parse [] text false = .ok (block, warnings) ∧
      (subnodesOf block.nodes).map Node.span =
        [⟨0, 14⟩, ⟨14, 15⟩, ⟨15, 21⟩, ⟨15, 16⟩, ⟨21, 69⟩, ⟨69, 75⟩, ⟨69, 70⟩] ∧
      warnings.map (fun w => (w.cause, w.place.line, w.place.column)) =
        [(.implWithoutFor ['X'], 1, 29), (.openStruct ['S'], 2, 18), (.pipeWithoutStage, 2, 13),
          (.openTrait ['T'], 2, 1)] ∧
      ∀ w ∈ warnings, ∃ t ∈ (scan false text).tokens, Begins t ∧ w.place = t.place ∧
        ∀ n ∈ subnodesOf block.nodes, (n.isDeclaration = true → n.span.start ≠ t.start) ∧
          ∀ span inner head stages, n = .pipe span inner head stages →
            ∀ s ∈ stages, ¬ s.IsBehind (scan false text).tokens t := by
  intro text
  obtain ⟨⟨block, warnings⟩, h, hread⟩ :=
    exists_ok_of_map (x := parse [] text false)
      (f := fun r => ((subnodesOf r.1.nodes).map Node.span,
        r.2.map fun w => (w.cause, w.place.line, w.place.column)))
      (b := ([⟨0, 14⟩, ⟨14, 15⟩, ⟨15, 21⟩, ⟨15, 16⟩, ⟨21, 69⟩, ⟨69, 75⟩, ⟨69, 70⟩],
        [(.implWithoutFor ['X'], 1, 29), (.openStruct ['S'], 2, 18), (.pipeWithoutStage, 2, 13),
          (.openTrait ['T'], 2, 1)]))
      (by decide +kernel)
  obtain ⟨hnodes, hwarnings⟩ := Prod.mk.inj hread
  exact ⟨block, warnings, h, hnodes, hwarnings, exists_left_alone h⟩

end Node.Parse

end Desugar
