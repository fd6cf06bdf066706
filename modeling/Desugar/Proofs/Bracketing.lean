import Desugar.Proofs.Reading

/-! How far reading goes when the tokens hold no declaration. Only the brackets among their
kinds count then: groups are followed, and all other tokens are passed. -/
namespace Desugar

namespace Kind

/-! ### Brackets -/

/-- A group after its opening bracket: the kinds through its closing one, or all that were
passed in search of it. -/
def groupReach (inner : Option Kind → List Kind → Option Nat) (bracket : Bracket)
    (ks : List Kind) : Option Nat :=
  (inner (some (.closing bracket)) ks).map fun n =>
    if (ks.drop n).head?.getD .eof = .closing bracket then n + 1 else n

/-- Kinds up to the one that closes them, with their groups. -/
def walk (inner : Option Kind → List Kind → Option Nat) (close : Option Kind) :
    (skip : Nat) → List Kind → Option Nat
  | _, [] => some 0
  | skip + 1, _ :: ks => (walk inner close skip ks).map (· + 1)
  | 0, k :: ks =>
    if k = .eof || some k = close then some 0
    else
      match k with
      | .opening bracket =>
        (groupReach inner bracket ks).bind fun n => (walk inner close n ks).map (· + 1)
      | _ => (walk inner close 0 ks).map (· + 1)

/-- The same with `room` levels left for the groups. -/
def reach : (room : Nat) → Option Kind → List Kind → Option Nat
  | 0 => fun _ _ => none
  | room + 1 => fun close ks => walk (reach room) close 0 ks

/-- What closes a group, if anything does. -/
def IsClose (close : Option Kind) : Prop := ∀ k, close = some k → ∃ bracket, k = .closing bracket

theorem IsClose.none : IsClose none := nofun

theorem IsClose.closing (bracket : Bracket) : IsClose (some (.closing bracket)) := by
  rintro k ⟨⟩
  exact ⟨bracket, rfl⟩

section Walk

variable {count : Option Kind → List Kind → Option Nat} {close : Option Kind}

theorem walk_step {k : Kind} (heof : k ≠ .eof) (hclose : some k ≠ close)
    (hopen : ∀ bracket, k ≠ .opening bracket) (ks : List Kind) :
    walk count close 0 (k :: ks) = (walk count close 0 ks).map (· + 1) := by
  rw [walk, if_neg (by simp [heof, hclose])]
  exact hopen

theorem walk_neutral (hc : IsClose close) {k : Kind} (hk : k.isNeutral = true) (ks : List Kind) :
    walk count close 0 (k :: ks) = (walk count close 0 ks).map (· + 1) := by
  refine walk_step ?_ (fun heq => ?_) (fun bracket => ?_) ks
  · rintro rfl
    cases hk
  · obtain ⟨bracket, rfl⟩ := hc k heq.symm
    cases hk
  · rintro rfl
    cases hk

/-- Kinds to be passed are only counted. -/
theorem walk_append (skipped ks : List Kind) :
    walk count close skipped.length (skipped ++ ks) =
      (walk count close 0 ks).map (· + skipped.length) := by
  induction skipped with
  | nil => simp
  | cons k skipped ih =>
    rw [List.length_cons, List.cons_append, walk, ih]
    cases walk count close 0 ks <;> rfl

theorem walk_group (hc : IsClose close) (bracket : Bracket) (ks : List Kind) :
    walk count close 0 (.opening bracket :: ks) =
      (groupReach count bracket ks).bind fun n => (walk count close n ks).map (· + 1) := by
  rw [walk, if_neg]
  simp only [reduceCtorEq, decide_false, Bool.false_or, decide_eq_true_eq]
  intro heq
  obtain ⟨_, hk⟩ := hc _ heq.symm
  cases hk

end Walk

/-! ### Kinds that count -/

/-- The kind as far as brackets tell. -/
def outline (k : Kind) : Kind := if k.isNeutral then .ident else k

theorem outline_eq_closing {k : Kind} {bracket : Bracket} :
    k.outline = .closing bracket ↔ k = .closing bracket := by
  cases k <;> simp [outline, isNeutral]

section Outline

variable {count : Option Kind → List Kind → Option Nat} {close : Option Kind}
  (h : ∀ close ks, IsClose close → count close (ks.map outline) = count close ks)

include h

theorem groupReach_outline (bracket : Bracket) (ks : List Kind) :
    groupReach count bracket (ks.map outline) = groupReach count bracket ks := by
  unfold groupReach
  rw [h _ ks (.closing bracket)]
  congr 1
  funext n
  rw [← List.map_drop]
  cases ks.drop n with
  | nil => rfl
  | cons k ks => exact ite_congr (propext outline_eq_closing) (fun _ => rfl) fun _ => rfl

theorem walk_outline (hc : IsClose close) : ∀ (skip : Nat) (ks : List Kind),
    walk count close skip (ks.map outline) = walk count close skip ks
  | _, [] => rfl
  | skip + 1, k :: ks => by rw [List.map_cons, walk, walk, walk_outline hc skip ks]
  | 0, k :: ks => by
    have ih := fun skip => walk_outline hc skip ks
    cases hk : k.isNeutral with
    | true =>
      have hident : k.outline = .ident := if_pos hk
      rw [List.map_cons, hident, walk_neutral hc hk, walk_neutral hc rfl, ih 0]
    | false =>
      have hsame : k.outline = k := if_neg (by rw [hk]; nofun)
      rw [List.map_cons, hsame]
      cases k with
      | opening bracket => simp only [walk_group hc, groupReach_outline h, ih]
      | eof => simp only [walk, decide_true, Bool.true_or, if_true]
      | closing bracket => simp only [walk, ih]
      | _ => cases hk

end Outline

theorem reach_outline : ∀ (room : Nat) (close : Option Kind) (ks : List Kind), IsClose close →
    reach room close (ks.map outline) = reach room close ks
  | 0, _, _, _ => rfl
  | room + 1, _, ks, hc => walk_outline (reach_outline room) hc 0 ks

end Kind

namespace Node.Parse

open Kind Token Phrase

/-- Tokens between brackets are as many as their kinds say. -/
def Counted (count : Option Kind → List Kind → Option Nat) : Inside := fun close us rest _ =>
  count close ((us ++ rest).map Token.kind) = some us.length

/-- Passing the tokens `all` one by one from the end of `front` comes to the place `total`. -/
def WalksTo (count : Option Kind → List Kind → Option Nat) (close : Option Kind)
    (all : List Token) (total : Option Nat) (front : List Token) : Prop :=
  ∀ rest, all = front ++ rest →
    (walk count close 0 (rest.map Token.kind)).map (· + front.length) = total

section Walks

variable {count : Option Kind → List Kind → Option Nat} {close : Option Kind}
  {all front rest : List Token} {total : Option Nat} {t : Token}

theorem WalksTo.append {us : List Token} (h : all = front ++ us ++ rest)
    (hat : WalksTo count close all total front)
    (hus : walk count close 0 ((us ++ rest).map Token.kind) =
      (walk count close 0 (rest.map Token.kind)).map (· + us.length)) :
    WalksTo count close all total (front ++ us) := by
  intro rest' h'
  obtain rfl : rest = rest' := List.append_cancel_left (h.symm.trans h')
  rw [← hat (us ++ rest) (by rw [h, List.append_assoc]), hus, List.length_append]
  cases walk count close 0 (rest.map Token.kind) with
  | none => rfl
  | some n => simp only [Option.map_some]; congr 1; omega

theorem WalksTo.concat (h : all = front ++ t :: rest) (hat : WalksTo count close all total front)
    (hk : ∀ bracket, t.kind ≠ .opening bracket) (hstop : ¬ Stops close (t :: rest)) :
    WalksTo count close all total (front ++ [t]) := by
  refine hat.append (by simpa using h) ?_
  exact walk_step (fun heq => hstop (.inl heq)) (fun heq => hstop (.inr heq)) hk _

/-- Where a group cannot be passed, nothing can. -/
theorem WalksTo.eq_none {bracket : Bracket} (hc : IsClose close) (h : all = front ++ t :: rest)
    (hk : t.kind = .opening bracket) (hat : WalksTo count close all total front)
    (hnone : count (some (.closing bracket)) (rest.map Token.kind) = none) : total = none := by
  rw [← hat _ h, List.map_cons, hk, walk_group hc, groupReach, hnone]
  rfl

theorem headKind_map_drop (us rest : List Token) :
    (((us ++ rest).map Token.kind).drop us.length).head?.getD .eof = headKind rest := by
  rw [← List.map_drop, List.drop_left, List.head?_map]
  rfl

theorem reach_of_isGroup {bracket : Bracket} {us : List Token} {ns : List Node}
    (hg : IsGroup (Counted count) bracket us rest ns) :
    ∃ opener vs, us = opener :: vs ∧ opener.kind = .opening bracket ∧
      groupReach count bracket ((vs ++ rest).map Token.kind) = some vs.length := by
  cases hg with
  | @closed opener closer vs _ _ ho hin hk =>
    refine ⟨opener, vs ++ [closer], rfl, ho, ?_⟩
    rw [List.append_assoc, List.singleton_append, groupReach, hin, Option.map_some,
      headKind_map_drop, if_pos (show headKind (closer :: rest) = _ from hk), List.length_append]
    rfl
  | @unclosed opener vs _ _ ho hin hend =>
    refine ⟨opener, vs, rfl, ho, ?_⟩
    rw [groupReach, hin, Option.map_some, headKind_map_drop, hend, if_neg nofun]

theorem WalksTo.group {bracket : Bracket} {us : List Token} {ns : List Node} (hc : IsClose close)
    (h : all = front ++ us ++ rest) (hg : IsGroup (Counted count) bracket us rest ns)
    (hat : WalksTo count close all total front) : WalksTo count close all total (front ++ us) := by
  refine hat.append h ?_
  obtain ⟨opener, vs, rfl, ho, hreach⟩ := reach_of_isGroup hg
  have hpassed := @walk_append count close (vs.map Token.kind) (rest.map Token.kind)
  rw [List.length_map, ← List.map_append] at hpassed
  rw [List.cons_append, List.map_cons, ho, walk_group hc, hreach, Option.bind_some, hpassed,
    Option.map_map]
  rfl

theorem walk_of_stops (h : Stops close rest) :
    walk count close 0 (rest.map Token.kind) = some 0 := by
  cases rest with
  | nil => rfl
  | cons t rest =>
    rw [List.map_cons, walk.eq_def]
    refine if_pos ?_
    rw [Bool.or_eq_true, decide_eq_true_iff, decide_eq_true_iff]
    exact h

end Walks

/-- Tokens that start no declaration are used as their brackets say: by induction on the room,
with the place that a sequence comes to as what its readers keep. -/
theorem sequence_counts {source : Source} {all : List Token} (hall : Layout source.text all)
    (hplain : ∀ t ∈ all, t.kind.isUndeclared = true) (room : Nat) {close : Option Kind}
    (hc : IsClose close) {front tokens : List Token} (notes : Notes) (h : all = front ++ tokens) :
    Ends (fun _ => reach room close (tokens.map Token.kind) = none)
      (Found.Covers (fun us rest ns => Counted (reach room) close us rest ns ∧ Stops close rest)
        tokens)
      (sequence source room close front.getLast? tokens notes) := by
  induction room generalizing close front tokens notes with
  | zero => exact rfl
  | succ room ih =>
    have hlevel (total : Option Nat) : (sequence source room).SoundAt (fun _ => total = none) all
        (Counted (reach room)) (WalksTo (reach room) close all total) := {
      opened := fun {front tokens opener bracket} notes h hk hat => by
        have hin := @ih _ (.closing bracket) (front ++ [opener]) tokens notes (by simp [h])
        rw [List.getLast?_concat] at hin
        exact hin.of_faults fun _ => hat.eq_none hc h hk
      group := fun h hg hat => hat.group hc h hg
      neutral := fun h hk hat => hat.append (by simpa using h) (walk_neutral hc hk _)
      declared := fun {_ _ _ t} h hk => by
        rw [hplain t (by simp [h])] at hk
        cases hk }
    have hstart : WalksTo (reach room) close all
        ((reach (room + 1) close (tokens.map Token.kind)).map (· + front.length)) front := by
      intro rest hrest
      rw [List.append_cancel_left (h.symm.trans hrest)]
      rfl
    refine ((items_ends hall (hlevel _) close (fun h hk hstop hat => ?_) front tokens notes h
      hstart).of_faults fun _ => Option.map_eq_none_iff.mp).mono ?_
    · exact hat.concat h (by rw [hk]; nofun) hstop
    · rintro f ⟨us, rest, rfl, hused, ⟨_, hstop⟩, hwalks⟩
      refine ⟨us, rest, rfl, hused, ?_, hstop⟩
      have hend := hwalks rest (by simp [h])
      rw [walk_of_stops hstop] at hend
      obtain ⟨n, hn, hlength⟩ := Option.map_eq_some_iff.mp hend.symm
      simp only [List.length_append] at hlength
      rw [Counted, hn]
      congr 1
      omega

end Node.Parse

end Desugar
