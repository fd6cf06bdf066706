import Desugar.Proofs.Chains
import Desugar.Proofs.FastPath

/-! Texts without markers. A marker is a bar before `>`, or a word with a blank behind it; so
a text in which blanks stand behind commas only, and bars nowhere, has none. The calls that
chains of pipes stand for are such texts. -/
namespace Desugar

open Text Unicode

/-! ### Blanks behind commas -/

/-- The text starts with no blank, each blank in it stands right behind a comma, and it has
no bar. -/
structure Text.Tight (text : Text) : Prop where
  starts : StartsFirm text
  spaced : text.IsChain fun c d => isBlank d = true → c = ','
  bar : '|' ∉ text

namespace Text.Tight

variable {u v : Text}

theorem solid (h : ∀ c ∈ u, isBlank c = false ∧ c ≠ '|') (hne : u ≠ []) : Tight u := by
  obtain ⟨c, cs, rfl⟩ := List.exists_cons_of_ne_nil hne
  refine ⟨.cons (h c List.mem_cons_self).1 cs, ?_, fun hbar => (h _ hbar).2 rfl⟩
  refine (List.pairwise_iff_forall_sublist.mpr fun {x y} hxy hy => ?_).isChain
  have hblank := (h y (hxy.subset (by simp))).1
  rw [hy] at hblank
  cases hblank

theorem sign {c : Char} (h : isBlank c = false ∧ c ≠ '|') : Tight [c] :=
  solid (List.forall_mem_singleton.mpr h) (List.cons_ne_nil _ _)

theorem isBlank_head? (h : Tight u) {c : Char} (hc : u.head? = some c) : isBlank c = false := by
  obtain ⟨d, hd, hblank⟩ := h.starts
  obtain rfl : d = c := Option.some.inj (hd.symm.trans hc)
  exact hblank

theorem append (hu : Tight u) (hv : Tight v) : Tight (u ++ v) := by
  refine ⟨hu.starts.append v, ?_, ?_⟩
  · refine List.isChain_append.mpr ⟨hu.spaced, hv.spaced, fun x _ y hy hblank => ?_⟩
    rw [hv.isBlank_head? hy] at hblank
    cases hblank
  · rw [List.mem_append, not_or]
    exact ⟨hu.bar, hv.bar⟩

theorem comma (hu : Tight u) (hv : Tight v) : Tight (u ++ ", ".toList ++ v) := by
  have hcomma : Tight (u ++ [',']) := hu.append (.sign (by decide))
  have hblank : (' ' :: v).IsChain fun c d => isBlank d = true → c = ',' := by
    refine List.isChain_cons.mpr ⟨fun y hy hblank => ?_, hv.spaced⟩
    rw [hv.isBlank_head? hy] at hblank
    cases hblank
  refine ⟨(hu.starts.append _).append _, ?_, ?_⟩
  · rw [List.append_assoc]
    exact List.isChain_append_cons_cons.mpr ⟨hcomma.spaced, fun _ => rfl, hblank⟩
  · simp only [List.mem_append, not_or]
    exact ⟨⟨hu.bar, by decide⟩, hv.bar⟩

theorem call (hu : Tight u) (hv : Tight v) : Tight (u ++ '(' :: v ++ [')']) := by
  have hopen : Tight ['('] := .sign (by decide)
  have hclose : Tight [')'] := .sign (by decide)
  exact (hu.append (hopen.append hv)).append hclose

end Text.Tight

theorem exists_of_hasWord {word : Text} {starts : Char → Bool} {before : Option Char} {text : Text}
    (h : Marker.hasWord word starts before text = true) :
    ∃ front back, text = front ++ word ++ back ∧ back.head?.any isBlank = true := by
  induction text generalizing before with
  | nil => cases h
  | cons c cs ih =>
    rw [Marker.hasWord, Bool.or_eq_true] at h
    rcases h with h | h
    · rw [Bool.and_eq_true, Marker.startsWith, Bool.and_eq_true, Bool.and_eq_true,
        List.isPrefixOf_iff_prefix] at h
      obtain ⟨_, ⟨⟨back, hback⟩, hblank⟩, _⟩ := h
      rw [← hback, List.drop_left] at hblank
      exact ⟨[], back, hback.symm, hblank⟩
    · obtain ⟨front, back, rfl, hblank⟩ := ih h
      exact ⟨c :: front, back, rfl, hblank⟩

/-- Words do not end in a comma, so none of them is a marker. -/
theorem hasWord_of_tight {text : Text} (h : text.Tight) {word : Text} {starts : Char → Bool}
    (hword : word.getLast?.any (· ≠ ',') = true) :
    Marker.hasWord word starts none text = false := by
  cases hhas : Marker.hasWord word starts none text with
  | false => rfl
  | true =>
    obtain ⟨front, back, rfl, hblank⟩ := exists_of_hasWord hhas
    obtain ⟨c, hlast, hc⟩ := (Option.any_eq_true _ _).mp hword
    obtain ⟨d, hhead, hd⟩ := (Option.any_eq_true _ _).mp hblank
    have hchain := (List.isChain_append.mp h.spaced).2.2 c (by simp [hlast]) d hhead hd
    simp [hchain] at hc

theorem ofText_of_tight {text : Text} (h : text.Tight) : Marker.ofText text = [] := by
  rw [Marker.ofText, List.filter_eq_nil_iff]
  intro m _
  rw [Bool.not_eq_true]
  cases m with
  | pipe =>
    cases hpipe : Text.occurs ['|', '>'] text with
    | false => exact hpipe
    | true =>
      obtain ⟨before, after, rfl⟩ := occurs_iff.mp hpipe
      exact absurd (by simp) h.bar
  | _ => exact hasWord_of_tight h (by decide)

/-! ### Calls -/

theorem solid_of_continuesName {c : Char} (h : continuesName c = true) :
    isBlank c = false ∧ c ≠ '|' := by
  refine ⟨(class_of_continuesName h).2.1, ?_⟩
  rintro rfl
  cases h

theorem Identifier.tight (n : Identifier) : n.text.Tight := by
  refine .solid (List.forall_mem_cons.mpr ⟨?_, fun c hc => ?_⟩) (List.cons_ne_nil _ _)
  · exact solid_of_continuesName (continuesName_of_isNameStart n.starts)
  · exact solid_of_continuesName (List.all_eq_true.mp n.continues c hc)

theorem Decimal.tight (d : Decimal) : d.text.Tight := by
  refine .solid (fun c hc => ?_) (List.cons_ne_nil _ _)
  rcases d.continuesName_or hc with hc | rfl
  · exact solid_of_continuesName hc
  · decide

theorem Dotted.tight (path : Dotted) : path.text.Tight := by
  obtain ⟨first, more⟩ := path
  induction more generalizing first with
  | nil => simpa [text, pieces, members, Piece.text] using first.tight
  | cons n more ih =>
    have hdot : Text.Tight ['.'] := .sign (by decide)
    simpa [text, pieces, members, Piece.text] using first.tight.append (hdot.append (ih n))

mutual

theorem Chain.tight : ∀ c : Chain, c.lower.Tight
  | .mk head steps => steps.tight head.tight

theorem Operand.tight : ∀ o : Operand, o.lower.Tight
  | .name n => n.tight
  | .call n args => n.tight.call args.tight

theorem Steps.tight : ∀ (steps : Steps) {value : Text}, value.Tight → (steps.lower value).Tight
  | .last step, _, h => step.tight h
  | .more step steps, _, h => steps.tight (step.tight h)

theorem Step.tight : ∀ (step : Step) {value : Text}, value.Tight → (step.lower value).Tight
  | .bare path, _, h => path.tight.call h
  | .empty path, _, h => path.tight.call h
  | .call path args, value, h => by
    have hcall := path.tight.call (h.comma args.tight)
    simpa [Step.lower] using hcall

theorem Args.tight : ∀ args : Args, args.lower.Tight
  | .last arg => arg.tight
  | .more arg args => arg.tight.comma args.tight

theorem Arg.tight : ∀ a : Arg, a.lower.Tight
  | .name n => n.tight
  | .number d => d.tight
  | .chain c => c.tight

end

end Desugar
