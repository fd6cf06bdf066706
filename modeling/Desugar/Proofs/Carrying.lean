import Mathlib.Data.List.Perm.Basic
import Desugar.Proofs.Extent
import Desugar.Proofs.Slice

/-! Pieces that a code holds without overlap, in any order. Code put around a piece or
beside it keeps what it carries, and trimming keeps pieces with no blank at their edges.
Carried pieces have pairwise disjoint ranges. -/
namespace Desugar.Text

open Unicode

/-! ### Trimming beside firm texts -/

theorem StartsFirm.append {s : Text} (h : StartsFirm s) (t : Text) : StartsFirm (s ++ t) := by
  obtain ⟨c, hc, hb⟩ := h
  exact ⟨c, by rw [List.head?_append, hc]; rfl, hb⟩

theorem EndsFirm.append {s : Text} (h : EndsFirm s) (t : Text) : EndsFirm (t ++ s) := by
  obtain ⟨c, hc, hb⟩ := h
  exact ⟨c, by rw [List.getLast?_append, hc]; rfl, hb⟩

theorem StartsFirm.trimStart_eq {s : Text} (h : StartsFirm s) : trimStart s = s := by
  obtain ⟨c, hc, hb⟩ := h
  obtain ⟨s, rfl⟩ := List.head?_eq_some_iff.mp hc
  rw [trimStart, List.dropWhile_cons_of_neg (by rw [hb]; decide)]

theorem trimStart_append {s : Text} (h : StartsFirm s) (t : Text) :
    trimStart (t ++ s) = trimStart t ++ s := by
  have hs : s.dropWhile isBlank = s := h.trimStart_eq
  unfold trimStart
  rw [List.dropWhile_append, hs]
  split
  next hnil => rw [List.isEmpty_iff.mp hnil, List.nil_append]
  next => rfl

theorem trimEnd_append {s : Text} (h : EndsFirm s) (t : Text) :
    trimEnd (s ++ t) = s ++ trimEnd t := by
  have hs : StartsFirm s.reverse := by
    obtain ⟨c, hc, hb⟩ := h
    exact ⟨c, by rw [List.head?_reverse, hc], hb⟩
  have htrim := trimStart_append hs t.reverse
  unfold trimStart at htrim
  rw [trimEnd, List.reverse_append, htrim, List.reverse_append, List.reverse_reverse]
  rfl

/-! ### Pieces in order -/

/-- The pieces stand in the code one after the other. -/
def InOrder : List Text → Text → Prop
  | [], _ => True
  | p :: ps, code => ∃ gap rest, code = gap ++ p ++ rest ∧ InOrder ps rest

namespace InOrder

variable {ps qs : List Text} {u v : Text}

theorem append_left (h : InOrder ps u) (x : Text) : InOrder ps (x ++ u) := by
  cases ps with
  | nil => trivial
  | cons p ps =>
    obtain ⟨gap, rest, rfl, hrest⟩ := h
    exact ⟨x ++ gap, rest, by simp, hrest⟩

theorem append (hu : InOrder ps u) (hv : InOrder qs v) : InOrder (ps ++ qs) (u ++ v) := by
  induction ps generalizing u with
  | nil => exact hv.append_left u
  | cons p ps ih =>
    obtain ⟨gap, rest, rfl, hrest⟩ := hu
    exact ⟨gap, rest ++ v, by simp, ih hrest⟩

theorem trimStart (h : InOrder ps u) (hfirm : ∀ p ∈ ps, Firm p) : InOrder ps (trimStart u) := by
  cases ps with
  | nil => trivial
  | cons p ps =>
    obtain ⟨gap, rest, rfl, hrest⟩ := h
    have hp := (hfirm p List.mem_cons_self).1.append rest
    refine ⟨Text.trimStart gap, rest, ?_, hrest⟩
    rw [List.append_assoc, trimStart_append hp, List.append_assoc]

theorem trimEnd (h : InOrder ps u) (hfirm : ∀ p ∈ ps, Firm p) : InOrder ps (trimEnd u) := by
  induction ps generalizing u with
  | nil => trivial
  | cons p ps ih =>
    obtain ⟨gap, rest, rfl, hrest⟩ := h
    have hp := (hfirm p List.mem_cons_self).2.append gap
    refine ⟨gap, Text.trimEnd rest, ?_, ih hrest fun q hq => hfirm q (List.mem_cons_of_mem p hq)⟩
    rw [trimEnd_append hp]

/-- The ranges of the pieces, counted from the end of the code `x` before them. -/
theorem exists_spans (h : InOrder ps u) (hne : ∀ p ∈ ps, p ≠ []) (x : Text) :
    ∃ spans : List Span,
      List.Forall₂ (fun p s => slice? (x ++ u) s.start s.stop = some p) ps spans ∧
      spans.Pairwise (fun s t => s.stop ≤ t.start) ∧
      ∀ s ∈ spans, width x ≤ s.start ∧ s.start < s.stop := by
  induction ps generalizing u x with
  | nil => exact ⟨[], .nil, .nil, nofun⟩
  | cons p ps ih =>
    obtain ⟨gap, rest, rfl, hrest⟩ := h
    obtain ⟨spans, hspans, hpair, hle⟩ :=
      ih hrest (fun q hq => hne q (List.mem_cons_of_mem p hq)) (x ++ (gap ++ p))
    have hp := width_pos (hne p List.mem_cons_self)
    rw [List.append_assoc] at hspans
    simp only [width_append] at hle
    refine ⟨⟨width (x ++ gap), width (x ++ gap) + width p⟩ :: spans, .cons ?_ hspans, ?_, ?_⟩
    · exact slice?_eq_some_iff.mpr ⟨x ++ gap, rest, by simp, rfl, rfl⟩
    · refine List.pairwise_cons.mpr ⟨fun s hs => ?_, hpair⟩
      have hs := hle s hs
      simp only [width_append]
      omega
    · intro s hs
      rcases List.mem_cons.mp hs with rfl | hs
      · simp only [width_append]
        omega
      · have hs := hle s hs
        omega

end InOrder

/-! ### Pieces in any order -/

/-- The pieces stand in the code without overlap. -/
def Carries (ps : List Text) (code : Text) : Prop := ∃ qs, qs.Perm ps ∧ InOrder qs code

namespace Carries

variable {ps qs : List Text} {u v : Text}

theorem of_inOrder (h : InOrder ps u) : Carries ps u := ⟨ps, .refl ps, h⟩

theorem nil (code : Text) : Carries [] code := of_inOrder trivial

theorem append (hu : Carries ps u) (hv : Carries qs v) : Carries (ps ++ qs) (u ++ v) := by
  obtain ⟨ps', hps, hu⟩ := hu
  obtain ⟨qs', hqs, hv⟩ := hv
  exact ⟨ps' ++ qs', hps.append hqs, hu.append hv⟩

theorem perm (h : Carries ps u) (hperm : ps.Perm qs) : Carries qs u := by
  obtain ⟨ps', hps, hu⟩ := h
  exact ⟨ps', hps.trans hperm, hu⟩

theorem append_left (h : Carries ps u) (x : Text) : Carries ps (x ++ u) := (nil x).append h

theorem append_right (h : Carries ps u) (x : Text) : Carries ps (u ++ x) := by
  have happend := h.append (nil x)
  rwa [List.append_nil] at happend

theorem trimStart (h : Carries ps u) (hfirm : ∀ p ∈ ps, Firm p) : Carries ps (trimStart u) := by
  obtain ⟨qs, hperm, hu⟩ := h
  exact ⟨qs, hperm, hu.trimStart fun p hp => hfirm p (hperm.mem_iff.mp hp)⟩

theorem trim (h : Carries ps u) (hfirm : ∀ p ∈ ps, Firm p) : Carries ps (trim u) := by
  obtain ⟨qs, hperm, hu⟩ := h.trimStart hfirm
  exact ⟨qs, hperm, hu.trimEnd fun p hp => hfirm p (hperm.mem_iff.mp hp)⟩

/-- Blank code carries no firm piece. -/
theorem eq_nil (h : Carries ps []) (hfirm : ∀ p ∈ ps, Firm p) : ps = [] := by
  obtain ⟨qs, hperm, hu⟩ := h
  cases qs with
  | nil => exact hperm.symm.eq_nil
  | cons q qs =>
    obtain ⟨gap, rest, hnil, _⟩ := hu
    obtain ⟨⟨c, hc, _⟩, _⟩ := hfirm q (hperm.mem_iff.mp List.mem_cons_self)
    simp_all

/-- Each piece has a range of its own. -/
theorem exists_spans (h : Carries ps u) (hne : ∀ p ∈ ps, p ≠ []) :
    ∃ spans : List Span, List.Forall₂ (fun p s => slice? u s.start s.stop = some p) ps spans ∧
      spans.Nodup ∧
      spans.Pairwise (fun s t => s.stop ≤ t.start ∨ t.stop ≤ s.start) := by
  obtain ⟨qs, hperm, hu⟩ := h
  obtain ⟨spans, hspans, hpair, hlt⟩ := hu.exists_spans (fun q hq => hne q (hperm.mem_iff.mp hq)) []
  obtain ⟨spans', hspans', hperm'⟩ := List.perm_comp_forall₂ hperm.symm hspans
  have hnodup : spans.Nodup := by
    refine hpair.imp_of_mem fun {s t} hs _ hle heq => ?_
    have hs := (hlt s hs).2
    rw [heq] at hle hs
    omega
  exact ⟨spans', hspans', hperm'.nodup_iff.mpr hnodup,
    (hperm'.pairwise_iff Or.symm).mpr (hpair.imp .inl)⟩

end Carries

end Desugar.Text
