import Desugar.Output.Emit
import Desugar.Proofs.Tiling

/-! What is written for a tiling of a text. Writing never fails, and the code of nodes
that no pass replaces is the text they cover. Where a pass does replace one and there are
no pipes, the code parts from the text at that place, so it is another text. -/
namespace Desugar

/-! ### Nodes at any depth -/

mutual

/-- The node and the nodes inside it, at any depth. -/
def Node.subnodes : Node → List Node
  | .other span => [.other span]
  | .binding span => [.binding span]
  | .struct span head fields => [.struct span head fields]
  | .trait span head inner body => .trait span head inner body :: Node.subnodesOf body
  | .impl span head target inner body => .impl span head target inner body :: Node.subnodesOf body
  | .pipe span inner head stages =>
    .pipe span inner head stages :: (Node.subnodesOf head ++ Node.subnodesOfStages stages)

def Node.subnodesOf : List Node → List Node
  | [] => []
  | n :: ns => n.subnodes ++ Node.subnodesOf ns

def Node.subnodesOfStages : List Stage → List Node
  | [] => []
  | .bare _ _ :: stages => Node.subnodesOfStages stages
  | .call _ _ _ args :: stages => Node.subnodesOf args ++ Node.subnodesOfStages stages
  | .group _ body :: stages => Node.subnodesOf body ++ Node.subnodesOfStages stages

end

theorem Node.eq_other_of_mem_gap {start stop : Nat} {n : Node}
    (h : n ∈ Node.subnodesOf (Node.gap start stop)) : n = .other ⟨start, stop⟩ := by
  unfold Node.gap at h
  split at h
  · simpa [subnodesOf, subnodes] using h
  · cases h

/-- Is the node written otherwise than it stands in the text? -/
def Passes.replaces (passes : Passes) (n : Node) : Bool := (Pass.ofNode? n).any passes.enabled

/-- Is one of the nodes replaced? -/
def Passes.touches (passes : Passes) (ns : List Node) : Bool := ns.any passes.replaces

theorem Passes.touches_cons (passes : Passes) {n : Node} {p : Pass} (h : Pass.ofNode? n = some p)
    (ns : List Node) :
    passes.touches (n :: ns) = (passes.enabled p || passes.touches ns) := by
  rw [touches, List.any_cons, replaces, h]
  rfl

theorem Passes.touches_append (passes : Passes) (ns ms : List Node) :
    passes.touches (ns ++ ms) = (passes.touches ns || passes.touches ms) := List.any_append

namespace Text

/-! ### Texts that part -/

theorem occurs_iff {word text : Text} :
    occurs word text = true ↔ ∃ before after, text = before ++ word ++ after := by
  induction text with
  | nil =>
    rw [occurs, List.isEmpty_iff]
    constructor
    · rintro rfl
      exact ⟨[], [], rfl⟩
    · rintro ⟨before, after, h⟩
      simp_all
  | cons c cs ih =>
    rw [occurs, Bool.or_eq_true, ih, List.isPrefixOf_iff_prefix]
    constructor
    · rintro (⟨after, h⟩ | ⟨before, after, rfl⟩)
      · exact ⟨[], after, h.symm⟩
      · exact ⟨c :: before, after, rfl⟩
    · rintro ⟨_ | ⟨b, before⟩, after, h⟩
      · exact .inl ⟨after, h.symm⟩
      · exact .inr ⟨before, after, (List.cons.inj h).2⟩

/-- The texts agree for a while and then go on with different characters. -/
def Parts (u v : Text) : Prop := ∃ p a b u' v', u = p ++ a :: u' ∧ v = p ++ b :: v' ∧ a ≠ b

namespace Parts

variable {u v : Text}

theorem ne (h : Parts u v) : u ≠ v := by
  obtain ⟨p, a, b, u', v', rfl, rfl, hab⟩ := h
  intro heq
  exact hab (List.cons.inj (List.append_cancel_left heq)).1

theorem append_right (h : Parts u v) (x y : Text) : Parts (u ++ x) (v ++ y) := by
  obtain ⟨p, a, b, u', v', rfl, rfl, hab⟩ := h
  exact ⟨p, a, b, u' ++ x, v' ++ y, by simp, by simp, hab⟩

theorem append_left (h : Parts u v) (x : Text) : Parts (x ++ u) (x ++ v) := by
  obtain ⟨p, a, b, u', v', rfl, rfl, hab⟩ := h
  exact ⟨x ++ p, a, b, u', v', by simp, by simp, hab⟩

end Parts

/-- The code is written for the bytes from `start` to `stop`: it is a copy of them unless
a node there is replaced. -/
def Renders (text : Text) (start stop : Nat) (touched : Bool) (code : Text) : Prop :=
  ∃ piece, slice? text start stop = some piece ∧ (touched = false → code = piece) ∧
    (touched = true → occurs ['|', '>'] text = false → Parts piece code)

namespace Renders

variable {text u v : Text} {start middle stop : Nat} {s t : Bool}

theorem copy (h : slice? text start stop = some u) : Renders text start stop false u :=
  ⟨u, h, fun _ => rfl, nofun⟩

theorem append (hu : Renders text start middle s u) (hv : Renders text middle stop t v) :
    Renders text start stop (s || t) (u ++ v) := by
  obtain ⟨p, hp, hpcopy, hpparts⟩ := hu
  obtain ⟨q, hq, hqcopy, hqparts⟩ := hv
  refine ⟨p ++ q, slice?_append_slice? hp hq, ?_, ?_⟩
  · intro hst
    rw [Bool.or_eq_false_iff] at hst
    rw [hpcopy hst.1, hqcopy hst.2]
  · intro hst hpipe
    cases s with
    | true => exact (hpparts rfl hpipe).append_right q v
    | false =>
      rw [hpcopy rfl]
      exact (hqparts hst hpipe).append_left p

/-- A piece between two copied ones. -/
theorem between {u' : Text} {outer last : Nat} (hu : Renders text outer start false u)
    (hv : Renders text start stop t v) (hu' : Renders text stop last false u') :
    Renders text outer last t (u ++ v ++ u') := by
  have h := (hu.append hv).append hu'
  rwa [Bool.false_or, Bool.or_false] at h

end Renders

end Text

namespace Output

open Text Node

variable {text : Text} {passes : Passes}

theorem verbatim_ends {start stop : Nat} (hs : Boundary text start) (he : Boundary text stop)
    (hle : start ≤ stop) :
    Returns (fun out => Renders text start stop false out.code) (verbatim text start stop) := by
  obtain ⟨piece, hpiece⟩ := hs.exists_slice? he hle
  unfold verbatim
  split
  next => exact (Ends.of_slice? hpiece).bind fun piece hpiece => .copy hpiece
  next hlt =>
    obtain rfl : start = stop := by omega
    exact .copy hs.slice?_self

/-! ### Replaced constructs -/

/-- What the code of a replaced construct starts with. -/
def opening : Keyword → Text
  | .letWord => "const".toList
  | .structWord => "type ".toList
  | .traitWord => "interface ".toList
  | .implWord => "class ".toList
  | _ => []

theorem parts_opening {word : Keyword} (h : opening word ≠ []) :
    Parts word.text (opening word) := by
  cases word with
  | letWord => exact ⟨[], 'l', 'c', _, _, rfl, rfl, by decide⟩
  | structWord => exact ⟨[], 's', 't', _, _, rfl, rfl, by decide⟩
  | traitWord => exact ⟨[], 't', 'i', _, _, rfl, rfl, by decide⟩
  | implWord => exact ⟨[], 'i', 'c', _, _, rfl, rfl, by decide⟩
  | _ => exact absurd rfl h

theorem renders_replaced {span : Span} {word : Keyword} {code : Text} (ho : Opens text span word)
    (he : Boundary text span.stop) (hne : opening word ≠ []) (hcode : opening word <+: code) :
    Renders text span.start span.stop true code := by
  have hs := (Boundary.of_slice? ho.1).1
  obtain ⟨piece, hpiece⟩ := hs.exists_slice? he (Nat.le_trans (Nat.le_add_right _ _) ho.2)
  refine ⟨piece, hpiece, nofun, fun _ _ => ?_⟩
  obtain ⟨x, y, rfl, hx, _⟩ := slice?_inside hpiece ho.1 (Nat.le_refl _) ho.2
  have hnil : x = [] := Option.some.inj (hx.symm.trans hs.slice?_self)
  subst hnil
  obtain ⟨rest, rfl⟩ := hcode
  exact (parts_opening hne).append_right y rest

theorem opening_prefix_structCode (head : Head) (fields : List Text) :
    opening .structWord <+: structCode head fields := by
  unfold structCode
  split
  all_goals
    simp only [List.append_assoc]
    exact List.prefix_append "type ".toList _

theorem opening_prefix_traitOpening (head : Head) : opening .traitWord <+: traitOpening head := by
  unfold traitOpening
  simp only [List.append_assoc]
  exact List.prefix_append "interface ".toList _

theorem opening_prefix_implOpening (head target : Head) :
    opening .implWord <+: implOpening head target := by
  unfold implOpening
  simp only [List.append_assoc]
  exact List.prefix_append "class ".toList _

/-! ### Writing a tiling -/

/-- A body is worked on between the copies of what stands around it. -/
theorem copied_ends {span inner : Span} {body : List Node} {touched : Bool}
    (hs : Boundary text span.start) (he : Boundary text span.stop) (hin : span.start ≤ inner.start)
    (hbody : Tiles text inner.start inner.stop body) (hout : inner.stop ≤ span.stop)
    (h : Returns (fun out => Renders text inner.start inner.stop touched out.code)
      (emitNodes passes text body)) :
    Returns (fun out => Renders text span.start span.stop touched out.code) (do
      let before ← verbatim text span.start inner.start
      let inside ← emitNodes passes text body
      let after ← verbatim text inner.stop span.stop
      pure (before ++ inside ++ after)) := by
  refine (verbatim_ends hs hbody.start_boundary hin).bind fun before hbefore => ?_
  refine h.bind fun inside hinside => ?_
  refine (verbatim_ends hbody.stop_boundary he hout).bind fun after hafter => ?_
  exact hbefore.between hinside hafter

mutual

theorem emitNodes_ends : ∀ {start stop : Nat} {ns : List Node}, Tiles text start stop ns →
    Returns (fun out => Renders text start stop (passes.touches (subnodesOf ns)) out.code)
      (emitNodes passes text ns)
  | _, _, _, .nil hb => .copy hb.slice?_self
  | _, _, _, @Tiles.cons _ stop n ns hb hlt hfits h => by
    rw [emitNodes]
    refine (emitNode_ends hfits hb h.start_boundary (Nat.le_of_lt hlt)).bind fun first hfirst => ?_
    refine (emitNodes_ends h).bind fun rest hrest => ?_
    rw [subnodesOf, Passes.touches_append]
    exact hfirst.append hrest

theorem emitNode_ends : ∀ {n : Node}, Fits text n →
    Boundary text n.span.start → Boundary text n.span.stop → n.span.start ≤ n.span.stop →
    Returns (fun out => Renders text n.span.start n.span.stop (passes.touches n.subnodes) out.code)
      (emitNode passes text n)
  | _, .other, hs, he, hle => verbatim_ends hs he hle
  | _, @Fits.binding _ span ho, hs, he, hle => by
    rw [emitNode, subnodes, passes.touches_cons rfl]
    cases passes.enabled .binding with
    | true => exact renders_replaced ho he nofun (List.prefix_refl _)
    | false => exact verbatim_ends hs he hle
  | _, @Fits.struct _ span head fields ho, hs, he, hle => by
    rw [emitNode, subnodes, passes.touches_cons rfl]
    cases passes.enabled .struct with
    | true => exact renders_replaced ho he nofun (opening_prefix_structCode head fields)
    | false => exact verbatim_ends hs he hle
  | _, @Fits.trait _ span inner head body ho hin hbody hout, hs, he, hle => by
    rw [emitNode, subnodes, passes.touches_cons rfl]
    cases passes.enabled .trait with
    | true =>
      refine (emitNodes_ends hbody).bind fun inside _ => renders_replaced ho he nofun ?_
      simp only [code_append, mark, raw, List.nil_append, List.append_assoc]
      exact (opening_prefix_traitOpening head).trans (List.prefix_append _ _)
    | false => exact copied_ends hs he (Nat.le_of_lt hin) hbody hout (emitNodes_ends hbody)
  | _, @Fits.impl _ span inner head target body ho hin hbody hout, hs, he, hle => by
    rw [emitNode, subnodes, passes.touches_cons rfl]
    cases passes.enabled .impl with
    | true =>
      refine (emitNodes_ends hbody).bind fun inside _ => renders_replaced ho he nofun ?_
      simp only [code_append, mark, raw, List.nil_append, List.append_assoc]
      exact (opening_prefix_implOpening head target).trans (List.prefix_append _ _)
    | false => exact copied_ends hs he (Nat.le_of_lt hin) hbody hout (emitNodes_ends hbody)
  | _, @Fits.pipe _ span inner head stages sign hin hhead _ hsign hfollows, hs, he, hle => by
    rw [emitNode, subnodes, passes.touches_cons rfl]
    cases passes.enabled .pipe with
    | true =>
      refine (emitNodes_ends hhead).bind fun value _ => ?_
      refine (applyStages_ends _ hfollows).bind fun code _ => ?_
      obtain ⟨piece, hpiece⟩ := hs.exists_slice? he hle
      obtain ⟨before, after, heq, _⟩ := slice?_eq_some_iff.mp hsign
      have hpipe : occurs ['|', '>'] text = true := occurs_iff.mpr ⟨before, after, heq⟩
      exact ⟨piece, hpiece, nofun, fun _ hnone => by rw [hpipe] at hnone; cases hnone⟩
    | false =>
      refine (verbatim_ends hs hhead.start_boundary (Nat.le_of_eq hin.symm)).bind
        fun before hbefore => ?_
      refine (emitNodes_ends hhead).bind fun value hvalue => ?_
      refine (copyStages_ends hfollows).bind fun rest hrest => ?_
      rw [passes.touches_append]
      exact (hbefore.append hvalue).append hrest

theorem applyStages_ends : ∀ {start stop : Nat} {stages : List Stage} (value : Text),
    Follows text start stop stages →
    Returns (fun _ => True) (applyStages passes text value stages)
  | _, _, _, _, .nil _ _ _ => trivial
  | _, _, _, value, .bare h => by
    rw [applyStages]
    exact applyStages_ends _ h
  | _, _, _, value, .call _ _ hargs h => by
    rw [applyStages]
    exact (emitNodes_ends hargs).bind fun _ _ => applyStages_ends _ h
  | _, _, _, value, .group _ _ hbody h => by
    rw [applyStages]
    exact (emitNodes_ends hbody).bind fun _ _ => applyStages_ends _ h

theorem copyStages_ends : ∀ {start stop : Nat} {stages : List Stage},
    Follows text start stop stages →
    Returns
      (fun out => Renders text start stop (passes.touches (subnodesOfStages stages)) out.code)
      (copyStages passes text start stop stages)
  | _, _, _, .nil hs he hle => verbatim_ends hs he hle
  | _, _, _, .bare h => by
    rw [copyStages, subnodesOfStages]
    exact copyStages_ends h
  | _, _, _, .call hs hle hargs h => by
    rw [copyStages]
    refine (verbatim_ends hs hargs.start_boundary hle).bind fun before hbefore => ?_
    refine (emitNodes_ends hargs).bind fun inside hinside => ?_
    refine (copyStages_ends h).bind fun after hafter => ?_
    rw [subnodesOfStages, Passes.touches_append]
    exact (hbefore.append hinside).append hafter
  | _, _, _, .group hs hle hbody h => by
    rw [copyStages]
    refine (verbatim_ends hs hbody.start_boundary hle).bind fun before hbefore => ?_
    refine (emitNodes_ends hbody).bind fun inside hinside => ?_
    refine (copyStages_ends h).bind fun after hafter => ?_
    rw [subnodesOfStages, Passes.touches_append]
    exact (hbefore.append hinside).append hafter

end

end Output

end Desugar
