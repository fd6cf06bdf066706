import Desugar.Proofs.Compilation
import Desugar.Proofs.Decoding

/-! Anchors of written code. The nodes of a text are written from parts of it: spans that
are copied and nodes that are rewritten. Every part has an anchor where it starts, and a
copied one has another at every line inside it. Anchors increase in both offsets, lie
between characters inside the code and the text, and from the anchor of a copied span on
the code reads as the text does, up to the end of the span. So nothing is left to sort or
to drop when anchors are arranged. -/
namespace Desugar

open Text Node

/-! ### Parts -/

/-- What becomes of a span of the text. -/
inductive Part where
  | copy (span : Span)
  | rewrite (span : Span)

/-- The offset stands right behind a line end. -/
def Text.StartsLine (text : Text) (offset : Nat) : Prop :=
  slice? text (offset - 1) offset = some ['\n']

/-- The offsets of a part that get an anchor. -/
def Part.Marks (text : Text) : Part → Nat → Prop
  | .copy span, offset =>
    span.start ≤ offset ∧ offset < span.stop ∧ (offset = span.start ∨ StartsLine text offset)
  | .rewrite span, offset => offset = span.start

mutual

/-- The parts that a node is written from. The blocks of a rewritten chain of pipes are
part of it; the body of a rewritten declaration has parts of its own. -/
def Node.parts (passes : Passes) : Node → List Part
  | .other span => [.copy span]
  | .binding span => if passes.enabled .binding then [.rewrite span] else [.copy span]
  | .struct span _ _ => if passes.enabled .struct then [.rewrite span] else [.copy span]
  | .trait span _ inner body =>
    if passes.enabled .trait then [.rewrite span] ++ Node.partsOf passes body
    else
      [.copy ⟨span.start, inner.start⟩] ++ Node.partsOf passes body ++
        [.copy ⟨inner.stop, span.stop⟩]
  | .impl span _ _ inner body =>
    if passes.enabled .impl then [.rewrite span] ++ Node.partsOf passes body
    else
      [.copy ⟨span.start, inner.start⟩] ++ Node.partsOf passes body ++
        [.copy ⟨inner.stop, span.stop⟩]
  | .pipe span inner head stages =>
    if passes.enabled .pipe then [.rewrite span]
    else
      [.copy ⟨span.start, inner.start⟩] ++ Node.partsOf passes head ++
        Node.partsOfStages passes inner.stop span.stop stages

def Node.partsOf (passes : Passes) : List Node → List Part
  | [] => []
  | n :: ns => n.parts passes ++ Node.partsOf passes ns

def Node.partsOfStages (passes : Passes) (start stop : Nat) : List Stage → List Part
  | [] => [.copy ⟨start, stop⟩]
  | .bare _ _ :: stages => Node.partsOfStages passes start stop stages
  | .call _ _ inner args :: stages =>
    [.copy ⟨start, inner.start⟩] ++ Node.partsOf passes args ++
      Node.partsOfStages passes inner.stop stop stages
  | .group span body :: stages =>
    [.copy ⟨start, span.start⟩] ++ Node.partsOf passes body ++
      Node.partsOfStages passes span.stop stop stages

end

/-! ### Anchors of an output -/

/-- From the anchor on, the code reads as the text does up to the offset `stop`. -/
def Anchor.Agrees (text code : Text) (stop : Nat) (a : Anchor) : Prop :=
  ∃ piece, slice? text a.source stop = some piece ∧
    slice? code a.generated (a.generated + width piece) = some piece

/-- The anchor leads from a place inside the code to a place of a part. -/
structure Anchor.Placed (text : Text) (parts : List Part) (code : Text) (a : Anchor) : Prop where
  generated_lt : a.generated < width code
  generated_boundary : Boundary code a.generated
  source_boundary : Boundary text a.source
  part : ∃ p ∈ parts, p.Marks text a.source ∧
    ∀ span, p = .copy span → a.Agrees text code span.stop

/-- The anchor stands before the other in the code and in the text. -/
def Anchor.Before (a b : Anchor) : Prop := a.generated < b.generated ∧ a.source < b.source

/-- The output is written from parts that lie between `start` and `stop`. -/
structure Output.Anchored (text : Text) (start stop : Nat) (parts : List Part) (out : Output) :
    Prop where
  le : start ≤ stop
  ordered : out.anchors.Pairwise Anchor.Before
  bounds : ∀ a ∈ out.anchors, start ≤ a.source ∧ a.source < stop
  placed : ∀ a ∈ out.anchors, a.Placed text parts out.code
  marked : ∀ p ∈ parts, ∀ offset, p.Marks text offset → ∃ a ∈ out.anchors, a.source = offset

namespace Text

variable {text piece : Text} {a b : Nat}

theorem slice?_append_right (h : slice? text a b = some piece) (after : Text) :
    slice? (text ++ after) a b = some piece := by
  obtain ⟨u, v, rfl, ha, hb⟩ := slice?_eq_some_iff.mp h
  exact slice?_eq_some_iff.mpr ⟨u, v ++ after, by simp, ha, hb⟩

theorem slice?_append_left (h : slice? text a b = some piece) (before : Text) :
    slice? (before ++ text) (width before + a) (width before + b) = some piece := by
  obtain ⟨u, v, rfl, rfl, rfl⟩ := slice?_eq_some_iff.mp h
  exact slice?_eq_some_iff.mpr ⟨before ++ u, v, by simp, by simp, by omega⟩

theorem Boundary.append_right (h : Boundary text a) (after : Text) :
    Boundary (text ++ after) a :=
  (of_slice? (slice?_append_right h.slice?_self after)).1

theorem Boundary.append_left (h : Boundary text a) (before : Text) :
    Boundary (before ++ text) (Text.width before + a) :=
  (of_slice? (slice?_append_left h.slice?_self before)).1

end Text

namespace Anchor

variable {text code : Text} {parts : List Part} {stop : Nat} {a : Anchor}

theorem Agrees.append_right (h : a.Agrees text code stop) (after : Text) :
    a.Agrees text (code ++ after) stop := by
  obtain ⟨piece, hpiece, hcode⟩ := h
  exact ⟨piece, hpiece, slice?_append_right hcode after⟩

theorem Agrees.append_left (h : a.Agrees text code stop) (before : Text) :
    (a.shift (width before)).Agrees text (before ++ code) stop := by
  obtain ⟨piece, hpiece, hcode⟩ := h
  refine ⟨piece, hpiece, ?_⟩
  have hshift := slice?_append_left hcode before
  rwa [← Nat.add_assoc] at hshift

theorem Placed.append_right (h : a.Placed text parts code) (more : List Part) (after : Text) :
    a.Placed text (parts ++ more) (code ++ after) := by
  obtain ⟨p, hp, hmarks, hagrees⟩ := h.part
  refine ⟨?_, h.generated_boundary.append_right after, h.source_boundary, p,
    List.mem_append_left more hp, hmarks, fun span hspan => (hagrees span hspan).append_right after⟩
  have hlt := h.generated_lt
  rw [width_append]
  omega

theorem Placed.append_left (h : a.Placed text parts code) (more : List Part) (before : Text) :
    (a.shift (width before)).Placed text (more ++ parts) (before ++ code) := by
  obtain ⟨p, hp, hmarks, hagrees⟩ := h.part
  refine ⟨?_, h.generated_boundary.append_left before, h.source_boundary, p,
    List.mem_append_right more hp, hmarks,
    fun span hspan => (hagrees span hspan).append_left before⟩
  rw [width_append]
  exact Nat.add_lt_add_left h.generated_lt _

end Anchor

namespace Output

variable {text : Text} {passes : Passes}

namespace Anchored

variable {start middle stop : Nat} {ps qs : List Part} {out out' : Output}

theorem raw (code : Text) (h : start ≤ stop) : Anchored text start stop [] (raw code) :=
  ⟨h, .nil, nofun, nofun, nofun⟩

/-- What is written first keeps its anchors, and the others are moved behind its code. -/
theorem append (h : Anchored text start middle ps out) (h' : Anchored text middle stop qs out') :
    Anchored text start stop (ps ++ qs) (out ++ out') where
  le := Nat.le_trans h.le h'.le
  ordered := by
    refine List.pairwise_append.mpr ⟨h.ordered, ?_, ?_⟩
    · refine List.pairwise_map.mpr (h'.ordered.imp fun hab => ⟨?_, hab.2⟩)
      exact Nat.add_lt_add_left hab.1 _
    · intro a ha b hb
      obtain ⟨c, hc, rfl⟩ := List.mem_map.mp hb
      have hgenerated := (h.placed a ha).generated_lt
      exact ⟨Nat.lt_of_lt_of_le hgenerated (Nat.le_add_right _ _),
        Nat.lt_of_lt_of_le (h.bounds a ha).2 (h'.bounds c hc).1⟩
  bounds := by
    intro a ha
    rcases List.mem_append.mp ha with ha | ha
    · have hbounds := h.bounds a ha
      exact ⟨hbounds.1, Nat.lt_of_lt_of_le hbounds.2 h'.le⟩
    · obtain ⟨c, hc, rfl⟩ := List.mem_map.mp ha
      have hbounds := h'.bounds c hc
      exact ⟨Nat.le_trans h.le hbounds.1, hbounds.2⟩
  placed := by
    intro a ha
    rcases List.mem_append.mp ha with ha | ha
    · exact (h.placed a ha).append_right qs out'.code
    · obtain ⟨c, hc, rfl⟩ := List.mem_map.mp ha
      exact (h'.placed c hc).append_left ps out.code
  marked := by
    intro p hp offset hmarks
    rcases List.mem_append.mp hp with hp | hp
    · obtain ⟨a, ha, hsource⟩ := h.marked p hp offset hmarks
      exact ⟨a, List.mem_append_left _ ha, hsource⟩
    · obtain ⟨a, ha, hsource⟩ := h'.marked p hp offset hmarks
      exact ⟨_, List.mem_append_right _ (List.mem_map_of_mem ha), hsource⟩

/-- A rewritten span has its anchor before its code. -/
theorem rewritten {span : Span} {code : Text} (hs : Boundary text span.start)
    (hlt : span.start < stop) (hne : code ≠ []) :
    Anchored text span.start stop [.rewrite span] (mark span.start ++ Output.raw code) where
  le := Nat.le_of_lt hlt
  ordered := List.pairwise_singleton _ _
  bounds := by
    intro a ha
    rw [List.mem_singleton.mp ha]
    exact ⟨Nat.le_refl _, hlt⟩
  placed := by
    intro a ha
    rw [List.mem_singleton.mp ha]
    exact ⟨width_pos hne, .zero code, hs, .rewrite span, List.mem_singleton_self _, rfl, nofun⟩
  marked := by
    intro p hp offset hmarks
    rw [List.mem_singleton.mp hp] at hmarks
    exact ⟨⟨0, span.start⟩, List.mem_singleton_self _, hmarks.symm⟩

end Anchored

/-! ### Copied spans -/

theorem mem_lineAnchors {generated source : Nat} {piece : Text} {a : Anchor} :
    a ∈ lineAnchors generated source piece ↔
      ∃ u v, piece = u ++ '\n' :: v ∧ v ≠ [] ∧
        a = ⟨generated + width u + 1, source + width u + 1⟩ := by
  induction piece generalizing generated source with
  | nil => simp [lineAnchors]
  | cons c cs ih =>
    have hlater : a ∈ lineAnchors (generated + c.utf8Size) (source + c.utf8Size) cs ↔
        ∃ u v, c :: cs = c :: u ++ '\n' :: v ∧ v ≠ [] ∧
          a = ⟨generated + width (c :: u) + 1, source + width (c :: u) + 1⟩ := by
      simp only [ih, width_cons, List.cons_append, List.cons.injEq, true_and, Nat.add_assoc]
    have hsplit : a ∈ lineAnchors generated source (c :: cs) ↔
        (c = '\n' ∧ cs ≠ [] ∧ a = ⟨generated + 1, source + 1⟩) ∨
          a ∈ lineAnchors (generated + c.utf8Size) (source + c.utf8Size) cs := by
      rw [lineAnchors]
      split
      next h => simp_all
      next h => simp_all
    rw [hsplit, hlater]
    constructor
    · rintro (⟨rfl, hne, rfl⟩ | ⟨u, v, heq, hne, rfl⟩)
      · exact ⟨[], cs, rfl, hne, rfl⟩
      · exact ⟨c :: u, v, heq, hne, rfl⟩
    · rintro ⟨_ | ⟨d, u⟩, v, heq, hne, rfl⟩
      · obtain ⟨rfl, rfl⟩ := List.cons.inj heq
        exact .inl ⟨rfl, hne, rfl⟩
      · obtain ⟨rfl, -⟩ := List.cons.inj heq
        exact .inr ⟨u, v, heq, hne, rfl⟩

theorem lineAnchors_ordered (generated source : Nat) (piece : Text) :
    (lineAnchors generated source piece).Pairwise Anchor.Before := by
  induction piece generalizing generated source with
  | nil => exact .nil
  | cons c cs ih =>
    rw [lineAnchors]
    split
    next h =>
      refine List.pairwise_cons.mpr ⟨fun a ha => ?_, ih _ _⟩
      obtain ⟨u, v, -, -, rfl⟩ := mem_lineAnchors.mp ha
      have hc := c.utf8Size_pos
      constructor
      · show generated + 1 < generated + c.utf8Size + width u + 1
        omega
      · show source + 1 < source + c.utf8Size + width u + 1
        omega
    next => exact ih _ _

/-- The anchors of a copied text stand where it starts and behind its line ends. -/
theorem mem_copied {source : Nat} {piece : Text} (hne : piece ≠ []) {a : Anchor} :
    a ∈ (copied source piece).anchors ↔
      ∃ u v, piece = u ++ v ∧ v ≠ [] ∧ (u = [] ∨ ∃ u', u = u' ++ ['\n']) ∧
        a = ⟨width u, source + width u⟩ := by
  have hnewline : '\n'.utf8Size = 1 := by decide
  rw [copied, List.mem_cons, mem_lineAnchors]
  constructor
  · rintro (rfl | ⟨u, v, rfl, hv, rfl⟩)
    · exact ⟨[], piece, rfl, hne, .inl rfl, rfl⟩
    · refine ⟨u ++ ['\n'], v, by simp, hv, .inr ⟨u, rfl⟩, ?_⟩
      simp [hnewline, Nat.add_assoc]
  · rintro ⟨u, v, rfl, hv, rfl | ⟨u, rfl⟩, rfl⟩
    · exact .inl rfl
    · refine .inr ⟨u, v, by simp, hv, ?_⟩
      simp [hnewline, Nat.add_assoc]

theorem copied_anchored {start stop : Nat} {piece : Text}
    (h : slice? text start stop = some piece) (hlt : start < stop) :
    Anchored text start stop [.copy ⟨start, stop⟩] (copied start piece) := by
  obtain ⟨before, after, rfl, rfl, rfl⟩ := slice?_eq_some_iff.mp h
  have hne : piece ≠ [] := by
    rintro rfl
    simp at hlt
  constructor
  case le => exact Nat.le_of_lt hlt
  case ordered =>
    refine List.pairwise_cons.mpr ⟨fun a ha => ?_, lineAnchors_ordered _ _ _⟩
    obtain ⟨u, v, -, -, rfl⟩ := mem_lineAnchors.mp ha
    constructor
    · show 0 < 0 + width u + 1
      omega
    · show width before < width before + width u + 1
      omega
  case bounds =>
    intro a ha
    obtain ⟨u, v, rfl, hv, -, rfl⟩ := (mem_copied hne).mp ha
    have hpos := width_pos hv
    rw [width_append]
    constructor
    · exact Nat.le_add_right _ _
    · show width before + width u < width before + (width u + width v)
      omega
  case placed =>
    intro a ha
    obtain ⟨u, v, rfl, hv, hu, rfl⟩ := (mem_copied hne).mp ha
    have hpos := width_pos hv
    have hsource : slice? (before ++ (u ++ v) ++ after) (width before + width u)
        (width before + width (u ++ v)) = some v :=
      slice?_eq_some_iff.mpr ⟨before ++ u, after, by simp, by simp, by simp [Nat.add_assoc]⟩
    have hcode : slice? (u ++ v) (width u) (width u + width v) = some v :=
      slice?_eq_some_iff.mpr ⟨u, [], by simp, rfl, rfl⟩
    refine ⟨?_, (Boundary.of_slice? hcode).1, (Boundary.of_slice? hsource).1, _,
      List.mem_singleton_self _, ⟨?_, ?_, ?_⟩, ?_⟩
    · show width u < width (u ++ v)
      rw [width_append]
      omega
    · exact Nat.le_add_right _ _
    · show width before + width u < width before + width (u ++ v)
      rw [width_append]
      omega
    · rcases hu with rfl | ⟨u, rfl⟩
      · exact .inl rfl
      · have hnewline : '\n'.utf8Size = 1 := by decide
        refine .inr (slice?_eq_some_iff.mpr ⟨before ++ u, v ++ after, by simp, ?_, ?_⟩)
        all_goals simp only [width_append, width_cons, width_nil, hnewline]
        all_goals omega
    · rintro span ⟨⟩
      exact ⟨v, hsource, hcode⟩
  case marked =>
    intro p hp offset hmarks
    rw [List.mem_singleton.mp hp] at hmarks
    obtain ⟨hle, hstop, hwhere⟩ := hmarks
    by_cases hstart : offset = width before
    · exact ⟨_, (mem_copied hne).mpr ⟨[], piece, rfl, hne, .inl rfl, rfl⟩, hstart.symm⟩
    · -- the line end before the offset lies inside the span, so it cuts the piece in two
      have hline := hwhere.resolve_left hstart
      have hle' : width before ≤ offset - 1 := by
        change width before ≤ offset at hle
        omega
      obtain ⟨u, v, heq, hu, hv⟩ := slice?_inside h hline hle' (Nat.le_of_lt hstop)
      have hv' : v ≠ [] := by
        rintro rfl
        obtain ⟨_, _, _, _, hwidth⟩ := slice?_eq_some_iff.mp hv
        exact Nat.ne_of_lt hstop hwidth
      refine ⟨_, (mem_copied hne).mpr ⟨u ++ ['\n'], v, heq, hv', .inr ⟨u, rfl⟩, rfl⟩, ?_⟩
      obtain ⟨_, _, _, _, hwidth⟩ := slice?_eq_some_iff.mp (slice?_append_slice? hu hline)
      exact hwidth

theorem verbatim_anchored {start stop : Nat} (hs : Boundary text start) (he : Boundary text stop)
    (hle : start ≤ stop) :
    Returns (Anchored text start stop [.copy ⟨start, stop⟩]) (verbatim text start stop) := by
  unfold verbatim
  split
  next hlt =>
    obtain ⟨piece, hpiece⟩ := hs.exists_slice? he hle
    exact (Ends.of_slice? hpiece).bind fun piece hpiece => copied_anchored hpiece hlt
  next hlt =>
    refine ⟨hle, .nil, nofun, nofun, fun p hp offset hmarks => ?_⟩
    rw [List.mem_singleton.mp hp] at hmarks
    exact absurd (Nat.lt_of_le_of_lt hmarks.1 hmarks.2.1) hlt

/-! ### Writing a tiling -/

theorem ne_nil_of_opening {word : Keyword} {code : Text} (h : opening word <+: code)
    (hne : opening word ≠ []) : code ≠ [] := by
  rintro rfl
  exact hne (List.prefix_nil.mp h)

theorem callCode_ne_nil (path value args : Text) : callCode path value args ≠ [] := by
  unfold callCode
  split
  all_goals simp

theorem applyStages_ne_nil : ∀ {start stop : Nat} {stages : List Stage} (value : Text),
    Follows text start stop stages → value ≠ [] ∨ stages ≠ [] →
    Returns (fun code => code ≠ []) (applyStages passes text value stages)
  | _, _, _, value, .nil _ _ _, hne => hne.resolve_right fun h => h rfl
  | _, _, _, value, .bare h, _ => by
    rw [applyStages]
    exact applyStages_ne_nil _ h (.inl (callCode_ne_nil _ _ _))
  | _, _, _, value, .call _ _ hargs h, _ => by
    rw [applyStages]
    exact (emitNodes_ends hargs).bind fun _ _ =>
      applyStages_ne_nil _ h (.inl (callCode_ne_nil _ _ _))
  | _, _, _, value, .group _ _ hbody h, _ => by
    rw [applyStages]
    exact (emitNodes_ends hbody).bind fun _ _ =>
      applyStages_ne_nil _ h (.inl (callCode_ne_nil _ _ _))

/-- A body between the code that opens a rewritten declaration and the brace behind it. -/
theorem rewritten_anchored {span inner : Span} {body : List Node} {code : Text}
    (hs : Boundary text span.start) (hin : span.start < inner.start) (hout : inner.stop ≤ span.stop)
    (hne : code ≠ [])
    (h : Returns (Anchored text inner.start inner.stop (partsOf passes body))
      (emitNodes passes text body)) :
    Returns (Anchored text span.start span.stop ([.rewrite span] ++ partsOf passes body)) (do
      let inside ← emitNodes passes text body
      pure (mark span.start ++ raw code ++ inside ++ raw ['}'])) := by
  refine h.bind fun inside hinside => ?_
  have happend := ((Anchored.rewritten hs hin hne).append hinside).append (.raw ['}'] hout)
  rwa [List.append_nil] at happend

/-- A body between the copies of what stands around it. -/
theorem kept_anchored {span inner : Span} {body : List Node} (hs : Boundary text span.start)
    (he : Boundary text span.stop) (hin : span.start ≤ inner.start)
    (hbody : Tiles text inner.start inner.stop body) (hout : inner.stop ≤ span.stop)
    (h : Returns (Anchored text inner.start inner.stop (partsOf passes body))
      (emitNodes passes text body)) :
    Returns (Anchored text span.start span.stop ([.copy ⟨span.start, inner.start⟩] ++
        partsOf passes body ++ [.copy ⟨inner.stop, span.stop⟩])) (do
      let before ← verbatim text span.start inner.start
      let inside ← emitNodes passes text body
      let after ← verbatim text inner.stop span.stop
      pure (before ++ inside ++ after)) := by
  refine (verbatim_anchored hs hbody.start_boundary hin).bind fun before hbefore => ?_
  refine h.bind fun inside hinside => ?_
  refine (verbatim_anchored hbody.stop_boundary he hout).bind fun after hafter => ?_
  exact (hbefore.append hinside).append hafter

-- Anchors of neighbours increase strictly because no tile is empty and nothing is rewritten
-- to empty code.
mutual

theorem emitNodes_anchored : ∀ {start stop : Nat} {ns : List Node}, Tiles text start stop ns →
    Returns (Anchored text start stop (partsOf passes ns)) (emitNodes passes text ns)
  | _, _, _, .nil _ => .raw [] (Nat.le_refl _)
  | _, _, _, @Tiles.cons _ stop n ns hb hlt hfits h => by
    rw [emitNodes]
    refine (emitNode_anchored hfits hb h.start_boundary hlt).bind fun first hfirst => ?_
    refine (emitNodes_anchored h).bind fun rest hrest => ?_
    rw [partsOf]
    exact hfirst.append hrest

theorem emitNode_anchored : ∀ {n : Node}, Fits text n →
    Boundary text n.span.start → Boundary text n.span.stop → n.span.start < n.span.stop →
    Returns (Anchored text n.span.start n.span.stop (n.parts passes)) (emitNode passes text n)
  | _, .other, hs, he, hlt => verbatim_anchored hs he (Nat.le_of_lt hlt)
  | _, @Fits.binding _ span ho, hs, he, hlt => by
    rw [emitNode, parts]
    cases passes.enabled .binding with
    | true => exact .rewritten hs hlt (by decide)
    | false => exact verbatim_anchored hs he (Nat.le_of_lt hlt)
  | _, @Fits.struct _ span head fields ho, hs, he, hlt => by
    rw [emitNode, parts]
    cases passes.enabled .struct with
    | true =>
      exact .rewritten hs hlt (ne_nil_of_opening (opening_prefix_structCode head fields) nofun)
    | false => exact verbatim_anchored hs he (Nat.le_of_lt hlt)
  | _, @Fits.trait _ span inner head body ho hin hbody hout, hs, he, hlt => by
    rw [emitNode, parts]
    cases passes.enabled .trait with
    | true =>
      exact rewritten_anchored hs hin hout
        (ne_nil_of_opening (opening_prefix_traitOpening head) nofun) (emitNodes_anchored hbody)
    | false =>
      exact kept_anchored hs he (Nat.le_of_lt hin) hbody hout (emitNodes_anchored hbody)
  | _, @Fits.impl _ span inner head target body ho hin hbody hout, hs, he, hlt => by
    rw [emitNode, parts]
    cases passes.enabled .impl with
    | true =>
      exact rewritten_anchored hs hin hout
        (ne_nil_of_opening (opening_prefix_implOpening head target) nofun)
        (emitNodes_anchored hbody)
    | false =>
      exact kept_anchored hs he (Nat.le_of_lt hin) hbody hout (emitNodes_anchored hbody)
  | _, @Fits.pipe _ span inner head stages sign hin hhead hne hsign hfollows, hs, he, hlt => by
    rw [emitNode, parts]
    cases passes.enabled .pipe with
    | true =>
      refine (emitNodes_ends hhead).bind fun value _ => ?_
      refine (applyStages_ne_nil _ hfollows (.inr hne)).bind fun code hcode => ?_
      exact .rewritten hs hlt hcode
    | false =>
      refine (verbatim_anchored hs hhead.start_boundary (Nat.le_of_eq hin.symm)).bind
        fun before hbefore => ?_
      refine (emitNodes_anchored hhead).bind fun value hvalue => ?_
      refine (copyStages_anchored hfollows).bind fun rest hrest => ?_
      exact (hbefore.append hvalue).append hrest

theorem copyStages_anchored : ∀ {start stop : Nat} {stages : List Stage},
    Follows text start stop stages →
    Returns (Anchored text start stop (partsOfStages passes start stop stages))
      (copyStages passes text start stop stages)
  | _, _, _, .nil hs he hle => verbatim_anchored hs he hle
  | _, _, _, .bare h => by
    rw [copyStages, partsOfStages]
    exact copyStages_anchored h
  | _, _, _, .call hs hle hargs h => by
    rw [copyStages, partsOfStages]
    refine (verbatim_anchored hs hargs.start_boundary hle).bind fun before hbefore => ?_
    refine (emitNodes_anchored hargs).bind fun inside hinside => ?_
    refine (copyStages_anchored h).bind fun after hafter => ?_
    exact (hbefore.append hinside).append hafter
  | _, _, _, .group hs hle hbody h => by
    rw [copyStages, partsOfStages]
    refine (verbatim_anchored hs hbody.start_boundary hle).bind fun before hbefore => ?_
    refine (emitNodes_anchored hbody).bind fun inside hinside => ?_
    refine (copyStages_anchored h).bind fun after hafter => ?_
    exact (hbefore.append hinside).append hafter

end

/-! ### Rewritten nodes -/

/-- The spans of the rewritten parts. -/
def rewrites (parts : List Part) : List Span :=
  parts.filterMap fun
    | .copy _ => none
    | .rewrite span => some span

theorem rewrites_append (ps qs : List Part) : rewrites (ps ++ qs) = rewrites ps ++ rewrites qs :=
  List.filterMap_append

/-- The spans of the replaced nodes. -/
def replacedSpans (passes : Passes) (ns : List Node) : List Span :=
  (ns.filter passes.replaces).map Node.span

theorem replacedSpans_append (ns ms : List Node) :
    replacedSpans passes (ns ++ ms) = replacedSpans passes ns ++ replacedSpans passes ms := by
  rw [replacedSpans, List.filter_append, List.map_append]
  rfl

theorem replacedSpans_cons {n : Node} {p : Pass} (h : Pass.ofNode? n = some p) (ns : List Node) :
    replacedSpans passes (n :: ns) =
      if passes.enabled p then n.span :: replacedSpans passes ns else replacedSpans passes ns := by
  have hreplaces : passes.replaces n = passes.enabled p := by
    rw [Passes.replaces, h]
    rfl
  rw [replacedSpans, List.filter_cons, hreplaces]
  split
  all_goals rfl

mutual

theorem rewrites_parts : ∀ n : Node,
    (rewrites (n.parts passes)).Sublist (replacedSpans passes n.subnodes)
  | .other _ => List.nil_sublist _
  | .binding _ => by
    rw [parts, subnodes, replacedSpans_cons rfl]
    cases passes.enabled .binding with
    | true => exact List.Sublist.refl _
    | false => exact List.nil_sublist _
  | .struct _ _ _ => by
    rw [parts, subnodes, replacedSpans_cons rfl]
    cases passes.enabled .struct with
    | true => exact List.Sublist.refl _
    | false => exact List.nil_sublist _
  | .trait _ _ _ body => by
    rw [parts, subnodes, replacedSpans_cons rfl]
    cases passes.enabled .trait with
    | true => exact (rewrites_partsOf body).cons_cons _
    | false => simpa [rewrites] using rewrites_partsOf body
  | .impl _ _ _ _ body => by
    rw [parts, subnodes, replacedSpans_cons rfl]
    cases passes.enabled .impl with
    | true => exact (rewrites_partsOf body).cons_cons _
    | false => simpa [rewrites] using rewrites_partsOf body
  | .pipe _ _ head stages => by
    rw [parts, subnodes, replacedSpans_cons rfl]
    cases passes.enabled .pipe with
    | true => exact List.singleton_sublist.mpr List.mem_cons_self
    | false =>
      simp only [Bool.false_eq_true, if_false, rewrites_append, replacedSpans_append]
      exact (rewrites_partsOf head).append (rewrites_partsOfStages _ _ stages)

theorem rewrites_partsOf : ∀ ns : List Node,
    (rewrites (partsOf passes ns)).Sublist (replacedSpans passes (subnodesOf ns))
  | [] => List.nil_sublist _
  | n :: ns => by
    rw [partsOf, subnodesOf, rewrites_append, replacedSpans_append]
    exact (rewrites_parts n).append (rewrites_partsOf ns)

theorem rewrites_partsOfStages : ∀ (start stop : Nat) (stages : List Stage),
    (rewrites (partsOfStages passes start stop stages)).Sublist
      (replacedSpans passes (subnodesOfStages stages))
  | _, _, [] => List.nil_sublist _
  | start, stop, .bare _ _ :: stages => rewrites_partsOfStages start stop stages
  | start, stop, .call _ _ inner args :: stages => by
    rw [partsOfStages, subnodesOfStages, rewrites_append, replacedSpans_append]
    exact (rewrites_partsOf args).append (rewrites_partsOfStages _ _ stages)
  | start, stop, .group inner body :: stages => by
    rw [partsOfStages, subnodesOfStages, rewrites_append, replacedSpans_append]
    exact (rewrites_partsOf body).append (rewrites_partsOfStages _ _ stages)

end

theorem exists_replaced {span : Span} {ns : List Node} (h : .rewrite span ∈ partsOf passes ns) :
    ∃ n ∈ subnodesOf ns, passes.replaces n = true ∧ n.span = span := by
  have hspan : span ∈ replacedSpans passes (subnodesOf ns) :=
    (rewrites_partsOf ns).subset (List.mem_filterMap.mpr ⟨_, h, rfl⟩)
  obtain ⟨n, hn, hspan⟩ := List.mem_map.mp hspan
  obtain ⟨hn, hreplaces⟩ := List.mem_filter.mp hn
  exact ⟨n, hn, hreplaces, hspan⟩

/-! ### Anchors of a text that is read -/

/-- Anchors are in order and lead from places of the code to places of the text. Where no
replaced node starts, the code reads on as the text does, to the end of the copied span and
so to the end of the line if that comes first. The places are the starts of all parts and
of all lines in copied spans, and there is nothing to arrange. -/
theorem anchors_faithful (passes : Passes) {file text : Text} {markup : Bool} {block : Block}
    {warnings : List Warning} (h : Node.parse file text markup = .ok (block, warnings)) :
    ∃ out, emit passes text block = .ok out ∧
      out.anchors.Pairwise (fun a b => a.generated < b.generated ∧ a.source < b.source) ∧
      (∀ a ∈ out.anchors,
        a.generated < width out.code ∧ Boundary out.code a.generated ∧
        a.source < width text ∧ Boundary text a.source ∧
        ((∀ n ∈ subnodesOf block.nodes, passes.replaces n = true → n.span.start ≠ a.source) →
          ∃ span, .copy span ∈ partsOf passes block.nodes ∧
            span.start ≤ a.source ∧ a.source < span.stop ∧
            ∃ piece, slice? text a.source span.stop = some piece ∧
              slice? out.code a.generated (a.generated + width piece) = some piece)) ∧
      (∀ offset, (∃ a ∈ out.anchors, a.source = offset) ↔
        ∃ p ∈ partsOf passes block.nodes, p.Marks text offset) ∧
      Mapping.arrange (width out.code) out.anchors = out.anchors := by
  obtain ⟨out, hout, hanchored⟩ := (emitNodes_anchored (Node.tiles_of_parse h)).exists_ok
  refine ⟨out, hout, hanchored.ordered, ?_, ?_, ?_⟩
  · intro a ha
    have hplaced := hanchored.placed a ha
    refine ⟨hplaced.generated_lt, hplaced.generated_boundary, (hanchored.bounds a ha).2,
      hplaced.source_boundary, fun hnone => ?_⟩
    obtain ⟨p, hp, hmarks, hagrees⟩ := hplaced.part
    cases p with
    | copy span => exact ⟨span, hp, hmarks.1, hmarks.2.1, hagrees span rfl⟩
    | rewrite span =>
      obtain ⟨n, hn, hreplaces, rfl⟩ := exists_replaced hp
      exact absurd hmarks.symm (hnone n hn hreplaces)
  · intro offset
    constructor
    · rintro ⟨a, ha, rfl⟩
      obtain ⟨p, hp, hmarks, -⟩ := (hanchored.placed a ha).part
      exact ⟨p, hp, hmarks⟩
    · rintro ⟨p, hp, hmarks⟩
      exact hanchored.marked p hp offset hmarks
  · exact Mapping.arrange_eq_self (hanchored.ordered.imp fun hab => hab.1)
      fun a ha => (hanchored.placed a ha).generated_lt

theorem anchors_faithful_lines :
    let text := "let a = b |> f;\ntrait T \x7b\n  let g;\n\x7d\n".toList
    let anchors : List Anchor := [⟨0, 0⟩, ⟨5, 3⟩, ⟨10, 8⟩, ⟨14, 14⟩, ⟨16, 16⟩, ⟨29, 25⟩, ⟨30, 26⟩,
      ⟨32, 28⟩, ⟨37, 31⟩, ⟨42, 36⟩]
    ∃ block warnings out, Node.parse "a.bs".toList text false = .ok (block, warnings) ∧
      emit Passes.standard text block = .ok out ∧ out.anchors = anchors ∧
      anchors.Pairwise (fun a b => a.generated < b.generated ∧ a.source < b.source) ∧
      (∀ a ∈ anchors, a.generated < width out.code ∧ a.source < width text) ∧
      Mapping.arrange (width out.code) anchors = anchors := by
  intro text anchors
  obtain ⟨⟨block, warnings⟩, h, hanchors⟩ :=
    exists_ok_of_map (x := Node.parse "a.bs".toList text false)
      (f := fun r => (emit Passes.standard text r.1).toOption.map Output.anchors)
      (b := some anchors) (by decide +kernel)
  obtain ⟨out, hout, hordered, hplaced, _, harrange⟩ := anchors_faithful Passes.standard h
  rw [hout] at hanchors
  have heq : out.anchors = anchors := Option.some.inj hanchors
  rw [heq] at hordered hplaced harrange
  refine ⟨block, warnings, out, h, hout, heq, hordered, fun a ha => ?_, harrange⟩
  exact ⟨(hplaced a ha).1, (hplaced a ha).2.2.1⟩

end Output

end Desugar
