import Desugar.Proofs.Chains
import Desugar.Proofs.Compilation

/-! Compiling chains of pipes. The tokens of a chain are read as a single node, which is
written as the calls that the chain stands for. Reading and writing are followed side by
side through the syntax of chains: what is found in a stretch of the text is also what
writes its code. There is room for parentheses that nest 255 deep. -/
namespace Desugar

open Text Token Node

/-! ### Writing piece by piece -/

namespace Output

variable (passes : Passes) (text : Text)

/-- From `start` on, the constructs `ns` and all around them up to `stop` are written as
the code, with any stretch of text before it copied in front. -/
def Continues (start : Nat) (ns : List Node) (stop : Nat) (code : Text) : Prop :=
  ∀ origin before, slice? text origin start = some before →
    Returns (fun out => out.code = before ++ code) (emitNodes passes text (cover stop origin ns))

/-- The constructs `ns` and all around them, between `start` and `stop`, are written as the
code, whatever follows. -/
def Adds (start stop : Nat) (ns : List Node) (code : Text) : Prop :=
  ∀ ms last rest, Continues passes text stop ms last rest →
    Continues passes text start (ns ++ ms) last (code ++ rest)

variable {passes text}

theorem emitNodes_gap_append {start stop : Nat} {ns : List Node} {piece code : Text}
    (h : slice? text start stop = some piece)
    (hns : Returns (fun out => out.code = code) (emitNodes passes text ns)) :
    Returns (fun out => out.code = piece ++ code)
      (emitNodes passes text (gap start stop ++ ns)) := by
  obtain ⟨_, _, _, _, hwidth⟩ := slice?_eq_some_iff.mp h
  unfold gap
  split
  next hlt =>
    rw [List.singleton_append, emitNodes, emitNode, verbatim, if_pos hlt]
    refine Ends.bind (P := fun out => out.code = piece) ?_ fun first hfirst => ?_
    · refine (Ends.of_slice? h).bind fun piece' hpiece' => ?_
      exact (Option.some.inj (h.symm.trans hpiece')).symm
    · refine hns.bind fun rest hrest => ?_
      show first.code ++ rest.code = piece ++ code
      rw [hfirst, hrest]
  next hlt =>
    have hnil : piece = [] := eq_nil_of_width_eq_zero (by omega)
    rw [hnil]
    exact hns

namespace Adds

variable {start middle stop : Nat} {ns ms : List Node} {code code' : Text}

theorem copy (h : slice? text start stop = some code) : Adds passes text start stop [] code := by
  intro ms last rest hrest origin before hbefore
  have hout := hrest origin (before ++ code) (slice?_append_slice? hbefore h)
  rwa [List.append_assoc] at hout

theorem append (h : Adds passes text start middle ns code)
    (h' : Adds passes text middle stop ms code') :
    Adds passes text start stop (ns ++ ms) (code ++ code') := by
  intro ks last rest hrest
  rw [List.append_assoc, List.append_assoc]
  exact h _ _ _ (h' ks last rest hrest)

theorem node {n : Node} (he : Boundary text n.span.stop)
    (h : Returns (fun out => out.code = code) (emitNode passes text n)) :
    Adds passes text n.span.start n.span.stop [n] code := by
  intro ms last rest hrest origin before hbefore
  rw [List.singleton_append, cover]
  refine emitNodes_gap_append hbefore ?_
  rw [emitNodes]
  refine h.bind fun first hfirst => ?_
  refine (hrest _ [] he.slice?_self).bind fun after hafter => ?_
  show first.code ++ after.code = code ++ rest
  rw [hfirst, hafter, List.nil_append]

theorem emits (h : Adds passes text start stop ns code) (hs : Boundary text start) :
    Returns (fun out => out.code = code) (emitNodes passes text (cover stop start ns)) := by
  have hstop : Continues passes text stop [] stop [] := by
    intro origin before hbefore
    have hnil : Returns (fun out => out.code = []) (emitNodes passes text []) := rfl
    have hgap := emitNodes_gap_append hbefore hnil
    rwa [List.append_nil (gap origin stop)] at hgap
  have hout := h [] stop [] hstop start [] hs.slice?_self
  rwa [List.append_nil, List.append_nil, List.nil_append] at hout

end Adds

end Output

/-! ### Stretches of a text -/

/-- Behind `front` the text goes on with `u`. -/
def Text.Stretch (text front u : Text) : Prop := ∃ back, text = front ++ u ++ back

namespace Text.Stretch

variable {text front u v : Text}

theorem left (h : Stretch text front (u ++ v)) : Stretch text front u := by
  obtain ⟨back, rfl⟩ := h
  exact ⟨v ++ back, by simp⟩

theorem right (h : Stretch text front (u ++ v)) : Stretch text (front ++ u) v := by
  obtain ⟨back, rfl⟩ := h
  exact ⟨back, by simp⟩

theorem slice? (h : Stretch text front u) :
    slice? text (width front) (width (front ++ u)) = some u := by
  obtain ⟨back, rfl⟩ := h
  exact slice?_eq_some_iff.mpr ⟨front, back, rfl, rfl, (width_append _ _).symm⟩

theorem adds (h : Stretch text front u) (passes : Passes) :
    Output.Adds passes text (width front) (width (front ++ u)) [] u := .copy h.slice?

end Text.Stretch

/-! ### Reading parts of a chain -/

namespace Node.Parse

/-- What may stand behind an argument or a whole chain. -/
def isBreak : Kind → Bool
  | .comma | .closing .paren | .eof => true
  | _ => false

section Readers

variable {source : Source} {inner : Inner} {t opener close : Token} {us bs rest : List Token}
  {notes : Notes} {ns : List Node}

theorem trailers_stop (h : headKind rest = .pipe ∨ isBreak (headKind rest) = true) :
    trailers inner 0 rest notes = .ok (.nothing notes) := by
  cases rest with
  | nil => rfl
  | cons t rest =>
    change t.kind = .pipe ∨ isBreak t.kind = true at h
    rw [trailers]
    split
    case h_5 => rfl
    all_goals
      next hk =>
        rw [hk] at h
        simp [isBreak] at h

theorem group_closed (bracket : Bracket)
    (h : inner (some (.closing bracket)) (some opener) (bs ++ close :: rest) notes =
      .ok ⟨ns, bs.length, notes⟩)
    (hc : close.kind = .closing bracket) :
    group inner bracket opener (bs ++ close :: rest) notes =
      .ok (⟨ns, bs.length + 2, notes⟩, true) := by
  have hkind : headKind ((bs ++ close :: rest).drop bs.length) = .closing bracket := by
    rw [List.drop_left]
    exact hc
  simp only [group, h, hkind, if_true]

theorem trailers_call (ho : opener.kind = .opening .paren)
    (h : inner (some (.closing .paren)) (some opener) (bs ++ close :: rest) notes =
      .ok ⟨ns, bs.length, notes⟩)
    (hc : close.kind = .closing .paren)
    (hrest : headKind rest = .pipe ∨ isBreak (headKind rest) = true) :
    trailers inner 0 (opener :: (bs ++ close :: rest)) notes = .ok ⟨ns, bs.length + 2, notes⟩ := by
  have hskip := trailers_append inner (bs ++ [close]) rest notes
  rw [trailers_stop hrest, List.length_append, List.length_singleton, List.append_assoc,
    List.singleton_append] at hskip
  rw [trailers, ho]
  simp only [group_closed .paren h hc, Bind.bind, Except.bind, Nat.add_one_sub_one, hskip,
    Except.map, Found.passing, Found.succ, Found.prepend, Found.nothing, List.append_nil,
    Nat.zero_add]
  rfl

theorem operand_of_trailers {f : Found} (hk : t.kind = .ident ∨ t.kind = .number)
    (h : trailers inner 0 us notes = .ok f) : operand inner t us notes = .ok f.succ := by
  have hprimary : primary inner t us notes = .ok (.step notes) := by
    unfold primary
    rcases hk with hk | hk <;> rw [hk]
  rw [operand, hprimary]
  show (trailers inner 0 us notes >>= _) = _
  rw [h]
  rfl

/-- An operand with no pipe behind it. -/
theorem expression_of_break
    (h : operand inner t (us ++ rest) notes = .ok ⟨ns, us.length + 1, notes⟩)
    (hrest : isBreak (headKind rest) = true) :
    expression source inner t (us ++ rest) notes = .ok ⟨ns, us.length + 1, notes⟩ := by
  have hdrop : (t :: (us ++ rest)).drop (us.length + 1) = rest := by simp
  simp only [expression, h, Bind.bind, Except.bind, hdrop]
  cases rest with
  | nil => rfl
  | cons next rest =>
    have hpipe : next.kind ≠ .pipe := by
      intro hk
      change isBreak next.kind = true at hrest
      rw [hk] at hrest
      cases hrest
    simp only [hpipe, if_false]
    rfl

/-- An operand with stages behind it. -/
theorem expression_of_chain {sign : Token} {stages : List Stage} {last : Stage} {used : Nat}
    (h : operand inner t (us ++ sign :: rest) notes = .ok ⟨ns, us.length + 1, notes⟩)
    (hsign : sign.kind = .pipe)
    (hchain : chain source inner 0 (sign :: rest) notes = .ok ⟨stages, used, notes⟩)
    (hlast : stages.getLast? = some last) :
    expression source inner t (us ++ sign :: rest) notes =
      let inside := Block.cover t.start (stopAfter (us.length + 1) (t :: (us ++ sign :: rest))) ns
      .ok ⟨[.pipe ⟨t.start, last.span.stop⟩ inside.span inside.nodes stages],
        us.length + 1 + used, notes⟩ := by
  have hdrop : (t :: (us ++ sign :: rest)).drop (us.length + 1) = sign :: rest := by simp
  simp only [expression, h, Bind.bind, Except.bind, hdrop, hsign, if_true, hchain, hlast]
  rfl

theorem chain_stop (h : isBreak (headKind rest) = true) :
    chain source inner 0 rest notes = .ok ⟨[], 0, notes⟩ := by
  cases rest with
  | nil => rfl
  | cons t rest =>
    have hpipe : t.kind ≠ .pipe := by
      intro hk
      change isBreak t.kind = true at h
      rw [hk] at h
      cases h
    simp [chain, hpipe]

theorem chain_step {sign : Token} {s : Stage} {stages : List Stage} {used : Nat}
    (hsign : sign.kind = .pipe)
    (hstage : stage source inner (us ++ rest) .empty = .ok (some (s, us.length), .empty))
    (hrest : chain source inner 0 rest .empty = .ok ⟨stages, used, .empty⟩) :
    chain source inner 0 (sign :: (us ++ rest)) .empty =
      .ok ⟨s :: stages, us.length + used + 1, .empty⟩ := by
  have hknows : source.knows .empty sign = false := by
    simp [Source.knows, Notes.empty]
  have hskip := chain_append source inner us rest .empty
  rw [hrest] at hskip
  simp only [chain, hsign, hknows, hstage, hskip, Bind.bind, Except.bind, Except.map,
    Stages.passing, decide_true, Bool.not_false, Bool.and_self, if_true]
  rw [Nat.add_comm used]
  rfl

theorem pathTail_stop (h : headKind rest ≠ .dot) : pathTail rest = 0 := by
  cases rest with
  | nil => rfl
  | cons t rest =>
    have hdot : t.kind ≠ .dot := h
    cases rest with
    | nil => rfl
    | cons u rest => simp [pathTail, hdot]

theorem pathTail_members (front : Text) (names : List Identifier) (h : headKind rest ≠ .dot) :
    pathTail (Piece.tokens front (Dotted.members names) ++ rest) =
      (Piece.tokens front (Dotted.members names)).length := by
  induction names generalizing front with
  | nil => exact pathTail_stop h
  | cons n names ih => exact congrArg (· + 2) (ih _)

/-- Items after the one at the head of the tokens. -/
theorem items_of_item {closing : Option Kind} {last : Option Token} {f : Found}
    (heof : t.kind ≠ .eof) (hclosing : some t.kind ≠ closing)
    (h : item source inner last t (us ++ rest) notes = .ok ⟨ns, us.length + 1, notes⟩)
    (hrest : ∀ last, items source inner closing last 0 rest notes = .ok f) :
    items source inner closing last 0 (t :: (us ++ rest)) notes =
      .ok ⟨ns ++ f.nodes, us.length + f.used + 1, f.notes⟩ := by
  have hskip := items_append source inner closing (some t) us rest notes
  rw [hrest] at hskip
  simp only [items, heof, hclosing, h, hskip, Bind.bind, Except.bind, Except.map, Found.passing,
    Found.succ, Found.prepend, Nat.add_one_sub_one, decide_false, Bool.or_self, Bool.false_eq_true,
    if_false]
  rw [Nat.add_comm us.length]
  rfl

theorem items_of_comma {closing : Option Kind} {last : Option Token} {f : Found}
    (hk : t.kind = .comma) (hclosing : closing ≠ some .comma)
    (hrest : ∀ last, items source inner closing last 0 rest notes = .ok f) :
    items source inner closing last 0 (t :: rest) notes = .ok f.succ := by
  have hitem : item source inner last t ([] ++ rest) notes =
      .ok ⟨[], ([] : List Token).length + 1, notes⟩ := by
    simp only [item, hk]
    rfl
  have hitems := items_of_item (by rw [hk]; nofun) (by rw [hk]; exact hclosing.symm) hitem hrest
  simpa [Found.succ] using hitems

theorem items_stop {closing : Option Kind} {last : Option Token}
    (h : t.kind = .eof ∨ some t.kind = closing) :
    items source inner closing last 0 (t :: rest) notes = .ok (.nothing notes) := by
  simp [items, h]

theorem stopAfter_pieces (x : Piece) {k : Kind} (hk : x.kind? = some k) (front : Text)
    (ps : List Piece) (rest : List Token) :
    stopAfter (Piece.tokens front (ps ++ [x])).length (Piece.tokens front (ps ++ [x]) ++ rest) =
      width (front ++ Piece.written (ps ++ [x])) := by
  have htokens : Piece.tokens front (ps ++ [x]) = Piece.tokens front ps ++
      [.behind (front ++ Piece.written ps) k x.text] := by
    simp [Piece.tokens_append, Piece.tokens, hk]
  rw [stopAfter_append (by rw [htokens]; exact List.getLast?_concat), stop_behind]
  simp

theorem stopAfter_path (path : Dotted) (front : Text) (rest : List Token) :
    stopAfter (Piece.tokens front path.pieces).length (Piece.tokens front path.pieces ++ rest) =
      width (front ++ path.text) := by
  obtain ⟨ps, n, hpieces⟩ := path.exists_last
  rw [Dotted.text, hpieces]
  exact stopAfter_pieces (.name n) rfl front ps rest

/-- A path at the head of the tokens, up to what stands behind it. -/
theorem path_read (path : Dotted) {front : Text} (htext : Stretch source.text front path.text)
    (hrest : headKind rest ≠ .dot) :
    ∃ first tail, Piece.tokens front path.pieces = first :: tail ∧ first.kind = .ident ∧
      first.start = width front ∧ pathTail (tail ++ rest) = tail.length ∧
      stopAfter (tail.length + 1) (first :: (tail ++ rest)) = width (front ++ path.text) ∧
      Text.slice source.text (width front) (width (front ++ path.text)) = .ok path.text := by
  refine ⟨.behind front .ident path.first.text, _, rfl, rfl, start_behind _ _ _,
    pathTail_members _ _ hrest, stopAfter_path path front rest, ?_⟩
  rw [Text.slice, htext.slice?]

theorem stage_bare (path : Dotted) {front : Text} (htext : Stretch source.text front path.text)
    (hrest : headKind rest = .pipe ∨ isBreak (headKind rest) = true) :
    stage source inner (Piece.tokens front path.pieces ++ rest) notes =
      .ok (some (.bare ⟨width front, width (front ++ path.text)⟩ path.text,
        (Piece.tokens front path.pieces).length), notes) := by
  have hkinds : headKind rest ≠ .dot ∧ headKind rest ≠ .opening .paren := by
    constructor
    all_goals
      intro hk
      rw [hk] at hrest
      simp [isBreak] at hrest
  obtain ⟨first, tail, htokens, hkind, hstart, htail, hstop, hslice⟩ :=
    path_read path htext hkinds.1
  rw [htokens]
  simp only [List.cons_append, stage, hkind, htail, hstop, hstart, hslice, Bind.bind, Except.bind,
    List.drop_succ_cons, List.drop_left]
  cases rest with
  | nil => rfl
  | cons next rest =>
    have hparen : next.kind ≠ .opening .paren := hkinds.2
    simp only [hparen, if_false]
    rfl

theorem stage_call (path : Dotted) {front : Text} (htext : Stretch source.text front path.text)
    (ho : opener.kind = .opening .paren)
    (h : inner (some (.closing .paren)) (some opener) (bs ++ close :: rest) notes =
      .ok ⟨ns, bs.length, notes⟩)
    (hc : close.kind = .closing .paren) :
    stage source inner (Piece.tokens front path.pieces ++ opener :: (bs ++ close :: rest)) notes =
      let inside := Block.cover opener.stop close.start ns
      .ok (some (.call ⟨width front, close.stop⟩ path.text inside.span inside.nodes,
        (Piece.tokens front path.pieces).length + 1 + bs.length + 1), notes) := by
  have hdot : headKind (opener :: (bs ++ close :: rest)) ≠ .dot := by
    show opener.kind ≠ .dot
    rw [ho]
    nofun
  obtain ⟨first, tail, htokens, hkind, hstart, htail, hstop, hslice⟩ := path_read path htext hdot
  rw [htokens]
  simp only [List.cons_append, stage, hkind, htail, hstop, hstart, hslice, Bind.bind, Except.bind,
    List.drop_succ_cons, List.drop_left, ho, if_true, h, hc]
  rfl

end Readers

end Node.Parse

/-! ### Reading and writing chains -/

namespace Output

variable {passes : Passes} {text : Text}

theorem callCode_firm (path value : Text) {args : Text} (h : Firm args) :
    callCode path value args = path ++ '(' :: value ++ ", ".toList ++ args ++ [')'] := by
  obtain ⟨c, hc, -⟩ := h.1
  obtain ⟨args', rfl⟩ := List.head?_eq_some_iff.mp hc
  rw [callCode, h.trim_eq, h.1.trimStart_eq]
  rfl

theorem applyStages_call {start stop : Nat} {ns : List Node} {code : Text}
    (h : Adds passes text start stop ns code) (hs : Boundary text start) (span inner : Span)
    (path value : Text) (stages : List Stage) :
    applyStages passes text value (.call span path inner (cover stop start ns) :: stages) =
      applyStages passes text (callCode path value code) stages := by
  obtain ⟨out, hout, hcode⟩ := (h.emits hs).exists_ok
  rw [applyStages, hout, ← hcode]
  rfl

theorem emitNode_pipe {start stop : Nat} {ns : List Node} {code code' : Text}
    (hpass : passes.enabled .pipe = true) (h : Adds passes text start stop ns code)
    (hs : Boundary text start) (hfirm : Firm code) {stages : List Stage}
    (hstages : applyStages passes text code stages = .ok code') (span inner : Span) :
    Returns (fun out => out.code = code')
      (emitNode passes text (.pipe span inner (cover stop start ns) stages)) := by
  rw [emitNode, hpass]
  refine (h.emits hs).bind fun value hvalue => ?_
  rw [hvalue, hfirm.trim_eq, hstages]
  rfl

end Output

namespace Node.Parse

open Piece Output

variable {source : Source}

theorem items_of_expression {inner : Inner} {t : Token} {us rest : List Token} {notes : Notes}
    {ns : List Node} {closing : Option Kind} {f : Found}
    (hk : t.kind = .ident ∨ t.kind = .number)
    (hclosing : closing = none ∨ closing = some (.closing .paren))
    (h : expression source inner t (us ++ rest) notes = .ok ⟨ns, us.length + 1, notes⟩)
    (hrest : ∀ last, items source inner closing last 0 rest notes = .ok f) (last : Option Token) :
    items source inner closing last 0 (t :: (us ++ rest)) notes =
      .ok ⟨ns ++ f.nodes, us.length + f.used + 1, f.notes⟩ := by
  have hitem : item source inner last t (us ++ rest) notes = .ok ⟨ns, us.length + 1, notes⟩ := by
    rw [← h]
    unfold item
    rcases hk with hk | hk <;> rw [hk]
  refine items_of_item ?_ ?_ hitem hrest
  · rcases hk with hk | hk <;> rw [hk] <;> nofun
  · rcases hk with hk | hk <;> rcases hclosing with rfl | rfl <;> rw [hk] <;> nofun

theorem isBreak_of_closing {close : Token} (h : close.kind = .closing .paren) (rest : List Token) :
    isBreak (headKind (close :: rest)) = true := by
  show isBreak close.kind = true
  rw [h]
  rfl

theorem stretch_of_applied {path : Dotted} {ps : List Piece} {text front : Text}
    (h : Stretch text front (written (path.applied ps))) :
    Stretch text (front ++ path.text ++ ['(']) (written ps) := by
  rw [Dotted.applied, written_append, written_append, written_append] at h
  exact h.right.right.left

/-- A path with what stands in its parentheses. -/
theorem step_of_inner (inner : Inner) (path : Dotted) (ps : List Piece) {front : Text}
    {rest : List Token} {ns : List Node} {code : Text}
    (htext : Stretch source.text front (written (path.applied ps)))
    (hread : inner (some (.closing .paren))
      (some (.behind (front ++ path.text) (.opening .paren) ['(']))
      (tokens (front ++ path.text ++ ['(']) ps ++
        .behind (front ++ path.text ++ ['('] ++ written ps) (.closing .paren) [')'] :: rest)
      .empty = .ok ⟨ns, (tokens (front ++ path.text ++ ['(']) ps).length, .empty⟩)
    (hadds : Adds .standard source.text (width (front ++ path.text ++ ['(']))
      (width (front ++ path.text ++ ['('] ++ written ps)) ns code) :
    ∃ s, stage source inner (tokens front (path.applied ps) ++ rest) .empty =
        .ok (some (s, (tokens front (path.applied ps)).length), .empty) ∧
      s.span.stop = width (front ++ written (path.applied ps)) ∧
      ∀ value stages, applyStages .standard source.text value (s :: stages) =
        applyStages .standard source.text (callCode path.text value code) stages := by
  let opener := Token.behind (front ++ path.text) (.opening .paren) ['(']
  let close := Token.behind (front ++ path.text ++ ['('] ++ written ps) (.closing .paren) [')']
  have htokens : tokens front (path.applied ps) =
      tokens front path.pieces ++
        opener :: (tokens (front ++ path.text ++ ['(']) ps ++ [close]) := by
    rw [Dotted.applied, tokens_append, tokens_append, tokens_append]
    rfl
  rw [Dotted.applied, written_append, written_append, written_append] at htext
  have hstage := stage_call path htext.left (rfl : opener.kind = _) hread rfl
  have hopener : opener.stop = width (front ++ path.text ++ ['(']) := stop_behind _ _ _
  have hclose : close.start = width (front ++ path.text ++ ['('] ++ written ps) :=
    start_behind _ _ _
  rw [hopener, hclose] at hstage
  let inside := Block.cover (width (front ++ path.text ++ ['(']))
    (width (front ++ path.text ++ ['('] ++ written ps)) ns
  refine ⟨.call ⟨width front, close.stop⟩ path.text inside.span inside.nodes, ?_, ?_,
    fun value stages => ?_⟩
  · have hlength : (tokens front (path.applied ps)).length = (tokens front path.pieces).length + 1 +
        (tokens (front ++ path.text ++ ['(']) ps).length + 1 := by
      rw [htokens]
      simp only [List.length_append, List.length_cons, List.length_nil]
      omega
    rw [hlength, htokens, List.append_assoc, List.cons_append, List.append_assoc,
      List.singleton_append, hstage]
  · have hstop : close.stop = _ := stop_behind _ _ _
    refine hstop.trans ?_
    simp [Dotted.applied, Dotted.text, Piece.text]
  · exact applyStages_call hadds (Boundary.of_slice? htext.right.right.slice?).1 _ _ _ _ _

/-- With `rest` behind them, the pieces behind `front` are read as an expression that is
written as the code. -/
def Expresses (source : Source) (room : Nat) (front : Text) (ps : List Piece) (rest : List Token)
    (code : Text) : Prop :=
  ∃ t us ns, tokens front ps = t :: us ∧ (t.kind = .ident ∨ t.kind = .number) ∧
    expression source (sequence source room) t (us ++ rest) .empty =
      .ok ⟨ns, us.length + 1, .empty⟩ ∧
    Adds .standard source.text (width front) (width (front ++ written ps)) ns code

theorem expresses_single {x : Piece} {k : Kind} (hx : x.kind? = some k)
    (hk : k = .ident ∨ k = .number) {front : Text} {rest : List Token} (room : Nat)
    (htext : Stretch source.text front (written [x])) (hrest : isBreak (headKind rest) = true) :
    Expresses source room front [x] rest x.text := by
  have hwritten : written [x] = x.text := List.append_nil _
  have hadds := htext.adds .standard
  rw [hwritten] at hadds
  refine ⟨.behind front k x.text, [], [], by simp [tokens, hx], hk, ?_, by rwa [hwritten]⟩
  exact expression_of_break (operand_of_trailers hk (trailers_stop (.inr hrest))) hrest

-- There is one theorem for each sort of syntax. Behind what is read stands anything that
-- cannot go on with it, and `room` levels of parentheses may still be opened.
mutual

theorem chain_read : ∀ (c : Chain) (rest : List Token) {front : Text} {room : Nat},
    Stretch source.text front (written c.pieces) → c.depth ≤ room →
    isBreak (headKind rest) = true → Expresses source room front c.pieces rest c.lower
  | .mk head steps, rest, front, room, htext, hdepth, hrest => by
    rw [Chain.depth, Nat.max_le] at hdepth
    rw [Chain.pieces] at htext ⊢
    rw [written_append] at htext
    -- the steps first: they say which token stands behind the operand
    obtain ⟨sign, us', stages, last, htokens', hsign, hchain, hlast, hstop', hlower⟩ :=
      steps_read steps rest htext.right hdepth.2 hrest
    obtain ⟨t, us, ns, htokens, hkind, hstart, hstop, hread, hadds⟩ :=
      operand_read head (sign :: (us' ++ rest)) htext.left hdepth.1 hsign
    have hexpression := expression_of_chain hread hsign hchain hlast
    rw [hstart, hstop, hstop', List.append_assoc front, ← written_append] at hexpression
    let span : Span := ⟨width front, width (front ++ written (head.pieces ++ steps.pieces))⟩
    let inside := Block.cover (width front) (width (front ++ written head.pieces)) ns
    refine ⟨t, us ++ sign :: us', [.pipe span inside.span inside.nodes stages], ?_, .inl hkind, ?_,
      ?_⟩
    · rw [tokens_append, htokens, htokens', List.cons_append]
    · rw [List.append_assoc, List.cons_append, hexpression, List.length_append, List.length_cons,
        Nat.add_right_comm]
    · obtain ⟨hs, he⟩ := Boundary.of_slice? htext.slice?
      rw [← written_append] at he
      exact Adds.node he (emitNode_pipe rfl hadds hs head.firm (hlower _) span inside.span)

theorem operand_read : ∀ (o : Operand) (rest : List Token) {front : Text} {room : Nat},
    Stretch source.text front (written o.pieces) → o.depth ≤ room → headKind rest = .pipe →
    ∃ t us ns, tokens front o.pieces = t :: us ∧ t.kind = .ident ∧ t.start = width front ∧
      stopAfter (us.length + 1) (t :: (us ++ rest)) = width (front ++ written o.pieces) ∧
      operand (sequence source room) t (us ++ rest) .empty = .ok ⟨ns, us.length + 1, .empty⟩ ∧
      Adds .standard source.text (width front) (width (front ++ written o.pieces)) ns o.lower
  | .name n, rest, front, room, htext, _, hrest => by
    have hwritten : written (Operand.name n).pieces = n.text := List.append_nil _
    rw [hwritten] at htext ⊢
    refine ⟨.behind front .ident n.text, [], [], rfl, rfl, start_behind _ _ _,
      stop_behind _ _ _, ?_, htext.adds _⟩
    exact operand_of_trailers (.inl rfl) (trailers_stop (.inl hrest))
  | .call n args, rest, front, room + 1, htext, hdepth, hrest => by
    have hpieces : (Operand.call n args).pieces =
        [.name n, .opening] ++ (args.pieces ++ [.closing]) := rfl
    have hstop := stopAfter_pieces .closing rfl front ([.name n, .opening] ++ args.pieces) rest
    rw [List.append_assoc, ← hpieces] at hstop
    rw [hpieces, written_append, written_append] at htext
    let opener := Token.behind (front ++ n.text) (.opening .paren) ['(']
    let close := Token.behind (front ++ written [.name n, .opening] ++ written args.pieces)
      (.closing .paren) [')']
    obtain ⟨ns, hread, hadds⟩ := args_read args close rest htext.right.left
      (Nat.le_of_succ_le_succ hdepth) rfl
    have htokens : tokens front (Operand.call n args).pieces = .behind front .ident n.text ::
        (opener :: (tokens (front ++ written [.name n, .opening]) args.pieces ++ [close])) := by
      rw [hpieces, tokens_append, tokens_append]
      rfl
    rw [htokens] at hstop
    refine ⟨_, _, ns, htokens, rfl, start_behind _ _ _, hstop, ?_, ?_⟩
    · simp only [List.cons_append, List.append_assoc, List.nil_append]
      rw [operand_of_trailers (.inl rfl) (trailers_call rfl (hread _) rfl (.inl hrest))]
      simp [Found.succ]
    · have hopen := (htext.left.adds .standard).append hadds
      have hall := hopen.append (htext.right.right.adds .standard)
      simpa [hpieces, Operand.lower, Piece.text] using hall

theorem steps_read : ∀ (steps : Steps) (rest : List Token) {front : Text} {room : Nat},
    Stretch source.text front (written steps.pieces) → steps.depth ≤ room →
    isBreak (headKind rest) = true →
    ∃ sign us stages last, tokens front steps.pieces = sign :: us ∧ sign.kind = .pipe ∧
      chain source (sequence source room) 0 (sign :: (us ++ rest)) .empty =
        .ok ⟨stages, us.length + 1, .empty⟩ ∧
      stages.getLast? = some last ∧ last.span.stop = width (front ++ written steps.pieces) ∧
      ∀ value, applyStages .standard source.text value stages = .ok (steps.lower value)
  | .last step, rest, front, room, htext, hdepth, hrest => by
    have hpieces : (Steps.last step).pieces = [.blank, .pipe, .blank] ++ step.pieces := rfl
    rw [hpieces, written_append] at htext ⊢
    obtain ⟨s, hstage, hstop, hlower⟩ := step_read step rest htext.right hdepth (.inr hrest)
    refine ⟨.behind (front ++ [' ']) .pipe ['|', '>'], _, [s], s, ?_, rfl,
      chain_step rfl hstage (chain_stop hrest), rfl, ?_, fun value => hlower value []⟩
    · rw [tokens_append]
      rfl
    · rw [hstop, List.append_assoc]
  | .more step steps, rest, front, room, htext, hdepth, hrest => by
    have hpieces : (Steps.more step steps).pieces =
        [.blank, .pipe, .blank] ++ (step.pieces ++ steps.pieces) := rfl
    rw [Steps.depth, Nat.max_le] at hdepth
    rw [hpieces, written_append, written_append] at htext ⊢
    obtain ⟨sign, us, stages, last, htokens, hsign, hchain, hlast, hstop, hlower⟩ :=
      steps_read steps rest htext.right.right hdepth.2 hrest
    obtain ⟨s, hstage, -, hlower'⟩ :=
      step_read step (sign :: (us ++ rest)) htext.right.left hdepth.1 (.inl hsign)
    let sign' := Token.behind (front ++ [' ']) .pipe ['|', '>']
    have hsign' : sign'.kind = .pipe := rfl
    have hchain' := chain_step hsign' hstage hchain
    refine ⟨sign', tokens (front ++ written [.blank, .pipe, .blank]) step.pieces ++ sign :: us,
      s :: stages, last, ?_, rfl, ?_, ?_, ?_, fun value => ?_⟩
    · rw [tokens_append, tokens_append, htokens]
      rfl
    · rw [List.append_assoc, List.cons_append, hchain']
      simp
    · rw [List.getLast?_cons, hlast]
      rfl
    · rw [hstop, List.append_assoc, List.append_assoc]
    · rw [hlower', hlower, Steps.lower]

theorem step_read : ∀ (step : Step) (rest : List Token) {front : Text} {room : Nat},
    Stretch source.text front (written step.pieces) → step.depth ≤ room →
    headKind rest = .pipe ∨ isBreak (headKind rest) = true →
    ∃ s, stage source (sequence source room) (tokens front step.pieces ++ rest) .empty =
        .ok (some (s, (tokens front step.pieces).length), .empty) ∧
      s.span.stop = width (front ++ written step.pieces) ∧
      ∀ value stages, applyStages .standard source.text value (s :: stages) =
        applyStages .standard source.text (step.lower value) stages
  | .bare path, rest, front, room, htext, _, hrest =>
    ⟨_, stage_bare path htext hrest, rfl, fun _ _ => rfl⟩
  | .empty path, rest, front, room + 1, htext, _, _ => by
    have hadds := (stretch_of_applied htext).adds .standard
    exact step_of_inner (sequence source (room + 1)) path [] htext (items_stop (.inr rfl)) hadds
  | .call path args, rest, front, room + 1, htext, hdepth, _ => by
    obtain ⟨ns, hread, hadds⟩ := args_read args
      (.behind (front ++ path.text ++ ['('] ++ written args.pieces) (.closing .paren) [')']) rest
      (stretch_of_applied htext) (Nat.le_of_succ_le_succ hdepth) rfl
    obtain ⟨s, hstage, hstop, hlower⟩ :=
      step_of_inner (sequence source (room + 1)) path args.pieces htext (hread _) hadds
    refine ⟨s, hstage, hstop, fun value stages => ?_⟩
    rw [hlower, callCode_firm _ _ args.firm, Step.lower]

theorem args_read : ∀ (args : Args) (close : Token) (rest : List Token) {front : Text} {room : Nat},
    Stretch source.text front (written args.pieces) → args.depth ≤ room →
    close.kind = .closing .paren →
    ∃ ns, (∀ last, items source (sequence source room) (some (.closing .paren)) last 0
        (tokens front args.pieces ++ close :: rest) .empty =
          .ok ⟨ns, (tokens front args.pieces).length, .empty⟩) ∧
      Adds .standard source.text (width front) (width (front ++ written args.pieces)) ns args.lower
  | .last arg, close, rest, front, room, htext, hdepth, hclose => by
    obtain ⟨t, us, ns, htokens, hkind, hread, hadds⟩ :=
      arg_read arg (close :: rest) htext hdepth (isBreak_of_closing hclose rest)
    refine ⟨ns, fun last => ?_, hadds⟩
    rw [Args.pieces, htokens, List.cons_append, items_of_expression hkind (.inr rfl) hread
      fun _ => items_stop (.inr (congrArg some hclose))]
    simp [Found.nothing]
  | .more arg args, close, rest, front, room, htext, hdepth, hclose => by
    have hpieces : (Args.more arg args).pieces =
        arg.pieces ++ ([.comma, .blank] ++ args.pieces) := rfl
    rw [Args.depth, Nat.max_le] at hdepth
    rw [hpieces, written_append, written_append] at htext
    obtain ⟨ms, hread', hadds'⟩ := args_read args close rest htext.right.right hdepth.2 hclose
    let comma := Token.behind (front ++ written arg.pieces) .comma [',']
    let more := tokens (front ++ written arg.pieces ++ written [.comma, .blank]) args.pieces
    obtain ⟨t, us, ns, htokens, hkind, hread, hadds⟩ :=
      arg_read arg (comma :: (more ++ close :: rest)) htext.left hdepth.1 rfl
    refine ⟨ns ++ ms, fun last => ?_, ?_⟩
    · have hcomma : comma.kind = .comma := rfl
      have htokens' : tokens front (Args.more arg args).pieces = t :: (us ++ comma :: more) := by
        rw [hpieces, tokens_append, tokens_append, htokens]
        rfl
      rw [htokens', List.cons_append, List.append_assoc, List.cons_append,
        items_of_expression hkind (.inr rfl) hread fun _ => items_of_comma hcomma nofun hread']
      simp [Found.succ, more]
    · have hall := (hadds.append (htext.right.left.adds .standard)).append hadds'
      simpa [hpieces, Args.lower, Piece.text] using hall

theorem arg_read : ∀ (a : Arg) (rest : List Token) {front : Text} {room : Nat},
    Stretch source.text front (written a.pieces) → a.depth ≤ room →
    isBreak (headKind rest) = true → Expresses source room front a.pieces rest a.lower
  | .name _, _, _, room, htext, _, hrest => expresses_single rfl (.inl rfl) room htext hrest
  | .number _, _, _, room, htext, _, hrest => expresses_single rfl (.inr rfl) room htext hrest
  | .chain c, rest, _, _, htext, hdepth, hrest => chain_read c rest htext hdepth hrest

end

end Node.Parse

/-! ### Compiling chains -/

namespace Chain

theorem occurs_pipe (c : Chain) : occurs ['|', '>'] c.text = true := by
  obtain ⟨head, steps⟩ := c
  refine occurs_iff.mpr ?_
  cases steps with
  | last step =>
    exact ⟨Piece.written head.pieces ++ [' '], ' ' :: Piece.written step.pieces, by
      simp [text, pieces, Steps.pieces, Piece.text]⟩
  | more step steps =>
    exact ⟨Piece.written head.pieces ++ [' '],
      ' ' :: Piece.written (step.pieces ++ steps.pieces), by
        simp [text, pieces, Steps.pieces, Piece.text]⟩

/-- A chain is read as a single node and written as the calls it stands for. -/
theorem parse_text (c : Chain) (h : c.depth ≤ 255) (file : Text) (markup : Bool) :
    ∃ block, parse file c.text markup = .ok (block, []) ∧
      Returns (fun out => out.code = c.lower) (Output.emit .standard c.text block) := by
  let source : Parse.Source := ⟨file, c.text, true⟩
  have htext : Stretch source.text [] (Piece.written c.pieces) := ⟨[], by simp [source, text]⟩
  obtain ⟨t, us, ns, htokens, hkind, hread, hadds⟩ :=
    Parse.chain_read c [finish (Position.origin.advance c.text)] htext h rfl
  have hitems := Parse.items_of_expression hkind (.inl rfl) hread
    (fun _ => Parse.items_stop (.inl rfl)) none
  have hsequence : Parse.sequence source Literal.maxDepth none none (scan markup c.text).tokens
      .empty = .ok ⟨ns ++ [], us.length + 0 + 1, .empty⟩ := by
    rw [text, Piece.scan_written c.separate, htokens]
    exact hitems
  have hscan : (scan markup c.text).tooDeep = none := by
    rw [text, Piece.scan_written c.separate]
  refine ⟨Block.cover 0 (width c.text) ns, ?_, ?_⟩
  · rw [List.append_nil] at hsequence
    simp only [parse, parseTokens, hscan, Bind.bind, Except.bind]
    rw [hsequence]
    rfl
  · exact hadds.emits (.zero _)

/-- Compiling a chain gives the calls it stands for, folded from the left, and nothing else
to say, as long as its parentheses nest at most 255 deep. -/
theorem compileText_eq_lower (c : Chain) (h : c.depth ≤ 255) (id : Text) :
    let result := (Compiler.compileText .default id c.text).1
    result.code = c.lower ∧ result.warnings = [] ∧ result.errors = [] := by
  obtain ⟨compiler, hcompiler, hpasses⟩ : ∃ compiler, Compiler.ofOptions .default = .ok compiler ∧
      compiler.passes = .standard := exists_ok_of_map (by decide +kernel)
  have hmarkers : (Marker.ofText c.text).isEmpty = false := by
    rw [List.isEmpty_eq_false_iff]
    exact List.ne_nil_of_mem (List.mem_filter.mpr ⟨by decide, c.occurs_pipe⟩ : Marker.pipe ∈ _)
  obtain ⟨block, hparse, hemit⟩ := c.parse_text h id (compiler.readsMarkup id)
  obtain ⟨out, hout, hcode⟩ := hemit.exists_ok
  simp only [Compiler.compileText, hcompiler, Compiler.compile, Compiler.attempt, hmarkers, hparse,
    hpasses, hout, Bool.false_eq_true, if_false, Bind.bind, Except.bind]
  exact ⟨hcode, rfl, rfl⟩

theorem compileText_eq_lower_nested :
    let x : Identifier := ⟨'x', [], by decide, by decide, by decide⟩
    let y : Identifier := ⟨'y', "_1".toList, by decide, by decide, by decide⟩
    let f : Identifier := ⟨'f', "ore".toList, by decide, by decide, by decide⟩
    let half : Decimal := ⟨'0', [], "5".toList, by decide⟩
    let inner : Chain := .mk (.name y) (.last (.bare ⟨f, []⟩))
    let c : Chain := .mk (.call x (.more (.number half) (.last (.chain inner))))
      (.more (.call ⟨x, [y, f]⟩ (.last (.name x))) (.last (.empty ⟨f, []⟩)))
    let result := (Compiler.compileText .default "a.bs".toList c.text).1
    c.text = "x(0.5, y_1 |> fore) |> x.y_1.fore(x) |> fore()".toList ∧ c.depth ≤ 255 ∧
      result.code = "fore(x.y_1.fore(x(0.5, fore(y_1)), x))".toList ∧
      result.warnings = [] ∧ result.errors = [] := by
  intro x y f half inner c result
  obtain ⟨hcode, hclean⟩ := compileText_eq_lower c (by decide) "a.bs".toList
  exact ⟨by decide, by decide, hcode.trans (by decide), hclean⟩

end Chain

end Desugar
