import Desugar.Output.Emit
import Desugar.Proofs.Grammar

/-! Blocks as tilings of their text. The nodes of a block follow each other without gap
or overlap, every block inside a node lies within it, and all edges lie between
characters. The tokens of a construct give such a tiling. -/
namespace Desugar.Node

open Text Token Grammar

/-! ### Tilings -/

/-- The keyword stands at the start of the span. -/
def Opens (text : Text) (span : Span) (word : Keyword) : Prop :=
  slice? text span.start (span.start + width word.text) = some word.text ∧
    span.start + width word.text ≤ span.stop

mutual

/-- The nodes cover the bytes from `start` to `stop`, none of them empty. -/
inductive Tiles (text : Text) : (start stop : Nat) → List Node → Prop where
  | nil {start : Nat} : Boundary text start → Tiles text start start []
  | cons {stop : Nat} {n : Node} {ns : List Node} :
      Boundary text n.span.start → n.span.start < n.span.stop → Fits text n →
      Tiles text n.span.stop stop ns → Tiles text n.span.start stop (n :: ns)

/-- The parts of the node lie in its span. -/
inductive Fits (text : Text) : Node → Prop where
  | other {span : Span} : Fits text (.other span)
  | binding {span : Span} : Opens text span .letWord → Fits text (.binding span)
  | struct {span : Span} {head : Head} {fields : List Text} :
      Opens text span .structWord → Fits text (.struct span head fields)
  | trait {span inner : Span} {head : Head} {body : List Node} :
      Opens text span .traitWord → span.start < inner.start →
      Tiles text inner.start inner.stop body → inner.stop ≤ span.stop →
      Fits text (.trait span head inner body)
  | impl {span inner : Span} {head target : Head} {body : List Node} :
      Opens text span .implWord → span.start < inner.start →
      Tiles text inner.start inner.stop body → inner.stop ≤ span.stop →
      Fits text (.impl span head target inner body)
  | pipe {span inner : Span} {head : List Node} {stages : List Stage} {sign : Nat} :
      inner.start = span.start → Tiles text inner.start inner.stop head → stages ≠ [] →
      slice? text sign (sign + 2) = some ['|', '>'] → Follows text inner.stop span.stop stages →
      Fits text (.pipe span inner head stages)

/-- The blocks of the stages lie one after the other between `start` and `stop`. -/
inductive Follows (text : Text) : (start stop : Nat) → List Stage → Prop where
  | nil {start stop : Nat} :
      Boundary text start → Boundary text stop → start ≤ stop → Follows text start stop []
  | bare {start stop : Nat} {span : Span} {path : Text} {stages : List Stage} :
      Follows text start stop stages → Follows text start stop (.bare span path :: stages)
  | call {start stop : Nat} {span inner : Span} {path : Text} {args : List Node}
      {stages : List Stage} :
      Boundary text start → start ≤ inner.start → Tiles text inner.start inner.stop args →
      Follows text inner.stop stop stages →
      Follows text start stop (.call span path inner args :: stages)
  | group {start stop : Nat} {span : Span} {body : List Node} {stages : List Stage} :
      Boundary text start → start ≤ span.start → Tiles text span.start span.stop body →
      Follows text span.stop stop stages → Follows text start stop (.group span body :: stages)

end

section Edges

variable {text : Text}

theorem Tiles.start_boundary {start stop : Nat} {ns : List Node} (h : Tiles text start stop ns) :
    Boundary text start := by
  cases h with
  | nil hb => exact hb
  | cons hb _ _ _ => exact hb

theorem Tiles.stop_boundary : ∀ {start stop : Nat} {ns : List Node},
    Tiles text start stop ns → Boundary text stop
  | _, _, _, .nil hb => hb
  | _, _, _, .cons _ _ _ h => h.stop_boundary

end Edges

section Gaps

variable {text : Text} {start middle stop : Nat} {ns : List Node}

theorem Tiles.gap_append (hs : Boundary text start) (hle : start ≤ middle)
    (h : Tiles text middle stop ns) :
    Tiles text start stop (gap start middle ++ ns) := by
  unfold gap
  split
  next hlt => exact @Tiles.cons text stop (.other ⟨start, middle⟩) ns hs hlt .other h
  next hlt =>
    obtain rfl : start = middle := by omega
    exact h

theorem Tiles.gap (hs : Boundary text start) (he : Boundary text stop) (hle : start ≤ stop) :
    Tiles text start stop (gap start stop) := by
  have h := Tiles.gap_append hs hle (.nil he)
  rwa [List.append_nil] at h

end Gaps

/-! ### Spans of constructs -/

theorem span_of_stage {text : Text} {all us : List Token} {s : Stage} (h : IsStage text all us s) :
    ∃ first last, us.head? = some first ∧ us.getLast? = some last ∧
      s.span = ⟨first.start, last.stop⟩ := by
  cases h with
  | @bare first last _ _ _ hf hl _ => exact ⟨first, last, hf, hl, rfl⟩
  | @call first last opener close ps bs path ns hp hf hl hs ho hb hc =>
    exact ⟨first, close, by simp [hf], List.getLast?_concat, rfl⟩
  | @group opener close bs ns ho hb hc => exact ⟨opener, close, rfl, List.getLast?_concat, rfl⟩

theorem last_of_chain {text : Text} {all : List Token} :
    ∀ {ts : List Token} {stages : List Stage} {stage : Stage}, IsChain text all ts stages →
      stages.getLast? = some stage → ∃ last, ts.getLast? = some last ∧ stage.span.stop = last.stop
  | _, _, _, .nil, h => by cases h
  | _, _, stage, @IsChain.cons _ _ sign us ts s [] _ hs hc, h => by
    obtain ⟨first, last, _, hl, hspan⟩ := span_of_stage hs
    cases hc
    have heq : s = stage := by simpa using h
    subst heq
    refine ⟨last, ?_, by rw [hspan]⟩
    rw [List.append_nil, List.getLast?_cons, hl]
    rfl
  | _, _, stage, @IsChain.cons _ _ sign us ts s (s' :: ss) _ _ hc, h => by
    obtain ⟨last, hl, hstop⟩ := last_of_chain hc (by simpa using h)
    exact ⟨last, by rw [List.getLast?_append, hl]; rfl, hstop⟩

/-- A construct reaches from the start of its first token to the end of its last. -/
theorem span_of_construct {text : Text} {all us : List Token} {n : Node}
    (h : IsConstruct text all us n) :
    ∃ first last, us.head? = some first ∧ us.getLast? = some last ∧
      n.span = ⟨first.start, last.stop⟩ := by
  cases h with
  | @binding t _ _ => exact ⟨t, t, rfl, rfl, rfl⟩
  | @struct t opener close _ _ _ _ _ _ _ _ _ => exact ⟨t, close, rfl, List.getLast?_concat, rfl⟩
  | @trait t opener close _ _ _ _ _ _ _ _ _ => exact ⟨t, close, rfl, List.getLast?_concat, rfl⟩
  | @impl t word opener close _ _ _ _ _ _ _ _ _ _ _ _ _ =>
    exact ⟨t, close, rfl, List.getLast?_concat, rfl⟩
  | @pipe first last hs ss ns stages stage hf hl hh hc hst =>
    obtain ⟨final, hfinal, hstop⟩ := last_of_chain hc hst
    refine ⟨first, final, by rw [List.head?_append, hf]; rfl, ?_, by rw [Node.span, hstop]⟩
    rw [List.getLast?_append, hfinal]
    rfl

/-- The stages of a chain stand between its head and its end. -/
theorem within_chain {text : Text} {all hs ss : List Token} {first last : Token}
    {stages : List Stage} {stage : Stage} {start stop : Nat} (hf : hs.head? = some first)
    (hl : hs.getLast? = some last) (hc : IsChain text all ss stages)
    (hst : stages.getLast? = some stage) (hw : Within text start stop (hs ++ ss)) :
    Within text last.stop stage.span.stop ss := by
  obtain ⟨final, hfinal, hstop⟩ := last_of_chain hc hst
  have hfirst : (hs ++ ss).head? = some first := by
    rw [List.head?_append, hf]
    rfl
  have hlast : (hs ++ ss).getLast? = some final := by
    rw [List.getLast?_append, hfinal]
    rfl
  rw [hstop]
  exact (hw.span hfirst hlast).after hl

theorem exists_pipe_of_chain {text : Text} {all ts : List Token} {stages : List Stage}
    (h : IsChain text all ts stages) (hne : stages ≠ []) : ∃ t ∈ ts, t.kind = .pipe := by
  cases h with
  | nil => exact absurd rfl hne
  | @cons sign us ts s ss hk _ _ => exact ⟨sign, List.mem_cons_self, hk⟩

theorem exists_ne_eof_of_construct {text : Text} {all us : List Token} {n : Node}
    (h : IsConstruct text all us n) :
    ∃ t ∈ us, t.kind ≠ .eof := by
  cases h with
  | @binding t hk _ => exact ⟨t, List.mem_cons_self, by rw [hk]; nofun⟩
  | @struct t _ _ _ _ _ _ hk _ _ _ _ => exact ⟨t, List.mem_cons_self, by rw [hk]; nofun⟩
  | @trait t _ _ _ _ _ _ hk _ _ _ _ => exact ⟨t, List.mem_cons_self, by rw [hk]; nofun⟩
  | @impl t _ _ _ _ _ _ _ _ _ hk _ _ _ _ _ _ => exact ⟨t, List.mem_cons_self, by rw [hk]; nofun⟩
  | @pipe first last hs ss ns stages stage _ _ _ hc hst =>
    obtain ⟨t, ht, hk⟩ := exists_pipe_of_chain hc (by rintro rfl; cases hst)
    exact ⟨t, List.mem_append_right hs ht, by rw [hk]; nofun⟩

theorem opens_of_token {text : Text} {t : Token} {word : Keyword} {stop : Nat} (ht : t.Stands text)
    (hk : t.kind = .keyword word) (hle : t.stop ≤ stop) : Opens text ⟨t.start, stop⟩ word := by
  have hstop : t.stop = t.start + width word.text := by rw [← ht.keyword hk]; rfl
  have hs := ht.slice?
  rw [ht.keyword hk, hstop] at hs
  exact ⟨hs, by rw [← hstop]; exact hle⟩

theorem opens_of_first {text : Text} {t close : Token} {us : List Token} {word : Keyword}
    {start stop : Nat} (hw : Within text start stop (t :: us ++ [close]))
    (hk : t.kind = .keyword word) :
    Opens text ⟨t.start, close.stop⟩ word :=
  opens_of_token (hw.layout.stands t List.mem_cons_self) hk
    ((hw.span rfl List.getLast?_concat).le_stop t List.mem_cons_self)

/-- A token of a construct ends behind the start of the first one. -/
theorem first_lt_stop {text : Text} {t u close : Token} {us : List Token} {start stop : Nat}
    (hw : Within text start stop (t :: us ++ [close])) (hu : u ∈ t :: us ++ [close])
    (hk : u.kind ≠ .eof) : t.start < u.stop :=
  Nat.lt_of_le_of_lt ((hw.span rfl List.getLast?_concat).start_le u hu)
    ((hw.layout.stands u hu).start_lt_stop hk)

/-! ### Derivations tile the text -/

section Derivations

variable {text : Text} {all : List Token}

mutual

/-- Constructs found between two boundaries, with what lies between them, tile the
text there. -/
theorem tiles_of_sequence : ∀ {ts : List Token} {ns : List Node} {start stop : Nat},
    IsSequence text all ts ns → Within text start stop ts →
      Tiles text start stop (cover stop start ns)
  | _, _, _, _, .nil, hw => .gap hw.start_boundary hw.stop_boundary hw.le
  | _, _, _, _, .step _ h, hw => tiles_of_sequence h (hw.sublist (List.sublist_cons_self _ _))
  | _, _, start, stop, @IsSequence.construct _ _ us ts n ns hc h, hw => by
    obtain ⟨first, last, hf, hl, hspan⟩ := span_of_construct hc
    obtain ⟨t, ht, hk⟩ := exists_ne_eof_of_construct hc
    have hus := (hw.sublist (List.sublist_append_left us ts)).span hf hl
    have hne : n.span.start < n.span.stop := by
      have h1 := hus.start_le t ht
      have h2 := (hus.layout.stands t ht).start_lt_stop hk
      have h3 := hus.le_stop t ht
      rw [hspan]
      show first.start < last.stop
      omega
    have hrest := tiles_of_sequence h (hw.after hl)
    have hstart : start ≤ n.span.start := by
      rw [hspan]
      exact hw.start_le first (List.mem_append_left ts (List.mem_of_head? hf))
    refine .gap_append hw.start_boundary hstart (.cons (by rw [hspan]; exact hus.start_boundary) hne
      (fits_of_construct hc hus) ?_)
    rw [hspan]
    exact hrest

theorem fits_of_construct : ∀ {us : List Token} {n : Node} {start stop : Nat},
    IsConstruct text all us n → Within text start stop us → Fits text n
  | _, _, _, _, @IsConstruct.binding _ _ t hk _, hw =>
    .binding (opens_of_token (hw.layout.stands t List.mem_cons_self) hk (Nat.le_refl _))
  | _, _, _, _, @IsConstruct.struct _ _ t opener close hs fs head fields hk _ _ _ _, hw =>
    .struct (opens_of_first hw hk)
  | _, _, _, _, @IsConstruct.trait _ _ t opener close hs bs head ns hk _ ho hb _, hw =>
    .trait (opens_of_first hw hk) (first_lt_stop hw (by simp) (by rw [ho]; nofun))
      (tiles_of_sequence hb hw.inside) (Nat.le_add_right _ _)
  | _, _, _, _, @IsConstruct.impl _ _ t word opener close hs gs bs head target ns hk _ _ _ ho
      hb _, hw =>
    .impl (opens_of_first hw hk) (first_lt_stop hw (by simp) (by rw [ho]; nofun))
      (tiles_of_sequence hb hw.inside) (Nat.le_add_right _ _)
  | _, _, _, _, @IsConstruct.pipe _ _ first last hs ss ns stages stage hf hl hh hc hst, hw => by
    have hhead := (hw.sublist (List.sublist_append_left hs ss)).span hf hl
    have hne : stages ≠ [] := by
      rintro rfl
      cases hst
    obtain ⟨sign, hsign, hk⟩ := exists_pipe_of_chain hc hne
    have hslice := (hw.layout.stands sign (List.mem_append_right hs hsign)).slice?_pipe hk
    exact .pipe rfl (tiles_of_sequence hh hhead) hne hslice
      (follows_of_chain hc (within_chain hf hl hc hst hw))

theorem follows_of_chain : ∀ {ts : List Token} {stages : List Stage} {start stop : Nat},
    IsChain text all ts stages → Within text start stop ts → Follows text start stop stages
  | _, _, _, _, .nil, hw => .nil hw.start_boundary hw.stop_boundary hw.le
  | _, _, _, _, @IsChain.cons _ _ sign _ ts _ ss _
      (@IsStage.bare _ _ first last ps path _ _ hl _) hc, hw =>
    .bare (follows_of_chain hc (hw.sublist (List.sublist_append_right _ ts)))
  | _, _, _, _, @IsChain.cons _ _ sign _ ts _ ss _
      (@IsStage.call _ _ first last opener close ps bs path ns _ _ _ _ _ hb _) hc, hw => by
    have hbs : Within text opener.stop close.start bs := hw.stage.inside
    have ho := hw.stage.start_le opener (by simp)
    refine .call hw.start_boundary (Nat.le_trans ho (Nat.le_add_right _ _))
      (tiles_of_sequence hb hbs) ?_
    exact follows_of_chain hc (hw.after_stage.widen hbs.stop_boundary (Nat.le_add_right _ _))
  | _, _, _, _, @IsChain.cons _ _ sign _ ts _ ss _
      (@IsStage.group _ _ opener close bs ns _ hb _) hc, hw => by
    have ho := hw.stage.start_le opener List.mem_cons_self
    exact .group hw.start_boundary ho (tiles_of_sequence hb hw.stage.group)
      (follows_of_chain hc hw.after_stage)

end

end Derivations

end Desugar.Node
