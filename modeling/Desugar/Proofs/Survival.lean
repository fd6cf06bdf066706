import Desugar.Proofs.Carrying
import Desugar.Proofs.Compilation

/-! Literals survive. Whatever passes are enabled, the written code carries every element,
template, regular expression and closed string of the text: copied spans hold the tokens
that stand in them, and what is trimmed when a construct is rewritten has no blank at its
edges. The proof follows the grammar of the tokens, where every token has one place. -/
namespace Desugar

open Text Token Grammar

namespace Token

/-! ### Literals of a run of tokens -/

/-- The texts of the literals among the tokens. -/
def literals (ts : List Token) : List Text := (ts.filter isLiteral).map Token.text

@[simp] theorem literals_nil : literals [] = [] := rfl

@[simp] theorem literals_append (ts us : List Token) :
    literals (ts ++ us) = literals ts ++ literals us := by
  rw [literals, List.filter_append, List.map_append]
  rfl

theorem literals_cons (t : Token) (ts : List Token) :
    literals (t :: ts) = (if t.isLiteral = true then [t.text] else []) ++ literals ts := by
  unfold literals
  cases ht : t.isLiteral <;> simp [ht]

/-- The kinds of tokens that may be literals. -/
def mayBeLiteral : Kind → Bool
  | .markup | .template | .regex | .string => true
  | _ => false

theorem isLiteral_eq_false {t : Token} {k : Kind} (hk : t.kind = k) (hno : mayBeLiteral k = false) :
    t.isLiteral = false := by
  unfold isLiteral
  rw [hk]
  cases k <;> first | rfl | cases hno

theorem literals_cons_of_kind {t : Token} {k : Kind} (hk : t.kind = k)
    (hno : mayBeLiteral k = false) (ts : List Token) : literals (t :: ts) = literals ts := by
  rw [literals_cons, isLiteral_eq_false hk hno]
  rfl

theorem literals_of_isPath {ps : List Token} (h : IsPath ps) : literals ps = [] := by
  rw [literals, List.map_eq_nil_iff, List.filter_eq_nil_iff]
  intro t ht
  have hno : mayBeLiteral t.kind = false := by
    rcases h t ht with hk | hk
    · rw [hk]
      rfl
    · cases hkind : t.kind <;> rw [hkind] at hk <;> first | rfl | cases hk
  rw [isLiteral_eq_false rfl hno]
  decide

theorem kind_ne_eof_of_isLiteral {t : Token} (h : t.isLiteral = true) : t.kind ≠ .eof := by
  intro hk
  rw [isLiteral_eq_false hk rfl] at h
  cases h

theorem ne_nil_of_mem_literals {text p : Text} {ts : List Token} (h : Layout text ts)
    (hp : p ∈ literals ts) :
    p ≠ [] := by
  obtain ⟨t, ht, rfl⟩ := List.mem_map.mp hp
  obtain ⟨hmem, hl⟩ := List.mem_filter.mp ht
  intro hnil
  have hlt := (h.stands t hmem).start_lt_stop (kind_ne_eof_of_isLiteral hl)
  rw [stop, hnil] at hlt
  exact Nat.lt_irrefl _ hlt

/-- No literal stands after the end of the text. -/
theorem literals_of_eof {text : Text} {rest : List Token} (h : Layout text rest)
    (heof : Node.Parse.headKind rest = .eof) : literals rest = [] := by
  cases rest with
  | nil => rfl
  | cons e rest =>
    have he : e.kind = .eof := heof
    rw [literals_cons_of_kind he rfl, literals, List.map_eq_nil_iff, List.filter_eq_nil_iff]
    intro t ht hl
    have hstart := (h.stands e List.mem_cons_self).start_of_eof he
    have hle := (List.pairwise_cons.mp h.ordered).1 t ht
    have hlt := (h.stands t (List.mem_cons_of_mem e ht)).start_lt_width
      (kind_ne_eof_of_isLiteral hl)
    rw [start] at hstart
    rw [stop, hstart] at hle
    omega

namespace Within

variable {text piece : Text} {start stop : Nat} {ts : List Token}

/-- A span of the text holds the tokens that stand in it. -/
theorem inOrder (h : Within text start stop ts) (hp : slice? text start stop = some piece) :
    InOrder (literals ts) piece := by
  induction ts generalizing start piece with
  | nil => trivial
  | cons t ts ih =>
    have ht := (h.layout.stands t List.mem_cons_self).slice?
    obtain ⟨x, y, rfl, _, hy⟩ :=
      slice?_inside hp ht (h.start_le t List.mem_cons_self) (h.le_stop t List.mem_cons_self)
    have hrest := ih ((show Within text start stop ([t] ++ ts) from h).after rfl) hy
    rw [literals_cons]
    split
    next => exact ⟨x, y, rfl, hrest⟩
    next => exact hrest.append_left (x ++ t.text)

/-- Literals before other characters have no blank at their edges. -/
theorem firm (h : Within text start stop ts) (hlt : stop < width text) :
    ∀ p ∈ literals ts, Firm p := by
  intro p hp
  obtain ⟨t, ht, rfl⟩ := List.mem_map.mp hp
  obtain ⟨hmem, hl⟩ := List.mem_filter.mp ht
  exact (h.layout.stands t hmem).firm hl (Nat.lt_of_le_of_lt (h.le_stop t hmem) hlt)

end Within

end Token

namespace Output

variable {text : Text} {all : List Token}

theorem verbatim_carries {start stop : Nat} {ts : List Token} (h : Within text start stop ts) :
    Returns (fun out => Carries (literals ts) out.code) (verbatim text start stop) := by
  refine (verbatim_ends h.start_boundary h.stop_boundary h.le).mono ?_
  rintro out ⟨piece, hpiece, hcopy, _⟩
  rw [hcopy rfl]
  exact .of_inOrder (h.inOrder hpiece)

/-! ### Heads and fields -/

theorem generics_carries {hs : List Token} {head : Head} {start stop : Nat}
    (hhead : IsHead text hs head) (h : Within text start stop hs) :
    Carries (literals hs) (generics head.generics) := by
  cases hhead with
  | plain hk =>
    rw [literals_cons_of_kind hk rfl]
    exact .nil _
  | @generic name less greater ts inside hn hl hg hpiece =>
    have hin : Within text less.stop greater.start ts :=
      (show Within text start stop ([name] ++ less :: ts ++ [greater]) from h).inside
    have hgreater := h.layout.stands greater (by simp)
    have hlt := hgreater.start_lt_width (by rw [hg]; nofun)
    rw [literals_append, literals_cons_of_kind hn rfl, literals_cons_of_kind hl rfl,
      literals_cons_of_kind hg rfl, literals_nil, List.append_nil]
    have hinside := (Carries.of_inOrder (hin.inOrder hpiece)).trim (hin.firm hlt)
    exact (hinside.append_left ['<']).append_right ['>']

/-- The lines of the fields. -/
def fieldLines (fields : List Text) : Text :=
  (fields.map fun f => "  ".toList ++ f ++ ";\n".toList).flatten

theorem fieldLines_append (fields more : List Text) :
    fieldLines (fields ++ more) = fieldLines fields ++ fieldLines more := by
  simp [fieldLines]

theorem fieldOf_carries {ps : List Text} {piece : Text} (h : Carries ps piece)
    (hfirm : ∀ p ∈ ps, Firm p) :
    Carries ps (fieldLines (fieldOf piece)) := by
  have htrim := h.trim hfirm
  unfold fieldOf
  split
  next hnil =>
    rw [List.isEmpty_iff.mp hnil] at htrim
    rw [htrim.eq_nil hfirm]
    exact .nil _
  next =>
    simp only [fieldLines, List.map_cons, List.map_nil, List.flatten_cons, List.flatten_nil,
      List.append_nil]
    exact (htrim.append_left _).append_right _

theorem fields_carries {fs : List Token} {fields : List Text} {start stop : Nat}
    (hfields : IsFields text start stop fs fields) (h : Within text start stop fs)
    (hlt : stop < width text) :
    Carries (literals fs) (fieldLines fields) := by
  induction hfields with
  | last hpiece => exact fieldOf_carries (.of_inOrder (h.inOrder hpiece)) (h.firm hlt)
  | @more start stop ts us semicolon piece fields hk hpiece _ ih =>
    have hsemicolon := h.layout.stands semicolon (by simp)
    have hfirst := h.before
    have hrest : Within text semicolon.stop stop us := by
      rw [List.append_cons] at h
      exact h.after List.getLast?_concat
    rw [literals_append, literals_cons_of_kind hk rfl, fieldLines_append]
    refine (fieldOf_carries (.of_inOrder (hfirst.inOrder hpiece)) (hfirst.firm ?_)).append
      (ih hrest hlt)
    exact hsemicolon.start_lt_width (by rw [hk]; nofun)

theorem structCode_carries {ps qs : List Text} {head : Head} {fields : List Text}
    (hhead : Carries ps (generics head.generics)) (hfields : Carries qs (fieldLines fields))
    (hfirm : ∀ p ∈ qs, Firm p) :
    Carries (ps ++ qs) (structCode head fields) := by
  have hdeclared := hhead.append_left ("type ".toList ++ head.name)
  unfold structCode
  split
  next hnil =>
    rw [List.isEmpty_iff.mp hnil] at hfields
    rw [hfields.eq_nil hfirm, List.append_nil]
    exact hdeclared.append_right _
  next =>
    exact ((hdeclared.append_right _).append hfields).append_right _

theorem implOpening_carries {ps qs : List Text} {head target : Head}
    (hhead : Carries ps (generics head.generics))
    (htarget : Carries qs (generics target.generics)) :
    Carries (ps ++ qs) (implOpening head target) := by
  have hname := hhead.append_left ("class ".toList ++ target.name ++ head.name ++ "Impl".toList)
  unfold implOpening
  refine (Carries.append ?_ htarget).append_right _
  exact ((((hname.append_right _).append_right _).append_right _).append_right _).append_right _

/-! ### Pipes -/

/-- A call carries its value and its arguments. -/
theorem callCode_carries {ps qs : List Text} {value args : Text} (path : Text)
    (hvalue : Carries ps value) (hargs : Carries qs args) (hfirm : ∀ p ∈ qs, Firm p) :
    Carries (ps ++ qs) (callCode path value args) := by
  have hopen : Carries ps (path ++ '(' :: value) := (hvalue.append_left ['(']).append_left path
  unfold callCode
  split
  next hnil =>
    have htrim := hargs.trim hfirm
    rw [List.isEmpty_iff.mp hnil] at htrim
    rw [htrim.eq_nil hfirm, List.append_nil]
    exact hopen.append_right _
  next => exact ((hopen.append_right _).append (hargs.trimStart hfirm)).append_right _

/-- A stage in parentheses stands before the value it is called on. -/
theorem callCode_carries_group {ps qs : List Text} {group value : Text} (hgroup : Carries qs group)
    (hvalue : Carries ps value) : Carries (ps ++ qs) (callCode group value []) := by
  have hcall := (hgroup.append (hvalue.append_left ['('])).append_right [')']
  exact hcall.perm List.perm_append_comm

/-! ### Writing a run of tokens -/

section Derivations

variable {passes : Passes}

theorem emitNodes_gap_carries {start stop : Nat} {qs : List Token} {ps : List Text} {ns : List Node}
    (h : Within text start stop qs)
    (hns : Returns (fun out => Carries ps out.code) (emitNodes passes text ns)) :
    Returns (fun out => Carries (literals qs ++ ps) out.code)
      (emitNodes passes text (Node.gap start stop ++ ns)) := by
  have hgap := verbatim_carries h
  unfold verbatim at hgap
  unfold Node.gap
  split
  next hlt =>
    rw [if_pos hlt] at hgap
    rw [List.singleton_append, emitNodes, emitNode, verbatim, if_pos hlt]
    exact hgap.bind fun first hfirst => hns.bind fun rest hrest => hfirst.append hrest
  next hlt =>
    rw [if_neg hlt] at hgap
    exact hns.mono fun out hout => hgap.append hout

/-- A body is worked on between the copies of what stands around it. -/
theorem copied_carries {us bs : List Token} {first opener close : Token} {start stop : Nat}
    {ns : List Node} (h : Within text start stop (us ++ opener :: bs ++ [close]))
    (hf : us.head? = some first)
    (hns : Returns (fun out => Carries (literals bs) out.code) (emitNodes passes text ns)) :
    Returns (fun out => Carries (literals (us ++ opener :: bs ++ [close])) out.code) (do
      let before ← verbatim text first.start opener.stop
      let inside ← emitNodes passes text ns
      let after ← verbatim text close.start close.stop
      pure (before ++ inside ++ after)) := by
  have hsplit : us ++ opener :: bs ++ [close] = us ++ [opener] ++ bs ++ [close] := by simp
  rw [hsplit] at h ⊢
  have hfirst : (us ++ [opener]).head? = some first := by rw [List.head?_append, hf]; rfl
  have hbefore : Within text first.start opener.stop (us ++ [opener]) :=
    (h.sublist (by simp)).span hfirst List.getLast?_concat
  have hafter : Within text close.start close.stop [close] := (h.sublist (by simp)).span rfl rfl
  refine (verbatim_carries hbefore).bind fun before hbefore => ?_
  refine hns.bind fun inside hinside => ?_
  refine (verbatim_carries hafter).bind fun after hafter => ?_
  rw [literals_append, literals_append]
  exact (hbefore.append hinside).append hafter

theorem literals_group {opener close : Token} {bracket bracket' : Bracket} {bs : List Token}
    (ho : opener.kind = .opening bracket) (hc : close.kind = .closing bracket') :
    literals (opener :: bs ++ [close]) = literals bs := by
  rw [literals_append, literals_cons_of_kind ho rfl, literals_cons_of_kind hc rfl, literals_nil,
    List.append_nil]

theorem literals_call {opener close : Token} {bracket bracket' : Bracket} {ps bs : List Token}
    (hp : IsPath ps) (ho : opener.kind = .opening bracket) (hc : close.kind = .closing bracket') :
    literals (ps ++ opener :: bs ++ [close]) = literals bs := by
  rw [List.append_assoc, literals_append, literals_of_isPath hp, List.nil_append,
    literals_group ho hc]

theorem literals_braced {t opener close : Token} {word : Keyword} {bracket bracket' : Bracket}
    {hs bs : List Token} (hk : t.kind = .keyword word) (ho : opener.kind = .opening bracket)
    (hc : close.kind = .closing bracket') :
    literals (t :: hs ++ opener :: bs ++ [close]) = literals hs ++ literals bs := by
  rw [List.append_assoc, literals_append, literals_cons_of_kind hk rfl, literals_group ho hc]

mutual

/-- The code of the constructs between two boundaries carries the literals of the tokens
there; `qs` are tokens already stepped over. -/
theorem sequence_carries : ∀ {ts : List Token} {ns : List Node} {start stop : Nat}
    (qs : List Token),
    IsSequence text all ts ns → Within text start stop (qs ++ ts) →
    Returns (fun out => Carries (literals (qs ++ ts)) out.code)
      (emitNodes passes text (Node.cover stop start ns))
  | _, _, start, stop, qs, .nil, h => by
    rw [List.append_nil] at h ⊢
    have hgap := @emitNodes_gap_carries text passes start stop qs [] [] h (.nil [])
    rwa [List.append_nil, List.append_nil] at hgap
  | _, _, start, stop, qs, @IsSequence.step _ _ t ts ns _ hseq, h => by
    rw [List.append_cons] at h ⊢
    exact sequence_carries (qs ++ [t]) hseq h
  | _, _, start, stop, qs, @IsSequence.construct _ _ us ts n ns hc hseq, h => by
    obtain ⟨first, last, hf, hl, hspan⟩ := Node.span_of_construct hc
    have hgap : Within text start n.span.start qs := by
      obtain ⟨us', rfl⟩ := List.head?_eq_some_iff.mp hf
      rw [hspan]
      exact h.before
    have hrest : Within text n.span.stop stop ts := by
      rw [hspan]
      exact (h.sublist (List.sublist_append_right qs _)).after hl
    have hus := (h.sublist (List.sublist_append_right qs _)).sublist
      (List.sublist_append_left us ts)
    rw [Node.cover, literals_append, literals_append]
    refine emitNodes_gap_carries hgap ?_
    rw [emitNodes]
    refine (construct_carries hc hus).bind fun first hfirst => ?_
    exact (sequence_carries [] hseq hrest).bind fun rest hrest => hfirst.append hrest

theorem construct_carries : ∀ {us : List Token} {n : Node} {start stop : Nat},
    IsConstruct text all us n → Within text start stop us →
    Returns (fun out => Carries (literals us) out.code) (emitNode passes text n)
  | _, _, _, _, @IsConstruct.binding _ _ t hk _, h => by
    have hspan : Within text t.start t.stop [t] := h.span rfl rfl
    rw [emitNode]
    split
    next =>
      rw [literals_cons_of_kind hk rfl]
      exact .nil _
    next => exact verbatim_carries hspan
  | _, _, _, _, @IsConstruct.struct _ _ t opener close hs fs head fields hk hhead ho hfields
      hclose, h => by
    have hspan : Within text t.start close.stop (t :: hs ++ opener :: fs ++ [close]) :=
      h.span rfl List.getLast?_concat
    have hhs : Within text t.start close.stop hs := hspan.sublist (by simp)
    have hfs : Within text opener.stop close.start fs := hspan.inside
    have hlt := (h.layout.stands close (by simp)).start_lt_width (by rw [hclose]; nofun)
    rw [emitNode]
    split
    next =>
      rw [literals_braced hk ho hclose]
      exact structCode_carries (generics_carries hhead hhs) (fields_carries hfields hfs hlt)
        (hfs.firm hlt)
    next => exact verbatim_carries hspan
  | _, _, _, _, @IsConstruct.trait _ _ t opener close hs bs head ns hk hhead ho hb hclose, h => by
    have hhs : Within text _ _ hs := h.sublist (by simp)
    have hbody := sequence_carries [] hb h.inside
    rw [emitNode]
    split
    next =>
      rw [literals_braced hk ho hclose]
      refine hbody.bind fun inside hinside => ?_
      have hopening : Carries (literals hs) (traitOpening head) :=
        ((generics_carries hhead hhs).append_left ("interface ".toList ++ head.name)).append_right _
      exact (hopening.append hinside).append_right ['}']
    next => exact copied_carries h rfl hbody
  | _, _, _, _, @IsConstruct.impl _ _ t word opener close hs gs bs head target ns hk hhead hword
      htarget ho hb hclose, h => by
    have hhs : Within text _ _ hs := h.sublist (by simp)
    have hgs : Within text _ _ gs :=
      ((h.sublist (List.sublist_append_left _ _)).sublist (List.sublist_append_left _ _)).sublist
        ((List.sublist_cons_self word gs).trans (List.sublist_append_right (t :: hs) _))
    have hbody := sequence_carries [] hb h.inside
    rw [emitNode]
    split
    next =>
      have hlit : literals (t :: (hs ++ word :: gs) ++ opener :: bs ++ [close]) =
          literals hs ++ literals gs ++ literals bs := by
        rw [literals_braced hk ho hclose, literals_append, literals_cons_of_kind hword rfl]
      refine hbody.bind fun inside hinside => ?_
      show Carries (literals (t :: (hs ++ word :: gs) ++ opener :: bs ++ [close])) _
      rw [hlit]
      have hopening := implOpening_carries (generics_carries hhead hhs)
        (generics_carries htarget hgs)
      exact (hopening.append hinside).append_right ['}']
    next => exact copied_carries h rfl hbody
  | _, _, _, _, @IsConstruct.pipe _ _ first last hs ss ns stages stage hf hl hh hc hst, h => by
    have hhead : Within text first.start last.stop hs :=
      (h.sublist (List.sublist_append_left hs ss)).span hf hl
    obtain ⟨sign, hsign, hpipe⟩ := Node.exists_pipe_of_chain hc (by rintro rfl; cases hst)
    have hss := Node.within_chain hf hl hc hst h
    have hvalue := sequence_carries [] hh hhead
    rw [emitNode, literals_append]
    split
    next =>
      -- the head stands before a pipe, so trimming takes nothing from its literals
      have hlt : last.stop < width text :=
        Nat.lt_of_le_of_lt (hss.start_le sign hsign)
          ((hss.layout.stands sign hsign).start_lt_width (by rw [hpipe]; nofun))
      refine hvalue.bind fun value hvalue => ?_
      have htrim := hvalue.trim (hhead.firm hlt)
      exact (chain_applied_carries hc hss htrim).bind fun code hcode => hcode
    next =>
      have hbefore : Within text first.start first.start [] :=
        .empty hhead.start_boundary hhead.start_boundary (Nat.le_refl _)
      refine (verbatim_carries hbefore).bind fun before hbefore => ?_
      refine hvalue.bind fun value hvalue => ?_
      refine (chain_copied_carries hc hss).bind fun rest hrest => ?_
      exact (hbefore.append hvalue).append hrest

theorem chain_applied_carries : ∀ {ts : List Token} {stages : List Stage} {start stop : Nat}
    {ps : List Text} {value : Text},
    IsChain text all ts stages → Within text start stop ts → Carries ps value →
    Returns (fun code => Carries (ps ++ literals ts) code) (applyStages passes text value stages)
  | _, _, _, _, ps, _, .nil, h, hvalue => by
    rw [literals_nil, List.append_nil]
    exact hvalue
  | _, _, _, _, ps, _, @IsChain.cons _ _ sign _ ts _ ss hk
      (@IsStage.bare _ _ first last us path hpath _ _ _) hc, h, hvalue => by
    have hcall := callCode_carries path hvalue (.nil []) nofun
    rw [List.append_nil] at hcall
    rw [applyStages, literals_append, literals_cons_of_kind hk rfl, literals_of_isPath hpath,
      List.nil_append]
    exact chain_applied_carries hc (h.sublist (List.sublist_append_right _ ts)) hcall
  | _, _, _, _, ps, _, @IsChain.cons _ _ sign _ ts _ ss hk
      (@IsStage.call _ _ first last opener close us bs path ns hpath _ _ _ ho hb hclose)
      hc, h, hvalue => by
    have hbs : Within text opener.stop close.start bs := h.stage.inside
    have hlt := (h.layout.stands close (by simp)).start_lt_width (by rw [hclose]; nofun)
    rw [applyStages, literals_append, literals_cons_of_kind hk rfl,
      literals_call hpath ho hclose, ← List.append_assoc]
    refine (sequence_carries [] hb hbs).bind fun written hwritten => ?_
    exact chain_applied_carries hc (h.sublist (List.sublist_append_right _ ts))
      (callCode_carries path hvalue hwritten (hbs.firm hlt))
  | _, _, _, _, ps, _, @IsChain.cons _ _ sign _ ts _ ss hk
      (@IsStage.group _ _ opener close bs ns ho hb hclose) hc, h, hvalue => by
    rw [applyStages, literals_append, literals_cons_of_kind hk rfl,
      literals_group ho hclose, ← List.append_assoc]
    refine (sequence_carries [] hb h.stage.group).bind fun written hwritten => ?_
    exact chain_applied_carries hc (h.sublist (List.sublist_append_right _ ts))
      (callCode_carries_group hwritten hvalue)

theorem chain_copied_carries : ∀ {ts : List Token} {stages : List Stage} {start stop : Nat},
    IsChain text all ts stages → Within text start stop ts →
    Returns (fun out => Carries (literals ts) out.code) (copyStages passes text start stop stages)
  | _, _, _, _, .nil, h => verbatim_carries h
  | _, _, _, _, @IsChain.cons _ _ sign _ ts _ ss hk
      (@IsStage.bare _ _ first last us path hpath _ _ _) hc, h => by
    rw [copyStages, literals_append, literals_cons_of_kind hk rfl, literals_of_isPath hpath,
      List.nil_append]
    exact chain_copied_carries hc (h.sublist (List.sublist_append_right _ ts))
  | _, _, start, _, @IsChain.cons _ _ sign _ ts _ ss hk
      (@IsStage.call _ _ first last opener close us bs path ns hpath _ _ _ ho hb hclose) hc, h => by
    have hbs : Within text opener.stop close.start bs := h.stage.inside
    have hafter : Within text close.start _ ts :=
      h.after_stage.widen hbs.stop_boundary (Nat.le_add_right _ _)
    have hbefore : Within text start opener.stop [] :=
      .empty h.start_boundary hbs.start_boundary
        (Nat.le_trans (h.stage.start_le opener (by simp)) (Nat.le_add_right _ _))
    rw [copyStages, literals_append, literals_cons_of_kind hk rfl, literals_call hpath ho hclose]
    refine (verbatim_carries hbefore).bind fun before hbefore => ?_
    refine (sequence_carries [] hb hbs).bind fun inside hinside => ?_
    refine (chain_copied_carries hc hafter).bind fun after hafter => ?_
    exact (hbefore.append hinside).append hafter
  | _, _, start, _, @IsChain.cons _ _ sign _ ts _ ss hk
      (@IsStage.group _ _ opener close bs ns ho hb hclose) hc, h => by
    have hbs : Within text opener.start close.stop bs := h.stage.group
    have hbefore : Within text start opener.start [] :=
      .empty h.start_boundary hbs.start_boundary (h.stage.start_le opener List.mem_cons_self)
    rw [copyStages, literals_append, literals_cons_of_kind hk rfl, literals_group ho hclose]
    refine (verbatim_carries hbefore).bind fun before hbefore => ?_
    refine (sequence_carries [] hb hbs).bind fun inside hinside => ?_
    refine (chain_copied_carries hc h.after_stage).bind fun after hafter => ?_
    exact (hbefore.append hinside).append hafter

end

end Derivations

/-- The code written for a text that is read carries its literals. -/
theorem carries_of_parse (passes : Passes) {file text : Text} {markup : Bool} {block : Block}
    {warnings : List Warning} (h : Node.parse file text markup = .ok (block, warnings)) :
    ∃ out, emit passes text block = .ok out ∧
      Carries (literals (scan markup text).tokens) out.code := by
  have hends := Node.Parse.parse_ends file text markup
  rw [h] at hends
  obtain ⟨us, rest, ns, htokens, heof, hseq, hblock⟩ := hends
  have hall : Layout text (us ++ rest) := htokens ▸ layout_scan markup text
  obtain rfl : block = _ := hblock
  obtain ⟨out, hout, hcarries⟩ := (sequence_carries [] hseq (.whole hall.append_left)).exists_ok
  refine ⟨out, hout, ?_⟩
  rw [htokens, literals_append, literals_of_eof hall.append_right heof, List.append_nil]
  exact hcarries

/-- Whatever passes are enabled, each literal of the text has a range of its own in the
code, with just the characters of the literal, and no two ranges overlap. -/
theorem literals_survive (passes : Passes) {file text : Text} {markup : Bool} {block : Block}
    {warnings : List Warning} (h : Node.parse file text markup = .ok (block, warnings)) :
    ∃ out, emit passes text block = .ok out ∧
      ∃ spans : List Span,
        List.Forall₂ (fun t s => slice? out.code s.start s.stop = some t.text)
          ((scan markup text).tokens.filter isLiteral) spans ∧
        spans.Nodup ∧ spans.Pairwise fun s t => s.stop ≤ t.start ∨ t.stop ≤ s.start := by
  obtain ⟨out, hout, hcarries⟩ := carries_of_parse passes h
  have hne (p : Text) (hp : p ∈ literals (scan markup text).tokens) : p ≠ [] :=
    ne_nil_of_mem_literals (layout_scan markup text) hp
  obtain ⟨spans, hspans, hnodup, hpair⟩ := hcarries.exists_spans hne
  exact ⟨out, hout, spans, List.forall₂_map_left_iff.mp hspans, hnodup, hpair⟩

/-- A field with a semicolon in a string, and a stage that moves before its value. -/
theorem literals_survive_reordered :
    let text := "struct S \x7b a: 'x;' \x7d\nlet y = `t` |> (h(`u`)) |> g( 'z' )".toList
    ∃ block warnings out, ∃ spans : List Span,
      Node.parse "a.bs".toList text false = .ok (block, warnings) ∧
      literals (scan false text).tokens =
        ["'x;'".toList, "`t`".toList, "`u`".toList, "'z'".toList] ∧
      emit .standard text block = .ok out ∧
      out.code = "type S = \x7b\n  a: 'x;';\n\x7d;\nconst y = g((h(`u`))(`t`), 'z' )".toList ∧
      List.Forall₂ (fun t s => slice? out.code s.start s.stop = some t.text)
        ((scan false text).tokens.filter isLiteral) spans ∧
      spans.Nodup ∧ spans.Pairwise fun s t => s.stop ≤ t.start ∨ t.stop ≤ s.start := by
  intro text
  obtain ⟨⟨block, warnings⟩, hparse, hwritten⟩ :=
    exists_ok_of_map (x := Node.parse "a.bs".toList text false)
      (f := fun read => (emit .standard text read.1).toOption.map Output.code)
      (b := some "type S = \x7b\n  a: 'x;';\n\x7d;\nconst y = g((h(`u`))(`t`), 'z' )".toList)
      (by decide +kernel)
  obtain ⟨out, hout, spans, hspans, hnodup, hpair⟩ := literals_survive .standard hparse
  have hcode : (emit .standard text block).toOption.map Output.code = some out.code := by
    rw [hout]
    rfl
  refine ⟨block, warnings, out, spans, hparse, by decide +kernel, hout, ?_, hspans, hnodup, hpair⟩
  exact Option.some.inj (hcode.symm.trans hwritten)

end Output

end Desugar
