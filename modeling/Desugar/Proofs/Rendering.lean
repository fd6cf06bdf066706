import Desugar.Proofs.Chains
import Desugar.Proofs.Coverage
import Desugar.Proofs.Declarations

/-! Texts as rows of fragments. What stands between constructs is copied, and a construct is written
in fragments of its own. The tokens before a construct are read again before the code that is
written for it, and those behind it after the last sign of that code. -/
namespace Desugar

open Unicode Text

theorem Node.mem_subnodesOf_cover {n : Node} {ns : List Node} (h : n ∈ subnodesOf ns)
    (stop start : Nat) : n ∈ subnodesOf (cover stop start ns) := by
  induction ns generalizing start with
  | nil => cases h
  | cons m ns ih =>
    rw [subnodesOf, List.mem_append] at h
    rw [cover, subnodesOf_append, subnodesOf, List.mem_append, List.mem_append]
    exact .inr (h.imp_right (ih · _))

namespace Token.Changes

variable {markup : Bool} {front piece back : Text} {us : List Token}

/-- One letter stands for the other. -/
theorem letters {a b : Char} (h : Stretch markup front piece (a :: back) us false)
    (ha : a.isAlpha = true) (hb : b.isAlpha = true) (ws : Text) :
    Changes front piece (a :: back) us false (b :: ws) := by
  refine ⟨fun hnil => absurd hnil (List.cons_ne_nil a back), fun _ => ?_, fun hbang => ?_,
    fun t ht c vs htext => ?_, nofun⟩
  · simp [(class_of_isAlpha ha).2.2.1, (class_of_isAlpha hb).2.2.1]
  · obtain rfl := Option.some.inj hbang
    cases hb
  · exact (h.clear ht htext).letters ha hb ws

/-- Before a sign that no token goes on with. -/
theorem of_plain {d : Char} (hd : d ∈ Output.Fragment.plainSigns) (hgreater : d ≠ '>')
    (hnil : back = [] → ∃ t, Touches (front ++ piece) us t ∧ t.kind ≠ .template ∧ t.kind ≠ .markup)
    (hdigit : piece.getLast? = some '.' → back.head?.any Char.isDigit = false) (ws : Text) :
    Changes front piece back us false (d :: ws) := by
  obtain ⟨-, hword, -, hd, -, hsign⟩ := Output.Fragment.class_of_plain hd
  refine ⟨fun hback => .inr (hnil hback), fun hdot => ?_, fun hbang => ?_, fun t _ c vs _ => ?_,
    nofun⟩
  · rw [hdigit hdot]
    simpa using hd
  · obtain rfl := Option.some.inj hbang
    exact absurd hsign (by simp)
  · exact .of_sign hword (fun hmem => hsign (by simp_all)) (.inl hgreater) ws

end Token.Changes

namespace Output.Fragment

open Token

/-! ### Writing -/

/-- The node is written as the fragments. -/
def WritesNode (text : Text) (n : Node) (ps : List Fragment) : Prop :=
  ofNode text n = .ok ps ∧ ∃ out, emitNode .standard text n = .ok out ∧ out.code = written ps

/-- The nodes are written as the fragments. -/
def Writes (text : Text) (ns : List Node) (ps : List Fragment) : Prop :=
  ofNodes text ns = .ok ps ∧ ∃ out, emitNodes .standard text ns = .ok out ∧ out.code = written ps

/-- A text that is copied, if there is any. -/
def lead (pre : Text) : List Fragment := if pre.isEmpty then [] else [.copied pre]

@[simp] theorem lead_nil : lead [] = [] := rfl

@[simp] theorem written_lead (pre : Text) : written (lead pre) = pre := by
  cases pre with
  | nil => rfl
  | cons c pre => exact List.append_nil _

namespace Writes

variable {text front pre : Text} {n : Node} {ns : List Node} {ps qs : List Fragment}

theorem nil : Writes text [] [] := ⟨rfl, empty, rfl, rfl⟩

theorem cons (hn : WritesNode text n ps) (h : Writes text ns qs) :
    Writes text (n :: ns) (ps ++ qs) := by
  obtain ⟨hparts, out, hout, hcode⟩ := hn
  obtain ⟨hparts', out', hout', hcode'⟩ := h
  refine ⟨?_, out ++ out', ?_, ?_⟩
  · rw [ofNodes, hparts, hparts']
    rfl
  · rw [emitNodes, hout, hout']
    rfl
  · rw [code_append, hcode, hcode', written_append]

theorem gap (hslice : slice? text (width front) (width (front ++ pre)) = some pre)
    (h : Writes text ns ps) :
    Writes text (Node.gap (width front) (width (front ++ pre)) ++ ns) (lead pre ++ ps) := by
  cases pre with
  | nil => rwa [List.append_nil, Node.gap, if_neg (Nat.lt_irrefl _)]
  | cons c pre =>
    have hlt : width front < width (front ++ c :: pre) := by
      have hpos := width_pos (List.cons_ne_nil c pre)
      rw [width_append]
      omega
    have hverbatim : verbatim text (width front) (width (front ++ c :: pre)) =
        .ok (.copied (width front) (c :: pre)) := by
      rw [verbatim, if_pos hlt, Text.slice, hslice]
      rfl
    rw [Node.gap, if_pos hlt]
    refine @cons _ _ _ [.copied (c :: pre)] _ ⟨?_, _, hverbatim, ?_⟩ h
    · rw [ofNode, hverbatim]
      rfl
    · exact (written_lead (c :: pre)).symm

theorem unique (h : Writes text ns ps) (h' : Writes text ns qs) : ps = qs :=
  Except.ok.inj (h.1.symm.trans h'.1)

end Writes

/-! ### What is copied before a construct -/

/-- A stretch that is copied before `ws`, to a place of the stance. -/
structure Lead (markup : Bool) (σ : Stance) (front pre back : Text) (us : List Token) (line : Bool)
    (ws : Text) : Prop where
  stretch : Stretch markup front pre back us line
  fits : Fitting markup σ us
  changes : pre ≠ [] → Changes front pre back us line ws

/-- The fragments start with a text that does not begin with a blank. -/
def Tight (ps : List Fragment) : Prop := ∀ p ∈ ps.head?, StartsFirm p.text

theorem trimStart_lead {tail : List Fragment} (htail : Tight tail) (pre : Text) :
    trimStart (lead pre ++ tail) = lead (Text.trimStart pre) ++ tail := by
  cases pre with
  | nil =>
    change trimStart tail = tail
    unfold trimStart
    split
    next text ps =>
      have hfirm : StartsFirm text := htail _ rfl
      have hne : text.isEmpty = false := by
        obtain ⟨c, hc, -⟩ := hfirm
        obtain ⟨cs, rfl⟩ := List.head?_eq_some_iff.mp hc
        rfl
      rw [hfirm.trimStart_eq, if_neg (by rw [hne]; decide)]
    next => rfl
  | cons c pre =>
    change (if _ then _ else _) = _
    unfold lead
    split <;> rfl

theorem written_trimStart_lead {tail : List Fragment} (htail : Tight tail) (pre : Text) :
    written (trimStart (lead pre ++ tail)) = Text.trimStart (written (lead pre ++ tail)) := by
  rw [trimStart_lead htail, written_append, written_append, written_lead, written_lead]
  cases tail with
  | nil => simp
  | cons p tail =>
    have hfirm : StartsFirm p.text := htail p rfl
    rw [written_cons, trimStart_append (hfirm.append _)]

namespace Lead

variable {markup first : Bool} {σ υ : Stance} {front pre back ws : Text} {us : List Token}
  {line : Bool} {tail : List Fragment}

theorem row (h : Lead markup σ front pre back us line (written tail ++ ws))
    (hfirst : first = front.isEmpty ∨ pre.head? ≠ some '#')
    (htail : ∀ first, Row markup first (σ.after us) tail ws υ) :
    Row markup first σ (lead pre ++ tail) ws υ := by
  cases pre with
  | nil =>
    rw [h.stretch.tokens_eq_nil] at htail
    exact htail first
  | cons c pre =>
    have hchanges := h.changes (List.cons_ne_nil c pre)
    exact .of_seen (seen_copied h.stretch h.fits hchanges hfirst) rfl rfl (htail false)

theorem after_blanks (h : Lead markup σ front pre back us line ws) :
    Lead markup σ (front ++ pre.takeWhile isBlank) (Text.trimStart pre) back us line ws := by
  have hsplit : pre.takeWhile isBlank ++ Text.trimStart pre = pre := List.takeWhile_append_dropWhile
  have hblanks : ∀ c ∈ pre.takeWhile isBlank, isBlank c = true :=
    List.all_eq_true.mp List.all_takeWhile
  generalize pre.takeWhile isBlank = blanks at hsplit hblanks ⊢
  obtain ⟨hstretch, hfits, hchanges⟩ := h
  rw [← hsplit] at hstretch hchanges
  refine ⟨hstretch.after_blanks hblanks, hfits, fun hne => ?_⟩
  obtain ⟨hnil, hdigit, hbang, hclear, hline⟩ := hchanges (by simp [hne])
  rw [← List.append_assoc] at hnil hclear
  exact ⟨hnil, fun hdot => hdigit (by rw [List.getLast?_append, hdot]; rfl), hbang, hclear, hline⟩

theorem row_trimStart (h : Lead markup σ front pre back us line (written tail ++ ws))
    (hfront : front ≠ []) (htight : Tight tail)
    (htail : ∀ first, Row markup first (σ.after us) tail ws υ) :
    Row markup false σ (trimStart (lead pre ++ tail)) ws υ := by
  rw [trimStart_lead htight]
  refine h.after_blanks.row (.inl ?_) htail
  rw [List.isEmpty_eq_false_iff.mpr (by simp [hfront])]

end Lead

/-! ### Constructs -/

/-- The stance behind the code that is written for a construct. -/
def leaves : Node → Stance
  | .binding _ => (Token.ofWord "const".toList).stance
  | .struct _ _ _ => (Token.ofSign ';').stance
  | .pipe _ _ _ _ => (Token.ofSign ')').stance
  | _ => (Token.ofSign '}').stance

/-- Neighbours in the text are read as before where the node ends one, starts one or puts another
sign between them: the token behind a struct follows a `;`, the first one in the body of an
implementation a `}`, and the one behind a chain a `)`; a token right before a chain does not go on
with a name. -/
def Turns (markup : Bool) (n : Node) (u t : Token) : Prop :=
  match n with
  | .struct span _ _ => u.stop = span.stop → Fits markup (Token.ofSign ';').stance t
  | .impl _ _ _ inner _ => u.stop = inner.start → Fits markup (Token.ofSign '}').stance t
  | .pipe span _ _ _ =>
    (u.stop = span.stop → Fits markup (Token.ofSign ')').stance t) ∧
      (u.stop = span.start → u.kind.isWord = false ∧ u.kind ≠ .number ∧ u.kind ≠ .regex ∧
        u.text.getLast? ≠ some '.')
  | _ => True

/-- A word stands right before the place. -/
def BehindWord (outer : List Token) (front : Text) : Prop :=
  ∃ u ∈ outer.getLast?, u.kind.isWord = true ∧ u.stop = width front

/-- The fragments of the construct `n` that the tokens `cs` are read as. Behind a last token that is
a word there is no other one. -/
structure Built (markup : Bool) (text front inside back : Text) (outer cs after : List Token)
    (n : Node) (ps : List Fragment) : Prop where
  writes : WritesNode text n ps
  starts : ∃ p qs, ps = p :: qs ∧ StartsFirm p.text
  ends : EndsFirm (written ps)
  row : ∀ first σ ws,
    ((∃ l ∈ cs.getLast?, l.kind.isWord = true) → ws.head?.any isWordRest = false) →
      Row markup first σ ps ws (leaves n)
  fits : ∀ t ∈ after.head?, Fits markup (leaves n) t
  opens : ∀ {before pre : Text} {us : List Token}, front = before ++ pre →
    us = [] ∨ us.getLast? = outer.getLast? →
      Stretch markup before pre (inside ++ back) us false →
        ∀ ws, Changes before pre (inside ++ back) us false (written ps ++ ws)
  word : BehindWord outer front → (inside ++ back).head?.any isWordRest = true

/-- Wherever the tokens stand in the text, they are a construct with fragments of its own. -/
def Made (markup : Bool) (text : Text) (all cs : List Token) (n : Node) : Prop :=
  ∀ ⦃front inside back : Text⦄ ⦃outer after : List Token⦄,
    Site markup text all front inside back outer cs after false →
    (∃ t ∈ cs.head?, t.start = width front) →
    (∃ t ∈ cs.getLast?, t.stop = width (front ++ inside)) →
    (∀ m ∈ n.subnodes, all.IsChain (Turns markup m)) →
      ∃ ps, Built markup text front inside back outer cs after n ps

/-! ### Constructs between tokens -/

/-- The tokens `us` of a piece of the text that is to be written before `ws`, at a place of the
stance `σ`. -/
structure Setting (markup : Bool) (text : Text) (all : List Token) (front piece back : Text)
    (outer us after : List Token) (line first : Bool) (σ : Stance) (ws : Text) : Prop
    extends Site markup text all front piece back outer us after line where
  fits : ∀ t ∈ us.head?, Fits markup σ t
  changes : piece ≠ [] → Changes front piece back us line ws
  word : ws.head?.any isWordRest = false
  place : first = front.isEmpty ∨ piece.head? ≠ some '#'

/-- The fragments of a piece with the constructs `ns`, behind the tokens `outer` and with the tokens
`passed` at its start. Behind a word the fragments do not begin another one unless the piece
does. -/
structure Rendered (markup : Bool) (text front piece back : Text) (outer passed : List Token)
    (first : Bool) (σ : Stance) (ws : Text) (ns : List Node) (ps : List Fragment) : Prop where
  writes : Writes text (Node.cover (width (front ++ piece)) (width front) ns) ps
  row : ∃ τ, Row markup first σ ps ws τ
  trimmed : front ≠ [] → ∃ τ, Row markup false σ (trimStart ps) ws τ
  trim_eq : written (trimStart ps) = Text.trimStart (written ps)
  nil : piece = [] → ps = []
  starts : StartsFirm piece → ∃ p qs, ps = p :: qs ∧ StartsFirm p.text
  ends : EndsFirm piece → EndsFirm (written ps)
  head : passed ≠ [] → (written ps).head? = piece.head?
  word : BehindWord outer front → (piece ++ back).head?.any isWordRest = false →
    (written ps ++ ws).head?.any isWordRest = false

/-- Behind any tokens that are copied, the tokens `rest` with the constructs `ns` in them have
fragments. -/
def Recast (markup : Bool) (text : Text) (all rest : List Token) (ns : List Node) : Prop :=
  ∀ ⦃front piece back ws : Text⦄ ⦃outer passed after : List Token⦄ ⦃line first : Bool⦄ ⦃σ : Stance⦄,
    Setting markup text all front piece back outer (passed ++ rest) after line first σ ws →
    (∀ n ∈ Node.subnodesOf ns, all.IsChain (Turns markup n)) →
      ∃ ps, Rendered markup text front piece back outer passed first σ ws ns ps

namespace Recast

variable {markup : Bool} {text : Text} {all rest : List Token} {ms : List Node}

theorem nil (heven : Even markup all) : Recast markup text all [] [] := by
  intro front piece back ws outer passed after line first σ h _
  rw [List.append_nil] at h
  have hlead : Lead markup σ front piece back passed line (written [] ++ ws) :=
    ⟨h.stretch, ⟨h.fits, h.chain heven.fits⟩, h.changes⟩
  have htight : Tight [] := nofun
  have hwrites := Writes.gap h.slice Writes.nil
  rw [List.append_nil] at hwrites
  refine ⟨lead piece ++ [], hwrites, ⟨_, hlead.row h.place fun _ => .nil⟩,
    fun hfront => ⟨_, hlead.row_trimStart hfront htight fun _ => .nil⟩,
    written_trimStart_lead htight piece, ?_, ?_, ?_, ?_, ?_⟩
  · rintro rfl
    rfl
  · intro hfirm
    cases piece with
    | nil => exact absurd hfirm nofun
    | cons c piece => exact ⟨_, _, rfl, hfirm⟩
  · simp
  · simp
  · rintro - hword
    cases piece with
    | nil => exact h.word
    | cons c piece => simpa using hword

theorem token (h : Recast markup text all rest ms) (t : Token) :
    Recast markup text all (t :: rest) ms := by
  intro front piece back ws outer passed after line first σ hsetting hturns
  rw [List.append_cons] at hsetting
  obtain ⟨ps, hps⟩ := h hsetting hturns
  exact ⟨ps, { hps with head := fun _ => hps.head (by simp) }⟩

theorem construct (heven : Even markup all) {cs : List Token} {n : Node} {f l : Token}
    (hmade : Made markup text all cs n) (hf : cs.head? = some f) (hl : cs.getLast? = some l)
    (hspan : n.span = ⟨f.start, l.stop⟩) (h : Recast markup text all rest ms) :
    Recast markup text all (cs ++ rest) (n :: ms) := by
  intro front piece back ws outer passed after line first σ hsetting hturns
  rw [Node.subnodesOf, List.forall_mem_append] at hturns
  obtain ⟨before, inside, post, rfl, hstart, hstop, ⟨tail, hinside⟩, -, hbefore, hin, hpost⟩ :=
    hsetting.toSite.take hf hl
  have hne : inside ≠ [] := by
    obtain ⟨_, ⟨_, _, _, _, htext, -⟩, -⟩ := hin.stretch.read_of_mem (List.mem_of_head? hf)
    rw [hinside, htext]
    exact List.cons_ne_nil _ _
  obtain ⟨ps, hps⟩ := hmade hin ⟨f, hf, hstart⟩ ⟨l, hl, hstop⟩ hturns.1
  obtain ⟨p, ps', hp, hpfirm⟩ := hps.starts
  have hlast : (outer ++ (passed ++ cs)).getLast? = some l := by
    rw [List.getLast?_append, List.getLast?_append, hl]
    rfl
  -- what follows is written at the place behind the construct
  have hrest : Setting markup text all (front ++ before ++ inside) post back
      (outer ++ (passed ++ cs)) ([] ++ rest) after line false (leaves n) ws := by
    refine ⟨hpost, fun t ht => hps.fits t ?_, fun hne' => ?_, hsetting.word, .inl ?_⟩
    · rw [List.head?_append, show rest.head? = some t from ht]
      rfl
    · have hchanges := hsetting.changes (by simp [hne])
      rw [← List.append_assoc before, ← List.append_assoc passed] at hchanges
      rw [List.append_assoc front]
      refine hchanges.drop hne' fun t ht => ?_
      rw [List.getLast?_append, hl] at ht
      obtain rfl : l = t := Option.some.inj ht
      rw [hstop, List.append_assoc]
    · rw [List.isEmpty_eq_false_iff.mpr (by simp [hne])]
  obtain ⟨qs, hqs⟩ := h hrest hturns.2
  obtain ⟨υ, hrow⟩ := hqs.row
  have hword : (∃ l ∈ cs.getLast?, l.kind.isWord = true) →
      (written qs ++ ws).head?.any isWordRest = false := by
    rintro ⟨t, ht, hk⟩
    obtain rfl : l = t := Option.some.inj (hl.symm.trans ht)
    exact hqs.word ⟨l, hlast, hk, hstop⟩ (hin.stretch.head_of_word ⟨hl, hstop⟩ hk)
  have hempty : (written ps).isEmpty = false := by
    obtain ⟨c, hc, -⟩ := hps.ends
    exact List.isEmpty_eq_false_iff.mpr (by rintro hnil; rw [hnil] at hc; cases hc)
  have htail (first : Bool) : Row markup first (σ.after passed) (ps ++ qs) ws υ := by
    refine (hps.row first _ _ hword).append ?_
    rwa [hempty, Bool.and_false]
  have htight : Tight (ps ++ qs) := by
    rw [hp]
    rintro q ⟨⟩
    exact hpfirm
  have hlead : Lead markup σ front before (inside ++ (post ++ back)) passed false
      (written (ps ++ qs) ++ ws) := by
    refine ⟨hbefore.stretch, ⟨fun t ht => hsetting.fits t ?_, hbefore.chain heven.fits⟩,
      fun _ => ?_⟩
    · rw [List.head?_append, Option.mem_def.mp ht]
      rfl
    · rw [written_append, List.append_assoc]
      refine hps.opens rfl ?_ hbefore.stretch _
      by_cases hpassed : passed = []
      · exact .inl hpassed
      · exact .inr (List.getLast?_append_of_ne_nil _ hpassed).symm
  have hplace : first = front.isEmpty ∨ before.head? ≠ some '#' := by
    refine hsetting.place.imp_right fun hhead hbefore => hhead ?_
    rw [List.head?_append, hbefore]
    rfl
  have hwrites : Writes text
      (Node.cover (width (front ++ (before ++ (inside ++ post)))) (width front) (n :: ms))
      (lead before ++ (ps ++ qs)) := by
    rw [Node.cover, hspan, hstart, hstop, ← List.append_assoc front,
      ← List.append_assoc (front ++ before)]
    exact .gap hbefore.slice (.cons hps.writes hqs.writes)
  refine ⟨lead before ++ (ps ++ qs), hwrites, ⟨υ, hlead.row hplace htail⟩,
    fun hfront => ⟨υ, hlead.row_trimStart hfront htight htail⟩,
    written_trimStart_lead htight before, fun hnil => absurd hnil (by simp [hne]),
    fun hfirm => ?_, fun hfirm => ?_, fun hpassed => ?_, fun hbehind hhead => ?_⟩
  · cases before with
    | nil => exact ⟨p, ps' ++ qs, by rw [hp]; rfl, hpfirm⟩
    | cons c before => exact ⟨_, _, rfl, hfirm⟩
  · rw [written_append, written_lead, written_append]
    by_cases hpost' : post = []
    · rw [hqs.nil hpost', written_nil, List.append_nil]
      exact hps.ends.append _
    · have hfirm' := (hfirm.of_append (by simp [hne])).of_append hpost'
      exact ((hqs.ends hfirm').append _).append _
  · cases before with
    | nil => exact absurd hbefore.stretch.tokens_eq_nil hpassed
    | cons c before =>
      rw [written_append, written_lead]
      rfl
  · cases before with
    | nil =>
      rw [hbefore.stretch.tokens_eq_nil, List.append_nil, List.append_nil] at hps
      rw [List.nil_append, List.append_assoc, hps.word hbehind] at hhead
      cases hhead
    | cons c before =>
      rw [written_append, written_lead]
      exact hhead

/-- The fragments do not hang on the place that they are written at. -/
theorem uniform {front piece back ws : Text} {outer passed after : List Token} {line first : Bool}
    {σ : Stance} (h : Recast markup text all rest ms)
    (hturns : ∀ n ∈ Node.subnodesOf ms, all.IsChain (Turns markup n))
    (hsetting :
      Setting markup text all front piece back outer (passed ++ rest) after line first σ ws) :
    ∃ ps, ∀ {first σ ws},
      Setting markup text all front piece back outer (passed ++ rest) after line first σ ws →
        Rendered markup text front piece back outer passed first σ ws ms ps := by
  obtain ⟨ps, hps⟩ := h hsetting hturns
  refine ⟨ps, fun {first σ ws} hsetting' => ?_⟩
  obtain ⟨qs, hqs⟩ := h hsetting' hturns
  obtain rfl := hps.writes.unique hqs.writes
  exact hqs

/-- Between brackets that are written as they stand. -/
theorem enclosed {d : Char} (hd : d ∈ plainSigns) (hgreater : d ≠ '>') {front piece back : Text}
    {outer us after : List Token} {σ : Stance} {ns : List Node} (h : Recast markup text all us ns)
    (hturns : ∀ n ∈ Node.subnodesOf ns, all.IsChain (Turns markup n))
    (hsite : Site markup text all front piece (d :: back) outer us after false)
    (hfront : front ≠ []) (hfits : ∀ t ∈ us.head?, Fits markup σ t) :
    ∃ ps, ∀ ws, Rendered markup text front piece (d :: back) outer [] false σ (d :: ws) ns ps := by
  obtain ⟨-, hword, -, hdigit, -⟩ := class_of_plain hd
  have hsetting (ws : Text) :
      Setting markup text all front piece (d :: back) outer us after false false σ (d :: ws) := by
    refine ⟨hsite, hfits, fun _ => .of_plain hd hgreater (fun hnil => ?_) (fun _ => ?_) ws, ?_,
      .inl ?_⟩
    · exact absurd hnil (List.cons_ne_nil d back)
    · simpa using hdigit
    · simpa using hword
    · rw [List.isEmpty_eq_false_iff.mpr hfront]
  obtain ⟨ps, hps⟩ := @uniform _ _ _ _ _ _ _ _ _ _ [] _ _ _ _ h hturns (hsetting [])
  exact ⟨ps, fun ws => hps (hsetting ws)⟩

end Recast

/-! ### Declarations -/

theorem Built.of_keyword {markup : Bool} {text front inside back : Text}
    {all outer ts after : List Token} {t : Token} {k : Keyword} {n : Node} {ps : List Fragment}
    {w : Text}
    (h : Site markup text all front inside back outer (t :: ts) after false)
    (hstart : t.start = width front) (hk : t.kind = .keyword k) (hps : ps.head? = some (.word w))
    (hw : w.head?.any Char.isAlpha = true) (hwrites : WritesNode text n ps)
    (hends : EndsFirm (written ps))
    (hrow : ∀ first σ ws,
      ((∃ l ∈ (t :: ts).getLast?, l.kind.isWord = true) → ws.head?.any isWordRest = false) →
        Row markup first σ ps ws (leaves n))
    (hfits : ∀ t ∈ after.head?, Fits markup (leaves n) t) :
    Built markup text front inside back outer (t :: ts) after n ps := by
  obtain ⟨rest, hinside⟩ := h.starts hstart
  obtain ⟨_, hread, -⟩ := h.stretch.read_of_mem List.mem_cons_self
  obtain ⟨a, s, htext, ha⟩ : ∃ a s, t.text = a :: s ∧ a.isAlpha = true := by
    rw [hread.text_of_keyword hk]
    cases k <;> exact ⟨_, _, rfl, by decide⟩
  obtain ⟨qs, rfl⟩ := List.head?_eq_some_iff.mp hps
  cases w with
  | nil => cases hw
  | cons b w =>
    have hb : b.isAlpha = true := by simpa using hw
    have hblank : isBlank b = false :=
      isBlank_eq_false_of_alphanumeric (by simp [isAsciiAlphanumeric, hb])
    have hsource : inside ++ back = a :: (s ++ (rest ++ back)) := by
      rw [hinside, htext, List.append_assoc]
      rfl
    refine ⟨hwrites, ⟨_, _, rfl, .cons hblank w⟩, hends, hrow, hfits, fun _ _ hpre ws => ?_,
      fun _ => ?_⟩
    · rw [hsource] at hpre ⊢
      exact .letters hpre ha hb _
    · rw [hsource]
      simpa using (class_of_isAlpha ha).1

section Declared

variable {markup : Bool} {text : Text} {all : List Token} (heven : Even markup all)

include heven

theorem made_binding {t : Token} (hk : t.kind = .keyword .letWord) :
    Made markup text all [t] (.binding t.span) := by
  rintro front inside back outer after h ⟨_, ⟨⟩, hstart⟩ - -
  refine ⟨[.word "const".toList], .of_keyword h hstart hk rfl (by decide) ?_ ?_ ?_ ?_⟩
  · refine ⟨rfl, mark t.start ++ raw "const".toList, ?_, rfl⟩
    rw [emitNode, Passes.enabled_standard]
    rfl
  · exact ⟨'t', by decide, by decide⟩
  · intro first σ ws hws
    exact .word (isWord_of_all (by decide +kernel)) (hws ⟨t, rfl, by rw [hk]; rfl⟩) .nil
  · intro u hu
    have hfits := h.next heven.fits rfl hu
    have hstance : t.stance = leaves (.binding t.span) := by
      obtain ⟨k, s, p⟩ := t
      obtain rfl : k = _ := hk
      rfl
    rwa [← hstance]

theorem made_struct {t opener close : Token} {hs fs : List Token} {head : Head} {fields : List Text}
    (hk : t.kind = .keyword .structWord) (hh : Grammar.IsHead text hs head)
    (ho : opener.kind = .opening .brace)
    (hf : Grammar.IsFields text opener.stop close.start fs fields)
    (hc : close.kind = .closing .brace) :
    Made markup text all (t :: hs ++ opener :: fs ++ [close])
      (.struct ⟨t.start, close.stop⟩ head fields) := by
  rintro front inside back outer after h ⟨_, ⟨⟩, hstart⟩ - hturns
  obtain ⟨before, inner, rest, hostop, hcstart, hhead, hbody, hfits, -⟩ :=
    @Site.brackets _ _ _ _ _ _ _ _ _ _ _ heven _ _ '{' '}' h ho hc rfl rfl
  obtain ⟨_, _, -, -, -, -, hsite⟩ := @Site.split _ _ _ _ _ _ _ [] _ _ _ _ hhead
  have hdeclares := declares_of_head heven hh hsite
  refine ⟨struct head fields, .of_keyword h hstart hk rfl (by decide) ?_ ?_ ?_ ?_⟩
  · refine ⟨rfl, mark t.start ++ raw (structCode head fields), ?_,
      (written_struct head fields).symm⟩
    rw [emitNode, Passes.enabled_standard]
    rfl
  · rw [struct, written_append]
    exact EndsFirm.append ⟨';', rfl, by decide⟩ _
  · intro first σ ws _
    -- a field may stand behind a brace as it may behind a semicolon
    exact row_struct hdeclares
      (row_fields heven hf hbody (by simp) hostop hcstart hfits (by decide))
  · intro u hu
    exact h.next (hturns _ List.mem_cons_self) List.getLast?_concat hu rfl

theorem made_trait {t opener close : Token} {hs bs : List Token} {head : Head} {ns : List Node}
    (hk : t.kind = .keyword .traitWord) (hh : Grammar.IsHead text hs head)
    (ho : opener.kind = .opening .brace) (hb : Recast markup text all bs ns)
    (hc : close.kind = .closing .brace) :
    Made markup text all (t :: hs ++ opener :: bs ++ [close])
      (.trait ⟨t.start, close.stop⟩ head ⟨opener.stop, close.start⟩
        (Node.cover close.start opener.stop ns)) := by
  rintro front inside back outer after h ⟨_, ⟨⟩, hstart⟩ - hturns
  obtain ⟨before, inner, rest, hostop, hcstart, hhead, hbody, hfits, hnext⟩ :=
    @Site.brackets _ _ _ _ _ _ _ _ _ _ _ heven _ _ '{' '}' h ho hc rfl rfl
  obtain ⟨_, _, -, -, -, -, hsite⟩ := @Site.split _ _ _ _ _ _ _ [] _ _ _ _ hhead
  have hdeclares := declares_of_head heven hh hsite
  rw [hostop, hcstart] at hturns ⊢
  obtain ⟨body, hps⟩ := hb.enclosed (d := '}') (by decide) (by decide)
    (fun n hn => hturns n (List.mem_cons_of_mem _ (Node.mem_subnodesOf_cover hn _ _))) hbody
    (by simp) hfits.1
  obtain ⟨hparts, out, hout, hcode⟩ := (hps []).writes
  refine ⟨trait head body, .of_keyword h hstart hk rfl (by decide) ?_ ?_ ?_ hnext⟩
  · refine ⟨?_, mark t.start ++ raw (traitOpening head) ++ out ++ raw ['}'], ?_, ?_⟩
    · rw [ofNode, hparts]
      rfl
    · rw [emitNode, Passes.enabled_standard, hout]
      rfl
    · rw [written_trait, ← hcode]
      rfl
  · rw [written_trait]
    exact EndsFirm.append ⟨'}', rfl, by decide⟩ _
  · intro first σ ws _
    obtain ⟨τ, hrow⟩ := (hps ws).row
    exact row_trait hdeclares hrow

theorem made_impl {t word opener close : Token} {hs gs bs : List Token} {head target : Head}
    {ns : List Node} (hk : t.kind = .keyword .implWord) (hh : Grammar.IsHead text hs head)
    (hg : Grammar.IsHead text gs target) (ho : opener.kind = .opening .brace)
    (hb : Recast markup text all bs ns) (hc : close.kind = .closing .brace) :
    Made markup text all (t :: hs ++ word :: gs ++ opener :: bs ++ [close])
      (.impl ⟨t.start, close.stop⟩ head target ⟨opener.stop, close.start⟩
        (Node.cover close.start opener.stop ns)) := by
  rintro front inside back outer after h ⟨_, ⟨⟩, hstart⟩ - hturns
  obtain ⟨before, inner, rest, hostop, hcstart, hhead, hbody, -, hnext⟩ :=
    @Site.brackets _ _ _ _ _ _ _ _ _ _ _ heven _ _ '{' '}' h ho hc rfl rfl
  obtain ⟨_, _, -, -, -, hdeclared, htarget⟩ := hhead.split
  obtain ⟨_, _, -, -, -, -, hsite⟩ := @Site.split _ _ _ _ _ _ _ [] _ _ _ _ hdeclared
  have hdeclares := declares_of_head heven hh hsite
  have hdeclares' := declares_of_head heven hg htarget
  have hfits (u : Token) (hu : u ∈ bs.head?) : Fits markup (Token.ofSign '}').stance u := by
    refine hbody.link (hturns _ List.mem_cons_self) List.getLast?_concat ?_ rfl
    rw [List.head?_append, Option.mem_def.mp hu]
    rfl
  rw [hostop, hcstart] at hturns ⊢
  obtain ⟨body, hps⟩ := hb.enclosed (d := '}') (by decide) (by decide)
    (fun n hn => hturns n (List.mem_cons_of_mem _ (Node.mem_subnodesOf_cover hn _ _))) hbody
    (by simp) hfits
  obtain ⟨hparts, out, hout, hcode⟩ := (hps []).writes
  refine ⟨impl head target body, .of_keyword h hstart hk rfl (by decide) ?_ ?_ ?_ hnext⟩
  · refine ⟨?_, mark t.start ++ raw (implOpening head target) ++ out ++ raw ['}'], ?_, ?_⟩
    · rw [ofNode, hparts]
      rfl
    · rw [emitNode, Passes.enabled_standard, hout]
      rfl
    · rw [written_impl, ← hcode]
      rfl
  · rw [written_impl]
    exact EndsFirm.append ⟨'}', rfl, by decide⟩ _
  · intro first σ ws _
    obtain ⟨τ, hrow⟩ := (hps ws).row
    exact row_impl hdeclares hdeclares' hrow

end Declared

end Output.Fragment

end Desugar
