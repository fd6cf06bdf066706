import Desugar.Proofs.Compilation
import Desugar.Proofs.Rendering
import Desugar.Proofs.Traversal

/-! The signs of written code. A chain of pipes is written as calls around each other, so that its
head, the paths and the arguments stand between signs of their own. Over all that is read, the
written code is a row of fragments, and every sign in it is a token unless a field or type
parameters before it end in a comment. -/
namespace Desugar

open Unicode Text

/-! ### Tokens around a chain -/

theorem Word.getLast?_ne_dot (w : Word) : w.text.getLast? ≠ some '.' := by
  intro hdot
  have hall : ∀ c ∈ w.text, Token.isWordRest c = true :=
    List.forall_mem_cons.mpr ⟨isWordRest_of_isWordStart w.starts, List.all_eq_true.mp w.continues⟩
  exact absurd (hall '.' (List.mem_of_getLast? hdot)) (by decide +kernel)

namespace Token

theorem Fitting.closed {markup : Bool} {σ : Stance} {ts : List Token} (h : Fitting markup σ ts) :
    ∀ t ∈ ts, t.kind = .string → t.isLiteral = true := by
  induction ts generalizing σ with
  | nil => exact nofun
  | cons t ts ih =>
    obtain ⟨ht, hts⟩ := fitting_cons.mp h
    exact List.forall_mem_cons.mpr ⟨ht.closed, ih hts⟩

namespace Lexeme

theorem isWord_wordKind (s : Text) : (wordKind s).isWord = true := by
  unfold wordKind
  split <;> rfl

theorem slash_cases {markup deep : Bool} {x : Context} {cs : Text} {k : Kind} {n : Nat}
    (h : read markup x '/' cs = ⟨k, n, deep⟩) : k = .regex ∨ k = .punct '/' ∧ n = 0 := by
  rw [read_slash] at h
  split at h
  · unfold regex at h
    split at h
    · exact .inl (congrArg Lexeme.kind h).symm
    · exact .inr ⟨(congrArg Lexeme.kind h).symm, (congrArg Lexeme.more h).symm⟩
  · exact .inr ⟨(congrArg Lexeme.kind h).symm, (congrArg Lexeme.more h).symm⟩

theorem less_cases {markup deep : Bool} {x : Context} {cs : Text} {k : Kind} {n : Nat}
    (h : read markup x '<' cs = ⟨k, n, deep⟩) : k = .markup ∨ k = .less := by
  rw [read_less] at h
  split at h
  · unfold element at h
    split at h
    · split at h
      · exact .inl (congrArg Lexeme.kind h).symm
      · exact .inr (congrArg Lexeme.kind h).symm
    · exact .inl (congrArg Lexeme.kind h).symm
  · exact .inr (congrArg Lexeme.kind h).symm

end Lexeme

/-- A word fits any place. -/
theorem Fits.of_word {t : Token} {w : Word} (hw : w.text = t.text) (hk : t.kind.isWord = true)
    (markup : Bool) (σ : Stance) : Fits markup σ t := by
  have hfirst {d : Char} (hd : isWordStart d = false) : t.text.head? ≠ some d := by
    rw [← hw]
    rintro ⟨⟩
    rw [w.starts] at hd
    cases hd
  refine ⟨fun hc => absurd hc (hfirst (by decide)), fun _ hc => absurd hc (hfirst (by decide)),
    fun hstring => ?_⟩
  rw [hstring] at hk
  cases hk

namespace ReadBefore

variable {markup : Bool} {t : Token} {rest us : Text} {c : Char}

theorem startsFirm (h : ReadBefore markup t rest) : StartsFirm t.text := by
  obtain ⟨first, x, c, us, htext, hb, -⟩ := h
  rw [htext]
  exact .cons (isBlank_of_blank?_eq_none hb) us

/-- What a chain begins with may stand behind an opening parenthesis. -/
theorem fits_of_begins (h : ReadBefore markup t rest) (hb : Phrase.Begins t)
    (hclosed : t.kind = .string → t.isLiteral = true) :
    Fits markup (ofSign '(').stance t ∧ t.text.head? ≠ some '#' := by
  obtain ⟨first, x, c, us, htext, -, hread⟩ := h
  have hnone {k : Kind} (hk : t.kind = k) (hatom : k.isAtom = false) (hparen : k ≠ .opening .paren)
      (hsquare : k ≠ .opening .square) : False := by
    rw [Phrase.Begins, hk, hatom] at hb
    rcases hb with hb | hb | hb
    · cases hb
    · exact hparen hb
    · exact hsquare hb
  refine ⟨⟨fun hc => ?_, fun _ hc => ?_, hclosed⟩, fun hc => ?_⟩ <;> rw [htext] at hc
  · obtain rfl : c = '/' := Option.some.inj hc
    rcases Lexeme.slash_cases hread with hk | ⟨hk, -⟩
    · exact (beq_iff_eq.mpr hk).symm
    · exact (hnone hk rfl (by decide) (by decide)).elim
  · obtain rfl : c = '<' := Option.some.inj hc
    rcases Lexeme.less_cases hread with hk | hk
    · exact congrArg some (beq_iff_eq.mpr hk).symm
    · exact (hnone hk rfl (by decide) (by decide)).elim
  · obtain rfl : c = '#' := Option.some.inj hc
    rw [Lexeme.read_single (by decide +kernel) (by decide) (by decide) (by decide)
      (fun _ => by decide)] at hread
    exact hnone (congrArg Lexeme.kind hread).symm rfl (by decide) (by decide)

/-- A token that is no name, number or regular expression and does not end with a dot does not go
on into a name or a parenthesis. -/
theorem clear_name (h : ReadBefore markup t rest) (hword : t.kind.isWord = false)
    (hnumber : t.kind ≠ .number) (hregex : t.kind ≠ .regex) (hdot : t.text.getLast? ≠ some '.')
    (htext : t.text = c :: us) {d : Char} (hd : isWordStart d = true ∨ d = '(') (ws : Text) :
    Clear c us (d :: ws) := by
  have hd' : d ∉ ['>', '.', '/', '*'] := by
    intro hmem
    have hall : ['>', '.', '/', '*'].all (fun d => !isWordStart d && d != '(') = true := by
      decide +kernel
    have hnone := List.all_eq_true.mp hall d hmem
    rcases hd with hd | rfl
    · simp [hd] at hnone
    · simp at hnone
  simp only [List.mem_cons, List.not_mem_nil, or_false, not_or] at hd'
  obtain ⟨hgreater, hpoint, hslash, hstar⟩ := hd'
  obtain ⟨first, x, c', us', htext', -, hread⟩ := h
  obtain ⟨rfl, rfl⟩ := List.cons.inj (htext.symm.trans htext')
  have hkind : (Lexeme.read markup x c (us ++ rest)).kind = t.kind := by rw [hread]
  have hstart : isWordStart c = false := by
    rw [← Bool.not_eq_true]
    intro hc
    rw [Lexeme.read, if_pos hc] at hkind
    rw [← hkind] at hword
    exact absurd (Lexeme.isWord_wordKind _) (ne_true_of_eq_false hword)
  refine ⟨fun hc => ?_, fun hc => ?_, fun _ _ hhead => hgreater (Option.some.inj hhead),
    fun _ _ hhead => absurd (Option.some.inj hhead) hpoint, fun hus _ => ?_,
    fun _ _ => ⟨fun hhead => hslash (Option.some.inj hhead),
      fun hhead => hstar (Option.some.inj hhead)⟩, fun hus hc => ?_⟩
  · rw [hstart] at hc
    cases hc
  · rw [Lexeme.read, if_neg (by simp [hstart]), if_pos hc] at hkind
    exact absurd hkind.symm hnumber
  · rw [htext, hus] at hdot
    exact absurd rfl hdot
  · subst hc
    rcases Lexeme.slash_cases hread with hk | ⟨-, hlen⟩
    · exact absurd hk hregex
    · exact absurd (List.length_eq_zero_iff.mp hlen) hus

end ReadBefore

namespace Stretch

variable {markup : Bool} {front piece back : Text} {ts : List Token} {line : Bool}

/-- A stretch that ends with a dot ends with a token that does. -/
theorem exists_dot (h : Stretch markup front piece back ts false) (hback : back ≠ [])
    (hdot : piece.getLast? = some '.') :
    ∃ t, Touches (front ++ piece) ts t ∧ t.text.getLast? = some '.' := by
  generalize hline : false = line at h
  induction h with
  | nil => cases hdot
  | @gap front piece back us c ts line hb hrest ih =>
    obtain ⟨hline, hgap⟩ := Bool.or_eq_false_iff.mp hline.symm
    rw [List.getLast?_append] at hdot
    cases hlast : piece.getLast? with
    | some d =>
      rw [hlast] at hdot
      obtain ⟨t, ht, htdot⟩ := ih hback (hlast.trans hdot) hline.symm
      exact ⟨t, by rwa [List.append_assoc] at ht, htdot⟩
    | none =>
      -- no gap ends with a dot, unless it is a comment that runs to the end of its line
      obtain rfl := List.getLast?_eq_none_iff.mp hlast
      have hline : isLine c us = false := hgap
      have hsharp : (c :: us).head? ≠ some '#' := by
        rintro ⟨⟩
        cases hline
      rw [@blank?_place front [c] us c (.inr hsharp)] at hb
      replace hdot : (c :: us).getLast? = some '.' := hdot
      rcases gap_cases hb hback with ⟨hblank, rfl⟩ | ⟨body, rfl, rfl, -⟩ | ⟨-, hslash⟩
      · obtain rfl := Option.some.inj hdot
        exact absurd hblank (by decide)
      · cases hline
      · rw [hslash] at hdot
        cases hdot
  | @token front piece back us x c k ts line hb hread hrest ih =>
    rw [List.getLast?_append] at hdot
    cases hlast : piece.getLast? with
    | some d =>
      rw [hlast] at hdot
      obtain ⟨t, ⟨ht, hstop⟩, htdot⟩ := ih hback (hlast.trans hdot) hline
      refine ⟨t, ⟨?_, ?_⟩, htdot⟩
      · rw [List.getLast?_cons, ht]
        rfl
      · rwa [List.append_assoc] at hstop
    | none =>
      obtain rfl := List.getLast?_eq_none_iff.mp hlast
      obtain rfl := hrest.tokens_eq_nil
      refine ⟨.behind front k (c :: us), ⟨rfl, ?_⟩, hdot⟩
      rw [stop_behind, List.append_nil]

theorem isDigit_head {t : Token} (h : Stretch markup front piece back (t :: ts) line)
    (hk : t.kind ≠ .number) : (piece ++ back).head?.any Char.isDigit = false := by
  generalize hts : t :: ts = us at h
  cases h with
  | nil => cases hts
  | @gap front piece back us c _ _ hb _ =>
    show c.isDigit = false
    by_contra hc
    rw [Bool.not_eq_false] at hc
    have hnone : blank? front.isEmpty c (us ++ (piece ++ back)) = none := by
      refine blank?_eq_none_iff.mpr ⟨?_, ?_, ?_⟩
      · exact isBlank_eq_false_of_alphanumeric (by simp [isAsciiAlphanumeric, hc])
      · rintro rfl
        cases hc
      · rintro rfl
        cases hc
    rw [hnone] at hb
    cases hb
  | @token front piece back us x c k _ _ hb hread _ =>
    show c.isDigit = false
    by_contra hc
    rw [Bool.not_eq_false] at hc
    obtain ⟨rfl, -⟩ := List.cons.inj hts
    rw [Lexeme.read, if_neg (by rw [isWordStart_of_isDigit hc]; decide), if_pos hc] at hread
    exact hk (congrArg Lexeme.kind hread).symm

end Stretch

end Token

/-! ### Where stages end -/

namespace Phrase

variable {text : Text} {inside : Inside} {us rest : List Token}

theorem IsStage.stop {s : Stage} (h : IsStage text inside us rest s) :
    ∃ t, us.getLast? = some t ∧ t.stop = s.span.stop := by
  cases h with
  | bare _ _ _ hl _ _ => exact ⟨_, hl, rfl⟩
  | call | group => exact ⟨_, List.getLast?_concat, rfl⟩

theorem IsChain.stop {stages : List Stage} {stage : Stage} (h : IsChain text inside us rest stages)
    (hs : stages.getLast? = some stage) : ∃ t, us.getLast? = some t ∧ t.stop = stage.span.stop := by
  induction h with
  | nil => cases hs
  | @cons pipe us ts rest s ss _ hstage hrest ih =>
    cases hrest with
    | nil =>
      obtain rfl := Option.some.inj hs
      obtain ⟨t, ht, hstop⟩ := hstage.stop
      exact ⟨t, by rw [List.append_nil, List.getLast?_cons, ht]; rfl, hstop⟩
    | cons =>
      obtain ⟨t, ht, hstop⟩ := ih hs
      exact ⟨t, by rw [List.getLast?_append, ht]; rfl, hstop⟩

end Phrase

/-! ### Calls -/

namespace Output.Fragment

open Token

theorem callCode_eq (path value args : Text) :
    callCode path value args = path ++ '(' :: value ++
      (if (Text.trimStart args).isEmpty then [] else ", ".toList ++ Text.trimStart args) ++
      [')'] := by
  have hempty : (trim args).isEmpty = (Text.trimStart args).isEmpty := by
    cases hstart : Text.trimStart args with
    | nil => rw [trim, hstart]; rfl
    | cons c cs =>
      have hfirst := List.head?_dropWhile_not isBlank args
      rw [show args.dropWhile isBlank = c :: cs from hstart] at hfirst
      have hfirm : EndsFirm [c] := .singleton (by simpa using hfirst)
      rw [trim, hstart, ← List.singleton_append, trimEnd_append hfirm]
      rfl
  unfold callCode
  rw [hempty]
  split <;> simp

theorem callCode_written {callee value args : List Fragment} {code : Text}
    (h : written args = Text.trimStart code) :
    callCode (written callee) (written value) code = written (call callee value args) := by
  rw [callCode_eq, written_call, h]

@[simp] theorem written_copied (text : Text) : written [.copied text] = text := List.append_nil _

/-- Parts that are called: they may be written at any place before a parenthesis. -/
structure Callee (markup : Bool) (callee : List Fragment) : Prop where
  starts : ∃ p qs, callee = p :: qs ∧ StartsFirm p.text
  opens : ∃ d s, written callee = d :: s ∧ (isWordStart d = true ∨ d = '(')
  row : ∀ first σ ws, ∃ τ, Row markup first σ callee ('(' :: ws) τ

/-- Parts of a value that is the first argument of a call. -/
structure Held (markup : Bool) (value : List Fragment) : Prop where
  firm : Firm (written value)
  row : ∀ d ws, d = ')' ∨ d = ',' →
    ∃ τ, Row markup false (Token.ofSign '(').stance value (d :: ws) τ

/-- Parts of a call: they may be written at any place. -/
structure Called (markup : Bool) (ps : List Fragment) : Prop where
  starts : ∃ p qs, ps = p :: qs ∧ StartsFirm p.text
  opens : ∃ d s, written ps = d :: s ∧ (isWordStart d = true ∨ d = '(')
  ends : EndsFirm (written ps)
  row : ∀ first σ ws, Row markup first σ ps ws (Token.ofSign ')').stance

theorem Called.held {markup : Bool} {ps : List Fragment} (h : Called markup ps) :
    Held markup ps := by
  obtain ⟨p, qs, rfl, hfirm⟩ := h.starts
  exact ⟨⟨hfirm.append _, h.ends⟩, fun d ws _ => ⟨_, h.row false _ (d :: ws)⟩⟩

theorem called_call {markup : Bool} {callee value args : List Fragment} (hc : Callee markup callee)
    (hv : Held markup value)
    (ha : ∀ ws, ∃ τ, Row markup false (Token.ofSign ',').stance args (')' :: ws) τ) :
    Called markup (call callee value args) := by
  have hend (first : Bool) (σ : Stance) (ws : Text) :
      Row markup first σ [.sign ')'] ws (Token.ofSign ')').stance := .plain (by decide) .nil
  obtain ⟨p, qs, hp, hfirm⟩ := hc.starts
  obtain ⟨d, s, hwritten, hd⟩ := hc.opens
  refine ⟨⟨p, _, by rw [call, hp]; rfl, hfirm⟩,
    ⟨d, _, by rw [written_call, hwritten]; rfl, hd⟩, ?_, fun first σ ws => ?_⟩
  · rw [written_call]
    exact EndsFirm.append ⟨')', rfl, by decide⟩ _
  · unfold call
    simp only [List.append_assoc, List.cons_append]
    obtain ⟨τ, hrow⟩ := hc.row first σ _
    refine hrow.append (.plain (by decide) ?_)
    split
    · obtain ⟨τ, hvalue⟩ := hv.row ')' ws (.inl rfl)
      exact hvalue.append (hend _ τ ws)
    · obtain ⟨τ, hargs⟩ := ha ws
      obtain ⟨τ', hvalue⟩ := hv.row ',' _ (.inr rfl)
      exact hvalue.append (.plain (by decide) (.blank (by decide) (hargs.append (hend _ τ ws))))

/-! ### Stages -/

/-- The stages are written as the fragments, on a value of the given fragments. -/
def WritesStages (text : Text) (value : List Fragment) (stages : List Stage)
    (ps : List Fragment) : Prop :=
  ofStages text value stages = .ok ps ∧
    applyStages .standard text (written value) stages = .ok (written ps)

/-- The tokens `us` with the constructs `ns` in them may be put before any others. -/
def Spliced (markup : Bool) (text : Text) (all us : List Token) (ns : List Node) : Prop :=
  ∀ ⦃rest : List Token⦄ ⦃ms : List Node⦄, Recast markup text all rest ms →
    Recast markup text all (us ++ rest) (ns ++ ms)

section Stages

variable {markup : Bool} {text : Text} {all : List Token} (heven : Even markup all)
  {front piece back : Text} {outer us after rest : List Token} {line : Bool}

include heven

theorem Spliced.recast {ns : List Node} (h : Spliced markup text all us ns) :
    Recast markup text all us ns := by
  have hnil := h (Recast.nil heven)
  rwa [List.append_nil, List.append_nil] at hnil

theorem callee_path {first last : Token} (hp : Phrase.IsPath us rest) (hf : us.head? = some first)
    (hl : us.getLast? = some last)
    (h : Site markup text all front piece back outer us after false)
    (hstart : first.start = width front) (hstop : last.stop = width (front ++ piece)) :
    Callee markup [.copied piece] := by
  obtain ⟨tail, rfl⟩ := List.head?_eq_some_iff.mp hf
  have hword : first.kind.isWord = true := by
    cases hp with
    | last hk _ => exact hk
    | more hk _ _ => exact hk
  obtain ⟨_, hread, -⟩ := h.stretch.read_of_mem List.mem_cons_self
  obtain ⟨⟨w, hw⟩, -⟩ := hread.isWord hword
  obtain ⟨more, hpiece⟩ := h.starts hstart
  obtain ⟨t, ht, hk⟩ := hp.ends
  obtain rfl : last = t := Option.some.inj (hl.symm.trans ht)
  obtain ⟨_, hread', -⟩ := h.stretch.read_of_mem (List.mem_of_getLast? hl)
  obtain ⟨⟨w', hw'⟩, -⟩ := hread'.isWord hk
  obtain ⟨lead, hlead⟩ := h.ends hl hstop
  have hhead : piece = w.first :: (w.rest ++ more) := by rw [hpiece, ← hw]; rfl
  have hdot : piece.getLast? ≠ some '.' := by
    have hne : w'.text ≠ [] := List.cons_ne_nil _ _
    rw [hlead, ← hw', List.getLast?_append_of_ne_nil lead hne]
    exact w'.getLast?_ne_dot
  have hchanges (ws : Text) : Changes front piece back (first :: tail) false ('(' :: ws) := by
    refine .of_plain (by decide) (by decide) (fun _ => ⟨last, ⟨hl, hstop⟩, ?_, ?_⟩)
      (fun hd => absurd hd hdot) ws
    all_goals
      intro hkind
      rw [hkind] at hk
      cases hk
  have hfits (σ : Stance) : Fitting markup σ (first :: tail) := by
    refine ⟨?_, h.chain heven.fits⟩
    rintro t ⟨⟩
    exact .of_word hw hword markup σ
  have hsharp : piece.head? ≠ some '#' := by
    rw [hhead]
    intro hd
    have hstarts := w.starts
    rw [Option.some.inj hd] at hstarts
    exact absurd hstarts (by decide +kernel)
  refine ⟨⟨_, _, rfl, ?_⟩, ⟨w.first, w.rest ++ more, ?_, .inl w.starts⟩, fun place σ ws => ?_⟩
  · show StartsFirm piece
    rw [hpiece]
    exact hread.startsFirm.append more
  · show piece ++ [] = _
    rw [List.append_nil, hhead]
  · refine ⟨_, .of_seen (seen_copied h.stretch (hfits σ) (hchanges ws) (.inr hsharp)) rfl ?_ .nil⟩
    show piece.isEmpty = false
    rw [hhead]
    rfl

theorem callee_group {opener close : Token} {bs : List Token} {ns : List Node}
    (ho : opener.kind = .opening .paren) (hb : Spliced markup text all bs ns)
    (hc : close.kind = .closing .paren)
    (hturns : ∀ n ∈ Node.subnodesOf ns, all.IsChain (Turns markup n))
    (h : Site markup text all front piece back outer (opener :: bs ++ [close]) after false)
    (hstart : opener.start = width front) (hstop : close.stop = width (front ++ piece)) :
    ∃ ps, Writes text (Node.cover close.stop opener.start ns) ps ∧ Callee markup ps := by
  have hrecast : Recast markup text all (bs ++ [close]) ns := by
    have hall := hb (.token (.nil heven) close)
    rwa [List.append_nil] at hall
  have hl : (opener :: bs ++ [close]).getLast? = some close := List.getLast?_concat
  obtain ⟨_, hread, -⟩ := h.stretch.read_of_mem List.mem_cons_self
  have hopen : opener.text = ['('] := hread.text_of_char (by rw [ho]; rfl)
  obtain ⟨_, hread', -⟩ := h.stretch.read_of_mem (List.mem_of_getLast? hl)
  have hshut : close.text = [')'] := hread'.text_of_char (by rw [hc]; rfl)
  obtain ⟨more, hpiece⟩ := h.starts hstart
  obtain ⟨lead, hlead⟩ := h.ends hl hstop
  rw [hopen] at hpiece
  have hsetting (first : Bool) (σ : Stance) (ws : Text) :
      Setting markup text all front piece back outer ([opener] ++ (bs ++ [close])) after false
        first σ ('(' :: ws) := by
    refine ⟨h, ?_, fun _ => .of_plain (by decide) (by decide)
      (fun _ => ⟨close, ⟨hl, hstop⟩, ?_, ?_⟩) (fun hd => ?_) ws,
      (show isWordRest '(' = false by decide +kernel), .inr ?_⟩
    · rintro t ⟨⟩
      refine ⟨?_, ?_, ?_⟩
      · rw [hopen]
        nofun
      · rw [hopen]
        nofun
      · rw [ho]
        nofun
    · rw [hc]
      nofun
    · rw [hc]
      nofun
    · rw [hlead, hshut, List.getLast?_concat] at hd
      cases hd
    · rw [hpiece]
      nofun
  obtain ⟨ps, hps⟩ := hrecast.uniform hturns (hsetting false (Token.ofSign '(').stance [])
  have hrendered := hps (hsetting false (Token.ofSign '(').stance [])
  have hwrites := hrendered.writes
  rw [← hstart, ← hstop] at hwrites
  refine ⟨ps, hwrites, hrendered.starts ?_, ?_, fun first σ ws => (hps (hsetting first σ ws)).row⟩
  · rw [hpiece]
    exact .cons (by decide) more
  · have hhead := hrendered.head (List.cons_ne_nil _ _)
    rw [hpiece] at hhead
    obtain ⟨s, hs⟩ := List.head?_eq_some_iff.mp hhead
    exact ⟨'(', s, hs, .inr rfl⟩

theorem called_stage {s : Stage} {ss : List Stage} {first last : Token}
    (hs : Phrase.IsStage text (fun _ us _ ns => Spliced markup text all us ns) us rest s)
    (hturns : ∀ n ∈ Node.subnodesOfStages (s :: ss), all.IsChain (Turns markup n))
    (h : Site markup text all front piece back outer us after false)
    (hf : us.head? = some first) (hl : us.getLast? = some last)
    (hstart : first.start = width front) (hstop : last.stop = width (front ++ piece))
    {value : List Fragment} (hv : Held markup value) :
    ∃ ps, Called markup ps ∧
      ∀ qs, WritesStages text ps ss qs → WritesStages text value (s :: ss) qs := by
  have hnone (ws : Text) : ∃ τ, Row markup false (Token.ofSign ',').stance [] (')' :: ws) τ :=
    ⟨_, .nil⟩
  cases hs with
  | @bare first' last' _ _ path hp hf' _ hl' hslice _ =>
    obtain rfl : first = first' := Option.some.inj (hf.symm.trans hf')
    obtain rfl : last = last' := Option.some.inj (hl.symm.trans hl')
    obtain rfl : piece = path := by
      rw [hstart, hstop, h.slice] at hslice
      exact Option.some.inj hslice
    have hcallee := callee_path heven hp hf hl h hstart hstop
    refine ⟨_, called_call hcallee hv hnone, fun qs hqs => ⟨hqs.1, ?_⟩⟩
    have hcode := @callCode_written [.copied piece] value [] [] rfl
    rw [written_copied] at hcode
    rw [applyStages, hcode]
    exact hqs.2
  | @call first' last' opener close ps bs _ path ns hp hf' _ hl' hslice ho hb hc =>
    obtain rfl : first = first' := by
      rw [List.append_assoc, List.head?_append, hf'] at hf
      exact (Option.some.inj hf).symm
    obtain ⟨before, inner, _, hostop, hcstart, -, hbody, hfits, -⟩ :=
      @Site.brackets _ _ _ _ _ _ _ _ _ _ _ heven _ _ '(' ')' h ho hc rfl rfl
    rw [List.append_assoc] at h
    obtain ⟨before', inside, _, -, hstart', hstop', -, -, -, hpath, -⟩ :=
      @Site.take _ _ _ _ _ _ _ [] _ _ _ _ _ _ h hf' hl'
    obtain rfl : inside = path := by
      rw [hstart', hstop', hpath.slice] at hslice
      exact Option.some.inj hslice
    have hcallee := callee_path heven hp hf' hl' hpath hstart' hstop'
    rw [hostop, hcstart] at hturns ⊢
    rw [Node.subnodesOfStages, List.forall_mem_append] at hturns
    -- behind a comma there is read what is read behind a parenthesis
    obtain ⟨args, hargs⟩ := (hb.recast heven).enclosed (σ := (Token.ofSign ',').stance) (d := ')')
      (by decide) (by decide) (fun n hn => hturns.1 n (Node.mem_subnodesOf_cover hn _ _)) hbody
      (by simp) hfits.1
    obtain ⟨hparts, out, hout, hcode⟩ := (hargs []).writes
    have htrim := (hargs []).trim_eq
    refine ⟨_, called_call hcallee hv fun ws => (hargs ws).trimmed (by simp),
      fun qs hqs => ⟨?_, ?_⟩⟩
    · rw [ofStages, hparts]
      exact hqs.1
    · have hcall := @callCode_written [.copied inside] value _ _ htrim
      rw [written_copied, ← hcode] at hcall
      rw [applyStages, hout]
      exact (congrArg (applyStages .standard text · ss) hcall).trans hqs.2
  | @group opener close bs _ ns ho hb hc =>
    obtain rfl : first = opener := Option.some.inj hf.symm
    obtain rfl : last = close := Option.some.inj (hl.symm.trans List.getLast?_concat)
    rw [Node.subnodesOfStages, List.forall_mem_append] at hturns
    obtain ⟨callee, ⟨hparts, out, hout, hcode⟩, hcallee⟩ := callee_group heven ho hb hc
      (fun n hn => hturns.1 n (Node.mem_subnodesOf_cover hn _ _)) h hstart hstop
    refine ⟨_, called_call hcallee hv hnone, fun qs hqs => ⟨?_, ?_⟩⟩
    · rw [ofStages, hparts]
      exact hqs.1
    · have hcall := @callCode_written callee value [] [] rfl
      rw [← hcode] at hcall
      rw [applyStages, hout]
      exact (congrArg (applyStages .standard text · ss) hcall).trans hqs.2

theorem called_chain {stages : List Stage}
    (hchain : Phrase.IsChain text (fun _ us _ ns => Spliced markup text all us ns) us rest stages)
    (hne : stages ≠ []) (hturns : ∀ n ∈ Node.subnodesOfStages stages, all.IsChain (Turns markup n))
    (h : Site markup text all front piece back outer us after line) {value : List Fragment}
    (hv : Held markup value) : ∃ ps, Called markup ps ∧ WritesStages text value stages ps := by
  induction hchain generalizing front piece outer value with
  | nil => exact absurd rfl hne
  | @cons pipe us ts rest s ss _ hs _ ih =>
    obtain ⟨last, hl, -⟩ := hs.last
    obtain ⟨first, hf⟩ : ∃ first, us.head? = some first := by
      cases us with
      | nil => cases hl
      | cons t us => exact ⟨t, rfl⟩
    rw [List.cons_append, ← List.singleton_append] at h
    obtain ⟨before, inside, post, -, hstart, hstop, -, -, -, hin, hpost⟩ := h.take hf hl
    obtain ⟨ps, hcalled, hwrites⟩ := called_stage heven hs hturns hin hf hl hstart hstop hv
    by_cases hss : ss = []
    · subst hss
      exact ⟨ps, hcalled, hwrites ps ⟨rfl, rfl⟩⟩
    · have hmore : ∀ n ∈ Node.subnodesOfStages ss, all.IsChain (Turns markup n) := by
        intro n hn
        refine hturns n ?_
        cases s with
        | bare => exact hn
        | call => exact List.mem_append_right _ hn
        | group => exact List.mem_append_right _ hn
      obtain ⟨qs, hq, hw⟩ := ih hss hmore hpost hcalled.held
      exact ⟨qs, hq, hwrites qs hw⟩

/-! ### Chains -/

theorem held_head {first last : Token} {hs : List Token} {ns : List Node}
    (hb : Phrase.Begins first) (hhead : Recast markup text all hs ns)
    (hturns : ∀ n ∈ Node.subnodesOf ns, all.IsChain (Turns markup n))
    (h : Site markup text all front piece back outer hs after false) (hf : hs.head? = some first)
    (hl : hs.getLast? = some last) (hstart : first.start = width front)
    (hstop : last.stop = width (front ++ piece)) (hback : back ≠ [])
    (hdigit : back.head?.any Char.isDigit = false) :
    ∃ ps, Writes text (Node.cover last.stop first.start ns) ps ∧ Held markup ps := by
  obtain ⟨tail, rfl⟩ := List.head?_eq_some_iff.mp hf
  obtain ⟨_, hread, -⟩ := h.stretch.read_of_mem List.mem_cons_self
  have hmem : first ∈ all := by
    rw [h.tokens_eq]
    simp
  have hclosed := Fitting.closed ⟨heven.start, heven.fits⟩ first hmem
  obtain ⟨hfits, hsharp⟩ := hread.fits_of_begins hb hclosed
  have hfitting : Fitting markup (Token.ofSign '(').stance (first :: tail) := by
    refine ⟨?_, h.chain heven.fits⟩
    rintro t ⟨⟩
    exact hfits
  obtain ⟨more, hpiece⟩ := h.starts hstart
  obtain ⟨lead, hlead⟩ := h.ends hl hstop
  have hstarts : StartsFirm piece := by
    rw [hpiece]
    exact hread.startsFirm.append more
  have hends : EndsFirm piece := by
    rw [hlead]
    exact (h.stretch.endsFirm hback hfitting last (List.mem_of_getLast? hl)).append lead
  have hplace : piece.head? ≠ some '#' := by
    obtain ⟨c, hc, -⟩ := hread.startsFirm
    rw [hpiece, List.head?_append, hc]
    rwa [hc] at hsharp
  have hsetting (d : Char) (ws : Text) (hd : d = ')' ∨ d = ',') :
      Setting markup text all front piece back outer ([] ++ first :: tail) after false false
        (Token.ofSign '(').stance (d :: ws) := by
    have hplain : d ∈ plainSigns ∧ d ≠ '>' := by
      rcases hd with rfl | rfl <;> decide
    refine ⟨h, hfitting.1, fun _ => .of_plain hplain.1 hplain.2 (fun hnil => absurd hnil hback)
      (fun _ => hdigit) ws, ?_, .inr hplace⟩
    exact (class_of_plain hplain.1).2.1
  obtain ⟨ps, hps⟩ := hhead.uniform hturns (hsetting ')' [] (.inl rfl))
  have hrendered := hps (hsetting ')' [] (.inl rfl))
  have hwrites := hrendered.writes
  rw [← hstart, ← hstop] at hwrites
  obtain ⟨p, qs, rfl, hfirm⟩ := hrendered.starts hstarts
  exact ⟨_, hwrites, ⟨hfirm.append _, hrendered.ends hends⟩,
    fun d ws hd => (hps (hsetting d ws hd)).row⟩

theorem made_chain {first last : Token} {hs ss : List Token} {ns : List Node} {stages : List Stage}
    {stage : Stage} (hf : hs.head? = some first) (hl : hs.getLast? = some last)
    (hb : Phrase.Begins first) (hhead : Recast markup text all hs ns)
    (hchain : Phrase.IsChain text (fun _ us _ ns => Spliced markup text all us ns) ss rest stages)
    (hstage : stages.getLast? = some stage) :
    Made markup text all (hs ++ ss)
      (.pipe ⟨first.start, stage.span.stop⟩ ⟨first.start, last.stop⟩
        (Node.cover last.stop first.start ns) stages) := by
  rintro front inside back outer after h ⟨t, ht, hstart⟩ - hturns
  have hfirst : (hs ++ ss).head? = some first := by
    rw [List.head?_append, hf]
    rfl
  obtain rfl : first = t := Option.some.inj (hfirst.symm.trans ht)
  obtain ⟨pipe, tail, rfl, hpipe⟩ := hchain.begins hstage
  obtain ⟨before, value, post, rfl, hstart', hstop, -, -, -, hvalue, hpost⟩ :=
    @Site.take _ _ _ _ _ _ _ [] _ _ _ _ _ _ h hf hl
  rw [hstart, width_append, Nat.left_eq_add] at hstart'
  obtain rfl := eq_nil_of_width_eq_zero hstart'
  simp only [List.append_nil, List.nil_append] at hstop hvalue hpost
  have hne : post ≠ [] := by
    rintro rfl
    cases hpost.stretch.tokens_eq_nil
  have hdigit : (post ++ back).head?.any Char.isDigit = false :=
    hpost.stretch.isDigit_head (by rw [hpipe]; decide)
  have hself := hturns _ List.mem_cons_self
  have hinner := List.forall_mem_append.mp fun m hm => hturns m (List.mem_cons_of_mem _ hm)
  obtain ⟨vps, ⟨hparts, out, hout, hcode⟩, hheld⟩ := held_head heven hb hhead
    (fun n hn => hinner.1 n (Node.mem_subnodesOf_cover hn _ _)) hvalue hf hl hstart hstop
    (by simp [hne]) hdigit
  obtain ⟨ps, hcalled, hwrites⟩ := called_chain heven hchain
    (fun hnil => by rw [hnil] at hstage; cases hstage) hinner.2 hpost hheld
  -- a token right before the chain does not go on into it
  have hbehind (u : Token) (hu : outer.getLast? = some u) (hstop : u.stop = width front) :
      u.kind.isWord = false ∧ u.kind ≠ .number ∧ u.kind ≠ .regex ∧ u.text.getLast? ≠ some '.' := by
    have hnext : (hs ++ pipe :: tail ++ after).head? = some first := by
      rw [List.head?_append, hfirst]
      rfl
    exact (h.link hself hu hnext).2 (hstop.trans hstart.symm)
  refine ⟨ps, ⟨?_, mark first.start ++ raw (written ps), ?_, rfl⟩, hcalled.starts, hcalled.ends,
    fun first σ ws _ => hcalled.row first σ ws, fun u hu => ?_, ?_, ?_⟩
  · rw [ofNode, hparts]
    exact hwrites.1
  · rw [emitNode, Passes.enabled_standard, hout]
    change (applyStages .standard text (trim out.code) stages >>= fun code =>
      pure (mark first.start ++ raw code)) = _
    rw [hcode, hheld.firm.trim_eq, hwrites.2]
    rfl
  · obtain ⟨l, hlast, hlstop⟩ := hchain.stop hstage
    have hall : (hs ++ pipe :: tail).getLast? = some l := by
      rw [List.getLast?_append, hlast]
      rfl
    exact (h.next hself hall hu).1 hlstop
  · intro before pre us hfront hus hstretch ws
    obtain ⟨d, s, hwritten, hd⟩ := hcalled.opens
    have hlast (t : Token) (ht : Touches (before ++ pre) us t) := by
      refine hbehind t (hus.elim (fun hnil => ?_) fun heq => heq.symm.trans ht.1) (hfront ▸ ht.2)
      rw [hnil] at ht
      cases ht.1
    have hinside : [] ++ (value ++ post) ++ back ≠ [] := by simp [hne]
    rw [hwritten]
    refine ⟨fun hnil => absurd hnil hinside, fun hdot => ?_, fun hbang => ?_,
      fun t ht c vs htext => ?_, fun hfalse => Bool.noConfusion hfalse⟩
    · obtain ⟨t, ht, htdot⟩ := hstretch.exists_dot hinside hdot
      exact absurd htdot (hlast t ht).2.2.2
    · obtain rfl : d = '!' := Option.some.inj hbang
      rcases hd with hd | hd
      · exact absurd hd (by decide)
      · cases hd
    · obtain ⟨_, hread, -⟩ := hstretch.read_of_mem (List.mem_of_getLast? ht.1)
      obtain ⟨hword, hnumber, hregex, htdot⟩ := hlast t ht
      exact hread.clear_name hword hnumber hregex htdot htext hd _
  · rintro ⟨u, hu, hword, hstop⟩
    rw [(hbehind u hu hstop).1] at hword
    cases hword

end Stages

/-! ### Whole texts -/

theorem kept_spliced {markup : Bool} (text : Text) {all : List Token} (heven : Even markup all) :
    Phrase.Kept text (Spliced markup text all) where
  nil _ _ h := h
  append hu hv _ _ h := by
    rw [List.append_assoc, List.append_assoc]
    exact hu (hv h)
  token _ _ _ h := h.token _
  binding hk _ _ h := h.construct heven (made_binding heven hk) rfl rfl rfl
  struct hk hh ho hf hc _ _ h :=
    h.construct heven (made_struct heven hk hh ho hf hc) rfl List.getLast?_concat rfl
  trait hk hh ho hb hc _ _ h :=
    h.construct heven (made_trait heven hk hh ho (hb.recast heven) hc) rfl List.getLast?_concat rfl
  impl hk hh _ hg ho hb hc _ _ h :=
    h.construct heven (made_impl heven hk hh hg ho (hb.recast heven) hc) rfl List.getLast?_concat
      rfl
  chain hf hl hb hhead hchain hs _ _ h := by
    obtain ⟨l, hlast, hstop⟩ := hchain.stop hs
    refine h.construct heven (made_chain heven hf hl hb (hhead.recast heven) hchain hs)
      (by rw [List.head?_append, hf]; rfl) (by rw [List.getLast?_append, hlast]; rfl) ?_
    rw [hstop]
    rfl

/-- Where constructs are replaced, the tokens of the text are read as before. -/
structure Regular (markup : Bool) (tokens : List Token) (nodes : List Node) : Prop where
  even : Even markup tokens
  turns : ∀ n ∈ Node.subnodesOf nodes, tokens.IsChain (Turns markup n)

instance (markup : Bool) (tokens : List Token) : Decidable (Even markup tokens) :=
  decidable_of_iff (_ ∧ _ ∧ _) ⟨fun ⟨h₁, h₂, h₃⟩ => ⟨h₁, h₂, h₃⟩, fun ⟨h₁, h₂, h₃⟩ => ⟨h₁, h₂, h₃⟩⟩

instance (markup : Bool) : (n : Node) → DecidableRel (Turns markup n)
  | .struct _ _ _, _, _ | .impl _ _ _ _ _, _, _ => inferInstanceAs (Decidable (_ → _))
  | .pipe _ _ _ _, _, _ => inferInstanceAs (Decidable (_ ∧ _))
  | .other _, _, _ | .binding _, _, _ | .trait _ _ _ _, _, _ => inferInstanceAs (Decidable True)

instance (markup : Bool) (tokens : List Token) (nodes : List Node) :
    Decidable (Regular markup tokens nodes) :=
  decidable_of_iff (_ ∧ _) ⟨fun ⟨h₁, h₂⟩ => ⟨h₁, h₂⟩, fun ⟨h₁, h₂⟩ => ⟨h₁, h₂⟩⟩

end Output.Fragment

namespace Token

/-- All that is read stands before the end of the text. -/
theorem stretch_reads {file text : Text} {markup : Bool} {block : Block} {warnings : List Warning}
    (h : Node.parse file text markup = .ok (block, warnings)) :
    ∃ us last ns line, (scan markup text).tokens = us ++ [last] ∧
      Stretch markup [] text [] us line ∧
      Phrase.Reads text (scan markup text).tokens Literal.maxDepth none us [last] ns ∧
      block.nodes = Node.cover (width text) 0 ns := by
  have hdeep : (scan markup text).tooDeep = none := by
    unfold Node.parse Node.parseTokens at h
    split at h
    · cases h
    · assumption
  obtain ⟨us, line, htokens, hstretch⟩ := stretch_scan hdeep
  have hus : ∀ t ∈ us, t.kind ≠ .eof := by
    obtain ⟨ts, hlossless⟩ := lossless_scan markup text
    obtain ⟨eof, hts, -⟩ := hlossless.tokens
    obtain ⟨rfl, -⟩ := List.append_inj' (htokens.symm.trans hts) rfl
    exact hlossless.kind_ne
  have hreads := Node.Parse.parse_reads file text markup
  rw [h] at hreads
  obtain ⟨vs, rest, ns, hvs, hend, hns, hblock⟩ := hreads
  obtain rfl : block = _ := hblock
  -- nothing that is read is the end of the text, and what is left begins with it
  obtain ⟨rfl, rfl⟩ : vs = us ∧ rest = [finish (Position.origin.advance text)] := by
    rcases List.append_eq_append_iff.mp (hvs.symm.trans htokens) with
      ⟨l, hl, hrest⟩ | ⟨l, hl, hrest⟩
    · cases l with
      | nil => exact ⟨by simpa using hl.symm, hrest⟩
      | cons t l =>
        rw [hrest] at hend
        exact absurd hend (hus t (by rw [hl]; simp))
    · cases l with
      | nil => exact ⟨by simpa using hl, by simpa using hrest.symm⟩
      | cons t l =>
        obtain ⟨rfl, hnil⟩ := List.cons.inj hrest
        obtain ⟨rfl, rfl⟩ := List.append_eq_nil_iff.mp hnil.symm
        have hlast : vs.getLast? = some (finish (Position.origin.advance text)) := by
          rw [hl, List.getLast?_concat]
        exact absurd rfl (Phrase.kind_ne_eof_of_reads hns hlast)
  exact ⟨vs, _, ns, line, htokens, hstretch, hns, rfl⟩

end Token

namespace Output.Fragment

open Token

/-- The code that is written for a regular text shows every sign around the copied texts as a token
if and only if no field and no type parameters end in a comment that was closed by the end of its
line. -/
theorem signs_shown_iff {file text : Text} {markup : Bool} {block : Block} {warnings : List Warning}
    (h : Node.parse file text markup = .ok (block, warnings))
    (hregular : Regular markup (scan markup text).tokens block.nodes) :
    ∃ fragments out, ofNodes text block.nodes = .ok fragments ∧
      emit .standard text block = .ok out ∧ out.code = written fragments ∧
      ((∀ front c back, fragments = front ++ .sign c :: back →
          Shown markup out.code (width (written front)) c) ↔
        ∀ p ∈ fragments, p.trails markup = false) := by
  obtain ⟨us, last, ns, line, htokens, hstretch, hreads, hnodes⟩ := stretch_reads h
  have heven := hregular.even
  have hrecast := ((kept_spliced text heven).reads hreads).recast heven
  have hsetting : Setting markup text (scan markup text).tokens [] text [] [] ([] ++ us) [last] line
      true Context.empty.stance [] := by
    refine ⟨⟨(List.append_nil text).symm, htokens, hstretch⟩, fun t ht => heven.start t ?_,
      fun _ => ⟨fun _ => .inl rfl, fun _ => rfl, nofun, fun _ _ c us _ => .nil c us,
        fun _ => nofun⟩, rfl, .inl rfl⟩
    rw [htokens, List.head?_append, show us.head? = some t from ht]
    rfl
  have hturns : ∀ n ∈ Node.subnodesOf ns, (scan markup text).tokens.IsChain (Turns markup n) := by
    intro n hn
    refine hregular.turns n ?_
    rw [hnodes]
    exact Node.mem_subnodesOf_cover hn _ _
  obtain ⟨fragments, hparts⟩ := hrecast hsetting hturns
  obtain ⟨hof, out, hout, hcode⟩ := hparts.writes
  obtain ⟨τ, hrow⟩ := hparts.row
  have hreached : Reached markup Context.empty.stance [] (written fragments ++ []) := .start _
  have hshown := hrow.shown_iff rfl hreached
  simp only [List.nil_append, List.append_nil] at hof hout hshown
  rw [← hcode] at hshown
  refine ⟨fragments, out, ?_, ?_, hcode, hshown⟩
  · rw [hnodes]
    exact hof
  · rw [emit, hnodes]
    exact hout

/-- A comment behind the last field takes the semicolon of the field. -/
theorem signs_shown_iff_comment :
    let text := "trait R \x7b let x = a |> f(1) \x7d struct S<T> \x7b a: T // b\n \x7d".toList
    let code :=
      "interface R \x7b const x = f(a, 1) \x7d type S<T> = \x7b\n  a: T // b;\n\x7d;".toList
    ∃ block warnings fragments out, Node.parse "a.bs".toList text false = .ok (block, warnings) ∧
      Regular false (scan false text).tokens block.nodes ∧
      ofNodes text block.nodes = .ok fragments ∧ emit .standard text block = .ok out ∧
      out.code = code ∧ ∃ front c back, fragments = front ++ .sign c :: back ∧
        ¬ Shown false code (width (written front)) c := by
  intro text code
  obtain ⟨⟨block, warnings⟩, h, hfields⟩ :=
    exists_ok_of_map (x := Node.parse "a.bs".toList text false)
      (f := fun r => (decide (Regular false (scan false text).tokens r.1.nodes),
        (ofNodes text r.1.nodes).toOption.map fun fragments => fragments.any (trails false),
        (emit .standard text r.1).toOption.map Output.code))
      (b := (true, some true, some code)) (by decide +kernel)
  simp only [Prod.mk.injEq] at hfields
  obtain ⟨hregular, htrails, hcode⟩ := hfields
  obtain ⟨fragments, out, hparts, hout, -, hshown⟩ := signs_shown_iff h (of_decide_eq_true hregular)
  rw [hparts] at htrails
  rw [hout] at hcode
  have hcode' : out.code = code := Option.some.inj hcode
  rw [hcode'] at hshown
  refine ⟨block, warnings, fragments, out, h, of_decide_eq_true hregular, hparts, hout, hcode', ?_⟩
  by_contra hall
  have hnone := hshown.mp fun front c back hp => by_contra fun hn => hall ⟨front, c, back, hp, hn⟩
  obtain ⟨p, hp, htrue⟩ := List.any_eq_true.mp (Option.some.inj htrails)
  rw [hnone p hp] at htrue
  cases htrue

end Output.Fragment

end Desugar
