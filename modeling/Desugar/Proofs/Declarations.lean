import Desugar.Proofs.Grammar
import Desugar.Proofs.Fragments

/-! Declarations as rows of fragments. Their names and the texts inside their type parameters and
fields are read again between the signs that are written around them. -/
namespace Desugar

open Unicode Text

/-! ### The characters of tokens -/

namespace Kind

/-- The only character of a token of the kind. -/
def char? : Kind → Option Char
  | .opening .paren => some '('
  | .closing .paren => some ')'
  | .opening .brace => some '{'
  | .closing .brace => some '}'
  | .less => some '<'
  | .greater => some '>'
  | .semicolon => some ';'
  | _ => none

end Kind

namespace Token

namespace Lexeme

variable {markup : Bool} {x : Context} {c e : Char} {cs : Text}

/-- Only a word is read as one. -/
theorem isWordStart_of_read (h : (read markup x c cs).kind.isWord = true) :
    isWordStart c = true := by
  by_contra hc
  rw [read, if_neg hc] at h
  have hsign : (signKind c).isWord = false := by
    unfold signKind
    split <;> rfl
  have htemplate : (template cs).kind.isWord = false := by
    unfold template
    split <;> rfl
  have helement : (element cs).kind.isWord = false := by
    unfold element
    split
    · split <;> rfl
    · rfl
  have hregex : (regex cs).kind.isWord = false := by
    unfold regex
    split <;> rfl
  have hsingle : (single (signKind c)).kind = signKind c := rfl
  grind [Kind.isWord]

theorem char_of_read (h : (read markup x c cs).kind.char? = some e) :
    c = e ∧ (read markup x c cs).more = 0 := by
  have hword : (word c cs).kind.char? = none := by
    dsimp only [word, wordKind]
    split <;> rfl
  have hsign : (signKind c).char? = some e → c = e := by
    unfold signKind
    split <;> intro h <;> cases h <;> rfl
  have htemplate : (template cs).kind.char? = none := by
    unfold template
    split <;> rfl
  have helement : (element cs).kind.char? = some e → e = '<' ∧ (element cs).more = 0 := by
    unfold element
    split
    · split
      · nofun
      · rintro ⟨⟩
        exact ⟨rfl, rfl⟩
    · nofun
  have hregex : (regex cs).kind.char? = none := by
    unfold regex
    split <;> rfl
  generalize hl : read markup x c cs = l at h ⊢
  dsimp only [read] at hl
  split at hl
  · rw [← hl, hword] at h
    cases h
  split at hl
  · subst hl
    cases h
  split at hl
  · subst hl
    cases h
  split at hl
  · rw [← hl, htemplate] at h
    cases h
  split at hl
  · subst hl
    cases h
  split at hl
  · subst hl
    cases h
  split at hl
  · subst hl
    cases h
  split at hl
  next hc =>
    simp only [Bool.and_eq_true, beq_iff_eq] at hc
    subst hl
    obtain ⟨rfl, hmore⟩ := helement h
    exact ⟨hc.1.1.1.1, hmore⟩
  split at hl
  · rw [← hl, hregex] at h
    cases h
  · subst hl
    exact ⟨hsign h, rfl⟩

end Lexeme

namespace ReadBefore

variable {markup : Bool} {t : Token} {rest : Text}

theorem text_of_char (h : ReadBefore markup t rest) {e : Char} (he : t.kind.char? = some e) :
    t.text = [e] := by
  obtain ⟨first, x, c, us, htext, -, hread⟩ := h
  rw [← show (Lexeme.read markup x c (us ++ rest)).kind = t.kind by rw [hread]] at he
  obtain ⟨rfl, hmore⟩ := Lexeme.char_of_read he
  rw [hread] at hmore
  rw [htext, List.length_eq_zero_iff.mp hmore]

theorem isWord (h : ReadBefore markup t rest) (hk : t.kind.isWord = true) :
    IsWord t.text ∧ Lexeme.wordKind t.text = t.kind := by
  obtain ⟨first, x, c, us, htext, -, hread⟩ := h
  have hc : isWordStart c = true := by
    refine @Lexeme.isWordStart_of_read markup x c (us ++ rest) ?_
    rw [hread]
    exact hk
  rw [Lexeme.read, if_pos hc] at hread
  obtain ⟨hus, hrest⟩ := takeWhile_before (congrArg Lexeme.more hread)
  refine ⟨⟨⟨c, us, hc, List.all_eq_true.mpr hus⟩, htext.symm⟩, ?_⟩
  rw [Lexeme.word, takeWhile_of_before hus hrest] at hread
  rw [htext]
  exact congrArg Lexeme.kind hread

theorem text_of_keyword (h : ReadBefore markup t rest) {k : Keyword} (hk : t.kind = .keyword k) :
    t.text = k.text := by
  have hkind := (h.isWord (by rw [hk]; rfl)).2
  rw [hk, Lexeme.wordKind] at hkind
  split at hkind
  next k' hk' =>
    obtain rfl : k' = k := Kind.keyword.inj hkind
    exact (beq_iff_eq.mp (List.find?_some hk' :)).symm
  next => cases hkind

/-- A `>` may stand behind any token but an `=` and a `|`. -/
theorem clear_greater (h : ReadBefore markup t rest) (he : t.kind ≠ .punct '=')
    (hb : t.kind ≠ .punct '|') {c : Char} {us : Text} (htext : t.text = c :: us) (ws : Text) :
    Clear c us ('>' :: ws) := by
  obtain ⟨first, x, d, ds, htext', -, hread⟩ := h
  obtain ⟨rfl, rfl⟩ := List.cons.inj (htext.symm.trans htext')
  refine .of_sign (by decide) (by decide) (.inr ?_) ws
  by_cases hus : us = []
  · subst hus
    refine .inr ⟨?_, ?_⟩
    · rintro rfl
      rw [Lexeme.read_bar] at hread
      split at hread
      · cases (congrArg Lexeme.more hread : 1 = 0)
      · exact hb (congrArg Lexeme.kind hread).symm
    · rintro rfl
      rw [Lexeme.read_equals] at hread
      split at hread
      · cases (congrArg Lexeme.more hread : 1 = 0)
      · exact he (congrArg Lexeme.kind hread).symm
  · exact .inl hus

end ReadBefore

/-- A word is not followed by a character that it would go on with. -/
theorem Stretch.head_of_word {markup : Bool} {front piece back : Text} {ts : List Token}
    {line : Bool} {t : Token} (h : Stretch markup front piece back ts line)
    (ht : Touches (front ++ piece) ts t) (hk : t.kind.isWord = true) :
    back.head?.any isWordRest = false := by
  obtain ⟨_, hread, -⟩ := h.read_of_mem (List.mem_of_getLast? ht.1)
  obtain ⟨⟨w, hw⟩, -⟩ := hread.isWord hk
  exact (h.clear ht hw.symm).word w.starts

theorem stance_congr {t u : Token} (hk : t.kind = u.kind) (htext : t.text = u.text) :
    t.stance = u.stance := by
  obtain ⟨k, text, p⟩ := t
  obtain ⟨k', text', q⟩ := u
  cases hk
  cases htext
  rfl

theorem IsWord.append {s s' : Text} (h : IsWord s) (h' : IsWord s') : IsWord (s ++ s') := by
  obtain ⟨w, rfl⟩ := h
  obtain ⟨w', rfl⟩ := h'
  refine ⟨⟨w.first, w.rest ++ w'.text, w.starts, ?_⟩, rfl⟩
  rw [List.all_append, w.continues, Word.text, List.all_cons, w'.continues,
    isWordRest_of_isWordStart w'.starts]
  rfl

theorem isWord_of_all {c : Char} {s : Text} (h : (isWordStart c && s.all isWordRest) = true) :
    IsWord (c :: s) :=
  ⟨⟨c, s, (Bool.and_eq_true_iff.mp h).1, (Bool.and_eq_true_iff.mp h).2⟩, rfl⟩

theorem element_ofWord {s : Text} (h : s ∉ Context.elementWords) :
    (ofWord s).stance.element = some false := by
  have hcontains : Context.elementWords.contains s = false := by simpa using h
  unfold ofWord Lexeme.wordKind
  split
  · rfl
  · simp only [stance, Context.stance, Context.allowsElement, hcontains]
    rfl

/-! ### Tokens at their places -/

/-- Every token fits the one before it, and no `=` or `|` stands before a `>`. -/
structure Even (markup : Bool) (tokens : List Token) : Prop where
  start : ∀ t ∈ tokens.head?, Fits markup Context.empty.stance t
  fits : tokens.IsChain fun t u => Fits markup t.stance u
  greater : tokens.IsChain fun t u =>
    u.kind = .greater → t.kind ≠ .punct '=' ∧ t.kind ≠ .punct '|'

/-- The tokens `us` of a text with those before and behind them: they are the tokens of `piece`. -/
structure Site (markup : Bool) (text : Text) (all : List Token) (front piece back : Text)
    (outer us after : List Token) (line : Bool) : Prop where
  text_eq : text = front ++ (piece ++ back)
  tokens_eq : all = outer ++ (us ++ after)
  stretch : Stretch markup front piece back us line

namespace Site

variable {markup : Bool} {text : Text} {all : List Token} {front piece back : Text}
  {outer us cs vs after : List Token} {line : Bool} {t u : Token}

theorem slice (h : Site markup text all front piece back outer us after line) :
    slice? text (width front) (width (front ++ piece)) = some piece :=
  slice?_eq_some_iff.mpr
    ⟨front, back, by rw [h.text_eq, List.append_assoc], rfl, by rw [width_append]⟩

theorem chain {R : Token → Token → Prop}
    (h : Site markup text all front piece back outer us after line) (hR : all.IsChain R) :
    us.IsChain R := by
  rw [h.tokens_eq] at hR
  exact (List.isChain_append.mp (List.isChain_append.mp hR).2.1).1

theorem link {R : Token → Token → Prop}
    (h : Site markup text all front piece back outer us after line) (hR : all.IsChain R)
    (hu : outer.getLast? = some u) (ht : (us ++ after).head? = some t) : R u t := by
  rw [h.tokens_eq] at hR
  exact (List.isChain_append.mp hR).2.2 u hu t ht

theorem next {R : Token → Token → Prop}
    (h : Site markup text all front piece back outer us after line) (hR : all.IsChain R)
    (hu : us.getLast? = some u) (ht : after.head? = some t) : R u t := by
  rw [h.tokens_eq] at hR
  exact (List.isChain_append.mp (List.isChain_append.mp hR).2.1).2.2 u hu t ht

theorem fitting (h : Site markup text all front piece back outer us after line)
    (heven : Even markup all) (hu : outer.getLast? = some u) : Fitting markup u.stance us := by
  refine ⟨fun t ht => h.link heven.fits hu ?_, h.chain heven.fits⟩
  rw [List.head?_append, Option.mem_def.mp ht]
  rfl

theorem split (h : Site markup text all front piece back outer (us ++ t :: vs) after line) :
    ∃ before rest, piece = before ++ (t.text ++ rest) ∧ t.start = width (front ++ before) ∧
      t.stop = width (front ++ before ++ t.text) ∧
      Site markup text all front before (t.text ++ (rest ++ back)) outer us (t :: (vs ++ after))
        false ∧
      Site markup text all (front ++ before ++ t.text) rest back (outer ++ (us ++ [t])) vs after
        line := by
  obtain ⟨before, rest, rfl, hplace, -, hbefore, -, hrest⟩ := h.stretch.split
  have hstart := start_eq_width hplace
  have htext := h.text_eq
  have htokens := h.tokens_eq
  refine ⟨before, rest, rfl, hstart, ?_, ⟨by simp [htext], by simp [htokens], hbefore⟩,
    ⟨by simp [htext], by simp [htokens], hrest⟩⟩
  rw [width_append _ t.text, ← hstart]
  rfl

theorem starts (h : Site markup text all front piece back outer (t :: us) after line)
    (hstart : t.start = width front) : ∃ rest, piece = t.text ++ rest := by
  obtain ⟨before, rest, rfl, hstart', -⟩ := @split _ _ _ _ _ _ _ [] _ _ _ _ h
  rw [hstart, width_append, Nat.left_eq_add] at hstart'
  exact ⟨rest, by rw [eq_nil_of_width_eq_zero hstart', List.nil_append]⟩

theorem ends (h : Site markup text all front piece back outer us after line)
    (ht : us.getLast? = some t) (hstop : t.stop = width (front ++ piece)) :
    ∃ lead, piece = lead ++ t.text := by
  obtain ⟨vs, rfl⟩ := List.getLast?_eq_some_iff.mp ht
  obtain ⟨before, rest, rfl, -, hstop', -⟩ := h.split
  rw [hstop, ← List.append_assoc, ← List.append_assoc, width_append _ rest,
    Nat.add_eq_left] at hstop'
  exact ⟨before, by rw [eq_nil_of_width_eq_zero hstop', List.append_nil]⟩

/-- What stands before a pair of brackets and between them. -/
theorem brackets (heven : Even markup all) {opener close : Token} {o c : Char}
    (h : Site markup text all front piece back outer (us ++ opener :: vs ++ [close]) after line)
    (ho : opener.kind = (ofSign o).kind) (hc : close.kind = (ofSign c).kind)
    (ho' : (ofSign o).kind.char? = some o) (hc' : (ofSign c).kind.char? = some c) :
    ∃ before inside rest, opener.stop = width (front ++ before ++ [o]) ∧
      close.start = width (front ++ before ++ [o] ++ inside) ∧
      Site markup text all front before (o :: (inside ++ c :: rest)) outer us
        (opener :: (vs ++ close :: after)) false ∧
      Site markup text all (front ++ before ++ [o]) inside (c :: rest)
        (outer ++ us ++ [opener]) vs (close :: after) false ∧
      Fitting markup (ofSign o).stance vs ∧ ∀ u ∈ after.head?, Fits markup (ofSign c).stance u := by
  have hmem : opener ∈ us ++ opener :: vs ++ [close] := by simp
  obtain ⟨_, hopener, -⟩ := h.stretch.read_of_mem hmem
  obtain ⟨_, hclose, -⟩ := h.stretch.read_of_mem (List.mem_append_right _ List.mem_cons_self)
  have hopen : opener.text = [o] := hopener.text_of_char (by rw [ho, ho'])
  have hshut : close.text = [c] := hclose.text_of_char (by rw [hc, hc'])
  have hnext (u : Token) (hu : u ∈ after.head?) : Fits markup (ofSign c).stance u := by
    rw [← stance_congr hc hshut]
    exact h.next heven.fits List.getLast?_concat hu
  rw [List.append_assoc, List.cons_append] at h
  obtain ⟨before, rest, rfl, -, hstop, hus, hvs⟩ := h.split
  obtain ⟨inside, rest, rfl, hstart, -, hin, -⟩ := hvs.split
  rw [hopen] at hstop hstart hus hin
  rw [hshut] at hus hin
  simp only [List.append_assoc, List.cons_append, List.nil_append] at hus
  rw [← List.append_assoc outer us] at hin
  have hfits : Fitting markup (ofSign o).stance vs := by
    rw [← stance_congr ho hopen]
    exact hin.fitting heven List.getLast?_concat
  exact ⟨before, inside, rest ++ back, hstop, hstart, hus, hin, hfits, hnext⟩

theorem take {first last : Token}
    (h : Site markup text all front piece back outer (us ++ (cs ++ vs)) after line)
    (hfirst : cs.head? = some first) (hlast : cs.getLast? = some last) :
    ∃ before inside rest, piece = before ++ (inside ++ rest) ∧
      first.start = width (front ++ before) ∧ last.stop = width (front ++ before ++ inside) ∧
      (∃ tail, inside = first.text ++ tail) ∧ (∃ lead, inside = lead ++ last.text) ∧
      Site markup text all front before (inside ++ (rest ++ back)) outer us (cs ++ (vs ++ after))
        false ∧
      Site markup text all (front ++ before) inside (rest ++ back) (outer ++ us) cs (vs ++ after)
        false ∧
      Site markup text all (front ++ before ++ inside) rest back (outer ++ (us ++ cs)) vs after
        line := by
  obtain ⟨before, inside, rest, rfl, hstart, hstop, hhead, htail, hbefore, hinside, hrest⟩ :=
    h.stretch.take hfirst hlast
  have htext := h.text_eq
  have htokens := h.tokens_eq
  exact ⟨before, inside, rest, rfl, hstart, hstop, hhead, htail,
    ⟨by simp [htext], by simp [htokens], hbefore⟩, ⟨by simp [htext], by simp [htokens], hinside⟩,
    ⟨by simp [htext], by simp [htokens], hrest⟩⟩

end Site

end Token

/-! ### Heads and fields -/

namespace Output.Fragment

open Token Token.Site Grammar

/-- A declared name and its type parameters may be written wherever no element can start. -/
structure Declares (markup : Bool) (head : Head) : Prop where
  name : IsWord head.name
  less : head.generics ≠ none → markup = true → (Token.ofWord head.name).stance.element = some false
  generics : ∀ σ rest, (head.generics ≠ none → markup = true → σ.element = some false) →
    ∃ τ, Row markup false σ (generics head.generics) rest τ

section Heads

variable {markup : Bool} {text : Text} {all : List Token} {front piece back : Text}
  {outer after : List Token} {line : Bool}

theorem declares_of_head (heven : Even markup all) {hs : List Token} {head : Head}
    (hh : IsHead text hs head)
    (h : Site markup text all front piece back outer hs after line) : Declares markup head := by
  cases hh with
  | @plain name hk =>
    obtain ⟨rest, hread, -⟩ := h.stretch.read_of_mem List.mem_cons_self
    exact ⟨(hread.isWord (by rw [hk]; rfl)).1, nofun, fun σ rest _ => ⟨σ, .nil⟩⟩
  | @generic name less greater ts inside hk hl hg hslice =>
    have hchain := h.chain heven.fits
    obtain ⟨_, hname, -⟩ := h.stretch.read_of_mem List.mem_cons_self
    obtain ⟨hword, hkind⟩ := hname.isWord (by rw [hk]; rfl)
    obtain ⟨_, hless, -⟩ := h.stretch.read_of_mem (List.mem_cons_of_mem _ List.mem_cons_self)
    have hlt : less.text = ['<'] := hless.text_of_char (by rw [hl]; rfl)
    refine ⟨hword, fun _ hm => ?_, fun σ rest hσ => ?_⟩
    · have hfits := (List.isChain_cons_cons.mp hchain).1.less hm (by rw [hlt]; rfl)
      rw [stance_congr (show (Token.ofWord name.text).kind = name.kind from hkind) rfl, hfits, hl]
      rfl
    · obtain ⟨before, behind, rfl, -, hstop, -, hinside⟩ := @split _ _ _ _ _ _ _ [name] _ _ _ _ h
      obtain ⟨_, hgreater, -⟩ :=
        hinside.stretch.read_of_mem (List.mem_append_right _ List.mem_cons_self)
      have hgt : greater.text = ['>'] := hgreater.text_of_char (by rw [hg]; rfl)
      have hlast := (List.isChain_append.mp (hinside.chain heven.greater)).2.2
      obtain ⟨piece, behind, rfl, hstart, -, hts, -⟩ := hinside.split
      obtain rfl : piece = inside := by
        rw [hstop, hstart, hts.slice] at hslice
        exact Option.some.inj hslice
      have hfits : Fitting markup (Token.ofSign '<').stance ts := by
        rw [← stance_congr (show less.kind = (Token.ofSign '<').kind from hl) hlt]
        exact hts.fitting heven (by simp)
      have hstretch := hts.stretch
      rw [hgt] at hstretch
      have hslice : Seen markup false (Token.ofSign '<').stance (.slice '<' (trim piece))
          ('>' :: rest) ((Token.ofSign '<').stance.after ts) := by
        refine seen_slice hstretch (by rw [hlt]; simp) hfits (by decide) (by decide) (by decide)
          fun t ht c us htext => ?_
        obtain ⟨hne, hne'⟩ := hlast t ht greater rfl hg
        obtain ⟨_, hread, -⟩ := hstretch.read_of_mem (List.mem_of_getLast? ht)
        exact hread.clear_greater hne hne' htext rest
      refine ⟨(Token.ofSign '>').stance, .of_seen (seen_less (hσ nofun)) rfl rfl ?_⟩
      exact .cons hslice (fun _ => ⟨'>', [], rfl, by decide⟩) (.plain (by decide) .nil)

/-- A field between two semicolons, or none if there is nothing but blanks. -/
theorem row_fieldOf {d : Char} {ts : List Token} {fields : List Fragment} {rest : Text} {τ : Stance}
    (hpiece : Stretch markup front piece (d :: back) ts line) (hfront : front ≠ [])
    (hfits : Fitting markup (Token.ofSign ';').stance ts) (hd : d.isDigit = false)
    (h : Row markup false (Token.ofSign ';').stance fields rest τ) :
    Row markup false (Token.ofSign ';').stance ((fieldOf piece).flatMap field ++ fields) rest
      τ := by
  unfold fieldOf
  split
  · exact h
  · have hslice : Seen markup false (Token.ofSign ';').stance (.slice ';' (trim piece))
        (';' :: '\n' :: (written fields ++ rest)) ((Token.ofSign ';').stance.after ts) :=
      seen_slice hpiece hfront hfits hd (by decide) (by decide) fun t ht c us htext =>
        .of_sign (by decide) (by decide) (.inl (by decide)) _
    refine .blank (by decide) (.blank (by decide) ?_)
    refine .cons hslice (fun _ => ⟨';', _, rfl, by decide⟩) (.plain (by decide) ?_)
    exact .blank (by decide) h

theorem row_fields (heven : Even markup all) {d : Char} {fs : List Token} {fields : List Text}
    {start stop : Nat} (hf : IsFields text start stop fs fields)
    (h : Site markup text all front piece (d :: back) outer fs after false)
    (hfront : front ≠ []) (hstart : start = width front) (hstop : stop = width (front ++ piece))
    (hfits : Fitting markup (Token.ofSign ';').stance fs) (hd : d.isDigit = false) (rest : Text) :
    ∃ τ, Row markup false (Token.ofSign ';').stance (fields.flatMap field) rest τ := by
  induction hf generalizing front piece outer with
  | @last start stop ts piece' hslice =>
    obtain rfl : piece = piece' := by
      rw [hstart, hstop, h.slice] at hslice
      exact Option.some.inj hslice
    have hrow := row_fieldOf h.stretch hfront hfits hd (@Row.nil markup false _ rest)
    rw [List.append_nil] at hrow
    exact ⟨_, hrow⟩
  | @more start stop ts us semicolon piece' fields hk hslice _ ih =>
    obtain ⟨_, hread, -⟩ := h.stretch.read_of_mem (List.mem_append_right _ List.mem_cons_self)
    have htext : semicolon.text = [';'] := hread.text_of_char (by rw [hk]; rfl)
    obtain ⟨before, behind, rfl, hsemi, hafter, hts, hus⟩ := h.split
    obtain rfl : before = piece' := by
      rw [hstart, hsemi, hts.slice] at hslice
      exact Option.some.inj hslice
    have hfits' : Fitting markup (Token.ofSign ';').stance us := by
      rw [← stance_congr (show semicolon.kind = (Token.ofSign ';').kind from hk) htext]
      exact hus.fitting heven (by simp)
    obtain ⟨τ, hrow⟩ := ih hus (by rw [htext]; simp) hafter (by rw [hstop]; simp) hfits'
    have hstretch := hts.stretch
    rw [htext] at hstretch
    refine ⟨τ, ?_⟩
    rw [List.flatMap_append]
    exact row_fieldOf hstretch hfront hfits.append_left (by decide) hrow

end Heads

/-! ### Whole declarations -/

section Declarations

variable {markup first : Bool} {σ τ υ : Stance} {head target : Head} {ps : List Fragment}
  {rest : Text}

/-- A name with type parameters, before what is no part of the name. -/
theorem row_named {name : Text} (hname : IsWord name) (hh : Declares markup head)
    (hless : head.generics ≠ none → markup = true → (Token.ofWord name).stance.element = some false)
    (hps : (written ps ++ rest).head?.any isWordRest = false)
    (h : ∀ first τ, Row markup first τ ps rest υ) :
    Row markup first σ (.word name :: (generics head.generics ++ ps)) rest υ := by
  refine .word hname ?_ ?_
  · cases head.generics with
    | none => exact hps
    | some inside => rfl
  · obtain ⟨τ, hrow⟩ := hh.generics (Token.ofWord name).stance (written ps ++ rest) hless
    exact hrow.append (h _ τ)

theorem row_struct {fields : List Text} (hh : Declares markup head)
    (hf : ∀ rest, ∃ τ, Row markup false (Token.ofSign ';').stance (fields.flatMap field) rest τ) :
    Row markup first σ (struct head fields) rest (Token.ofSign ';').stance := by
  have hend (first : Bool) (τ : Stance) :
      Row markup first τ [.sign '}', .sign ';'] rest (Token.ofSign ';').stance :=
    .plain (by decide) (.plain (by decide) .nil)
  have hbody (first : Bool) : Row markup first (Token.ofSign '{').stance
      ((if fields.isEmpty then [] else .blank '\n' :: fields.flatMap field) ++
        [.sign '}', .sign ';']) rest (Token.ofSign ';').stance := by
    split
    · exact hend _ _
    · obtain ⟨τ, hrow⟩ := hf (written [.sign '}', .sign ';'] ++ rest)
      exact .blank (by decide) (hrow.append (hend _ τ))
  unfold struct
  simp only [List.append_assoc, List.cons_append, List.nil_append]
  refine .word (isWord_of_all (by decide +kernel)) rfl (.blank (by decide) ?_)
  refine row_named hh.name hh hh.less rfl fun first τ => .blank (by decide) ?_
  refine .of_seen (seen_equals (by simp [text])) rfl rfl ?_
  refine .blank (by decide) (.plain (by decide) ?_)
  exact hbody _

theorem row_trait {body : List Fragment} (hh : Declares markup head)
    (hbody : Row markup false (Token.ofSign '{').stance body ('}' :: rest) τ) :
    Row markup first σ (trait head body) rest (Token.ofSign '}').stance := by
  unfold trait
  simp only [List.append_assoc, List.cons_append, List.nil_append]
  refine .word (isWord_of_all (by decide +kernel)) rfl (.blank (by decide) ?_)
  refine row_named hh.name hh hh.less rfl fun first τ => .blank (by decide) (.plain (by decide) ?_)
  exact hbody.append (.plain (by decide) .nil)

theorem row_impl {body : List Fragment} (hh : Declares markup head) (ht : Declares markup target)
    (hbody : Row markup false (Token.ofSign '}').stance body ('}' :: rest) τ) :
    Row markup first σ (impl head target body) rest (Token.ofSign '}').stance := by
  have hname : IsWord (target.name ++ head.name ++ "Impl".toList) :=
    (ht.name.append hh.name).append (isWord_of_all (by decide +kernel))
  have hless : (Token.ofWord (target.name ++ head.name ++ "Impl".toList)).stance.element =
      some false := by
    refine element_ofWord fun hmem => ?_
    have hlast : ∀ s ∈ Context.elementWords, s.getLast? ≠ some 'l' := by decide
    refine hlast _ hmem ?_
    rw [List.getLast?_append]
    rfl
  unfold impl
  simp only [List.append_assoc, List.cons_append, List.nil_append]
  rw [← List.append_assoc target.name]
  refine .word (isWord_of_all (by decide +kernel)) rfl (.blank (by decide) ?_)
  refine row_named hname hh (fun _ _ => hless) rfl fun _ _ => .blank (by decide) ?_
  refine .word (isWord_of_all (by decide +kernel)) rfl (.blank (by decide) ?_)
  refine row_named hh.name hh hh.less rfl fun _ _ => .blank (by decide) (.plain (by decide) ?_)
  refine .blank (by decide) (.blank (by decide) (.blank (by decide) ?_))
  refine .word (isWord_of_all (by decide +kernel)) rfl (.plain (by decide) ?_)
  refine .word (isWord_of_all (by decide +kernel)) rfl (.blank (by decide) ?_)
  refine .word (isWord_of_all (by decide +kernel)) rfl (.plain (by decide) (.blank (by decide) ?_))
  refine row_named ht.name ht ht.less rfl fun _ _ => .plain (by decide) (.blank (by decide) ?_)
  refine .plain (by decide) (.plain (by decide) ?_)
  exact hbody.append (.plain (by decide) .nil)

end Declarations

end Output.Fragment

end Desugar
