import Desugar.Proofs.Extent
import Desugar.Proofs.Slice
import Desugar.Token.Scan

/-! How the tokens of a text lie in it: each stands at its place with its characters,
one after the other and none over another. The scanner's steps are restated first as a
judgment without its countdown of characters; what all tokens of a text have in common
is then proved by induction over that judgment. -/
namespace Desugar.Token

open Unicode Text

/-! ### Scanning as a judgment -/

/-- `Lexed markup front context rest ts`: after the characters `front`, the rest of the
text is cut into the tokens `ts`. -/
inductive Lexed (markup : Bool) : (front : Text) → Context → (rest : Text) → List Token → Prop where
  | done {front : Text} {context : Context} :
      Lexed markup front context [] [finish (Position.origin.advance front)]
  | blank {front : Text} {context : Context} {c : Char} {cs : Text} {more : Nat} {ts : List Token} :
      blank? front.isEmpty c cs = some more →
      Lexed markup (front ++ c :: cs.take more) context (cs.drop more) ts →
      Lexed markup front context (c :: cs) ts
  | token {front : Text} {context : Context} {c : Char} {cs : Text} {lexeme : Lexeme} {t : Token}
      {ts : List Token} :
      blank? front.isEmpty c cs = none → Lexeme.read markup context c cs = lexeme →
      t = ⟨lexeme.kind, c :: cs.take lexeme.more, Position.origin.advance front⟩ →
      Lexed markup (front ++ t.text) (context.push t front.getLast? cs.head?)
        (cs.drop lexeme.more) ts →
      Lexed markup front context (c :: cs) (t :: ts)

theorem offset_origin_advance (front : Text) :
    (Position.origin.advance front).offset = width front := by
  simp [Position.origin]

theorem offset_beq_zero (front : Text) :
    ((Position.origin.advance front).offset == 0) = front.isEmpty := by
  rw [offset_origin_advance]
  cases front with
  | nil => rfl
  | cons c cs =>
    have hc := c.utf8Size_pos
    rw [width_cons, List.isEmpty_cons, beq_eq_false_iff_ne]
    omega

theorem Scan.run_skip (markup : Bool) (p : Position) (context : Context) (before : Option Char)
    (skip : Nat) (cs : Text) :
    Scan.run markup p context before skip cs =
      Scan.run markup (p.advance (cs.take skip)) context ((cs.take skip).getLast?.or before) 0
        (cs.drop skip) := by
  induction cs generalizing p before skip with
  | nil => simp [Scan.run]
  | cons c cs ih =>
    cases skip with
    | zero => rfl
    | succ skip =>
      have hlast :
          (c :: cs.take skip).getLast?.or before = (cs.take skip).getLast?.or (some c) := by
        rw [List.getLast?_cons]
        cases (cs.take skip).getLast? <;> rfl
      rw [List.take_succ_cons, List.drop_succ_cons, Position.advance_cons, hlast, Scan.run]
      exact ih (p.next c) (some c) skip

/-- The scanner passes `skip` characters and then follows the judgment. -/
theorem lexed_run (markup : Bool) (front : Text) (context : Context) (skip : Nat) (cs : Text) :
    Lexed markup (front ++ cs.take skip) context (cs.drop skip)
      (Scan.run markup (Position.origin.advance front) context front.getLast? skip cs).tokens := by
  induction cs generalizing front context skip with
  | nil =>
    simp only [List.take_nil, List.append_nil, List.drop_nil, Scan.run]
    exact .done
  | cons c cs ih =>
    -- one character further on
    have hstep (context : Context) (skip : Nat) := ih (front ++ [c]) context skip
    simp only [Position.advance_append, Position.advance_cons, Position.advance_nil,
      List.getLast?_concat,
      List.append_assoc, List.singleton_append] at hstep
    cases skip with
    | succ skip =>
      simp only [Scan.run]
      exact hstep context skip
    | zero =>
      simp only [Scan.run, List.take_zero, List.append_nil, List.drop_zero, offset_beq_zero]
      split
      next more hb => exact .blank hb (hstep context more)
      next hb => exact .token hb rfl rfl (hstep _ _)

theorem lexed_scan (markup : Bool) (text : Text) :
    Lexed markup [] .empty text (scan markup text).tokens :=
  lexed_run markup [] .empty 0 text

/-! ### Single tokens -/

/-- Elements, templates, regular expressions and strings with their closing quote. -/
def isLiteral (t : Token) : Bool :=
  match t.kind with
  | .markup | .template | .regex => true
  | .string =>
    match t.text with
    | [] => false
    | quote :: rest => Literal.isClosed quote rest
  | _ => false

/-- What is known of a token before the characters `after`, whatever its context. -/
structure Sound (t : Token) (after : Text) : Prop where
  kind_ne : t.kind ≠ .eof
  starts : StartsFirm t.text
  keyword : ∀ word, t.kind = .keyword word → t.text = word.text
  pipe : t.kind = .pipe → t.text = ['|', '>']
  literal : t.isLiteral = true → after = [] ∨ EndsFirm t.text

theorem wordKind_eq_keyword {word : Text} {k : Keyword} (h : Lexeme.wordKind word = .keyword k) :
    word = k.text := by
  unfold Lexeme.wordKind at h
  split at h
  next k' hk =>
    cases h
    have heq := List.find?_some hk
    exact (beq_iff_eq.mp heq).symm
  next => cases h

theorem take_length_takeWhile (p : Char → Bool) (cs : Text) :
    cs.take (cs.takeWhile p).length = cs.takeWhile p :=
  (List.prefix_iff_eq_take.mp (List.takeWhile_prefix _)).symm

theorem drop_length_takeWhile (p : Char → Bool) (cs : Text) :
    cs.drop (cs.takeWhile p).length = cs.dropWhile p := by
  have hsplit := @List.takeWhile_append_dropWhile _ p cs
  rw [← take_length_takeWhile] at hsplit
  exact List.append_cancel_left ((List.take_append_drop _ cs).trans hsplit.symm)

theorem isBlank_of_isQuote {c : Char} (h : Element.isQuote c = true) : isBlank c = false := by
  simp only [Element.isQuote, Bool.or_eq_true, beq_iff_eq] at h
  rcases h with rfl | rfl <;> decide

/-- The kinds that say nothing about the characters of a token. -/
def IsPlain : Kind → Prop
  | .eof | .keyword _ | .pipe | .string | .template | .regex | .markup => False
  | _ => True

theorem plain_signKind (c : Char) : IsPlain (Lexeme.signKind c) := by
  unfold Lexeme.signKind
  split <;> trivial

/-- A lexeme whose token at `c`, before `cs`, is sound wherever it stands. -/
def Lexeme.Sound (c : Char) (cs : Text) (lexeme : Lexeme) : Prop :=
  ∀ p, Token.Sound ⟨lexeme.kind, c :: cs.take lexeme.more, p⟩ (cs.drop lexeme.more)

namespace Lexeme

variable {c : Char} {cs : Text} {more : Nat} {tooDeep : Bool}

theorem sound_plain {kind : Kind} (hk : IsPlain kind) (hc : isBlank c = false) :
    Lexeme.Sound c cs ⟨kind, more, tooDeep⟩ := by
  intro p
  refine ⟨?_, .cons hc _, ?_, ?_, ?_⟩
  · rintro rfl
    exact hk
  · rintro word rfl
    exact hk.elim
  · rintro rfl
    exact hk.elim
  · cases kind <;> simp_all [isLiteral, IsPlain]

/-- A literal needs only an end. -/
theorem sound_literal {kind : Kind} (hk : kind = .markup ∨ kind = .template ∨ kind = .regex)
    (hc : isBlank c = false) (he : cs.drop more = [] ∨ EndsFirm (c :: cs.take more)) :
    Lexeme.Sound c cs ⟨kind, more, tooDeep⟩ := by
  intro p
  refine ⟨?_, .cons hc _, ?_, ?_, fun _ => he⟩
  all_goals rcases hk with rfl | rfl | rfl <;> nofun

theorem sound_word (hc : isBlank c = false) : Lexeme.Sound c cs (word c cs) := by
  intro p
  unfold word
  simp only [take_length_takeWhile]
  cases hk : wordKind (c :: cs.takeWhile isWordRest) with
  | ident => exact ⟨nofun, .cons hc _, nofun, nofun, nofun⟩
  | keyword k =>
    refine ⟨nofun, .cons hc _, fun k' hk' => ?_, nofun, nofun⟩
    cases hk'
    exact wordKind_eq_keyword hk
  | _ =>
    unfold wordKind at hk
    split at hk <;> cases hk

theorem sound_quoted (hc : Element.isQuote c = true) :
    Lexeme.Sound c cs ⟨.string, more, tooDeep⟩ := by
  intro p
  have hb := isBlank_of_isQuote hc
  refine ⟨nofun, .cons hb _, nofun, nofun, fun h => .inr ?_⟩
  simp only [isLiteral] at h
  exact (Literal.endsFirm_of_isClosed hb h).cons c

theorem sound_template : Lexeme.Sound '`' cs (template cs) := by
  unfold template
  split
  next n hn =>
    have hr := Literal.reaches_template (show Literal.Rooted [0] from rfl) hn
    exact sound_literal (.inr (.inl rfl)) (by decide)
      ((hr.endsFirm (by decide)).imp_right fun h => h.cons _)
  next => exact sound_literal (.inr (.inl rfl)) (by decide) (.inl List.drop_length)

theorem sound_element (hs : Element.isTagStart ('<' :: cs) = true) :
    Lexeme.Sound '<' cs (element cs) := by
  unfold element
  split
  next n hn =>
    split
    next h1 =>
      have hr := (Element.reaches_length hs hn).endsFirm (by decide)
      obtain ⟨m, rfl⟩ : ∃ m, n = m + 1 := ⟨n - 1, by omega⟩
      exact sound_literal (.inl rfl) (by decide) hr
    next => exact sound_plain trivial (by decide)
  next => exact sound_literal (.inl rfl) (by decide) (.inl List.drop_length)

theorem sound_regex : Lexeme.Sound '/' cs (regex cs) := by
  unfold regex
  split
  next n hn =>
    exact sound_literal (.inr (.inr rfl)) (by decide) (.inr ((Literal.endsFirm_regex hn).cons _))
  next => exact sound_plain trivial (by decide)

theorem sound_pipe (hc : c = '|') (hn : cs.head? = some '>') :
    Lexeme.Sound c cs ⟨.pipe, 1, tooDeep⟩ := by
  obtain ⟨cs', rfl⟩ : ∃ cs', cs = '>' :: cs' := List.head?_eq_some_iff.mp hn
  subst hc
  exact fun p => ⟨nofun, .cons (by decide) _, nofun, fun _ => rfl, nofun⟩

/-- Every lexeme that is read is sound. -/
theorem sound_read (markup : Bool) (context : Context) (hc : isBlank c = false) :
    Lexeme.Sound c cs (read markup context c cs) := by
  dsimp only [read]
  split
  · exact sound_word hc
  split
  · exact sound_plain trivial hc
  split
  next hq => exact sound_quoted hq
  split
  next hq => rw [beq_iff_eq.mp hq]; exact sound_template
  split
  next hp =>
    rw [Bool.and_eq_true, beq_iff_eq, beq_iff_eq] at hp
    exact sound_pipe hp.1 hp.2
  split
  · exact sound_plain trivial hc
  split
  · exact sound_plain trivial hc
  split
  next he =>
    simp only [Bool.and_eq_true, beq_iff_eq] at he
    obtain ⟨⟨⟨⟨rfl, _⟩, _⟩, ht⟩, _⟩ := he
    exact sound_element ht
  split
  next hr =>
    rw [Bool.and_eq_true, beq_iff_eq] at hr
    rw [hr.1]
    exact sound_regex
  · exact sound_plain (plain_signKind c) hc

end Lexeme

/-! ### Whole texts -/

/-- The token stands in the text at its place. Only the end of the text has no
characters. -/
def Stands (text : Text) (t : Token) : Prop :=
  ∃ before after, text = before ++ t.text ++ after ∧ t.place = Position.origin.advance before ∧
    (t.kind = .eof ∧ t.text = [] ∧ after = [] ∨ t.Sound after)

/-- Tokens of a text in their order. -/
structure Layout (text : Text) (ts : List Token) : Prop where
  stands : ∀ t ∈ ts, t.Stands text
  ordered : ts.Pairwise fun t u => t.stop ≤ u.start

theorem isBlank_of_blank?_eq_none {first : Bool} {c : Char} {cs : Text}
    (h : blank? first c cs = none) :
    isBlank c = false := by
  unfold blank? at h
  split at h
  · cases h
  next hb => simpa using hb

theorem start_eq_width {t : Token} {before : Text} (h : t.place = Position.origin.advance before) :
    t.start = width before := by
  rw [start, h, offset_origin_advance]

theorem Lexed.layout {markup : Bool} {front rest : Text} {context : Context} {ts : List Token}
    (h : Lexed markup front context rest ts) :
    Layout (front ++ rest) ts ∧ ∀ t ∈ ts, width front ≤ t.start := by
  induction h with
  | @done front context =>
    refine ⟨⟨fun t ht => ?_, List.pairwise_singleton _ _⟩, fun t ht => ?_⟩
    · rw [List.mem_singleton.mp ht]
      exact ⟨front, [], by simp [finish], rfl, .inl ⟨rfl, rfl, rfl⟩⟩
    · exact Nat.le_of_eq (by rw [List.mem_singleton.mp ht, start_finish, offset_origin_advance])
  | @blank front context c cs more ts hb _ ih =>
    simp only [List.append_assoc, List.cons_append, List.take_append_drop] at ih
    refine ⟨ih.1, fun t ht => ?_⟩
    have hle := ih.2 t ht
    rw [width_append] at hle
    omega
  | @token front context c cs lexeme t ts hb hl ht _ ih =>
    have htext : t.text ++ cs.drop lexeme.more = c :: cs := by
      rw [ht, List.cons_append, List.take_append_drop]
    have hstart : t.start = width front := start_eq_width (by rw [ht])
    rw [List.append_assoc, htext] at ih
    have hlater : ∀ u ∈ ts, t.stop ≤ u.start := by
      intro u hu
      have hle := ih.2 u hu
      rw [width_append, ← hstart] at hle
      exact hle
    refine ⟨⟨?_, List.pairwise_cons.mpr ⟨hlater, ih.1.ordered⟩⟩, ?_⟩
    · intro u hu
      rcases List.mem_cons.mp hu with rfl | hu
      · refine ⟨front, cs.drop lexeme.more, by rw [List.append_assoc, htext], by rw [ht], .inr ?_⟩
        rw [ht, ← hl]
        exact Lexeme.sound_read markup context (isBlank_of_blank?_eq_none hb) _
      · exact ih.1.stands u hu
    · intro u hu
      rcases List.mem_cons.mp hu with rfl | hu
      · exact Nat.le_of_eq hstart.symm
      · have hle := ih.2 u hu
        rw [width_append] at hle
        omega

/-- The tokens of a text lie in it in order. -/
theorem layout_scan (markup : Bool) (text : Text) : Layout text (scan markup text).tokens :=
  (lexed_scan markup text).layout.1

/-! ### Places -/

namespace Stands

variable {text : Text} {t : Token}

theorem slice? (h : t.Stands text) : Text.slice? text t.start t.stop = some t.text := by
  obtain ⟨before, after, hsplit, hplace, _⟩ := h
  have hstart := start_eq_width hplace
  exact slice?_eq_some_iff.mpr ⟨before, after, hsplit, hstart.symm, rfl⟩

theorem start_boundary (h : t.Stands text) : Boundary text t.start :=
  (Boundary.of_slice? h.slice?).1

theorem stop_boundary (h : t.Stands text) : Boundary text t.stop := (Boundary.of_slice? h.slice?).2

theorem start_lt_stop (h : t.Stands text) (hk : t.kind ≠ .eof) : t.start < t.stop := by
  obtain ⟨_, _, _, _, heof | hsound⟩ := h
  · exact absurd heof.1 hk
  · obtain ⟨c, hc, _⟩ := hsound.starts
    have hne : t.text ≠ [] := by
      intro h0
      rw [h0] at hc
      cases hc
    exact Nat.lt_add_of_pos_right (width_pos hne)

theorem stop_le (h : t.Stands text) : t.stop ≤ width text := by
  obtain ⟨before, after, rfl, hplace, _⟩ := h
  have hstart := start_eq_width hplace
  rw [start] at hstart
  rw [stop, hstart, width_append, width_append]
  omega

theorem start_of_eof (h : t.Stands text) (hk : t.kind = .eof) : t.start = width text := by
  obtain ⟨before, after, htext, hplace, ⟨_, hnil, rfl⟩ | hsound⟩ := h
  · rw [start_eq_width hplace, htext, hnil]
    simp
  · exact absurd hk hsound.kind_ne

theorem start_lt_width (h : t.Stands text) (hk : t.kind ≠ .eof) : t.start < width text :=
  Nat.lt_of_lt_of_le (h.start_lt_stop hk) h.stop_le

theorem keyword (h : t.Stands text) {word : Keyword} (hk : t.kind = .keyword word) :
    t.text = word.text := by
  obtain ⟨_, _, _, _, heof | hsound⟩ := h
  · rw [heof.1] at hk
    cases hk
  · exact hsound.keyword word hk

theorem pipe (h : t.Stands text) (hk : t.kind = .pipe) : t.text = ['|', '>'] := by
  obtain ⟨_, _, _, _, heof | hsound⟩ := h
  · rw [heof.1] at hk
    cases hk
  · exact hsound.pipe hk

theorem slice?_pipe (h : t.Stands text) (hk : t.kind = .pipe) :
    Text.slice? text t.start (t.start + 2) = some ['|', '>'] := by
  have hs := h.slice?
  have htext := h.pipe hk
  rw [stop, htext] at hs
  exact hs

/-- A literal before other characters has no blank at its edges. -/
theorem firm (h : t.Stands text) (hl : t.isLiteral = true) (hlt : t.stop < width text) :
    Firm t.text := by
  obtain ⟨before, after, rfl, hplace, heof | hsound⟩ := h
  · simp [isLiteral, heof.1] at hl
  · have hstart := start_eq_width hplace
    refine ⟨hsound.starts, (hsound.literal hl).resolve_left ?_⟩
    rintro rfl
    rw [start] at hstart
    rw [stop, hstart, List.append_nil, width_append] at hlt
    omega

end Stands

namespace Layout

variable {text : Text} {ts us : List Token}

theorem sublist (h : Layout text us) (hs : ts.Sublist us) : Layout text ts :=
  ⟨fun t ht => h.stands t (hs.subset ht), h.ordered.sublist hs⟩

theorem append_left (h : Layout text (ts ++ us)) : Layout text ts :=
  h.sublist (List.sublist_append_left ts us)

theorem append_right (h : Layout text (ts ++ us)) : Layout text us :=
  h.sublist (List.sublist_append_right ts us)

theorem stop_le_start (h : Layout text (ts ++ us)) {t u : Token} (ht : t ∈ ts) (hu : u ∈ us) :
    t.stop ≤ u.start :=
  (List.pairwise_append.mp h.ordered).2.2 t ht u hu

/-- A token with characters stands at one place among the tokens. -/
theorem front_eq {t : Token} {front front' rest rest' : List Token}
    (h : Layout text (front ++ t :: rest))
    (heq : front ++ t :: rest = front' ++ t :: rest') (hk : t.kind ≠ .eof) : front = front' := by
  have hlt := (h.stands t (by simp)).start_lt_stop hk
  rcases List.append_eq_append_iff.mp heq with ⟨x, rfl, hx⟩ | ⟨x, rfl, hx⟩
  · cases x with
    | nil => simp
    | cons u x =>
      obtain ⟨rfl, rfl⟩ := List.cons.inj hx
      have hle := (List.pairwise_cons.mp h.append_right.ordered).1 t (by simp)
      omega
  · cases x with
    | nil => simp
    | cons u x =>
      obtain ⟨rfl, rfl⟩ := List.cons.inj hx
      have hle : t.stop ≤ t.start := h.stop_le_start (by simp) List.mem_cons_self
      omega

/-- Tokens with characters start at different offsets. -/
theorem suffix_eq {t u : Token} (h : Layout text us) {rest rest' : List Token}
    (ht : t :: rest <:+ us) (hu : u :: rest' <:+ us) (hstart : t.start = u.start)
    (hkt : t.kind ≠ .eof) (hku : u.kind ≠ .eof) : t = u ∧ rest = rest' := by
  -- of two suffixes that differ, one stands behind the first token of the other
  have hbehind {v w : Token} {vs ws : List Token} (hv : v :: vs <:+ us) (hw : w :: ws <:+ v :: vs)
      (heq : v.start = w.start) (hk : v.kind ≠ .eof) : v = w ∧ vs = ws := by
    have hvs := h.sublist hv.sublist
    rcases List.suffix_cons_iff.mp hw with heq' | hlater
    · cases heq'
      exact ⟨rfl, rfl⟩
    · have hmem : w ∈ vs := hlater.subset List.mem_cons_self
      have hle := (List.pairwise_cons.mp hvs.ordered).1 w hmem
      have hlt := (hvs.stands v List.mem_cons_self).start_lt_stop hk
      omega
  rcases List.suffix_or_suffix_of_suffix ht hu with htu | hut
  · obtain ⟨rfl, rfl⟩ := hbehind hu htu hstart.symm hku
    exact ⟨rfl, rfl⟩
  · exact hbehind ht hut hstart hkt

end Layout

/-- Tokens between two boundaries of the text. -/
structure Within (text : Text) (start stop : Nat) (ts : List Token) : Prop where
  layout : Layout text ts
  start_boundary : Boundary text start
  stop_boundary : Boundary text stop
  start_le : ∀ t ∈ ts, start ≤ t.start
  le_stop : ∀ t ∈ ts, t.stop ≤ stop
  le : start ≤ stop

namespace Within

variable {text : Text} {start stop : Nat} {ts us bs : List Token} {first last opener close : Token}

theorem whole {ts : List Token} (h : Layout text ts) : Within text 0 (width text) ts :=
  ⟨h, .zero text, .width text, fun _ _ => Nat.zero_le _, fun t ht => (h.stands t ht).stop_le,
    Nat.zero_le _⟩

theorem sublist (h : Within text start stop us) (hs : ts.Sublist us) : Within text start stop ts :=
  ⟨h.layout.sublist hs, h.start_boundary, h.stop_boundary, fun t ht => h.start_le t (hs.subset ht),
    fun t ht => h.le_stop t (hs.subset ht), h.le⟩

theorem empty (hs : Boundary text start) (he : Boundary text stop) (hle : start ≤ stop) :
    Within text start stop [] :=
  ⟨⟨nofun, .nil⟩, hs, he, nofun, nofun, hle⟩

theorem widen {start' : Nat} (h : Within text start stop ts) (hb : Boundary text start')
    (hle : start' ≤ start) :
    Within text start' stop ts :=
  ⟨h.layout, hb, h.stop_boundary, fun t ht => Nat.le_trans hle (h.start_le t ht), h.le_stop,
    Nat.le_trans hle h.le⟩

/-- What follows the token `last`. -/
theorem after (h : Within text start stop (us ++ ts)) (hl : us.getLast? = some last) :
    Within text last.stop stop ts := by
  have hmem := List.mem_of_getLast? hl
  have hin : last ∈ us ++ ts := List.mem_append_left ts hmem
  exact ⟨h.layout.append_right, (h.layout.stands last hin).stop_boundary, h.stop_boundary,
    fun t ht => h.layout.stop_le_start hmem ht,
    fun t ht => h.le_stop t (List.mem_append_right us ht), h.le_stop last hin⟩

/-- The tokens themselves reach from their first to their last. -/
theorem span (h : Within text start stop us) (hf : us.head? = some first)
    (hl : us.getLast? = some last) :
    Within text first.start last.stop us := by
  have hf' := List.mem_of_head? hf
  have hl' := List.mem_of_getLast? hl
  have hstart : ∀ t ∈ us, first.start ≤ t.start := by
    intro t ht
    obtain ⟨us', rfl⟩ := List.head?_eq_some_iff.mp hf
    rcases List.mem_cons.mp ht with rfl | ht
    · exact Nat.le_refl _
    · exact Nat.le_trans (Nat.le_add_right _ _) ((List.pairwise_cons.mp h.layout.ordered).1 t ht)
  have hstop : ∀ t ∈ us, t.stop ≤ last.stop := by
    intro t ht
    obtain ⟨us', rfl⟩ := List.getLast?_eq_some_iff.mp hl
    rcases List.mem_append.mp ht with ht | ht
    · exact Nat.le_trans (h.layout.stop_le_start ht (List.mem_singleton_self last))
        (Nat.le_add_right _ _)
    · exact Nat.le_of_eq (by rw [List.mem_singleton.mp ht])
  exact ⟨h.layout, (h.layout.stands first hf').start_boundary,
    (h.layout.stands last hl').stop_boundary, hstart, hstop,
    Nat.le_trans (hstart last hl') (Nat.le_add_right _ _)⟩

/-- What stands before the token `close`. -/
theorem before (h : Within text start stop (ts ++ close :: us)) :
    Within text start close.start ts := by
  have hclose : close ∈ ts ++ close :: us := List.mem_append_right ts List.mem_cons_self
  exact ⟨h.layout.append_left, h.start_boundary, (h.layout.stands close hclose).start_boundary,
    fun t ht => h.start_le t (List.mem_append_left _ ht),
    fun t ht => h.layout.stop_le_start ht List.mem_cons_self, h.start_le close hclose⟩

/-- What lies between two tokens. -/
theorem between {front rest : List Token}
    (h : Layout text (front ++ opener :: (bs ++ close :: rest))) :
    Within text opener.stop close.start bs := by
  have htail := h.append_right
  have hlater := (List.pairwise_cons.mp htail.ordered).1
  have hbs : Layout text (bs ++ close :: rest) := htail.sublist (List.sublist_cons_self opener _)
  refine ⟨hbs.append_left, (htail.stands opener List.mem_cons_self).stop_boundary,
    (hbs.stands close (by simp)).start_boundary,
    fun t ht => hlater t (List.mem_append_left _ ht), fun t ht => ?_, hlater close (by simp)⟩
  exact hbs.stop_le_start ht List.mem_cons_self

/-- The inside of a pair of brackets. -/
theorem inside (h : Within text start stop (us ++ opener :: bs ++ [close])) :
    Within text opener.stop close.start bs :=
  between (by simpa using h.layout : Layout text (us ++ opener :: (bs ++ close :: [])))

/-- A group reaches from bracket to bracket. -/
theorem group (h : Within text start stop (opener :: bs ++ [close])) :
    Within text opener.start close.stop bs :=
  (h.span rfl List.getLast?_concat).sublist
    ((List.sublist_cons_self opener bs).trans (List.sublist_append_left _ _))

/-- The tokens of a stage, without the sign before it. -/
theorem stage {sign : Token} (h : Within text start stop (sign :: us ++ ts)) :
    Within text start stop us :=
  h.sublist ((List.sublist_cons_self sign us).trans (List.sublist_append_left _ ts))

/-- What follows a stage that ends with the token `close`. -/
theorem after_stage {sign : Token} (h : Within text start stop (sign :: (us ++ [close]) ++ ts)) :
    Within text close.stop stop ts :=
  h.after (by rw [List.getLast?_cons, List.getLast?_concat]; rfl)

end Within

end Desugar.Token
