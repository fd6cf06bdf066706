import Desugar.Proofs.Emission
import Desugar.Proofs.Pieces

/-! What stands between the tokens of a text. Every character belongs to a token or to a
gap, and a gap holds nothing but blanks and comments. Where nesting grows too deep, the
token that holds it is the last one and takes the rest of the text. -/
namespace Desugar

open Unicode Text

/-! ### Comments -/

namespace Literal

/-- A comment goes through its first closing sign, or to the end if there is none. -/
theorem throughComment_cases (cs : Text) :
    (∃ body rest, cs = body ++ '*' :: '/' :: rest ∧ throughComment cs = body.length + 2 ∧
      occurs ['*', '/'] (body ++ ['*']) = false) ∨
    throughComment cs = cs.length ∧ occurs ['*', '/'] cs = false := by
  fun_induction throughComment cs with
  | case1 => exact .inr ⟨rfl, rfl⟩
  | case2 c => exact .inr ⟨rfl, by simp [occurs, List.isPrefixOf]⟩
  | case3 c d ds h =>
    simp only [Bool.and_eq_true, beq_iff_eq] at h
    obtain ⟨rfl, rfl⟩ := h
    exact .inl ⟨[], ds, rfl, rfl, rfl⟩
  | case4 c d ds h ih =>
    have hhead : ¬ ['*', '/'] <+: c :: d :: ds := by
      rintro ⟨rest, heq⟩
      cases heq
      exact h rfl
    rcases ih with ⟨body, rest, heq, hlen, hnone⟩ | ⟨hlen, hnone⟩
    · refine .inl ⟨c :: body, rest, by rw [heq]; rfl, by rw [hlen]; rfl, ?_⟩
      rw [List.cons_append, occurs, hnone, Bool.or_false, Bool.eq_false_iff, Ne,
        List.isPrefixOf_iff_prefix]
      intro hp
      refine hhead (hp.trans ⟨'/' :: rest, ?_⟩)
      rw [heq]
      simp
    · refine .inr ⟨by rw [hlen]; rfl, ?_⟩
      rw [occurs, hnone, Bool.or_false, Bool.eq_false_iff, Ne, List.isPrefixOf_iff_prefix]
      exact hhead

end Literal

namespace Token

def AtLineEnd (cs : Text) : Prop := ∀ c, cs.head? = some c → c = '\n'

/-- A comment that stands between the characters `front` and `after`. -/
inductive IsComment : (front comment after : Text) → Prop where
  | line {front body after : Text} :
      '\n' ∉ body → AtLineEnd after → IsComment front ('/' :: '/' :: body) after
  /-- The line of a script that names its interpreter, at the start of the text only. -/
  | script {body after : Text} :
      '\n' ∉ body → AtLineEnd after → IsComment [] ('#' :: '!' :: body) after
  | block {front body after : Text} :
      occurs ['*', '/'] (body ++ ['*']) = false →
      IsComment front ('/' :: '*' :: body ++ ['*', '/']) after
  /-- A comment without its closing sign runs to the end of the text. -/
  | unclosed {front body : Text} :
      occurs ['*', '/'] body = false → IsComment front ('/' :: '*' :: body) []

/-- Blanks and comments between the characters `front` and `after`. -/
inductive IsGap : (front gap after : Text) → Prop where
  | nil {front after : Text} : IsGap front [] after
  | blank {front gap after : Text} {c : Char} :
      isBlank c = true → IsGap (front ++ [c]) gap after → IsGap front (c :: gap) after
  | comment {front comment gap after : Text} :
      IsComment front comment (gap ++ after) → IsGap (front ++ comment) gap after →
      IsGap front (comment ++ gap) after

theorem IsGap.append {front gap more after : Text} (h : IsGap front gap (more ++ after))
    (hmore : IsGap (front ++ gap) more after) : IsGap front (gap ++ more) after := by
  generalize hrest : more ++ after = rest at h
  induction h with
  | nil => simpa using hmore
  | blank hc _ ih =>
    refine .blank hc (ih ?_ hrest)
    simpa using hmore
  | @comment front comment gap rest hc _ ih =>
    subst hrest
    rw [List.append_assoc]
    refine .comment (by rwa [List.append_assoc]) (ih ?_ rfl)
    rwa [List.append_assoc]

theorem IsComment.gap {front comment after : Text} (h : IsComment front comment after) :
    IsGap front comment after := by
  simpa using @IsGap.comment front comment [] after h .nil

/-- The rest of a line holds no line end and is followed by one, unless the text is over. -/
theorem restOfLine_spec (cs : Text) :
    '\n' ∉ cs.take (restOfLine cs) ∧ AtLineEnd (cs.drop (restOfLine cs)) := by
  have htake : cs.take (restOfLine cs) = cs.takeWhile (· != '\n') := take_length_takeWhile _ cs
  have hdrop : cs.drop (restOfLine cs) = cs.dropWhile (· != '\n') := drop_length_takeWhile _ cs
  constructor
  · rw [htake]
    intro hmem
    have hne := List.all_eq_true.mp List.all_takeWhile _ hmem
    simp at hne
  · rw [hdrop]
    intro c hc
    have hnot := List.head?_dropWhile_not (· != '\n') cs
    rw [hc] at hnot
    simpa using hnot

theorem restOfLine_cons {d : Char} (h : d ≠ '\n') (ds : Text) :
    restOfLine (d :: ds) = restOfLine ds + 1 := by
  simp [restOfLine, h]

/-- What the scanner passes over between tokens is a blank or a comment. -/
theorem gap_of_blank? {front cs : Text} {c : Char} {more : Nat}
    (h : blank? front.isEmpty c cs = some more) :
    IsGap front (c :: cs.take more) (cs.drop more) := by
  unfold blank? at h
  split at h
  next hb =>
    cases h
    exact .blank hb .nil
  split at h
  next hc =>
    simp only [Bool.and_eq_true, beq_iff_eq] at hc
    obtain ⟨ds, rfl⟩ := List.head?_eq_some_iff.mp hc.2
    cases h
    rw [hc.1, restOfLine_cons (by decide)]
    exact (IsComment.line (restOfLine_spec ds).1 (restOfLine_spec ds).2).gap
  split at h
  next hc =>
    simp only [Bool.and_eq_true, beq_iff_eq, List.isEmpty_iff] at hc
    obtain ⟨ds, rfl⟩ := List.head?_eq_some_iff.mp hc.1.2
    cases h
    rw [hc.1.1, hc.2, restOfLine_cons (by decide)]
    exact (IsComment.script (restOfLine_spec ds).1 (restOfLine_spec ds).2).gap
  split at h
  next hc =>
    simp only [Bool.and_eq_true, beq_iff_eq] at hc
    obtain ⟨ds, rfl⟩ := List.head?_eq_some_iff.mp hc.2
    cases h
    rw [hc.1, List.drop_one, List.tail_cons, List.take_succ_cons, List.drop_succ_cons]
    rcases Literal.throughComment_cases ds with ⟨body, rest, rfl, hlen, hnone⟩ | ⟨hlen, hnone⟩
    · have hsplit : body ++ '*' :: '/' :: rest = (body ++ ['*', '/']) ++ rest := by simp
      have hlen' : Literal.throughComment (body ++ '*' :: '/' :: rest) =
          (body ++ ['*', '/']).length := by simp [hlen]
      rw [hlen', hsplit, List.take_left, List.drop_left]
      exact (IsComment.block hnone).gap
    · rw [hlen, List.take_length, List.drop_length]
      exact (IsComment.unclosed hnone).gap
  next => cases h

/-! ### Gaps -/

/-- The spans before the tokens, from the offset `start` on. The end of the text is a token,
so the last of the spans is what stands behind all others. -/
def gaps : (start : Nat) → List Token → List Span
  | _, [] => []
  | start, t :: ts => ⟨start, t.start⟩ :: gaps t.stop ts

/-- The span of the text holds nothing but blanks and comments. -/
def Passed (text : Text) (span : Span) : Prop :=
  ∃ front gap after, text = front ++ gap ++ after ∧ width front = span.start ∧
    width (front ++ gap) = span.stop ∧ IsGap front gap after

/-- By induction over the scan, with the part `gap` of the current gap already passed. -/
theorem Lexed.passed {markup : Bool} {front rest : Text} {context : Context} {ts : List Token}
    (h : Lexed markup front context rest ts) :
    ∀ {before gap : Text}, front = before ++ gap → IsGap before gap rest →
      ∀ span ∈ gaps (width before) ts, Passed (front ++ rest) span := by
  induction h with
  | @done front context =>
    rintro before gap rfl hgap span hspan
    rw [gaps, gaps, List.mem_singleton] at hspan
    subst hspan
    exact ⟨before, gap, [], rfl, rfl, (offset_origin_advance _).symm, hgap⟩
  | @blank front context c cs more ts hb _ ih =>
    rintro before gap rfl hgap
    have hrest : c :: cs = c :: cs.take more ++ cs.drop more := by
      rw [List.cons_append, List.take_append_drop]
    rw [hrest] at hgap ⊢
    rw [← List.append_assoc]
    exact ih (List.append_assoc _ _ _) (hgap.append (gap_of_blank? hb))
  | @token front context c cs lexeme t ts hb hl ht _ ih =>
    rintro before gap rfl hgap span hspan
    have hstart : t.start = width (before ++ gap) := start_eq_width (by rw [ht])
    have hstop : t.stop = width (before ++ gap ++ t.text) := by
      rw [width_append _ t.text, ← hstart]
      rfl
    have hrest : c :: cs = t.text ++ cs.drop lexeme.more := by
      rw [ht, List.cons_append, List.take_append_drop]
    rw [gaps, hstop] at hspan
    rcases List.mem_cons.mp hspan with rfl | hspan
    · exact ⟨before, gap, c :: cs, rfl, rfl, hstart.symm, hgap⟩
    · rw [hrest, ← List.append_assoc]
      exact ih (List.append_nil _).symm .nil span hspan

/-! ### The end of the text -/

theorem Lexed.exists_finish {markup : Bool} {front rest : Text} {context : Context}
    {ts : List Token} (h : Lexed markup front context rest ts) :
    ∃ us, ts = us ++ [finish (Position.origin.advance (front ++ rest))] ∧
      ∀ t ∈ us, t.kind ≠ .eof := by
  induction h with
  | @done front context => exact ⟨[], by simp, nofun⟩
  | @blank front context c cs more ts _ _ ih =>
    simpa only [List.append_assoc, List.cons_append, List.take_append_drop] using ih
  | @token front context c cs lexeme t ts hb hl ht _ ih =>
    obtain ⟨us, hts, hus⟩ := ih
    have htext : t.text ++ cs.drop lexeme.more = c :: cs := by
      rw [ht, List.cons_append, List.take_append_drop]
    rw [List.append_assoc, htext] at hts
    refine ⟨t :: us, by rw [hts, List.cons_append], List.forall_mem_cons.mpr ⟨?_, hus⟩⟩
    have hsound := @Lexeme.sound_read c cs markup context (isBlank_of_blank?_eq_none hb) t.place
    rw [hl] at hsound
    rw [ht]
    exact hsound.kind_ne

/-- A lexeme that nests too deep takes all that follows. -/
def Lexeme.TakesRest (cs : Text) (lexeme : Lexeme) : Prop :=
  lexeme.tooDeep = true → lexeme.more = cs.length

theorem Lexeme.takesRest_read (markup : Bool) (context : Context) (c : Char) (cs : Text) :
    Lexeme.TakesRest cs (read markup context c cs) := by
  have htemplate : Lexeme.TakesRest cs (template cs) := by
    unfold template
    split
    · nofun
    · exact fun _ => rfl
  have helement : Lexeme.TakesRest cs (element cs) := by
    unfold element
    split
    · split <;> nofun
    · exact fun _ => rfl
  have hregex : Lexeme.TakesRest cs (regex cs) := by
    unfold regex
    split <;> nofun
  -- the other forms never nest
  have hword : Lexeme.TakesRest cs (word c cs) := nofun
  have hsingle : Lexeme.TakesRest cs (single (signKind c)) := nofun
  have hplain (kind : Kind) (more : Nat) : Lexeme.TakesRest cs ⟨kind, more, false⟩ := nofun
  dsimp only [read]
  grind

/-- Where nesting grows too deep, scanning ends with the token that holds it. -/
theorem Scan.tooDeep_run (markup : Bool) (p : Position) (context : Context) (before : Option Char)
    (skip : Nat) (cs : Text) {q : Position}
    (h : (run markup p context before skip cs).tooDeep = some q) :
    ∃ us t, (run markup p context before skip cs).tokens = us ++ [t, finish (p.advance cs)] ∧
      t.place = q ∧ t.stop = (p.advance cs).offset := by
  induction cs generalizing p context before skip with
  | nil => simp [run] at h
  | cons c cs ih =>
    cases skip with
    | succ skip => exact ih _ _ _ _ h
    | zero =>
      simp only [run] at h ⊢
      cases hb : blank? (p.offset == 0) c cs with
      | some more =>
        simp only [hb] at h ⊢
        exact ih _ _ _ _ h
      | none =>
        simp only [hb] at h ⊢
        split at h
        next hdeep =>
          have hmore := Lexeme.takesRest_read markup context c cs hdeep
          have hskip := run_skip markup (p.next c)
            (context.push ⟨(Lexeme.read markup context c cs).kind, c :: cs, p⟩ before cs.head?)
            (some c) cs.length cs
          rw [List.take_length, List.drop_length] at hskip
          refine ⟨[], ⟨(Lexeme.read markup context c cs).kind, c :: cs, p⟩, ?_,
            Option.some.inj h, ?_⟩
          · rw [hmore, List.take_length, hskip]
            rfl
          · rw [Position.offset_advance]
            rfl
        next =>
          obtain ⟨us, t, htokens, hplace, hstop⟩ := ih _ _ _ _ h
          exact ⟨_ :: us, t, by rw [htokens, List.cons_append]; rfl, hplace, hstop⟩

/-! ### Whole texts -/

/-- The tokens `ts` and the end of the text are what a text was cut into, without losing any
of it. -/
structure Scan.Lossless (text : Text) (ts : List Token) (s : Scan) : Prop where
  tokens : ∃ eof, s.tokens = ts ++ [eof] ∧ eof.kind = .eof ∧ eof.span = ⟨width text, width text⟩
  kind_ne : ∀ t ∈ ts, t.kind ≠ .eof
  start_lt_stop : ∀ t ∈ ts, t.start < t.stop
  /-- Tokens start and stop between characters. -/
  boundaries : ∀ t ∈ ts, Boundary text t.start ∧ Boundary text t.stop
  slice : ∀ t ∈ ts, slice? text t.start t.stop = some t.text
  ordered : ts.Pairwise fun t u => t.stop ≤ u.start
  /-- What stands before, between and behind the tokens. -/
  passed : ∀ span ∈ gaps 0 s.tokens, Passed text span
  tooDeep : ∀ p, s.tooDeep = some p → ∃ t, ts.getLast? = some t ∧ t.place = p ∧
    t.stop = width text

/-- Every text is cut into tokens, and what is not in a token is blank or a comment. -/
theorem lossless_scan (markup : Bool) (text : Text) :
    ∃ ts, (scan markup text).Lossless text ts := by
  have hlexed := lexed_scan markup text
  have hlayout := layout_scan markup text
  obtain ⟨ts, htokens, hkinds⟩ := hlexed.exists_finish
  rw [List.nil_append] at htokens
  have hmem : ∀ t ∈ ts, t ∈ (scan markup text).tokens := by
    intro t ht
    rw [htokens]
    exact List.mem_append_left _ ht
  refine ⟨ts, ⟨_, htokens, rfl, ?_⟩, hkinds, ?_, ?_, ?_, ?_, ?_, ?_⟩
  · rw [span, start_finish, stop_finish, offset_origin_advance]
  · exact fun t ht => (hlayout.stands t (hmem t ht)).start_lt_stop (hkinds t ht)
  · intro t ht
    have hstands := hlayout.stands t (hmem t ht)
    exact ⟨hstands.start_boundary, hstands.stop_boundary⟩
  · exact fun t ht => (hlayout.stands t (hmem t ht)).slice?
  · exact (htokens ▸ hlayout).append_left.ordered
  · exact hlexed.passed (List.append_nil []).symm .nil
  · intro p hp
    obtain ⟨us, t, hus, hplace, hstop⟩ := Scan.tooDeep_run markup _ _ _ _ _ hp
    have hlast : ts = us ++ [t] := by
      have heq : ts ++ [finish (Position.origin.advance text)] =
          (us ++ [t]) ++ [finish (Position.origin.advance text)] := by
        rw [← htokens, List.append_assoc]
        exact hus
      exact List.append_cancel_right heq
    refine ⟨t, by rw [hlast, List.getLast?_concat], hplace, ?_⟩
    rw [hstop, offset_origin_advance]

end Token

end Desugar
