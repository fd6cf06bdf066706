import Desugar.Import
import Desugar.Proofs.Decoding
import Desugar.Proofs.Gaps

/-! The lines that tokens stand on. The line and column of a token are those that one counts in
the text before it. A string ends on the line where it starts, whether it is closed or not; a
regular expression goes on to another line only behind a backslash. The last part compares two
views of a string: the scanner says whether it came to a closing quote, and an import looks at
the first and the last character only. -/
namespace Desugar

open Text

/-! ### Counting lines and columns -/

namespace Position

theorem line_advance (p : Position) (text : Text) :
    (p.advance text).line = p.line + text.count '\n' := by
  induction text generalizing p with
  | nil => rfl
  | cons c cs ih =>
    rw [advance_cons, ih, List.count_cons, next]
    by_cases hc : c = '\n'
    · simp [hc, Nat.add_comm, Nat.add_left_comm]
    · simp [hc]

/-- The column goes on from that of the first place until a line ends. -/
theorem column_advance (p : Position) (text : Text) :
    (p.advance text).column =
      if '\n' ∈ text then 1 + (Mapping.lastLine text).length else p.column + text.length := by
  induction text generalizing p with
  | nil => rfl
  | cons c cs ih =>
    rw [advance_cons, ih]
    by_cases hmem : '\n' ∈ cs
    · rw [if_pos hmem, if_pos (List.mem_cons_of_mem c hmem), Mapping.lastLine_cons_of_mem hmem]
    · rw [if_neg hmem, List.length_cons]
      by_cases hc : c = '\n'
      · rw [hc, if_pos List.mem_cons_self, Mapping.lastLine_newline, Mapping.lastLine_eq_self hmem]
        rfl
      · rw [if_neg (by simp [hmem, Ne.symm hc]), next, if_neg hc]
        exact Nat.add_right_comm p.column 1 cs.length

theorem column_origin_advance (text : Text) :
    (origin.advance text).column = 1 + (Mapping.lastLine text).length := by
  rw [column_advance]
  split
  next => rfl
  next hmem => rw [Mapping.lastLine_eq_self hmem]; rfl

end Position

namespace Token

/-- Every token, the end of the text included, stands on the line and at the column that one
counts in the text before it. -/
theorem line_column_of_mem_scan {markup : Bool} {text : Text} {t : Token}
    (ht : t ∈ (scan markup text).tokens) :
    ∃ before, takeBytes? t.start text = some before ∧
      t.place.line = 1 + before.count '\n' ∧
      t.place.column = 1 + (Mapping.lastLine before).length := by
  obtain ⟨before, after, htext, hplace, -⟩ := (layout_scan markup text).stands t ht
  refine ⟨before, ?_, ?_, ?_⟩
  · rw [start_eq_width hplace, htext, List.append_assoc, takeBytes?_width]
  · rw [hplace, Position.line_advance]
    rfl
  · rw [hplace, Position.column_origin_advance]

/-- The last token stands behind a template and a comment that both have a line end in them. -/
theorem line_column_of_mem_scan_third :
    ∃ t ∈ (scan false "`é\n` /*\n*/ïx".toList).tokens, t.start = 14 ∧
      ∃ before, takeBytes? t.start "`é\n` /*\n*/ïx".toList = some before ∧
        t.place.line = 1 + before.count '\n' ∧
        t.place.column = 1 + (Mapping.lastLine before).length ∧ t.place = ⟨14, 3, 5⟩ := by
  have hmem : finish ⟨14, 3, 5⟩ ∈ (scan false "`é\n` /*\n*/ïx".toList).tokens := by decide +kernel
  obtain ⟨before, htake, hline, hcolumn⟩ := line_column_of_mem_scan hmem
  exact ⟨_, hmem, rfl, before, htake, hline, hcolumn, rfl⟩

/-! ### How literals are read -/

/-- What is read at `c`, before `cs`: a string, a regular expression, an element, or something
else. -/
inductive Lexeme.Form (c : Char) (cs : Text) : Lexeme → Prop where
  | string : Element.isQuote c = true → Form c cs ⟨.string, Literal.quoted c cs, false⟩
  | regex {n : Nat} : c = '/' → Literal.regex? false cs = some n → Form c cs ⟨.regex, n, false⟩
  | element : c = '<' → Element.isTagStart (c :: cs) = true → Form c cs (element cs)
  | other {lexeme : Lexeme} : lexeme.kind ≠ .string → lexeme.kind ≠ .regex →
      lexeme.kind ≠ .markup → Form c cs lexeme

namespace Lexeme

variable {c : Char} {cs : Text}

theorem form_of_plain {lexeme : Lexeme} (hk : IsPlain lexeme.kind) : Form c cs lexeme := by
  refine .other ?_ ?_ ?_ <;> intro h <;> rw [h] at hk <;> exact hk

theorem form_word : Form c cs (word c cs) := by
  have hword (text : Text) : wordKind text ≠ .string ∧ wordKind text ≠ .regex ∧
      wordKind text ≠ .markup := by
    unfold wordKind
    split <;> exact ⟨nofun, nofun, nofun⟩
  obtain ⟨hstring, hregex, hmarkup⟩ := hword (c :: cs.takeWhile isWordRest)
  exact .other hstring hregex hmarkup

theorem form_template : Form c cs (template cs) := by
  unfold template
  split <;> exact .other nofun nofun nofun

theorem form_regex (hc : c = '/') : Form c cs (regex cs) := by
  unfold regex
  split
  next hn => exact .regex hc hn
  next => exact form_of_plain trivial

theorem form_read (markup : Bool) (context : Context) (c : Char) (cs : Text) :
    Form c cs (read markup context c cs) := by
  dsimp only [read]
  split
  · exact form_word
  split
  · exact form_of_plain trivial
  split
  next hc => exact .string hc
  split
  · exact form_template
  split
  · exact .other nofun nofun nofun
  split
  · exact form_of_plain trivial
  split
  · exact form_of_plain trivial
  split
  next hc =>
    simp only [Bool.and_eq_true, beq_iff_eq] at hc
    exact .element hc.1.1.1.1 hc.1.2
  split
  next hc =>
    rw [Bool.and_eq_true, beq_iff_eq] at hc
    exact form_regex hc.1
  · exact form_of_plain (plain_signKind c)

theorem kind_element (cs : Text) : (element cs).kind = .markup ∨ (element cs).kind = .less := by
  unfold element
  split
  · split
    · exact .inl rfl
    · exact .inr rfl
  · exact .inl rfl

variable {lexeme : Lexeme}

theorem Form.of_string (h : Form c cs lexeme) (hk : lexeme.kind = .string) :
    Element.isQuote c = true ∧ lexeme.more = Literal.quoted c cs := by
  cases h with
  | string hc => exact ⟨hc, rfl⟩
  | regex => cases hk
  | element => rcases kind_element cs with h | h <;> rw [h] at hk <;> cases hk
  | other hne => exact absurd hk hne

theorem Form.of_regex (h : Form c cs lexeme) (hk : lexeme.kind = .regex) :
    c = '/' ∧ Literal.regex? false cs = some lexeme.more := by
  cases h with
  | string => cases hk
  | regex hc hn => exact ⟨hc, hn⟩
  | element => rcases kind_element cs with h | h <;> rw [h] at hk <;> cases hk
  | other _ hne => exact absurd hk hne

theorem Form.of_markup (h : Form c cs lexeme) (hk : lexeme.kind = .markup) :
    c = '<' ∧ Element.isTagStart (c :: cs) = true ∧ lexeme = Lexeme.element cs := by
  cases h with
  | string => cases hk
  | regex => cases hk
  | element hc hs => exact ⟨hc, hs, rfl⟩
  | other _ _ hne => exact absurd hk hne

end Lexeme

/-- Every token but the end of the text was read at its place. -/
theorem Lexed.exists_form {markup : Bool} {front rest : Text} {context : Context}
    {ts : List Token} (h : Lexed markup front context rest ts) {t : Token} (ht : t ∈ ts)
    (hk : t.kind ≠ .eof) :
    ∃ before c cs lexeme, front ++ rest = before ++ c :: cs ∧ Lexeme.Form c cs lexeme ∧
      t = ⟨lexeme.kind, c :: cs.take lexeme.more, Position.origin.advance before⟩ := by
  induction h with
  | done =>
    rw [List.mem_singleton.mp ht] at hk
    exact absurd rfl hk
  | @blank front context c cs more ts _ _ ih =>
    simpa only [List.append_assoc, List.cons_append, List.take_append_drop] using ih ht
  | @token front context c cs lexeme u ts _ hread hu _ ih =>
    rcases List.mem_cons.mp ht with rfl | ht
    · exact ⟨front, c, cs, lexeme, rfl, hread ▸ Lexeme.form_read markup context c cs, hu⟩
    · have htext : u.text ++ cs.drop lexeme.more = c :: cs := by
        rw [hu, List.cons_append, List.take_append_drop]
      rw [List.append_assoc, htext] at ih
      exact ih ht

theorem exists_form_of_mem_scan {markup : Bool} {text : Text} {t : Token}
    (ht : t ∈ (scan markup text).tokens) (hk : t.kind ≠ .eof) :
    ∃ before c cs lexeme, text = before ++ c :: cs ∧ Lexeme.Form c cs lexeme ∧
      t = ⟨lexeme.kind, c :: cs.take lexeme.more, Position.origin.advance before⟩ :=
  (lexed_scan markup text).exists_form ht hk

end Token

/-! ### Strings and regular expressions on their lines -/

namespace Literal

theorem newline_notMem_quoted {quote : Char} (hq : quote ≠ '\n') (cs : Text) :
    '\n' ∉ cs.take (quoted quote cs) := by
  fun_induction quoted quote cs with
  | case1 => exact List.not_mem_nil
  | case2 c hc => simp_all
  | case3 c hc d ds hd => simp_all
  | case4 c hc d ds hd ih => simp_all [Ne.symm]
  | case5 c cs hc hn => exact List.not_mem_nil
  | case6 c cs hc hn heq => simp_all [Ne.symm]
  | case7 c cs hc hn hne ih => simp_all [Ne.symm]

/-- Does the text end with a backslash that takes the next character with it? -/
def escapes : Text → Bool
  | [] => false
  | c :: cs =>
    if c == '\\' then
      match cs with
      | [] => true
      | _ :: ds => escapes ds
    else escapes cs

theorem escapes_pass {c : Char} (hc : c ≠ '\\') (cs : Text) : escapes (c :: cs) = escapes cs := by
  rw [escapes.eq_def]
  exact if_neg (by simpa using hc)

theorem exists_of_cons_eq_append {c d : Char} (hne : c ≠ d) {us front after : Text}
    (h : c :: us = front ++ d :: after) : ∃ tail, front = c :: tail ∧ us = tail ++ d :: after := by
  rcases List.cons_eq_append_iff.mp h with ⟨-, hc⟩ | hfront
  · exact absurd (List.cons.inj hc).1.symm hne
  · exact hfront

theorem newline_notMem_flags (cs : Text) : '\n' ∉ cs.take (flags cs) := fun hmem => by
  have hblank := isBlank_of_mem_flags hmem
  cases hblank

/-- Each line end in a regular expression stands behind a backslash that takes it along. -/
theorem escapes_of_regex {inClass : Bool} {n : Nat} {cs front after : Text}
    (h : regex? inClass cs = some n) (hsplit : cs.take n = front ++ '\n' :: after) :
    escapes front = true := by
  have hpass {c : Char} {cs : Text} (hn : ¬(c == '\n') = true) (hc : ¬(c == '\\') = true)
      {inClass : Bool} (ih : ∀ {m : Nat} {front : Text}, regex? inClass cs = some m →
        cs.take m = front ++ '\n' :: after → escapes front = true) {n : Nat} {front : Text}
      (h : (regex? inClass cs).map (· + 1) = some n)
      (hsplit : (c :: cs).take n = front ++ '\n' :: after) : escapes front = true := by
    obtain ⟨m, hm, rfl⟩ := Option.map_eq_some_iff.mp h
    obtain ⟨tail, rfl, htail⟩ := exists_of_cons_eq_append (by simpa using hn) hsplit
    rw [escapes_pass (by simpa using hc)]
    exact ih hm htail
  fun_induction regex? inClass cs generalizing n front with
  | case1 => cases h
  | case2 => cases h
  | case3 => cases h
  | case4 inClass c _ hc d cs ih =>
    obtain ⟨m, hm, rfl⟩ := Option.map_eq_some_iff.mp h
    cases beq_iff_eq.mp hc
    obtain ⟨tail, rfl, htail⟩ := exists_of_cons_eq_append (by decide) hsplit
    rcases List.cons_eq_append_iff.mp htail with ⟨hnil, -⟩ | ⟨rest, hrest, hsplit⟩
    · rw [hnil]
      rfl
    · rw [hrest]
      exact (ih hm hsplit : escapes rest = true)
  | case5 inClass c cs hn hc _ ih => exact hpass hn hc ih h hsplit
  | case6 inClass c cs hn hc _ _ ih => exact hpass hn hc ih h hsplit
  | case7 inClass c cs hn _ _ _ _ =>
    cases h
    obtain ⟨tail, -, htail⟩ := exists_of_cons_eq_append (by simpa using hn) hsplit
    exact absurd (htail ▸ List.mem_append_right tail List.mem_cons_self) (newline_notMem_flags cs)
  | case8 inClass c cs hn hc _ _ _ ih => exact hpass hn hc ih h hsplit

end Literal

namespace Token

/-- A string is read from its opening quote on. -/
theorem exists_quoted_of_mem_scan {markup : Bool} {text : Text} {t : Token}
    (ht : t ∈ (scan markup text).tokens) (hk : t.kind = .string) :
    ∃ before quote cs, text = before ++ quote :: cs ∧ Element.isQuote quote = true ∧
      t.place = Position.origin.advance before ∧
      t.text = quote :: cs.take (Literal.quoted quote cs) := by
  obtain ⟨before, c, cs, lexeme, htext, hform, rfl⟩ :=
    exists_form_of_mem_scan ht (by rw [hk]; nofun)
  obtain ⟨hquote, hmore⟩ := hform.of_string hk
  exact ⟨before, c, cs, htext, hquote, rfl, by rw [hmore]⟩

theorem ne_newline_of_isQuote {quote : Char} (h : Element.isQuote quote = true) :
    quote ≠ '\n' := by
  rintro rfl
  cases h

/-- Strings hold no line end, so they stop on the line where they start. A line end in a regular
expression stands behind a backslash that takes it along. -/
theorem line_end_of_mem_scan {markup : Bool} {text : Text} {t : Token}
    (ht : t ∈ (scan markup text).tokens) :
    (t.kind = .string → '\n' ∉ t.text ∧ (t.place.advance t.text).line = t.place.line) ∧
    (t.kind = .regex → ∀ front after, t.text = front ++ '\n' :: after →
      Literal.escapes front = true) := by
  constructor
  · intro hk
    obtain ⟨_, quote, cs, -, hquote, -, htext⟩ := exists_quoted_of_mem_scan ht hk
    have hne := ne_newline_of_isQuote hquote
    have hline : '\n' ∉ t.text := by
      rw [htext]
      exact List.not_mem_cons_of_ne_of_not_mem hne.symm (Literal.newline_notMem_quoted hne cs)
    rw [Position.line_advance, List.count_eq_zero_of_not_mem hline]
    exact ⟨hline, rfl⟩
  · intro hk
    obtain ⟨before, c, cs, lexeme, -, hform, rfl⟩ :=
      exists_form_of_mem_scan ht (by rw [hk]; nofun)
    obtain ⟨rfl, hregex⟩ := hform.of_regex hk
    intro front after hsplit
    obtain ⟨tail, rfl, htail⟩ := Literal.exists_of_cons_eq_append (by decide) hsplit
    rw [Literal.escapes_pass (by decide)]
    exact Literal.escapes_of_regex hregex htail

/-- A string cut off at its line end, and a regular expression over two lines. -/
theorem line_end_of_mem_scan_escaped :
    (⟨.string, ['\'', 'a', '\\'], ⟨0, 1, 1⟩⟩ ∈ (scan false "'a\\\n(/\\\n/".toList).tokens ∧
      '\n' ∉ ['\'', 'a', '\\']) ∧
    (⟨.regex, ['/', '\\', '\n', '/'], ⟨5, 2, 2⟩⟩ ∈
        (scan false "'a\\\n(/\\\n/".toList).tokens ∧
      Literal.escapes ['/', '\\'] = true) := by
  have hstring : ⟨.string, ['\'', 'a', '\\'], ⟨0, 1, 1⟩⟩ ∈
      (scan false "'a\\\n(/\\\n/".toList).tokens := by decide +kernel
  have hregex : ⟨.regex, ['/', '\\', '\n', '/'], ⟨5, 2, 2⟩⟩ ∈
      (scan false "'a\\\n(/\\\n/".toList).tokens := by decide +kernel
  exact ⟨⟨hstring, ((line_end_of_mem_scan hstring).1 rfl).1⟩,
    hregex, (line_end_of_mem_scan hregex).2 rfl ['/', '\\'] ['/'] rfl⟩

end Token

/-! ### Closed strings -/

namespace Literal

theorem exists_concat_of_isClosed {quote : Char} {us : Text} (h : isClosed quote us = true) :
    ∃ content, us = content ++ [quote] := by
  fun_induction isClosed quote us with
  | case1 => cases h
  | case2 => cases h
  | case3 c hc d us ih =>
    rw [Bool.and_eq_true] at h
    obtain ⟨content, rfl⟩ := ih h.2
    exact ⟨c :: d :: content, rfl⟩
  | case4 => cases h
  | case5 c us hc hn hq =>
    rw [List.isEmpty_iff.mp h, beq_iff_eq.mp hq]
    exact ⟨[], rfl⟩
  | case6 c us hc hn hq ih =>
    obtain ⟨content, rfl⟩ := ih h
    exact ⟨c :: content, rfl⟩

theorem isClosed_escape {d : Char} (hd : d ≠ '\n') (quote : Char) (us : Text) :
    isClosed quote ('\\' :: d :: us) = isClosed quote us := by
  rw [isClosed, if_pos (beq_self_eq_true _), bne_iff_ne.mpr hd, Bool.true_and]

theorem isClosed_pass {quote c : Char} (hb : c ≠ '\\') (hn : c ≠ '\n') (hq : c ≠ quote)
    (us : Text) : isClosed quote (c :: us) = isClosed quote us := by
  rw [isClosed.eq_def]
  simp only [beq_iff_eq, hb, hn, hq, if_false]

theorem isClosed_take_quote {quote : Char} (hb : quote ≠ '\\') (hn : quote ≠ '\n') (us : Text) :
    isClosed quote ((quote :: us).take 1) = true := by
  rw [List.take_succ_cons, List.take_zero, isClosed.eq_def]
  simp only [beq_iff_eq, hb, hn, if_false, if_true, List.isEmpty_nil]

/-- A string that is not closed ends with its line. -/
theorem atLineEnd_of_not_isClosed {quote : Char} {cs : Text}
    (h : isClosed quote (cs.take (quoted quote cs)) = false) :
    Token.AtLineEnd (cs.drop (quoted quote cs)) := by
  fun_induction quoted quote cs with
  | case1 => nofun
  | case2 => nofun
  | case3 c hc d ds hd =>
    rintro x ⟨⟩
    exact beq_iff_eq.mp hd
  | case4 c hc d ds hd ih =>
    cases beq_iff_eq.mp hc
    rw [List.take_succ_cons, List.take_succ_cons, isClosed_escape (by simpa using hd)] at h
    exact ih h
  | case5 c cs hc hn =>
    rintro x ⟨⟩
    exact beq_iff_eq.mp hn
  | case6 c cs hc hn hq =>
    cases beq_iff_eq.mp hq
    rw [isClosed_take_quote (by simpa using hc) (by simpa using hn)] at h
    cases h
  | case7 c cs hc hn hq ih =>
    rw [List.take_succ_cons, isClosed_pass (by simpa using hc) (by simpa using hn)
      (by simpa using hq)] at h
    exact ih h

/-- A string that is not closed has its own quote last only behind a backslash. -/
theorem exists_backslash_of_not_isClosed {quote : Char} (hq : quote ≠ '\\') {cs content : Text}
    (h : isClosed quote (cs.take (quoted quote cs)) = false)
    (hlast : cs.take (quoted quote cs) = content ++ [quote]) :
    ∃ body, content = body ++ ['\\'] := by
  fun_induction quoted quote cs generalizing content with
  | case1 => exact absurd hlast.symm (by simp)
  | case2 c hc =>
    obtain ⟨tail, -, htail⟩ := exists_of_cons_eq_append (beq_iff_eq.mp hc ▸ hq.symm) hlast
    exact absurd htail.symm (by simp)
  | case3 c hc d ds hd =>
    obtain ⟨tail, -, htail⟩ := exists_of_cons_eq_append (beq_iff_eq.mp hc ▸ hq.symm) hlast
    exact absurd htail.symm (by simp)
  | case4 c hc d ds hd ih =>
    cases beq_iff_eq.mp hc
    rw [List.take_succ_cons, List.take_succ_cons] at h hlast
    rw [isClosed_escape (by simpa using hd)] at h
    obtain ⟨tail, rfl, htail⟩ := exists_of_cons_eq_append hq.symm hlast
    rcases List.cons_eq_append_iff.mp htail with ⟨hnil, -⟩ | ⟨rest, hrest, hlast⟩
    · exact ⟨[], by rw [hnil]; rfl⟩
    · obtain ⟨body, rfl⟩ := ih h hlast
      exact ⟨'\\' :: d :: body, by rw [hrest]; rfl⟩
  | case5 => exact absurd hlast.symm (by simp)
  | case6 c cs hc hn heq =>
    cases beq_iff_eq.mp heq
    rw [isClosed_take_quote (by simpa using hc) (by simpa using hn)] at h
    cases h
  | case7 c cs hc hn hne ih =>
    rw [List.take_succ_cons] at h hlast
    rw [isClosed_pass (by simpa using hc) (by simpa using hn) (by simpa using hne)] at h
    obtain ⟨tail, rfl, htail⟩ := exists_of_cons_eq_append (by simpa using hne) hlast
    obtain ⟨body, rfl⟩ := ih h htail
    exact ⟨c :: body, rfl⟩

end Literal

namespace Import

theorem unquote?_eq_some_iff {quote : Char} {rest content : Text} :
    unquote? (quote :: rest) = some content ↔
      Element.isQuote quote = true ∧ rest = content ++ [quote] := by
  rw [unquote?, Option.ite_none_right_eq_some, Bool.and_eq_true, beq_iff_eq, and_assoc]
  refine and_congr_right fun _ => ?_
  constructor
  · rintro ⟨hlast, hcontent⟩
    rw [← Option.some.inj hcontent]
    exact (List.dropLast_append_getLast? _ hlast).symm
  · rintro rfl
    rw [List.getLast?_concat, List.dropLast_concat]
    exact ⟨rfl, rfl⟩

theorem ne_backslash_of_isQuote {quote : Char} (h : Element.isQuote quote = true) :
    quote ≠ '\\' := by
  rintro rfl
  cases h

/-- A string that its scanner closed gives the text between its two quotes. One that was cut off
at the end of its line gives a target exactly if its last two characters are a backslash and
its own quote, and then the target ends with that backslash. -/
theorem unquote?_of_mem_scan {markup : Bool} {text : Text} {t : Token}
    (ht : t ∈ (Token.scan markup text).tokens) (hk : t.kind = .string) :
    ∃ before quote rest after, text = before ++ t.text ++ after ∧
      t.place = Position.origin.advance before ∧
      t.text = quote :: rest ∧ Element.isQuote quote = true ∧
      (Literal.isClosed quote rest = true →
        ∃ content, rest = content ++ [quote] ∧ unquote? t.text = some content) ∧
      (Literal.isClosed quote rest = false → Token.AtLineEnd after ∧
        ∀ content, unquote? t.text = some content ↔
          ∃ body, content = body ++ ['\\'] ∧ rest = body ++ ['\\', quote]) := by
  obtain ⟨before, quote, cs, htext, hquote, hplace, hlit⟩ := Token.exists_quoted_of_mem_scan ht hk
  refine ⟨before, quote, cs.take (Literal.quoted quote cs), cs.drop (Literal.quoted quote cs),
    ?_, hplace, hlit, hquote, fun hclosed => ?_,
    fun hopen => ⟨Literal.atLineEnd_of_not_isClosed hopen, fun content => ?_⟩⟩
  · rw [htext, hlit, List.append_assoc, List.cons_append, List.take_append_drop]
  · obtain ⟨content, hcontent⟩ := Literal.exists_concat_of_isClosed hclosed
    exact ⟨content, hcontent, hlit ▸ unquote?_eq_some_iff.mpr ⟨hquote, hcontent⟩⟩
  · rw [hlit, unquote?_eq_some_iff]
    constructor
    · rintro ⟨-, hlast⟩
      obtain ⟨body, rfl⟩ := Literal.exists_backslash_of_not_isClosed
        (ne_backslash_of_isQuote hquote) hopen hlast
      exact ⟨body, rfl, by rw [hlast, List.append_assoc]; rfl⟩
    · rintro ⟨body, rfl, hrest⟩
      exact ⟨hquote, by rw [hrest, List.append_assoc]; rfl⟩

/-- The closed string gives its target with the escapes as written; the one behind it is not
closed and gives a target all the same. -/
theorem unquote?_of_mem_scan_cut :
    (⟨.string, ['\'', '\\', '\'', 'é', '\''], ⟨7, 1, 8⟩⟩ ∈
        (Token.scan false "import '\\'é'\nimport 'a\\'".toList).tokens ∧
      unquote? ['\'', '\\', '\'', 'é', '\''] = some ['\\', '\'', 'é']) ∧
    (⟨.string, ['\'', 'a', '\\', '\''], ⟨21, 2, 8⟩⟩ ∈
        (Token.scan false "import '\\'é'\nimport 'a\\'".toList).tokens ∧
      Literal.isClosed '\'' ['a', '\\', '\''] = false ∧
      unquote? ['\'', 'a', '\\', '\''] = some ['a', '\\']) := by
  have hclosed : ⟨.string, ['\'', '\\', '\'', 'é', '\''], ⟨7, 1, 8⟩⟩ ∈
      (Token.scan false "import '\\'é'\nimport 'a\\'".toList).tokens := by decide +kernel
  have hcut : ⟨.string, ['\'', 'a', '\\', '\''], ⟨21, 2, 8⟩⟩ ∈
      (Token.scan false "import '\\'é'\nimport 'a\\'".toList).tokens := by decide +kernel
  refine ⟨⟨hclosed, ?_⟩, hcut, rfl, ?_⟩
  · obtain ⟨_, quote, rest, _, -, -, hlit, -, hsome, -⟩ := unquote?_of_mem_scan hclosed rfl
    obtain ⟨rfl, rfl⟩ := List.cons.inj hlit
    obtain ⟨content, hcontent, hunquote⟩ := hsome rfl
    have hsame : content ++ ['\''] = ['\\', '\'', 'é'] ++ ['\''] := hcontent.symm
    rw [hunquote, List.append_inj_left' hsame rfl]
  · obtain ⟨_, quote, rest, _, -, -, hlit, -, -, hopen⟩ := unquote?_of_mem_scan hcut rfl
    obtain ⟨rfl, rfl⟩ := List.cons.inj hlit
    exact ((hopen rfl).2 _).mpr ⟨['a'], rfl, rfl⟩

end Import

end Desugar
