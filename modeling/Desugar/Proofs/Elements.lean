import Desugar.Proofs.Locality
import Desugar.Proofs.Slice

/-! Where well-formed elements end. Elements and the containers in them are described by rules
that give each of them its depth, the number of containers that lie one in the other with
elements between them. Scanning passes over every part of an element and stops behind it, before
whatever text follows, as long as the depth is at most 128; it gives up on every deeper one. -/
namespace Desugar.Element

open Unicode Literal

/-! ### Rules -/

/-- The inside of a quoted string, where a backslash takes the next character with it. -/
inductive IsQuoted (quote : Char) : Text → Prop where
  | nil : IsQuoted quote []
  | escape {c : Char} {cs : Text} : IsQuoted quote cs → IsQuoted quote ('\\' :: c :: cs)
  | char {c : Char} {cs : Text} :
      c ≠ '\\' → c ≠ quote → IsQuoted quote cs → IsQuoted quote (c :: cs)

/-- The last character of the text that is not blank, or `last` if there is none. -/
def lastVisible (last : Char) : Text → Char
  | [] => last
  | c :: cs => lastVisible (if isAsciiBlank c then last else c) cs

mutual

/-- An element of the given depth. What follows the first letter of a tag is read in the same
way whether it belongs to the name or to the attributes. -/
inductive IsElement : (depth : Nat) → Text → Prop where
  | single {depth : Nat} {letter : Char} {attrs : Text} :
      letter.isAlpha = true → IsAttrs depth attrs →
      IsElement depth ('<' :: letter :: attrs ++ ['/', '>'])
  | paired {outer inner : Nat} {letter : Char} {attrs children name : Text} :
      letter.isAlpha = true → IsAttrs outer attrs → attrs.getLast? ≠ some '/' →
      IsChildren inner children → '>' ∉ name →
      IsElement (max outer inner)
        ('<' :: letter :: attrs ++ '>' :: (children ++ '<' :: '/' :: name ++ ['>']))
  | fragment {depth : Nat} {children : Text} :
      IsChildren depth children → IsElement depth ('<' :: '>' :: (children ++ ['<', '/', '>']))

/-- The attributes of a tag. -/
inductive IsAttrs : (depth : Nat) → Text → Prop where
  | nil : IsAttrs 0 []
  | char {depth : Nat} {c : Char} {cs : Text} :
      isQuote c = false → c ≠ '{' → c ≠ '>' → IsAttrs depth cs → IsAttrs depth (c :: cs)
  | string {depth : Nat} {quote : Char} {body cs : Text} :
      isQuote quote = true → IsQuoted quote body → IsAttrs depth cs →
      IsAttrs depth (quote :: body ++ quote :: cs)
  | container {outer inner : Nat} {u cs : Text} :
      IsContainer outer u → IsAttrs inner cs → IsAttrs (max outer inner) (u ++ cs)

/-- What stands between an opening tag and its closing tag. -/
inductive IsChildren : (depth : Nat) → Text → Prop where
  | nil : IsChildren 0 []
  | char {depth : Nat} {c : Char} {cs : Text} :
      c ≠ '{' → isTagStart (c :: cs) = false → IsChildren depth cs → IsChildren depth (c :: cs)
  | element {outer inner : Nat} {u cs : Text} :
      IsElement outer u → IsChildren inner cs → IsChildren (max outer inner) (u ++ cs)
  | container {outer inner : Nat} {u cs : Text} :
      IsContainer outer u → IsChildren inner cs → IsChildren (max outer inner) (u ++ cs)

/-- A container with its braces. -/
inductive IsContainer : (depth : Nat) → Text → Prop where
  | mk {depth : Nat} {cs : Text} :
      IsContents depth '{' cs → IsContainer (depth + 1) ('{' :: cs ++ ['}'])

/-- What stands in a container, behind the character `last` and blanks. -/
inductive IsContents : (depth : Nat) → (last : Char) → Text → Prop where
  | nil {last : Char} : IsContents 0 last []
  | braces {outer inner : Nat} {last : Char} {body cs : Text} :
      IsContents outer '{' body → IsContents inner '}' cs →
      IsContents (max outer inner) last ('{' :: body ++ '}' :: cs)
  | string {depth : Nat} {last quote : Char} {body cs : Text} :
      isQuote quote = true ∨ quote = '`' → IsQuoted quote body → IsContents depth quote cs →
      IsContents depth last (quote :: body ++ quote :: cs)
  | line {depth : Nat} {last : Char} {body cs : Text} :
      '\n' ∉ body → IsContents depth (lastVisible '/' body) cs →
      IsContents depth last ('/' :: '/' :: body ++ '\n' :: cs)
  | comment {depth : Nat} {last : Char} {body cs : Text} :
      Text.occurs ['*', '/'] (body ++ ['*']) = false → IsContents depth '/' cs →
      IsContents depth last ('/' :: '*' :: body ++ '*' :: '/' :: cs)
  | element {outer inner : Nat} {last : Char} {u cs : Text} :
      opensExpression last = true → IsElement outer u → IsContents inner '>' cs →
      IsContents (max outer inner) last (u ++ cs)
  /-- A slash begins no comment, and a tag stands only where no expression may. -/
  | char {depth : Nat} {last c : Char} {cs : Text} :
      c ≠ '{' → c ≠ '}' → isQuote c = false → c ≠ '`' →
      (c = '/' → cs.head? ≠ some '/' ∧ cs.head? ≠ some '*') →
      (isTagStart (c :: cs) = true → opensExpression last = false) →
      IsContents depth (if isAsciiBlank c then last else c) cs → IsContents depth last (c :: cs)

end

/-! ### Limits -/

/-- The outcome of scanning something of the given depth where only `limit` containers may lie
one in the other. -/
def capped {α : Type} (depth limit : Nat) (x : Option α) : Option α :=
  if depth ≤ limit then x else none

section Capped

variable {α β : Type} (depth limit : Nat)

@[simp] theorem capped_zero (x : Option α) : capped 0 limit x = x := if_pos (Nat.zero_le limit)

theorem capped_max (a b : Nat) (x : Option α) :
    capped (max a b) limit x = capped a limit (capped b limit x) := by
  unfold capped
  by_cases ha : a ≤ limit
  · simp only [Nat.max_le, ha, true_and, if_true]
  · simp only [Nat.max_le, ha, false_and, if_false]

@[simp] theorem map_capped (f : α → β) (x : Option α) :
    (capped depth limit x).map f = capped depth limit (x.map f) := by
  unfold capped
  split <;> rfl

theorem capped_succ (x : Option α) : capped (depth + 1) (limit + 1) x = capped depth limit x := by
  simp only [capped, Nat.add_le_add_iff_right]

end Capped

theorem map_add_map_add (x : Option Nat) (m n : Nat) :
    (x.map (· + m)).map (· + n) = x.map (· + (m + n)) := by
  cases x <;> simp [Nat.add_assoc]

/-- The rest of a tag with `n` more characters before it. -/
def ahead (n : Nat) (r : Nat × Bool) : Nat × Bool := (r.1 + n, r.2)

theorem map_ahead_map_ahead (x : Option (Nat × Bool)) (m n : Nat) :
    (x.map (ahead m)).map (ahead n) = x.map (ahead (m + n)) := by
  cases x <;> simp [ahead, Nat.add_assoc]

theorem succ_le_one (n : Nat) : n + 1 ≤ 1 ↔ n = 0 := by omega

theorem length_concat (u : Text) (c : Char) : (u ++ [c]).length = u.length + 1 :=
  List.length_append

/-! ### Strings and comments -/

theorem throughQuote_quoted {quote : Char} (hq : quote ≠ '\\') {body : Text}
    (h : IsQuoted quote body) (cs : Text) :
    throughQuote quote (body ++ quote :: cs) = body.length + 1 := by
  rw [throughQuote_eq hq]
  induction h with
  | nil => exact @escaped_stop (· == quote) quote (beq_self_eq_true quote) cs
  | @escape c body _ ih =>
    have hslash : ('\\' == quote) = false := beq_eq_false_iff_ne.mpr hq.symm
    rw [List.cons_append, List.cons_append, escaped.eq_def]
    simp only [hslash, ih, Bool.false_eq_true, if_false, beq_self_eq_true, if_true]
    rfl
  | @char c body hc hne _ ih =>
    have hpass : (c == quote) = false := beq_eq_false_iff_ne.mpr hne
    rw [List.cons_append, @escaped_pass (· == quote) c hpass hc, ih, List.length_cons]

theorem ne_backslash {quote : Char} (h : isQuote quote = true ∨ quote = '`') : quote ≠ '\\' := by
  rintro rfl
  rcases h with h | h <;> cases h

theorem isAsciiBlank_of_quote {quote : Char} (h : isQuote quote = true ∨ quote = '`') :
    isAsciiBlank quote = false := by
  rcases h with h | rfl
  · obtain rfl | rfl : quote = '"' ∨ quote = '\'' := by simpa [isQuote] using h
    all_goals rfl
  · rfl

theorem through_body {c : Char} {body : Text} (h : c ∉ body) (cs : Text) :
    through c (body ++ c :: cs) = body.length + 1 := by
  induction body with
  | nil => simp [through]
  | cons d body ih =>
    rw [List.mem_cons, not_or] at h
    rw [List.cons_append, through, if_neg (by simpa using Ne.symm h.1), ih h.2, List.length_cons]

theorem throughComment_body {body : Text} (h : Text.occurs ['*', '/'] (body ++ ['*']) = false)
    (cs : Text) : throughComment (body ++ '*' :: '/' :: cs) = body.length + 2 := by
  induction body with
  | nil => rfl
  | cons c body ih =>
    rw [List.cons_append, Text.occurs, Bool.or_eq_false_iff] at h
    obtain ⟨d, ds, hd, hsign⟩ : ∃ d ds, body ++ '*' :: '/' :: cs = d :: ds ∧
        (c == '*' && d == '/') = false := by
      cases body with
      | nil => exact ⟨'*', '/' :: cs, rfl, Bool.and_false _⟩
      | cons d body =>
        refine ⟨d, _, rfl, ?_⟩
        simpa [List.isPrefixOf, Bool.beq_comm] using h.1
    rw [List.cons_append, hd, throughComment, hsign, ← hd, ih h.2]
    rfl

/-! ### Passing over characters -/

section Passing

variable (scan : Text → Option Nat) (rest : Text)

theorem openTag?_pass (u : Text) :
    openTag? scan u.length (u ++ rest) = (openTag? scan 0 rest).map (ahead u.length) := by
  induction u with
  | nil => exact Option.map_id'.symm
  | cons c u ih =>
    rw [List.length_cons, List.cons_append, openTag?, ih]
    exact map_ahead_map_ahead _ _ 1

theorem tags?_pass (depth : Nat) (u : Text) :
    tags? scan depth u.length (u ++ rest) = (tags? scan depth 0 rest).map (· + u.length) := by
  induction u with
  | nil => exact Option.map_id'.symm
  | cons c u ih => rw [List.length_cons, List.cons_append, tags?, ih, map_add_map_add]

theorem braces?_pass (depth : Nat) (last : Char) (u : Text) :
    braces? scan depth (some last) u.length (u ++ rest) =
      (braces? scan depth (some (lastVisible last u)) 0 rest).map (· + u.length) := by
  induction u generalizing last with
  | nil => exact Option.map_id'.symm
  | cons c u ih =>
    rw [List.length_cons, List.cons_append, braces?, ← apply_ite some, ih, map_add_map_add,
      lastVisible]

end Passing

theorem lastVisible_append (last : Char) (u v : Text) :
    lastVisible last (u ++ v) = lastVisible (lastVisible last u) v := by
  induction u generalizing last with
  | nil => rfl
  | cons c u ih => exact ih _

theorem lastVisible_of_visible {c : Char} (hc : isAsciiBlank c = false) (last : Char) (u v : Text) :
    lastVisible last (u ++ c :: v) = lastVisible c v := by
  rw [lastVisible_append, lastVisible, hc]
  rfl

/-! ### Opening tags -/

section OpenTag

variable {scan : Text → Option Nat} {cs : Text}

theorem openTag?_char {c : Char} (hquote : isQuote c = false) (hbrace : c ≠ '{') (hend : c ≠ '>')
    (hslash : c = '/' → cs.head? ≠ some '>') :
    openTag? scan 0 (c :: cs) = (openTag? scan 0 cs).map (ahead 1) := by
  have hself : (c == '/' && cs.head? == some '>') = false := by
    rw [Bool.and_eq_false_imp]
    intro hc
    exact beq_eq_false_iff_ne.mpr (hslash (beq_iff_eq.mp hc))
  rw [openTag?, hquote, hself]
  simp only [Bool.false_eq_true, if_false, beq_iff_eq, hbrace, hend]
  rfl

theorem openTag?_string {quote : Char} (hquote : isQuote quote = true) {body : Text}
    (hbody : IsQuoted quote body) :
    openTag? scan 0 (quote :: (body ++ quote :: cs)) =
      (openTag? scan 0 cs).map (ahead (body.length + 2)) := by
  rw [openTag?, if_pos hquote, throughQuote_quoted (ne_backslash (.inl hquote)) hbody,
    List.append_cons, ← length_concat, openTag?_pass, length_concat]
  exact map_ahead_map_ahead _ _ 1

theorem openTag?_container {depth limit : Nat} {u : Text}
    (h : scan ('{' :: (u ++ cs)) = capped depth limit (some (u.length + 1))) :
    openTag? scan 0 ('{' :: (u ++ cs)) =
      capped depth limit ((openTag? scan 0 cs).map (ahead (u.length + 1))) := by
  rw [openTag?, if_neg (by decide), if_pos (by decide), h]
  by_cases hle : depth ≤ limit
  · simp only [capped, hle, if_true, Nat.add_sub_cancel, openTag?_pass]
    exact map_ahead_map_ahead _ _ 1
  · simp only [capped, hle, if_false]

end OpenTag

/-! ### Tags and what stands between them -/

/-- How the scan of tags goes on behind an element, with `depth` elements still open. -/
def resume (scan : Text → Option Nat) (depth : Nat) (cs : Text) : Option Nat :=
  if depth = 0 then some 0 else tags? scan depth 0 cs

theorem isTagStart_cons_append {c d : Char} {cs rest : Text} (h : isTagStart (c :: cs) = false)
    (hrest : rest.head? = some d) (hd : isTagStart ['<', d] = false) :
    isTagStart (c :: (cs ++ rest)) = false := by
  cases cs with
  | nil =>
    obtain ⟨ds, rfl⟩ : ∃ ds, rest = d :: ds := List.head?_eq_some_iff.mp hrest
    unfold isTagStart at hd ⊢
    split <;> simp_all
  | cons e cs => rw [isTagStart_append cs [] rest, List.append_nil, h]

section Tags

variable {scan : Text → Option Nat} {cs : Text} (depth : Nat)

theorem tags?_single {d limit : Nat} {u : Text} (hstart : isTagStart ('<' :: (u ++ cs)) = true)
    (hslash : (u ++ cs).head? ≠ some '/')
    (h : openTag? scan 0 (u ++ cs) = capped d limit (some (u.length, true))) :
    tags? scan depth 0 ('<' :: (u ++ cs)) =
      capped d limit ((resume scan depth cs).map (· + (u.length + 1))) := by
  rw [tags?, if_pos hstart, if_neg (by simpa using hslash), h]
  by_cases hle : d ≤ limit
  · simp only [capped, hle, if_true, resume, tags?_pass, map_add_map_add]
    split
    · rw [Option.map_some, Nat.zero_add]
    · rfl
  · simp only [capped, hle, if_false]

theorem tags?_open {d limit : Nat} {u : Text} (hstart : isTagStart ('<' :: (u ++ cs)) = true)
    (hslash : (u ++ cs).head? ≠ some '/')
    (h : openTag? scan 0 (u ++ cs) = capped d limit (some (u.length, false))) :
    tags? scan depth 0 ('<' :: (u ++ cs)) =
      capped d limit ((tags? scan (depth + 1) 0 cs).map (· + (u.length + 1))) := by
  rw [tags?, if_pos hstart, if_neg (by simpa using hslash), h]
  by_cases hle : d ≤ limit
  · simp only [capped, hle, if_true, tags?_pass, map_add_map_add]
  · simp only [capped, hle, if_false]

theorem tags?_close {name : Text} (hname : '>' ∉ name) :
    tags? scan (depth + 1) 0 ('<' :: '/' :: (name ++ '>' :: cs)) =
      (resume scan depth cs).map (· + (name.length + 3)) := by
  rw [tags?, if_pos (by rfl), if_pos (by rfl)]
  have hpass := tags?_pass scan cs depth ('/' :: (name ++ ['>']))
  simp only [List.length_cons, length_concat, List.cons_append, List.append_assoc,
    List.nil_append] at hpass
  simp only [List.drop_succ_cons, List.drop_zero, through_body hname, succ_le_one,
    Nat.add_sub_cancel, resume, hpass]
  split
  · rw [Option.map_some, Nat.zero_add]
  · rw [map_add_map_add]

variable (hd : 0 < depth)

include hd

theorem tags?_char {c : Char} (hstart : isTagStart (c :: cs) = false) (hbrace : c ≠ '{') :
    tags? scan depth 0 (c :: cs) = (tags? scan depth 0 cs).map (· + 1) := by
  rw [tags?, hstart, if_neg Bool.false_ne_true, if_neg (Nat.ne_of_gt hd),
    if_neg (by simpa using hbrace)]

theorem tags?_container {d limit : Nat} {u : Text}
    (h : scan ('{' :: (u ++ cs)) = capped d limit (some (u.length + 1))) :
    tags? scan depth 0 ('{' :: (u ++ cs)) =
      capped d limit ((tags? scan depth 0 cs).map (· + (u.length + 1))) := by
  rw [tags?, if_neg (by simp [isTagStart]), if_neg (Nat.ne_of_gt hd), if_pos (by rfl), h]
  by_cases hle : d ≤ limit
  · simp only [capped, hle, if_true, Nat.add_sub_cancel, tags?_pass, map_add_map_add]
  · simp only [capped, hle, if_false]

end Tags

/-! ### Containers -/

section Braces

variable {scan : Text → Option Nat} {cs : Text} (depth : Nat) (last : Char)

theorem braces?_open (before : Option Char) :
    braces? scan depth before 0 ('{' :: cs) =
      (braces? scan (depth + 1) (some '{') 0 cs).map (· + 1) := by
  rw [braces?, if_pos (by rfl)]
  rfl

theorem braces?_close :
    braces? scan (depth + 1) (some last) 0 ('}' :: cs) =
      if depth = 0 then some 1 else (braces? scan depth (some '}') 0 cs).map (· + 1) := by
  rw [braces?, if_neg (by decide), if_pos (by rfl), Nat.add_sub_cancel]
  simp only [succ_le_one]
  rfl

theorem braces?_over {c : Char} (hc : isAsciiBlank c = false) (u : Text) :
    (braces? scan depth (if isAsciiBlank c then some last else some c) u.length (u ++ cs)).map
        (· + 1) =
      (braces? scan depth (some (lastVisible c u)) 0 cs).map (· + (u.length + 1)) := by
  rw [hc, if_neg Bool.false_ne_true, braces?_pass, map_add_map_add]

theorem braces?_string {quote : Char} (hquote : isQuote quote = true ∨ quote = '`') {body : Text}
    (hbody : IsQuoted quote body) :
    braces? scan depth (some last) 0 (quote :: (body ++ quote :: cs)) =
      (braces? scan depth (some quote) 0 cs).map (· + (body.length + 2)) := by
  have hopen : ¬(quote == '{') = true := by rintro h; simp_all [isQuote]
  have hclose : ¬(quote == '}') = true := by rintro h; simp_all [isQuote]
  have hblank := isAsciiBlank_of_quote hquote
  have hover := @braces?_over scan cs depth last quote hblank (body ++ [quote])
  rw [length_concat, ← List.append_cons, lastVisible_of_visible hblank quote body []] at hover
  rw [braces?, if_neg hopen, if_neg hclose, if_pos (by simpa using hquote),
    throughQuote_quoted (ne_backslash hquote) hbody]
  exact hover

theorem braces?_line {body : Text} (hbody : '\n' ∉ body) :
    braces? scan depth (some last) 0 ('/' :: '/' :: (body ++ '\n' :: cs)) =
      (braces? scan depth (some (lastVisible '/' body)) 0 cs).map (· + (body.length + 3)) := by
  have hline : '\n' ∉ '/' :: body := by simpa using hbody
  have hover := @braces?_over scan cs depth last '/' rfl ('/' :: body ++ ['\n'])
  rw [length_concat, ← List.append_cons, lastVisible_append] at hover
  rw [braces?, if_neg (by decide), if_neg (by decide), if_neg (by decide), if_pos (by rfl),
    ← List.cons_append, through_body hline]
  exact hover

theorem braces?_comment {body : Text} (hbody : Text.occurs ['*', '/'] (body ++ ['*']) = false) :
    braces? scan depth (some last) 0 ('/' :: '*' :: (body ++ '*' :: '/' :: cs)) =
      (braces? scan depth (some '/') 0 cs).map (· + (body.length + 4)) := by
  have hover := @braces?_over scan cs depth last '/' rfl ('*' :: body ++ ['*'] ++ ['/'])
  rw [length_concat, length_concat, lastVisible_of_visible rfl, ← List.append_cons,
    ← List.append_cons] at hover
  rw [braces?, if_neg (by decide), if_neg (by decide), if_neg (by decide), if_neg (by simp),
    if_pos (by rfl), List.drop_succ_cons, List.drop_zero, throughComment_body hbody]
  exact hover

theorem braces?_element {d limit : Nat} {u : Text} (hstart : isTagStart ('<' :: (u ++ cs)) = true)
    (hlast : opensExpression last = true)
    (h : scan ('<' :: (u ++ cs)) = capped d limit (some (u.length + 1))) :
    braces? scan depth (some last) 0 ('<' :: (u ++ cs)) =
      capped d limit
        ((braces? scan depth (some (lastVisible '<' u)) 0 cs).map (· + (u.length + 1))) := by
  rw [braces?, if_neg (by decide), if_neg (by decide), if_neg (by decide), if_neg (by simp),
    if_neg (by simp), if_pos (by simp [hstart, hlast]), h]
  by_cases hle : d ≤ limit
  · simp only [capped, hle, if_true, Nat.add_sub_cancel]
    exact braces?_over depth last rfl u
  · simp only [capped, hle, if_false]

theorem braces?_char {c : Char} (hopen : c ≠ '{') (hclose : c ≠ '}') (hquote : isQuote c = false)
    (htick : c ≠ '`') (hslash : c = '/' → cs.head? ≠ some '/' ∧ cs.head? ≠ some '*')
    (htag : isTagStart (c :: cs) = true → opensExpression last = false) :
    braces? scan depth (some last) 0 (c :: cs) =
      (braces? scan depth (some (if isAsciiBlank c then last else c)) 0 cs).map (· + 1) := by
  have hline : ¬(c == '/' && cs.head? == some '/') = true := by
    simpa using fun hc => (hslash hc).1
  have hcomment : ¬(c == '/' && cs.head? == some '*') = true := by
    simpa using fun hc => (hslash hc).2
  have helement : ¬(isTagStart (c :: cs) && (some last).any opensExpression) = true := by
    simpa using htag
  rw [braces?, if_neg (by simpa using hopen), if_neg (by simpa using hclose),
    if_neg (by simp [hquote, htick]), if_neg hline, if_neg hcomment, if_neg helement,
    ← apply_ite some]

end Braces

/-! ### Whole elements -/

theorem isTagStart_letter {c : Char} (h : c.isAlpha = true) (cs : Text) :
    isTagStart ('<' :: c :: cs) = true := by
  simp [isTagStart, h]

/-- An element begins like a tag, whatever follows, and ends with a tag. -/
theorem IsElement.shape {d : Nat} {e : Text} (h : IsElement d e) :
    ∃ u, e = '<' :: (u ++ ['>']) ∧ ∀ cs, isTagStart ('<' :: (u ++ cs)) = true := by
  cases h with
  | @single _ letter attrs hletter _ =>
    exact ⟨letter :: attrs ++ ['/'], by simp, fun cs => isTagStart_letter hletter _⟩
  | @paired _ _ letter attrs children name hletter _ _ _ _ =>
    exact ⟨letter :: attrs ++ '>' :: (children ++ '<' :: '/' :: name), by simp,
      fun cs => isTagStart_letter hletter _⟩
  | @fragment _ children _ =>
    exact ⟨'>' :: (children ++ ['<', '/']), by simp, fun cs => rfl⟩

theorem IsContainer.shape {d : Nat} {u : Text} (h : IsContainer d u) : ∃ v, u = '{' :: v := by
  cases h
  exact ⟨_, rfl⟩

theorem IsAttrs.head {d : Nat} {cs : Text} (h : IsAttrs d cs) : cs.head? ≠ some '>' := by
  cases h with
  | nil => exact Option.some_ne_none _ |>.symm
  | char _ _ hend _ => simpa using hend
  | @string _ quote _ _ hquote _ _ =>
    intro hhead
    cases Option.some.inj hhead
    cases hquote
  | container hu _ =>
    obtain ⟨v, rfl⟩ := hu.shape
    rw [List.cons_append, List.head?_cons]
    decide

theorem ne_slash_of_isAlpha {c : Char} (h : c.isAlpha = true) : c ≠ '/' := by
  rintro rfl
  cases h

theorem openTag?_letter {scan : Text → Option Nat} {letter : Char}
    (hletter : letter.isAlpha = true) (cs : Text) :
    openTag? scan 0 (letter :: cs) = (openTag? scan 0 cs).map (ahead 1) := by
  have hquote : isQuote letter = false := by
    rw [isQuote, Bool.or_eq_false_iff, beq_eq_false_iff_ne, beq_eq_false_iff_ne]
    constructor <;> (rintro rfl; cases hletter)
  refine openTag?_char hquote ?_ ?_ fun hc => absurd hc (ne_slash_of_isAlpha hletter)
  all_goals
    rintro rfl
    cases hletter

theorem tags?_pair {scan : Text → Option Nat} {outer inner limit depth : Nat}
    {u children name : Text} (hstart : ∀ cs, isTagStart ('<' :: (u ++ cs)) = true)
    (hslash : ∀ cs, (u ++ cs).head? ≠ some '/')
    (hopen : ∀ cs, openTag? scan 0 (u ++ cs) = capped outer limit (some (u.length, false)))
    (hchildren : ∀ cs, cs.head? = some '<' → tags? scan (depth + 1) 0 (children ++ cs) =
      capped inner limit ((tags? scan (depth + 1) 0 cs).map (· + children.length)))
    (hname : '>' ∉ name) (rest : Text) :
    tags? scan depth 0 ('<' :: (u ++ (children ++ '<' :: '/' :: (name ++ '>' :: rest)))) =
      capped (max outer inner) limit ((resume scan depth rest).map
        (· + (name.length + 3 + (children.length + (u.length + 1))))) := by
  rw [tags?_open depth (hstart _) (hslash _) (hopen _), hchildren _ rfl, tags?_close depth hname,
    map_capped, map_add_map_add, map_add_map_add, capped_max]

-- There is one theorem for each sort of text, by induction on the rules. A container takes two
-- levels of scanners, its own and that of the elements in it.

mutual

/-- With room for `k` containers, the scan of tags goes on behind an element. -/
theorem tags?_of_isElement (k : Nat) : ∀ {d : Nat} {e : Text}, IsElement d e →
    ∀ (depth : Nat) (rest : Text), tags? (container? (2 * k)) depth 0 (e ++ rest) =
      capped d k ((resume (container? (2 * k)) depth rest).map (· + e.length))
  | _, _, @IsElement.single d letter attrs hletter hattrs, depth, rest => by
    have hopen : openTag? (container? (2 * k)) 0 ((letter :: attrs ++ ['/', '>']) ++ rest) =
        capped d k (some ((letter :: attrs ++ ['/', '>']).length, true)) := by
      rw [List.append_assoc, List.cons_append, openTag?_letter hletter,
        openTag?_of_isAttrs k hattrs _ fun _ => by simp, map_capped, map_ahead_map_ahead,
        List.length_append, Nat.add_comm (letter :: attrs).length]
      rfl
    exact tags?_single depth (isTagStart_letter hletter _)
      (by simpa using ne_slash_of_isAlpha hletter) hopen
  | _, _, @IsElement.paired outer inner letter attrs children name hletter hattrs hlast hchildren
      hname, depth, rest => by
    have hopen (cs : Text) : openTag? (container? (2 * k)) 0 ((letter :: attrs ++ ['>']) ++ cs) =
        capped outer k (some ((letter :: attrs ++ ['>']).length, false)) := by
      rw [List.append_assoc, List.cons_append, openTag?_letter hletter,
        openTag?_of_isAttrs k hattrs _ fun h => absurd h hlast, map_capped, map_ahead_map_ahead,
        List.length_append, Nat.add_comm (letter :: attrs).length]
      rfl
    have hpair := tags?_pair (fun cs => isTagStart_letter hletter _)
      (fun cs => by simpa using ne_slash_of_isAlpha hletter) hopen
      (fun cs => tags?_of_isChildren k hchildren cs (Nat.succ_pos depth)) hname rest
    have htext : '<' :: letter :: attrs ++
          '>' :: (children ++ '<' :: '/' :: name ++ ['>']) ++ rest =
        '<' :: (letter :: attrs ++ ['>'] ++ (children ++ '<' :: '/' :: (name ++ '>' :: rest))) := by
      simp
    have hlength : ('<' :: letter :: attrs ++
          '>' :: (children ++ '<' :: '/' :: name ++ ['>'])).length =
        name.length + 3 + (children.length + ((letter :: attrs ++ ['>']).length + 1)) := by
      simp only [List.length_append, List.length_cons, List.length_nil]
      omega
    rw [htext, hlength, hpair]
  | _, _, @IsElement.fragment d children hchildren, depth, rest => by
    have hpair := @tags?_pair (container? (2 * k)) 0 d k depth ['>'] children [] (fun cs => rfl)
      (fun cs => by simp) (fun cs => rfl)
      (fun cs => tags?_of_isChildren k hchildren cs (Nat.succ_pos depth)) (by simp) rest
    have htext : '<' :: '>' :: (children ++ ['<', '/', '>']) ++ rest =
        '<' :: (['>'] ++ (children ++ '<' :: '/' :: ([] ++ '>' :: rest))) := by
      simp
    have hlength : ('<' :: '>' :: (children ++ ['<', '/', '>'])).length =
        3 + (children.length + 2) := by
      simp only [List.length_append, List.length_cons, List.length_nil]
      omega
    rw [htext, hlength, hpair, Nat.zero_max]
    rfl

theorem openTag?_of_isAttrs (k : Nat) : ∀ {d : Nat} {cs : Text}, IsAttrs d cs →
    ∀ rest : Text, (cs.getLast? = some '/' → rest.head? ≠ some '>') →
      openTag? (container? (2 * k)) 0 (cs ++ rest) =
        capped d k ((openTag? (container? (2 * k)) 0 rest).map (ahead cs.length))
  | _, _, .nil, rest, _ => by
    rw [capped_zero]
    exact Option.map_id'.symm
  | _, _, @IsAttrs.char d c cs hquote hbrace hend h, rest, hrest => by
    have hslash : c = '/' → (cs ++ rest).head? ≠ some '>' := by
      cases cs with
      | nil => exact fun hc => hrest (congrArg some hc)
      | cons e cs => exact fun _ => h.head
    rw [List.cons_append, openTag?_char hquote hbrace hend hslash,
      openTag?_of_isAttrs k h rest fun hcs => hrest (by rw [List.getLast?_cons, hcs]; rfl),
      map_capped, map_ahead_map_ahead, List.length_cons]
  | _, _, @IsAttrs.string d quote body cs hquote hbody h, rest, hrest => by
    have hlast : (quote :: body ++ quote :: cs).length = cs.length + (body.length + 2) := by
      simp only [List.length_append, List.length_cons]
      omega
    rw [List.append_assoc, List.cons_append, List.cons_append, openTag?_string hquote hbody,
      openTag?_of_isAttrs k h rest fun hcs => hrest (by
        rw [List.append_cons, List.getLast?_append, hcs]; rfl),
      map_capped, map_ahead_map_ahead, hlast]
  | _, _, @IsAttrs.container outer inner u cs hu h, rest, hrest => by
    have hscan := container?_of_isContainer k hu (cs ++ rest)
    have hafter := openTag?_of_isAttrs k h rest fun hcs => hrest (by
      rw [List.getLast?_append, hcs]; rfl)
    obtain ⟨v, rfl⟩ := hu.shape
    rw [List.append_assoc, List.cons_append, openTag?_container hscan, hafter, map_capped,
      map_ahead_map_ahead, capped_max, List.length_append, Nat.add_comm cs.length]
    rfl

theorem tags?_of_isChildren (k : Nat) : ∀ {d : Nat} {cs : Text}, IsChildren d cs →
    ∀ {depth : Nat} (rest : Text), 0 < depth → rest.head? = some '<' →
      tags? (container? (2 * k)) depth 0 (cs ++ rest) =
        capped d k ((tags? (container? (2 * k)) depth 0 rest).map (· + cs.length))
  | _, _, .nil, depth, rest, _, _ => by
    rw [capped_zero]
    exact Option.map_id'.symm
  | _, _, @IsChildren.char d c cs hbrace hstart h, depth, rest, hdepth, hrest => by
    rw [List.cons_append, tags?_char depth hdepth (isTagStart_cons_append hstart hrest rfl) hbrace,
      tags?_of_isChildren k h rest hdepth hrest, map_capped, map_add_map_add, List.length_cons]
  | _, _, @IsChildren.element outer inner u cs hu h, depth, rest, hdepth, hrest => by
    rw [List.append_assoc, tags?_of_isElement k hu, resume, if_neg (Nat.ne_of_gt hdepth),
      tags?_of_isChildren k h rest hdepth hrest, map_capped, map_add_map_add, capped_max,
      List.length_append, Nat.add_comm cs.length]
  | _, _, @IsChildren.container outer inner u cs hu h, depth, rest, hdepth, hrest => by
    have hscan := container?_of_isContainer k hu (cs ++ rest)
    have hafter := tags?_of_isChildren k h rest hdepth hrest
    obtain ⟨v, rfl⟩ := hu.shape
    rw [List.append_assoc, List.cons_append, tags?_container depth hdepth hscan, hafter,
      map_capped, map_add_map_add, capped_max, List.length_append, Nat.add_comm cs.length]
    rfl

theorem container?_of_isContainer (k : Nat) : ∀ {d : Nat} {u : Text}, IsContainer d u →
    ∀ rest : Text, container? (2 * k) (u ++ rest) = capped d k (some u.length)
  | _, _, @IsContainer.mk d cs h, rest => by
    cases k with
    | zero =>
      -- no room is left, and every container has a depth of at least one
      rfl
    | succ k =>
      have hinside := braces?_of_isContents k h ('}' :: rest) (Nat.succ_pos 0) rfl
      have hlength : ('{' :: cs ++ ['}']).length = 1 + cs.length + 1 := by
        simp only [List.length_append, List.length_cons, List.length_nil]
        omega
      rw [braces?_close, if_pos rfl, Option.map_some] at hinside
      rw [List.append_assoc, List.cons_append, List.singleton_append, Nat.mul_succ, container?,
        braces?_open, hinside, map_capped, Option.map_some, capped_succ, hlength]

theorem braces?_of_isContents (k : Nat) : ∀ {d : Nat} {last : Char} {cs : Text},
    IsContents d last cs → ∀ {depth : Nat} (rest : Text), 0 < depth → rest.head? = some '}' →
      braces? (element? (2 * k + 1)) depth (some last) 0 (cs ++ rest) =
        capped d k ((braces? (element? (2 * k + 1)) depth (some (lastVisible last cs)) 0 rest).map
          (· + cs.length))
  | _, _, _, .nil, depth, rest, _, _ => by
    rw [capped_zero]
    exact Option.map_id'.symm
  | _, _, _, @IsContents.braces outer inner last body cs hbody h, depth, rest, hdepth, hrest => by
    have hinside := braces?_of_isContents k hbody ('}' :: (cs ++ rest)) (Nat.succ_pos depth) rfl
    rw [braces?_close, if_neg (Nat.ne_of_gt hdepth),
      braces?_of_isContents k h rest hdepth hrest] at hinside
    have hlength : ('{' :: body ++ '}' :: cs).length = cs.length + 1 + body.length + 1 := by
      simp only [List.length_append, List.length_cons]
      omega
    rw [lastVisible_of_visible rfl, List.append_assoc, List.cons_append, List.cons_append,
      braces?_open, hinside, capped_max, hlength]
    simp only [map_capped, map_add_map_add, Nat.add_assoc]
  | _, _, _, @IsContents.string d last quote body cs hquote hbody h, depth, rest, hdepth,
      hrest => by
    have hlength : (quote :: body ++ quote :: cs).length = cs.length + (body.length + 2) := by
      simp only [List.length_append, List.length_cons]
      omega
    rw [lastVisible_of_visible (isAsciiBlank_of_quote hquote), List.append_assoc, List.cons_append,
      List.cons_append, braces?_string depth last hquote hbody,
      braces?_of_isContents k h rest hdepth hrest, map_capped, map_add_map_add, hlength]
  | _, _, _, @IsContents.line d last body cs hbody h, depth, rest, hdepth, hrest => by
    have hlength : ('/' :: '/' :: body ++ '\n' :: cs).length = cs.length + (body.length + 3) := by
      simp only [List.length_append, List.length_cons]
      omega
    have hlast : lastVisible last ('/' :: '/' :: body ++ '\n' :: cs) =
        lastVisible (lastVisible '/' body) cs := by
      rw [lastVisible_append]
      rfl
    rw [hlast, List.append_assoc, List.cons_append, List.cons_append, List.cons_append,
      braces?_line depth last hbody, braces?_of_isContents k h rest hdepth hrest, map_capped,
      map_add_map_add, hlength]
  | _, _, _, @IsContents.comment d last body cs hbody h, depth, rest, hdepth, hrest => by
    have hlength : ('/' :: '*' :: body ++ '*' :: '/' :: cs).length =
        cs.length + (body.length + 4) := by
      simp only [List.length_append, List.length_cons]
      omega
    have hlast : lastVisible last ('/' :: '*' :: body ++ '*' :: '/' :: cs) =
        lastVisible '/' cs := by
      rw [List.append_cons, lastVisible_of_visible rfl]
    rw [hlast, List.append_assoc, List.cons_append, List.cons_append, List.cons_append,
      List.cons_append, braces?_comment depth last hbody,
      braces?_of_isContents k h rest hdepth hrest, map_capped, map_add_map_add, hlength]
  | _, _, _, @IsContents.element outer inner last u cs hlast hu h, depth, rest, hdepth, hrest => by
    have hscan : element? (2 * k + 1) (u ++ (cs ++ rest)) = capped outer k (some u.length) := by
      rw [element?, tags?_of_isElement k hu, resume, if_pos rfl, Option.map_some, Nat.zero_add]
    have hafter := braces?_of_isContents k h rest hdepth hrest
    obtain ⟨v, rfl, hstart⟩ := hu.shape
    have hvisible : lastVisible '<' (v ++ ['>']) = '>' := lastVisible_of_visible rfl '<' v []
    have hbehind : lastVisible last ('<' :: (v ++ ['>']) ++ cs) = lastVisible '>' cs := by
      rw [lastVisible_append]
      exact congrArg (lastVisible · cs) hvisible
    have hlength : ('<' :: (v ++ ['>']) ++ cs).length = cs.length + ((v ++ ['>']).length + 1) := by
      rw [List.length_append, Nat.add_comm]
      rfl
    rw [hbehind, List.append_assoc, List.cons_append,
      braces?_element depth last (by rw [List.append_assoc]; exact hstart _) hlast hscan, hvisible,
      hafter, map_capped, map_add_map_add, capped_max, hlength]
  | _, _, _, @IsContents.char d last c cs hopen hclose hquote htick hslash htag h, depth, rest,
      hdepth, hrest => by
    have hslash' : c = '/' → (cs ++ rest).head? ≠ some '/' ∧ (cs ++ rest).head? ≠ some '*' := by
      cases cs with
      | nil =>
        rw [List.nil_append, hrest]
        exact fun _ => by decide
      | cons e cs => exact hslash
    have htag' : isTagStart (c :: (cs ++ rest)) = true → opensExpression last = false := by
      intro hstart
      -- what stands behind the contents makes no tag of their last character
      refine htag (Bool.not_eq_false _ ▸ fun h => ?_)
      rw [isTagStart_cons_append h hrest rfl] at hstart
      cases hstart
    rw [List.cons_append, braces?_char depth last hopen hclose hquote htick hslash' htag',
      braces?_of_isContents k h rest hdepth hrest, map_capped, map_add_map_add, List.length_cons]
    rfl

end

/-- The end of a well-formed element is found exactly, wherever it stands and whatever follows,
if at most 128 of its containers lie one in the other; no end is found for a deeper one. -/
theorem stopAt?_element {d : Nat} {e : Text} (h : IsElement d e) (before after : Text) :
    stopAt? (before ++ e ++ after) (Text.width before) =
      if d ≤ 128 then some (Text.width (before ++ e)) else none := by
  have hlength : length? (e ++ after) = capped d 128 (some e.length) := by
    have hscan := tags?_of_isElement 128 h 0 after
    rw [resume, if_pos rfl, Option.map_some, Nat.zero_add] at hscan
    exact hscan
  have hinside : ¬Text.width (before ++ e ++ after) ≤ Text.width before := by
    obtain ⟨u, rfl, -⟩ := h.shape
    have hpos := Text.width_pos (List.cons_ne_nil '<' (u ++ ['>']))
    rw [Text.width_append, Text.width_append]
    omega
  rw [stopAt?, if_neg hinside, List.append_assoc, Text.dropBytes?_width]
  simp only [hlength, map_capped, Option.map_some, List.take_left, Text.width_append]
  rfl

/-- An element with `n` containers one in the other. -/
def nested : Nat → Text
  | 0 => ['<', 'a', '/', '>']
  | n + 1 => "<>1<2\x7b'\x7d'&& ".toList ++ nested n ++ ['}', '<', '/', '>']

theorem isElement_nested (n : Nat) : IsElement n (nested n) := by
  induction n with
  | zero => exact .single rfl .nil
  | succ n ih =>
    have hcontents : IsContents n '{' ("'\x7d'&& ".toList ++ nested n) := by
      have helement : IsContents n '&' (nested n) := by
        have h := @IsContents.element n 0 '&' (nested n) [] rfl ih .nil
        rwa [List.append_nil, Nat.max_zero] at h
      have hand {last : Char} {cs : Text} (h : IsContents n '&' cs) :
          IsContents n last ('&' :: cs) :=
        .char (by decide) (by decide) rfl (by decide) (fun h => absurd h (by decide))
          (fun h => absurd h Bool.false_ne_true) h
      have hblank {last : Char} {cs : Text} (h : IsContents n last cs) :
          IsContents n last (' ' :: cs) :=
        .char (by decide) (by decide) rfl (by decide) (fun h => absurd h (by decide))
          (fun h => absurd h Bool.false_ne_true) h
      exact .string (.inl rfl) (.char (by decide) (by decide) .nil) (hand (hand (hblank helement)))
    have hchildren : IsChildren (n + 1) ("1<2\x7b'\x7d'&& ".toList ++ nested n ++ ['}']) := by
      have h := IsChildren.container (.mk hcontents) .nil
      rw [List.append_nil, Nat.max_zero] at h
      exact .char (by decide) rfl (.char (by decide) rfl (.char (by decide) rfl h))
    have h := IsElement.fragment hchildren
    rwa [List.append_assoc] at h

theorem stopAt?_element_limit :
    IsElement 128 (nested 128) ∧ IsElement 129 (nested 129) ∧
      stopAt? ("é ".toList ++ nested 128 ++ "\x7d</>".toList) 3 =
        some (Text.width ("é ".toList ++ nested 128)) ∧
      stopAt? ("é ".toList ++ nested 129 ++ "\x7d</>".toList) 3 = none :=
  ⟨isElement_nested 128, isElement_nested 129, stopAt?_element (isElement_nested 128) _ _,
    stopAt?_element (isElement_nested 129) _ _⟩

end Desugar.Element
