import Desugar.Proofs.Locality
import Desugar.Proofs.Layout

/-! Texts in which some `let` are written as `const`. The scanner takes both words alike, so
it cuts the two texts at the same places: each token keeps its kind, and a `let` that is
replaced becomes a name. -/
namespace Desugar

open Unicode Text

/-- The second text is the first with some `let` written as `const`. -/
inductive Rebound : Text → Text → Prop where
  | nil : Rebound [] []
  | cons {s t : Text} (c : Char) : Rebound s t → Rebound (c :: s) (c :: t)
  | word {s t : Text} :
      Rebound s t → Rebound ('l' :: 'e' :: 't' :: s) ('c' :: 'o' :: 'n' :: 's' :: 't' :: t)

namespace Rebound

variable {s t us vs ws : Text}

theorem append (us : Text) (h : Rebound s t) : Rebound (us ++ s) (us ++ t) := by
  induction us with
  | nil => exact h
  | cons c us ih => exact .cons c ih

theorem eq_nil (h : Rebound [] t) : t = [] := by
  cases h
  rfl

/-- Classes that do not tell the two words apart are found in front of both texts. -/
theorem head?_any {p : Char → Bool} (hp : p 'l' = p 'c') (h : Rebound s t) :
    t.head?.any p = s.head?.any p := by
  cases h with
  | nil | cons => rfl
  | word => exact hp.symm

theorem head?_beq {c : Char} (hl : c ≠ 'l') (hc : c ≠ 'c') (h : Rebound s t) :
    (t.head? == some c) = (s.head? == some c) := by
  have hbeq (o : Option Char) : (o == some c) = o.any (· == c) := by cases o <;> rfl
  rw [hbeq, hbeq]
  refine h.head?_any ?_
  rw [beq_eq_false_iff_ne.mpr hl.symm, beq_eq_false_iff_ne.mpr hc.symm]

theorem drop_one_head?_any {p : Char → Bool} (hl : p 'l' = p 'c') (he : p 'e' = p 'o')
    (h : Rebound s t) : (t.drop 1).head?.any p = (s.drop 1).head?.any p := by
  cases h with
  | nil => rfl
  | cons c h => exact h.head?_any hl
  | word => exact he.symm

/-! ### Scanners that look at what follows -/

theorem takeWhile_eq_nil_iff {p : Char → Bool} {cs : Text} :
    cs.takeWhile p = [] ↔ cs.head?.any p = false := by
  cases cs with
  | nil => simp
  | cons c cs => cases hc : p c <;> simp [hc]

theorem takeWhile_append {p : Char → Bool} (hp : p 'l' = p 'c') (h : Rebound vs ws)
    (hle : ((us ++ vs).takeWhile p).length ≤ us.length) :
    (us ++ ws).takeWhile p = (us ++ vs).takeWhile p := by
  induction us with
  | nil =>
    have hnone : vs.takeWhile p = [] := List.length_eq_zero_iff.mp (Nat.le_zero.mp hle)
    rw [List.nil_append, List.nil_append, hnone, takeWhile_eq_nil_iff, h.head?_any hp,
      ← takeWhile_eq_nil_iff, hnone]
  | cons c us ih =>
    rw [List.cons_append, List.cons_append, List.takeWhile_cons, List.takeWhile_cons]
    cases hc : p c with
    | false => rfl
    | true =>
      rw [List.cons_append, List.takeWhile_cons, hc] at hle
      rw [if_pos rfl, if_pos rfl, ih (Nat.le_of_succ_le_succ hle)]

theorem number_append (h : Rebound vs ws) (hle : Literal.number (us ++ vs) ≤ us.length) :
    Literal.number (us ++ ws) = Literal.number (us ++ vs) := by
  induction us with
  | nil =>
    cases h with
    | nil => rfl
    | cons c h =>
      have hdigit := h.head?_any (show Char.isDigit 'l' = Char.isDigit 'c' by decide)
      simp only [List.nil_append, Literal.number, hdigit] at hle ⊢
      split
      next hc => simp [hc] at hle
      next hc =>
        split
        next hd => simp [hc, hd] at hle
        next => rfl
    | word h => simp [Literal.number, isAsciiAlphanumeric] at hle
  | cons c us ih =>
    have hdigit := (h.append us).head?_any (show Char.isDigit 'l' = Char.isDigit 'c' by decide)
    simp only [List.cons_append, Literal.number, hdigit] at hle ⊢
    split
    next hc =>
      rw [if_pos hc] at hle
      rw [ih (Nat.le_of_succ_le_succ hle)]
    next hc =>
      rw [if_neg hc] at hle
      split
      next hd =>
        rw [if_pos hd] at hle
        rw [ih (Nat.le_of_succ_le_succ hle)]
      next => rfl

theorem quoted_backslash (quote : Char) (cs : Text) :
    Literal.quoted quote ('\\' :: cs) =
      if cs.head?.any (· != '\n') then Literal.quoted quote (cs.drop 1) + 2 else 1 := by
  cases cs with
  | nil => rfl
  | cons d ds => cases hd : d == '\n' <;> simp [Literal.quoted, bne, hd]

theorem quoted_other {quote c : Char} (hc : c ≠ '\\') (cs : Text) :
    Literal.quoted quote (c :: cs) =
      if c = '\n' then 0 else if c = quote then 1 else Literal.quoted quote cs + 1 := by
  rw [Literal.quoted.eq_def]
  simp [hc]

/-- A string is over before a line end only. -/
theorem quoted_eq_zero {quote : Char} {cs : Text} :
    Literal.quoted quote cs = 0 ↔ cs.head?.any (· != '\n') = false := by
  cases cs with
  | nil => simp [Literal.quoted]
  | cons c cs =>
    by_cases hc : c = '\\'
    · subst hc
      rw [quoted_backslash]
      split <;> simp
    · rw [quoted_other hc]
      grind

theorem quoted_append {quote : Char} (h : Rebound vs ws) : ∀ {us : Text},
    Literal.quoted quote (us ++ vs) ≤ us.length →
      Literal.quoted quote (us ++ ws) = Literal.quoted quote (us ++ vs)
  | [], hle => by
    have hzero : Literal.quoted quote vs = 0 := Nat.le_zero.mp hle
    rw [List.nil_append, List.nil_append, hzero, quoted_eq_zero, h.head?_any (by decide),
      ← @quoted_eq_zero quote, hzero]
  | c :: us, hle => by
    rw [List.cons_append] at hle
    rw [List.cons_append, List.cons_append]
    by_cases hc : c = '\\'
    · subst hc
      rw [quoted_backslash] at hle
      rw [quoted_backslash, quoted_backslash, (h.append us).head?_any (by decide)]
      split
      next hany =>
        rw [if_pos hany] at hle
        cases us with
        | nil => simp at hle
        | cons d us =>
          simp only [List.cons_append, List.drop_succ_cons, List.drop_zero, List.length_cons]
            at hle ⊢
          rw [quoted_append h (Nat.le_of_add_le_add_right hle)]
      next => rfl
    · rw [quoted_other hc] at hle
      rw [quoted_other hc, quoted_other hc]
      have hrest := @quoted_append quote h us
      grind

theorem flags_append (h : Rebound vs ws) (hle : Literal.flags (us ++ vs) ≤ us.length) :
    Literal.flags (us ++ ws) = Literal.flags (us ++ vs) :=
  congrArg List.length (h.takeWhile_append (by decide) hle)

theorem regex?_other {inClass : Bool} {c : Char} (hc : c ≠ '\\') (cs : Text) :
    Literal.regex? inClass (c :: cs) =
      if c = '\n' then none
      else if c = '/' ∧ inClass = false then some (Literal.flags cs + 1)
      else (Literal.regex? (if c = '[' then true else if c = ']' then false else inClass) cs).map
        (· + 1) := by
  rw [Literal.regex?.eq_def]
  grind

theorem regex?_ne_zero (inClass : Bool) (cs : Text) : Literal.regex? inClass cs ≠ some 0 := by
  intro h
  match cs with
  | [] => cases h
  | c :: cs =>
    by_cases hc : c = '\\'
    · subst hc
      cases cs <;> simp [Literal.regex?] at h
    · rw [regex?_other hc] at h
      split at h
      · cases h
      · split at h
        · cases h
        · exact map_succ_ne_zero _ h

theorem regex?_append (h : Rebound vs ws) : ∀ {us : Text} {inClass : Bool} {n : Nat},
    Literal.regex? inClass (us ++ vs) = some n → n ≤ us.length →
      Literal.regex? inClass (us ++ ws) = some n
  | [], inClass, n, hn, hle => by
    rw [Nat.le_zero.mp hle] at hn
    exact absurd hn (regex?_ne_zero inClass vs)
  | c :: us, inClass, n, hn, hle => by
    rw [List.cons_append] at hn ⊢
    by_cases hc : c = '\\'
    · subst hc
      cases us with
      | nil =>
        cases vs with
        | nil => cases hn
        | cons d vs =>
          obtain ⟨m, _, rfl⟩ := Option.map_eq_some_iff.mp hn
          simp at hle
      | cons d us =>
        obtain ⟨m, hm, rfl⟩ := Option.map_eq_some_iff.mp hn
        exact Option.map_eq_some_iff.mpr
          ⟨m, regex?_append h hm (Nat.le_of_add_le_add_right hle), rfl⟩
    · rw [regex?_other hc] at hn ⊢
      split at hn
      · cases hn
      next hline =>
        rw [if_neg hline]
        split at hn
        next hend =>
          cases hn
          rw [if_pos hend, h.flags_append (Nat.le_of_succ_le_succ hle)]
        next hend =>
          rw [if_neg hend]
          obtain ⟨m, hm, rfl⟩ := Option.map_eq_some_iff.mp hn
          exact Option.map_eq_some_iff.mpr
            ⟨m, regex?_append h hm (Nat.le_of_succ_le_succ hle), rfl⟩

theorem regex?_letters (inClass : Bool) {letters : Text}
    (h : ∀ c ∈ letters, c ≠ '\\' ∧ c ≠ '\n' ∧ c ≠ '/' ∧ c ≠ '[' ∧ c ≠ ']') (cs : Text) :
    Literal.regex? inClass (letters ++ cs) = none ↔ Literal.regex? inClass cs = none := by
  induction letters with
  | nil => rfl
  | cons c letters ih =>
    obtain ⟨⟨hc, hline, hend, hopen, hclose⟩, hrest⟩ := List.forall_mem_cons.mp h
    rw [List.cons_append, regex?_other hc, if_neg hline, if_neg fun hand => hend hand.1,
      if_neg hopen, if_neg hclose, Option.map_eq_none_iff, ih hrest]

/-- Where no regular expression starts, there is none with the other word either. -/
theorem regex?_none : ∀ {s t : Text} {inClass : Bool}, Rebound s t →
    Literal.regex? inClass s = none → Literal.regex? inClass t = none
  | _, _, _, .nil, _ => rfl
  | _, _, inClass, @word s t h, hs => by
    have hl := @regex?_letters inClass ['l', 'e', 't'] (by simp) s
    have hc := @regex?_letters inClass ['c', 'o', 'n', 's', 't'] (by simp) t
    exact hc.mpr (regex?_none h (hl.mp hs))
  | _, _, inClass, @cons s t c h, hs => by
    by_cases hc : c = '\\'
    · subst hc
      -- the backslash takes the next character with it, which may begin the word
      match h with
      | .nil => rfl
      | .cons d h =>
        exact Option.map_eq_none_iff.mpr (regex?_none h (Option.map_eq_none_iff.mp hs))
      | @word s t h =>
        have hl := @regex?_letters inClass ['e', 't'] (by simp) s
        have hc := @regex?_letters inClass ['o', 'n', 's', 't'] (by simp) t
        exact Option.map_eq_none_iff.mpr
          (hc.mpr (regex?_none h (hl.mp (Option.map_eq_none_iff.mp hs))))
    · rw [regex?_other hc] at hs ⊢
      split at hs
      next hline => rw [if_pos hline]
      next hline =>
        rw [if_neg hline]
        split at hs
        · cases hs
        next hend =>
          rw [if_neg hend]
          exact Option.map_eq_none_iff.mpr (regex?_none h (Option.map_eq_none_iff.mp hs))

/-! ### Type parameters -/

theorem dropWhile {p : Char → Bool}
    (hword : ['e', 't', 'c', 'o', 'n', 's'].all (fun c => p c == p 'l') = true)
    (h : Rebound s t) :
    Rebound (s.dropWhile p) (t.dropWhile p) := by
  induction h with
  | nil => exact .nil
  | @cons s t c h ih =>
    rw [List.dropWhile_cons, List.dropWhile_cons]
    split
    · exact ih
    · exact .cons c h
  | @word s t h ih =>
    simp only [List.all_cons, List.all_nil, Bool.and_true, Bool.and_eq_true, beq_iff_eq] at hword
    obtain ⟨he, ht, hc, ho, hn, hs⟩ := hword
    cases hl : p 'l' with
    | true =>
      rw [hl] at he ht hc ho hn hs
      simpa [List.dropWhile_cons, hl, he, ht, hc, ho, hn, hs] using ih
    | false =>
      rw [hl] at hc
      simpa [List.dropWhile_cons, hl, hc] using .word h

theorem isPrefixOf {word : Text} (hl : 'l' ∉ word) (hc : 'c' ∉ word) (h : Rebound s t) :
    word.isPrefixOf t = word.isPrefixOf s ∧
      (word.isPrefixOf s = true → Rebound (s.drop word.length) (t.drop word.length)) := by
  induction word generalizing s t with
  | nil => exact ⟨by simp, fun _ => h⟩
  | cons d word ih =>
    rw [List.mem_cons, not_or] at hl hc
    cases h with
    | nil => exact ⟨rfl, nofun⟩
    | @cons s t c h =>
      obtain ⟨heq, hrest⟩ := ih hl.2 hc.2 h
      rw [List.isPrefixOf_cons_cons, List.isPrefixOf_cons_cons, heq]
      refine ⟨rfl, fun hand => hrest (Bool.and_eq_true_iff.mp hand).2⟩
    | word h =>
      rw [List.isPrefixOf_cons_cons, List.isPrefixOf_cons_cons,
        beq_eq_false_iff_ne.mpr (Ne.symm hl.1), beq_eq_false_iff_ne.mpr (Ne.symm hc.1)]
      exact ⟨rfl, nofun⟩

theorem isTypeParameters (h : Rebound s t) :
    Element.isTypeParameters t = Element.isTypeParameters s := by
  have hname : (t.takeWhile Element.isNameChar).isEmpty =
      (s.takeWhile Element.isNameChar).isEmpty := by
    rw [Bool.eq_iff_iff, List.isEmpty_iff, List.isEmpty_iff, takeWhile_eq_nil_iff,
      takeWhile_eq_nil_iff, h.head?_any (by decide)]
  have hrest := (h.dropWhile (p := Element.isNameChar) (by decide)).dropWhile
    (p := isAsciiBlank) (by decide)
  have hcomma := hrest.head?_beq (c := ',') (by decide) (by decide)
  obtain ⟨hextends, hafter⟩ := @isPrefixOf _ _ "extends".toList (by decide) (by decide) hrest
  simp only [Element.isTypeParameters, hname, hcomma, hextends]
  cases hp : "extends".toList.isPrefixOf
      ((s.dropWhile Element.isNameChar).dropWhile isAsciiBlank) with
  | false => rfl
  | true =>
    have hnext := (hafter hp).head?_any (p := Element.isNameChar) (by decide)
    rw [show "extends".toList.length = 7 from rfl] at hnext
    rw [hnext]

theorem isTagStart (h : Rebound s t) (c : Char) :
    Element.isTagStart (c :: t) = Element.isTagStart (c :: s) := by
  by_cases hc : c = '<'
  · subst hc
    have htag (cs : Text) : Element.isTagStart ('<' :: cs) =
        cs.head?.any fun d => d.isAlpha || d == '/' || d == '>' := by
      cases cs <;> rfl
    rw [htag, htag, h.head?_any (by decide)]
  · unfold Element.isTagStart
    split <;> simp_all

/-! ### Blanks and single tokens -/

open Token

/-- A block comment ends by its own sign. -/
theorem throughComment_append (h : Rebound vs ws)
    (hle : Literal.throughComment ((us ++ vs).drop 1) + 1 ≤ us.length) :
    Literal.throughComment ((us ++ ws).drop 1) = Literal.throughComment ((us ++ vs).drop 1) := by
  cases us with
  | nil => cases hle
  | cons d us =>
    by_cases hvs : vs = []
    · subst hvs
      rw [h.eq_nil]
    · exact Literal.throughComment_append hvs ws (Nat.le_of_succ_le_succ hle)

theorem blank?_append (h : Rebound vs ws) {first : Bool} {c : Char} {more : Nat}
    (hb : blank? first c (us ++ vs) = some more) (hle : vs ≠ [] → more ≤ us.length) :
    blank? first c (us ++ ws) = some more := by
  by_cases hvs : vs = []
  · subst hvs
    rwa [h.eq_nil]
  replace hle := hle hvs
  have hslash := (h.append us).head?_beq (c := '/') (by decide) (by decide)
  have hbang := (h.append us).head?_beq (c := '!') (by decide) (by decide)
  have hstar := (h.append us).head?_beq (c := '*') (by decide) (by decide)
  have hline : restOfLine (us ++ vs) ≤ us.length → restOfLine (us ++ ws) = restOfLine (us ++ vs) :=
    fun hle => congrArg List.length (h.takeWhile_append (by decide) hle)
  have hcomment := @throughComment_append us vs ws h
  simp only [blank?, hslash, hbang, hstar] at hb ⊢
  grind

theorem blank?_eq_none (h : Rebound s t) {first : Bool} {c : Char} (hb : blank? first c s = none) :
    blank? first c t = none := by
  have hslash := h.head?_beq (c := '/') (by decide) (by decide)
  have hbang := h.head?_beq (c := '!') (by decide) (by decide)
  have hstar := h.head?_beq (c := '*') (by decide) (by decide)
  simp only [blank?, hslash, hbang, hstar] at hb ⊢
  grind

end Rebound

namespace Token

variable {us vs ws : Text}

/-! ### Contexts -/

/-- What a token shows to those behind it, to whom `let` is no different from the name that
may stand for it. -/
def seen (t : Token) : Token :=
  if t.kind = .keyword .letWord then ⟨.ident, "const".toList, .origin⟩
  else ⟨t.kind, t.text, .origin⟩

namespace Context

/-- Contexts that the scanner does not tell apart. -/
structure Alike (x y : Context) : Prop where
  last : x.last.map seen = y.last.map seen
  conditionals : x.conditionals = y.conditionals
  closed : x.closed = y.closed

theorem allowsElement_seen (x : Context) :
    allowsElement { x with last := x.last.map seen } = x.allowsElement := by
  obtain ⟨_ | ⟨kind, text, place⟩, conditionals, closed⟩ := x
  · rfl
  · by_cases hk : kind = .keyword .letWord
    · subst hk
      rfl
    · rw [Option.map_some, seen, if_neg hk]
      rfl

theorem allowsRegex_seen (x : Context) :
    allowsRegex { x with last := x.last.map seen } = x.allowsRegex := by
  obtain ⟨_ | ⟨kind, text, place⟩, conditionals, closed⟩ := x
  · rfl
  · by_cases hk : kind = .keyword .letWord
    · subst hk
      rfl
    · rw [Option.map_some, seen, if_neg hk]
      rfl

/-- Apart from itself, a token leaves what it shows. -/
theorem push_seen (x : Context) (t : Token) (before after : Option Char) :
    x.push t before after = { x.push t.seen before after with last := some t } := by
  by_cases hk : t.kind = .keyword .letWord
  · rw [show t.seen = ⟨.ident, "const".toList, .origin⟩ from if_pos hk]
    simp only [push, hk]
  · rw [show t.seen = ⟨t.kind, t.text, .origin⟩ from if_neg hk]
    simp only [push]
    split
    · split <;> rfl
    all_goals rfl

namespace Alike

variable {x y : Context}

theorem allowsElement (h : x.Alike y) : y.allowsElement = x.allowsElement := by
  rw [← allowsElement_seen, ← allowsElement_seen x, h.last]
  unfold Context.allowsElement
  rw [h.closed]

theorem allowsRegex (h : x.Alike y) : y.allowsRegex = x.allowsRegex := by
  rw [← allowsRegex_seen, ← allowsRegex_seen x, h.last]
  rfl

/-- Tokens that look the same lead to contexts that do. -/
theorem push (h : x.Alike y) {t u : Token} (htu : t.seen = u.seen)
    {before before' after after' : Option Char}
    (hbefore : (before' == some '?') = (before == some '?'))
    (hafter : (after' == some '?') = (after == some '?')) :
    (x.push t before after).Alike (y.push u before' after') := by
  rw [push_seen, push_seen y, ← htu]
  refine ⟨congrArg some htu, ?_, ?_⟩ <;>
  · simp only [Context.push, hbefore, hafter]
    split
    · split <;> simp only [h.conditionals, h.closed]
    all_goals simp only [h.conditionals, h.closed]

end Alike

end Context

/-! ### Single tokens -/

namespace Lexeme

theorem word_append (h : Rebound vs ws) {c : Char} (hle : (word c (us ++ vs)).more ≤ us.length) :
    word c (us ++ ws) = word c (us ++ vs) := by
  have hrest : (us ++ ws).takeWhile isWordRest = (us ++ vs).takeWhile isWordRest :=
    h.takeWhile_append (by decide) hle
  simp only [word, hrest]

section Signs

variable (hvs : vs ≠ []) (ws)

include hvs

theorem template_append (hdeep : (template (us ++ vs)).tooDeep = false)
    (hle : (template (us ++ vs)).more ≤ us.length) : template (us ++ ws) = template (us ++ vs) := by
  unfold template at hdeep hle
  split at hdeep
  next n hn =>
    rw [hn] at hle
    obtain ⟨front, back, rfl, rfl⟩ := exists_append_of_le hle
    rw [List.append_assoc] at hn
    have hsame := Literal.template?_append (by simp [hvs]) (back ++ ws)
      (show Literal.Rooted [0] from rfl) hn
    simp only [template, List.append_assoc, hn, hsame]
  next => cases hdeep

theorem element_append (hs : Element.isTagStart ('<' :: (us ++ vs)) = true)
    (hdeep : (element (us ++ vs)).tooDeep = false)
    (hle : (element (us ++ vs)).more ≤ us.length) : element (us ++ ws) = element (us ++ vs) := by
  unfold element at hdeep hle
  split at hdeep
  next n hn =>
    have hn0 : n ≠ 0 := fun h0 => Element.element?_ne_zero _ _ hs (h0 ▸ hn)
    simp only [hn] at hle
    have hlen : n - 1 ≤ us.length := by
      split at hle
      · exact hle
      · omega
    have hsame : Element.length? ('<' :: (us ++ ws)) = some n :=
      (Element.element?_local _).cons_append hn0 hlen hvs hn ws
    simp only [element, hn, hsame]
  next => cases hdeep

end Signs

theorem regex_append (h : Rebound vs ws) (hle : (regex (us ++ vs)).more ≤ us.length) :
    regex (us ++ ws) = regex (us ++ vs) := by
  unfold regex at hle
  split at hle
  next n hn => simp only [regex, hn, h.regex?_append hn hle]
  next hn => simp only [regex, hn, (h.append us).regex?_none hn]

theorem read_append (h : Rebound vs ws) {x y : Context} (hxy : x.Alike y) {markup : Bool} {c : Char}
    (hdeep : (read markup x c (us ++ vs)).tooDeep = false)
    (hle : vs ≠ [] → (read markup x c (us ++ vs)).more ≤ us.length) :
    read markup y c (us ++ ws) = read markup x c (us ++ vs) := by
  have hall := h.append us
  have hgreater := hall.head?_beq (c := '>') (by decide) (by decide)
  have hdot := hall.head?_beq (c := '.') (by decide) (by decide)
  have hdigit := hall.drop_one_head?_any (p := Char.isDigit) (by decide) (by decide)
  dsimp only [read] at hdeep hle ⊢
  -- both texts take the same branch, and its literal ends at the same place
  rw [hgreater, hdot, hdigit, hall.isTagStart, hall.isTypeParameters, hxy.allowsElement,
    hxy.allowsRegex]
  by_cases hvs : vs = []
  · subst hvs
    rw [h.eq_nil]
  replace hle := hle hvs
  have hword := @word_append us vs ws h c
  have hnumber := @Rebound.number_append us vs ws h
  have hquoted := @Rebound.quoted_append vs ws c h us
  have htemplate := @template_append us vs ws hvs
  have helement := @element_append us vs ws hvs
  have hregex := @regex_append us vs ws h
  grind

end Lexeme

end Token

end Desugar
