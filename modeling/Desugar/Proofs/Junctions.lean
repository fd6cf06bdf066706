import Desugar.Proofs.Gaps
import Desugar.Proofs.Rescanning

/-! Tokens and gaps before other text. Whether a token ends where it does hangs on the one or two
characters behind it, and how it is read hangs on the token before it if it begins with a slash or,
where elements are looked for, with a `<`. A token is read again wherever it is copied to, as long
as it fits what stands before it and nothing stands behind it with which it would go on. -/
namespace Desugar

open Unicode Text

/-! ### Literals before other text -/

/-- What is taken ends before a text if the text does not go on with more of it. -/
theorem takeWhile_of_before {p : Char → Bool} {us ws : Text} (hus : ∀ c ∈ us, p c = true)
    (hws : ws.head?.any p = false) : (us ++ ws).takeWhile p = us := by
  rw [List.takeWhile_append_of_pos hus, Rebound.takeWhile_eq_nil_iff.mpr hws, List.append_nil]

theorem takeWhile_before {p : Char → Bool} {us vs : Text}
    (h : ((us ++ vs).takeWhile p).length = us.length) :
    (∀ c ∈ us, p c = true) ∧ vs.head?.any p = false := by
  have htake := List.prefix_iff_eq_take.mp (List.takeWhile_prefix (l := us ++ vs) p)
  rw [h, List.take_left] at htake
  have hall : ∀ c ∈ us, p c = true := by
    rw [← htake]
    exact List.all_eq_true.mp List.all_takeWhile
  rw [List.takeWhile_append_of_pos hall] at htake
  exact ⟨hall, Rebound.takeWhile_eq_nil_iff.mp (List.append_right_eq_self.mp htake)⟩

namespace Literal

theorem number_cons_eq_zero {d : Char} {ds : Text} :
    number (d :: ds) = 0 ↔
      (isAsciiAlphanumeric d || d == '_') = false ∧
        (d == '.' && ds.head?.any Char.isDigit) = false := by
  rw [number]
  split
  next h => simp [h]
  next h =>
    split
    next hp => simp [hp]
    next hp => simp [h, hp]

/-- A number that ends before a text does not go on in it. -/
theorem number_of_append {us vs : Text} (h : number (us ++ vs) = us.length) : number vs = 0 := by
  induction us with
  | nil => exact h
  | cons d us ih =>
    rw [List.cons_append, number, List.length_cons] at h
    split at h
    · exact ih (Nat.succ.inj h)
    · split at h
      · exact ih (Nat.succ.inj h)
      · cases h

theorem number_before {us vs ws : Text} (h : number (us ++ vs) = us.length) (hws : number ws = 0) :
    number (us ++ ws) = us.length := by
  induction us with
  | nil => exact hws
  | cons d us ih =>
    rw [List.cons_append, number, List.length_cons] at h
    rw [List.cons_append, number, List.length_cons]
    split at h
    next hd => rw [if_pos hd, ih (Nat.succ.inj h)]
    next hd =>
      rw [if_neg hd]
      split at h
      next hpoint =>
        have hrest := Nat.succ.inj h
        -- the point stands before a digit of the number
        cases us with
        | nil =>
          cases vs with
          | nil => simp at hpoint
          | cons e vs =>
            have hdigit : e.isDigit = true := by simpa using (Bool.and_eq_true_iff.mp hpoint).2
            rw [List.nil_append, List.length_nil, number_cons_eq_zero] at hrest
            simp [isAsciiAlphanumeric, hdigit] at hrest
        | cons e us =>
          have hpoint' : (d == '.' && (e :: us ++ ws).head?.any Char.isDigit) = true := hpoint
          rw [if_pos hpoint', ih hrest]
      next => cases h

/-- A closed string ends at its quote whatever follows. -/
theorem quoted_of_isClosed {quote : Char} {us : Text} (h : isClosed quote us = true) (ws : Text) :
    quoted quote (us ++ ws) = us.length := by
  fun_induction isClosed quote us with
  | case1 => cases h
  | case2 => cases h
  | case3 c hc d us ih =>
    obtain ⟨hd, hus⟩ := Bool.and_eq_true_iff.mp h
    rw [beq_iff_eq.mp hc, List.cons_append, Rebound.quoted_backslash, List.cons_append,
      List.head?_cons, Option.any_some, if_pos hd, List.drop_one, List.tail_cons, ih hus]
    rfl
  | case4 => cases h
  | case5 c us hc hn hq =>
    rw [List.isEmpty_iff.mp h, List.cons_append, Rebound.quoted_other (by simpa using hc),
      if_neg (by simpa using hn), if_pos (by simpa using hq)]
    rfl
  | case6 c us hc hn hq ih =>
    rw [List.cons_append, Rebound.quoted_other (by simpa using hc), if_neg (by simpa using hn),
      if_neg (by simpa using hq), ih h]
    rfl

/-- The flags of a regular expression. -/
def isFlag (c : Char) : Bool := isAsciiAlphanumeric c || c == '_'

theorem flags_eq (cs : Text) : flags cs = (cs.takeWhile isFlag).length := rfl

/-- A regular expression ends at its last flag. -/
theorem regex?_before {vs : Text} : ∀ {us : Text} {inClass : Bool},
    regex? inClass (us ++ vs) = some us.length →
      vs.head?.any isFlag = false ∧
        ∀ ws : Text, ws.head?.any isFlag = false → regex? inClass (us ++ ws) = some us.length
  | [], inClass, h => absurd h (Rebound.regex?_ne_zero inClass vs)
  | [c], inClass, h => by
    by_cases hc : c = '\\'
    · subst hc
      cases vs with
      | nil => cases h
      | cons d vs =>
        obtain ⟨m, -, hm⟩ := Option.map_eq_some_iff.mp h
        cases hm
    · rw [List.singleton_append, Rebound.regex?_other hc] at h
      split at h
      next => cases h
      next hline =>
        split at h
        next hend =>
          obtain ⟨-, hvs⟩ := @takeWhile_before isFlag [] vs (Nat.succ.inj (Option.some.inj h))
          refine ⟨hvs, fun ws hws => ?_⟩
          rw [List.singleton_append, Rebound.regex?_other hc, if_neg hline, if_pos hend, flags_eq,
            Rebound.takeWhile_eq_nil_iff.mpr hws]
          rfl
        next => exact absurd (of_map_succ h) (Rebound.regex?_ne_zero _ vs)
  | c :: d :: us, inClass, h => by
    rw [List.cons_append] at h
    by_cases hc : c = '\\'
    · subst hc
      have hrest : regex? inClass (us ++ vs) = some us.length := by
        obtain ⟨m, hm, heq⟩ := Option.map_eq_some_iff.mp h
        cases heq
        exact hm
      obtain ⟨hvs, hall⟩ := regex?_before hrest
      exact ⟨hvs, fun ws hws => Option.map_eq_some_iff.mpr ⟨us.length, hall ws hws, rfl⟩⟩
    · rw [Rebound.regex?_other hc] at h
      split at h
      next => cases h
      next hline =>
        split at h
        next hend =>
          obtain ⟨hus, hvs⟩ :=
            @takeWhile_before isFlag (d :: us) vs (Nat.succ.inj (Option.some.inj h))
          refine ⟨hvs, fun ws hws => ?_⟩
          rw [List.cons_append, Rebound.regex?_other hc, if_neg hline, if_pos hend, flags_eq,
            takeWhile_of_before hus hws]
          rfl
        next hend =>
          obtain ⟨hvs, hall⟩ := regex?_before (of_map_succ h)
          refine ⟨hvs, fun ws hws => ?_⟩
          rw [List.cons_append, Rebound.regex?_other hc, if_neg hline, if_neg hend, hall ws hws]
          rfl

end Literal

namespace Element

theorem isPrefixOf_before {p r : Text} (hp : '>' ∉ p) (vs : Text) :
    p.isPrefixOf (r ++ '>' :: vs) = p.isPrefixOf r := by
  induction p generalizing r with
  | nil => simp
  | cons c p ih =>
    obtain ⟨hc, hp⟩ := not_or.mp (mt List.mem_cons.mpr hp)
    cases r with
    | nil => simp [List.isPrefixOf, Ne.symm hc]
    | cons d r => simp [List.isPrefixOf, ih hp]

/-- Type parameters are told from an element before its first `>`. -/
theorem isTypeParameters_before (us vs ws : Text) :
    isTypeParameters (us ++ '>' :: ws) = isTypeParameters (us ++ '>' :: vs) := by
  have hdrop (p : Char → Bool) (hp : p '>' = false) (us vs : Text) :
      (us ++ '>' :: vs).dropWhile p = us.dropWhile p ++ '>' :: vs := by
    rw [List.dropWhile_append]
    split
    next h => rw [List.isEmpty_iff.mp h, List.dropWhile_cons_of_neg (by simp [hp])]; rfl
    next => rfl
  have htake (vs : Text) : (us ++ '>' :: vs).takeWhile isNameChar = us.takeWhile isNameChar := by
    rw [List.takeWhile_append]
    split
    next h =>
      rw [List.takeWhile_cons_of_neg (by decide), List.append_nil]
      exact (List.IsPrefix.eq_of_length (List.takeWhile_prefix _) h).symm
    next => rfl
  have hhead (r vs : Text) : (r ++ '>' :: vs).head? = (r ++ ['>']).head? := by cases r <;> rfl
  simp only [isTypeParameters, htake, hdrop isNameChar (by decide), hdrop isAsciiBlank (by decide)]
  generalize (us.dropWhile isNameChar).dropWhile isAsciiBlank = r
  rw [hhead r ws, hhead r vs, isPrefixOf_before (by decide), isPrefixOf_before (by decide)]
  cases hword : "extends".toList.isPrefixOf r with
  | false => rfl
  | true =>
    obtain ⟨r, rfl⟩ := List.isPrefixOf_iff_prefix.mp hword
    have hrest (vs : Text) : ("extends".toList ++ r ++ '>' :: vs).drop 7 = r ++ '>' :: vs := rfl
    rw [hrest, hrest, hhead r ws, hhead r vs]

end Element

namespace Token

/-! ### What may stand behind a token -/

theorem class_of_isAlpha {c : Char} (h : c.isAlpha = true) : isWordRest c = true ∧
    Literal.isFlag c = true ∧ c.isDigit = false ∧ c ∉ ['>', '.', '/', '*'] := by
  have hname : continuesName c = true := by simp [continuesName, isAsciiAlphanumeric, h]
  have hall := forall_ascii (p := fun c => !c.isAlpha ||
    (isWordRest c && Literal.isFlag c && !c.isDigit && c ∉ ['>', '.', '/', '*']))
    (by decide +kernel) (toNat_of_continuesName hname)
  simpa [h, and_assoc] using hall

/-- The token `c :: us` does not go on into the text. -/
structure Clear (c : Char) (us ws : Text) : Prop where
  word : isWordStart c = true → ws.head?.any isWordRest = false
  number : c.isDigit = true → Literal.number ws = 0
  arrow : us = [] → c = '|' ∨ c = '=' → ws.head? ≠ some '>'
  query : us = [] → c = '?' → ws.head? = some '.' → (ws.drop 1).head?.any Char.isDigit = true
  member : us = ['.'] → c = '?' → ws.head?.any Char.isDigit = false
  slash : us = [] → c = '/' → ws.head? ≠ some '/' ∧ ws.head? ≠ some '*'
  regex : us ≠ [] → c = '/' → ws.head?.any Literal.isFlag = false

namespace Clear

variable {c d : Char} {us piece vs ws : Text}

theorem nil (c : Char) (us : Text) : Clear c us [] :=
  ⟨fun _ => rfl, fun _ => rfl, nofun, nofun, fun _ _ => rfl, fun _ _ => ⟨nofun, nofun⟩,
    fun _ _ => rfl⟩

/-- What stands behind the next character is seen past a dot only. -/
theorem before (h : Clear c us (d :: piece ++ vs))
    (hdigit : (d :: piece).getLast? = some '.' →
      ws.head?.any Char.isDigit = vs.head?.any Char.isDigit) :
    Clear c us (d :: piece ++ ws) := by
  have hnext : d = '.' →
      (piece ++ ws).head?.any Char.isDigit = (piece ++ vs).head?.any Char.isDigit := by
    rintro rfl
    cases piece with
    | nil => exact hdigit rfl
    | cons => rfl
  refine ⟨h.word, fun hc => ?_, h.arrow, fun hus hc hd => ?_, h.member, h.slash, h.regex⟩
  · have hnumber := Literal.number_cons_eq_zero.mp (h.number hc)
    refine Literal.number_cons_eq_zero.mpr ⟨hnumber.1, ?_⟩
    by_cases hd : d = '.'
    · exact (congrArg (d == '.' && ·) (hnext hd)).trans hnumber.2
    · simp [hd]
  · have hquery := h.query hus hc hd
    rw [List.cons_append, List.drop_one, List.tail_cons] at hquery ⊢
    rwa [hnext (Option.some.inj hd)]

/-- Before a sign that no token goes on with. -/
theorem of_sign (hw : isWordRest d = false) (hd : d ∉ ['.', '/', '*'])
    (hg : d ≠ '>' ∨ us ≠ [] ∨ c ≠ '|' ∧ c ≠ '=') (ws : Text) : Clear c us (d :: ws) := by
  have hflag : Literal.isFlag d = false := by
    cases hflag : Literal.isFlag d with
    | false => rfl
    | true =>
      have hname : continuesName d = true := by
        simp only [Literal.isFlag, continuesName, Bool.or_eq_true] at hflag ⊢
        exact .inl hflag
      rw [(class_of_continuesName hname).1] at hw
      cases hw
  have hdigit : d.isDigit = false := by
    simp only [Literal.isFlag, isAsciiAlphanumeric, Bool.or_eq_false_iff] at hflag
    exact hflag.1.2
  simp only [List.mem_cons, not_or] at hd
  obtain ⟨hpoint, hslash, hstar, -⟩ := hd
  refine ⟨fun _ => by simpa using hw, fun _ => ?_, fun hus hc => ?_, fun _ _ hd => ?_,
    fun _ _ => by simpa using hdigit, fun _ _ => ?_, fun _ _ => by simpa using hflag⟩
  · exact Literal.number_cons_eq_zero.mpr ⟨hflag, by simp [hpoint]⟩
  · rintro ⟨⟩
    rcases hg with hg | hg | hg
    · exact hg rfl
    · exact hg hus
    · exact hc.elim hg.1 hg.2
  · exact absurd (Option.some.inj hd) hpoint
  · exact ⟨fun h => hslash (Option.some.inj h), fun h => hstar (Option.some.inj h)⟩

/-- No word, number or flag ends before a letter, and to all others one letter is like the other. -/
theorem letters {a b : Char} (h : Clear c us (a :: vs)) (ha : a.isAlpha = true)
    (hb : b.isAlpha = true) (ws : Text) : Clear c us (b :: ws) := by
  obtain ⟨haw, haf, -⟩ := class_of_isAlpha ha
  obtain ⟨-, -, hbd, hbs⟩ := class_of_isAlpha hb
  simp only [List.mem_cons, not_or] at hbs
  obtain ⟨hgreater, hpoint, hslash, hstar, -⟩ := hbs
  refine ⟨fun hc => ?_, fun hc => ?_, fun _ _ hb => ?_, fun _ _ hb => ?_, fun _ _ => ?_,
    fun _ _ => ?_, fun hus hc => ?_⟩
  · have hword := h.word hc
    simp [haw] at hword
  · have hnumber := (Literal.number_cons_eq_zero.mp (h.number hc)).1
    rw [show (isAsciiAlphanumeric a || a == '_') = true from haf] at hnumber
    cases hnumber
  · exact hgreater (Option.some.inj hb)
  · exact absurd (Option.some.inj hb) hpoint
  · simpa using hbd
  · exact ⟨fun h => hslash (Option.some.inj h), fun h => hstar (Option.some.inj h)⟩
  · have hflag := h.regex hus hc
    simp [haf] at hflag

end Clear

/-! ### What may stand before a token -/

/-- What a token may be at a place: whether a regular expression may start there, and whether an
element may, unless that hangs on more than the token before. -/
structure Stance where
  regex : Bool
  element : Option Bool
deriving DecidableEq, Repr

def Context.stance (x : Context) : Stance :=
  ⟨x.allowsRegex,
    if x.last.any (·.kind = .punct ':') then none else some x.allowsElement⟩

/-- The stance behind a token. -/
def stance (t : Token) : Stance := Context.stance ⟨some t, 0, false⟩

theorem Context.stance_push (x : Context) (t : Token) (before after : Option Char) :
    (x.push t before after).stance = t.stance := by
  have hlast := x.last_push t before after
  generalize x.push t before after = y at hlast
  obtain ⟨last, conditionals, closed⟩ := y
  obtain rfl : last = some t := hlast
  by_cases hk : t.kind = .punct ':'
  · simp [Token.stance, Context.stance, hk, Context.allowsRegex]
  · have helement : Context.allowsElement ⟨some t, conditionals, closed⟩ =
        Context.allowsElement ⟨some t, 0, false⟩ := by
      cases hkind : t.kind with
      | punct sign =>
        have hsign : sign ≠ ':' := fun hs => hk (hs ▸ hkind)
        simp only [Context.allowsElement, hkind, if_neg hsign]
      | _ => simp only [Context.allowsElement, hkind]
    simp only [Token.stance, Context.stance, helement, Context.allowsRegex]

theorem Context.allowsElement_of_stance {x : Context} {b : Bool} (h : x.stance.element = some b) :
    x.allowsElement = b := by
  unfold Context.stance at h
  dsimp only at h
  split at h
  next => cases h
  next => exact Option.some.inj h

/-- The token is what it would be at a place of the stance. A string has its closing quote. -/
structure Fits (markup : Bool) (σ : Stance) (t : Token) : Prop where
  slash : t.text.head? = some '/' → σ.regex = (t.kind == .regex)
  less : markup = true → t.text.head? = some '<' → σ.element = some (t.kind == .markup)
  closed : t.kind = .string → t.isLiteral = true

instance (markup : Bool) (σ : Stance) (t : Token) : Decidable (Fits markup σ t) :=
  decidable_of_iff (_ ∧ _ ∧ _) ⟨fun ⟨h₁, h₂, h₃⟩ => ⟨h₁, h₂, h₃⟩, fun ⟨h₁, h₂, h₃⟩ => ⟨h₁, h₂, h₃⟩⟩

/-- The first token fits the stance, and every other one the token before it. -/
def Fitting (markup : Bool) (σ : Stance) (ts : List Token) : Prop :=
  (∀ t ∈ ts.head?, Fits markup σ t) ∧ ts.IsChain fun t u => Fits markup t.stance u

/-! ### Tokens -/

namespace Lexeme

variable {markup first : Bool} {x : Context} {c : Char} {us vs ws cs : Text} {k : Kind}
  {deep : Bool} {n : Nat}

theorem word_before (h : word c (us ++ vs) = ⟨k, us.length, deep⟩)
    (hws : ws.head?.any isWordRest = false) : word c (us ++ ws) = ⟨k, us.length, deep⟩ := by
  obtain ⟨hus, hvs⟩ := takeWhile_before (congrArg Lexeme.more h)
  rw [word, takeWhile_of_before hus hvs] at h
  rw [word, takeWhile_of_before hus hws]
  exact h

theorem read_bar (cs : Text) :
    read markup x '|' cs =
      if cs.head? == some '>' then ⟨.pipe, 1, false⟩ else single (.punct '|') := by
  rw [read, if_neg (by decide), if_neg (by decide), if_neg (by decide), if_neg (by decide)]
  cases hnext : cs.head? == some '>' <;> rfl

theorem read_equals (cs : Text) :
    read markup x '=' cs =
      if cs.head? == some '>' then ⟨.arrow, 1, false⟩ else single (.punct '=') := by
  rw [read, if_neg (by decide), if_neg (by decide), if_neg (by decide), if_neg (by decide),
    if_neg (by simp)]
  cases hnext : cs.head? == some '>' <;> rfl

theorem read_query (cs : Text) :
    read markup x '?' cs =
      if cs.head? == some '.' && !(cs.drop 1).head?.any Char.isDigit then ⟨.dot, 1, false⟩
      else single (.punct '?') := by
  rw [read, if_neg (by decide), if_neg (by decide), if_neg (by decide), if_neg (by decide),
    if_neg (by simp), if_neg (by simp)]
  cases hnext : cs.head? == some '.' && !(cs.drop 1).head?.any Char.isDigit <;> simp_all [signKind]

theorem read_single (hword : isWordStart c = false) (hdigit : c.isDigit = false)
    (hquote : Element.isQuote c = false)
    (hsign : c ∉ ['`', '|', '=', '?', '/']) (hless : markup = true → c ≠ '<') (cs : Text) :
    read markup x c cs = single (signKind c) := by
  simp only [List.mem_cons, not_or] at hsign
  obtain ⟨htick, hbar, hequals, hquery, hslash, -⟩ := hsign
  have hmarkup : (c == '<' && markup) = false := by
    cases markup with
    | false => exact Bool.and_false _
    | true => simpa using hless rfl
  simp [read, hword, hdigit, hquote, htick, hbar, hequals, hquery, hslash, hmarkup]

theorem read_slash (cs : Text) :
    read markup x '/' cs = if x.allowsRegex then regex cs else single (.punct '/') := by
  rw [read, if_neg (by decide), if_neg (by decide), if_neg (by decide), if_neg (by decide),
    if_neg (by simp), if_neg (by simp), if_neg (by simp), if_neg (by simp)]
  cases x.allowsRegex <;> rfl

theorem read_less (cs : Text) :
    read markup x '<' cs =
      if markup && x.allowsElement && Element.isTagStart ('<' :: cs) &&
        !Element.isTypeParameters cs then element cs else single .less := by
  rw [read, if_neg (by decide), if_neg (by decide), if_neg (by decide), if_neg (by decide),
    if_neg (by simp), if_neg (by simp), if_neg (by simp)]
  simp [signKind]

/-- A token was read to its end: it does not go on into what stands behind it. -/
theorem clear_of_read (hb : blank? first c (us ++ vs) = none)
    (h : read markup x c (us ++ vs) = ⟨k, us.length, deep⟩) : Clear c us vs where
  word hc := by
    rw [read, if_pos hc] at h
    exact (takeWhile_before (congrArg Lexeme.more h)).2
  number hc := by
    rw [read, if_neg (by rw [isWordStart_of_isDigit hc]; decide), if_pos hc] at h
    exact Literal.number_of_append (congrArg Lexeme.more h)
  arrow hus hc hvs := by
    subst hus
    rw [List.nil_append] at h
    rcases hc with rfl | rfl
    · rw [read_bar, if_pos (beq_iff_eq.mpr hvs)] at h
      cases h
    · rw [read_equals, if_pos (beq_iff_eq.mpr hvs)] at h
      cases h
  query hus hc hvs := by
    subst hus hc
    rw [List.nil_append, read_query] at h
    split at h
    next => cases h
    next hpoint => simpa [hvs] using hpoint
  member hus hc := by
    subst hus hc
    rw [read_query] at h
    split at h
    next hpoint => simpa using hpoint
    next => cases h
  slash hus hc := by
    subst hus hc
    rw [List.nil_append, blank?, if_neg (by decide)] at hb
    refine ⟨fun hvs => ?_, fun hvs => ?_⟩
    · simp [hvs] at hb
    · simp [hvs] at hb
  regex hus hc := by
    subst hc
    rw [read_slash] at h
    split at h
    next =>
      unfold Lexeme.regex at h
      split at h
      next n hn =>
        obtain rfl : n = us.length := congrArg Lexeme.more h
        exact (Literal.regex?_before hn).1
      next => exact absurd (List.length_eq_zero_iff.mp (congrArg Lexeme.more h).symm) hus
    next => exact absurd (List.length_eq_zero_iff.mp (congrArg Lexeme.more h).symm) hus

/-- A sign that goes with the next character, or stands alone. -/
theorem pair_before (next : Text → Bool) {double simple : Kind}
    (h : (if next (us ++ vs) then (⟨double, 1, false⟩ : Lexeme) else single simple) =
      ⟨k, us.length, false⟩)
    (hsimple : us = [] → next ws = false)
    (hdouble : ∀ d, us = [d] → next (us ++ vs) = true → next (us ++ ws) = true) :
    (if next (us ++ ws) then (⟨double, 1, false⟩ : Lexeme) else single simple) =
      ⟨k, us.length, false⟩ := by
  split at h
  next hnext =>
    obtain ⟨d, hd⟩ := List.length_eq_one_iff.mp (congrArg Lexeme.more h).symm
    rw [if_pos (hdouble d hd hnext), h]
  next =>
    have hus := List.length_eq_zero_iff.mp (congrArg Lexeme.more h).symm
    have hnext : next (us ++ ws) = false := by rw [hus, List.nil_append, hsimple hus]
    rw [if_neg (by rw [hnext]; decide), h]

/-- A slash is read again where a regular expression may start if and only if it is one. -/
theorem slash_before {y : Context} (h : read markup x '/' (us ++ vs) = ⟨k, us.length, false⟩)
    (hy : y.allowsRegex = (k == .regex)) (hws : Clear '/' us ws) :
    read markup y '/' (us ++ ws) = ⟨k, us.length, false⟩ := by
  rw [read_slash, hy]
  rw [read_slash] at h
  have hsingle (h : single (.punct '/') = ⟨k, us.length, false⟩) :
      (if k == .regex then regex (us ++ ws) else single (.punct '/')) = ⟨k, us.length, false⟩ := by
    obtain rfl : .punct '/' = k := congrArg Lexeme.kind h
    rw [if_neg (by decide), h]
  split at h
  next =>
    unfold regex at h
    split at h
    next n hn =>
      obtain rfl : n = us.length := congrArg Lexeme.more h
      have hus : us ≠ [] := by
        rintro rfl
        exact Rebound.regex?_ne_zero _ _ hn
      obtain rfl : .regex = k := congrArg Lexeme.kind h
      rw [if_pos (by decide), regex, (Literal.regex?_before hn).2 ws (hws.regex hus rfl)]
    next => exact hsingle h
  next => exact hsingle h

theorem element_cases (h : element cs = ⟨k, n, false⟩) :
    k = .less ∧ n = 0 ∨ k = .markup ∧ n ≠ 0 ∧ Element.length? ('<' :: cs) = some (n + 1) := by
  unfold element at h
  split at h
  next m hm =>
    split at h
    next hlt =>
      obtain rfl : .markup = k := congrArg Lexeme.kind h
      obtain rfl : m - 1 = n := congrArg Lexeme.more h
      exact .inr ⟨rfl, by omega, by rw [hm, Nat.sub_add_cancel (Nat.le_of_lt hlt)]⟩
    next => exact .inl ⟨(congrArg Lexeme.kind h).symm, (congrArg Lexeme.more h).symm⟩
  next => cases (congrArg Lexeme.tooDeep h : true = false)

/-- An element is read again where one may start, any other `<` where none may. -/
theorem less_before {y : Context} (h : read true x '<' (us ++ vs) = ⟨k, us.length, false⟩)
    (hy : y.allowsElement = (k == .markup)) (hnil : vs = [] → ws = [] ∨ k ≠ .markup) :
    read true y '<' (us ++ ws) = ⟨k, us.length, false⟩ := by
  rw [read_less, hy]
  rw [read_less] at h
  have hsingle (hk : k = .less) (hus : us.length = 0) :
      (if true && k == .markup && Element.isTagStart ('<' :: (us ++ ws)) &&
        !Element.isTypeParameters (us ++ ws) then element (us ++ ws) else single .less) =
        ⟨k, us.length, false⟩ := by
    rw [hk, hus]
    rfl
  split at h
  next hcond =>
    simp only [Bool.and_eq_true, Bool.not_eq_true', Bool.true_and] at hcond
    obtain ⟨⟨-, hstart⟩, htype⟩ := hcond
    rcases element_cases h with ⟨hk, hus⟩ | ⟨rfl, hus, hlen⟩
    · exact hsingle hk hus
    · have hcond' : Element.isTagStart ('<' :: (us ++ ws)) = true ∧
          Element.isTypeParameters (us ++ ws) = false ∧
          element (us ++ ws) = element (us ++ vs) := by
        by_cases hvs : vs = []
        · rw [(hnil hvs).resolve_right fun hk => hk rfl, ← hvs]
          exact ⟨hstart, htype, rfl⟩
        · -- an element that something stands behind ends with a `>`
          have hend : us.getLast? = some '>' := by
            rcases Element.reaches_length hstart hlen with hlong | hend
            · have hpos := List.length_pos_iff.mpr hvs
              simp only [List.length_cons, List.length_append] at hlong
              omega
            · rw [List.take_succ_cons, List.take_left] at hend
              rwa [List.getLast?_cons_of_ne_nil (List.length_pos_iff.mp (Nat.pos_of_ne_zero hus))]
                at hend
          obtain ⟨body, rfl⟩ := List.getLast?_eq_some_iff.mp hend
          have hsame := element_append ws hvs hstart (by rw [h]) (by rw [h])
          refine ⟨?_, ?_, hsame⟩
          · cases body with
            | nil => exact hstart
            | cons d body => exact (Element.isTagStart_append _ vs ws).trans hstart
          · rw [List.append_assoc] at htype ⊢
            exact (Element.isTypeParameters_before body vs ws).trans htype
      rw [hcond'.1, hcond'.2.1, hcond'.2.2, h]
      rfl
  next =>
    exact hsingle (congrArg Lexeme.kind h).symm (congrArg Lexeme.more h).symm

/-- A token is read again before other text, at a place that it fits. -/
theorem read_before {y : Context} {p : Position}
    (h : read markup x c (us ++ vs) = ⟨k, us.length, false⟩)
    (hfits : Fits markup y.stance ⟨k, c :: us, p⟩)
    (hnil : vs = [] → ws = [] ∨ k ≠ .template ∧ k ≠ .markup)
    (hws : Clear c us ws) : read markup y c (us ++ ws) = ⟨k, us.length, false⟩ := by
  by_cases hword : isWordStart c = true
  · rw [read, if_pos hword] at h ⊢
    exact word_before h (hws.word hword)
  by_cases hdigit : c.isDigit = true
  · rw [read, if_neg hword, if_pos hdigit] at h ⊢
    cases (congrArg Lexeme.kind h : Kind.number = k)
    rw [Literal.number_before (congrArg Lexeme.more h) (hws.number hdigit)]
  by_cases hquote : Element.isQuote c = true
  · rw [read, if_neg hword, if_neg hdigit, if_pos hquote] at h ⊢
    cases (congrArg Lexeme.kind h : Kind.string = k)
    rw [Literal.quoted_of_isClosed (hfits.closed rfl)]
  by_cases htick : (c == '`') = true
  · rw [read, if_neg hword, if_neg hdigit, if_neg hquote, if_pos htick] at h ⊢
    by_cases hvs : vs = []
    · have hk : k = .template := by
        rw [← show (template (us ++ vs)).kind = k from congrArg Lexeme.kind h, template]
        split <;> rfl
      rw [(hnil hvs).resolve_right fun hne => hne.1 hk, ← hvs, h]
    · rw [template_append ws hvs (by rw [h]) (by rw [h]), h]
  rw [Bool.not_eq_true] at hword hdigit hquote
  by_cases hbar : c = '|'
  · subst hbar
    rw [read_bar] at h ⊢
    refine pair_before (fun cs => cs.head? == some '>') h (fun hus => ?_) fun d hd hnext => ?_
    · simpa using hws.arrow hus (.inl rfl)
    · rwa [hd] at hnext ⊢
  by_cases hequals : c = '='
  · subst hequals
    rw [read_equals] at h ⊢
    refine pair_before (fun cs => cs.head? == some '>') h (fun hus => ?_) fun d hd hnext => ?_
    · simpa using hws.arrow hus (.inr rfl)
    · rwa [hd] at hnext ⊢
  by_cases hquery : c = '?'
  · subst hquery
    rw [read_query] at h ⊢
    refine pair_before
      (fun cs => cs.head? == some '.' && !(cs.drop 1).head?.any Char.isDigit) h
      (fun hus => ?_) fun d hd hnext => ?_
    · have hsimple := hws.query hus rfl
      cases hpoint : ws.head? == some '.' with
      | false => rfl
      | true =>
        rw [hsimple (beq_iff_eq.mp hpoint)]
        rfl
    · rw [hd] at hnext ⊢
      obtain ⟨hpoint, -⟩ := Bool.and_eq_true_iff.mp hnext
      obtain rfl : d = '.' := by simpa using hpoint
      simpa using hws.member hd rfl
  by_cases hslash : c = '/'
  · subst hslash
    exact slash_before h (hfits.slash rfl) hws
  by_cases hless : markup = true ∧ c = '<'
  · obtain ⟨rfl, rfl⟩ := hless
    exact less_before h (Context.allowsElement_of_stance (hfits.less rfl rfl)) fun hvs =>
      (hnil hvs).imp_right And.right
  have hsign : c ∉ ['`', '|', '=', '?', '/'] := by
    simp_all
  rw [read_single hword hdigit hquote hsign fun hm hc => hless ⟨hm, hc⟩] at h ⊢
  exact h

end Lexeme

/-! ### Gaps -/

/-- Is the gap `c :: us` a comment that runs to the end of its line? -/
def isLine (c : Char) (us : Text) : Bool := c == '/' && us.head? == some '/' || c == '#'

section Gaps

variable {first : Bool} {c : Char} {us vs ws : Text}

theorem restOfLine_before (h : restOfLine (us ++ vs) = us.length) (hws : AtLineEnd ws) :
    restOfLine (us ++ ws) = us.length := by
  have hbody := (restOfLine_spec (us ++ vs)).1
  rw [h, List.take_left] at hbody
  rw [restOfLine, Piece.takeWhile_of_bounded (fun d hd => ?_) fun d hd => ?_]
  · rw [bne_iff_ne]
    rintro rfl
    exact hbody hd
  · simp [hws d hd]

theorem restOfLine_ne_zero {d : Char} (h : d ≠ '\n') {cs : Text} (hcs : cs.head? = some d) :
    restOfLine cs ≠ 0 := by
  obtain ⟨ds, rfl⟩ := List.head?_eq_some_iff.mp hcs
  rw [restOfLine_cons h]
  exact Nat.succ_ne_zero _

/-- A gap is passed again before other text, a comment without its own end only at the end of a
line. -/
theorem blank?_before (h : blank? first c (us ++ vs) = some us.length) (hnil : vs = [] → ws = [])
    (hline : isLine c us = true → AtLineEnd ws) : blank? first c (us ++ ws) = some us.length := by
  cases us with
  | nil =>
    -- nothing but a blank is a gap of one character
    have hcomment (d : Char) (hd : d ≠ '\n') (hhead : vs.head? = some d) : restOfLine vs ≠ 0 :=
      restOfLine_ne_zero hd hhead
    have hblank : isBlank c = true := by
      unfold blank? at h
      grind
    rw [blank?, if_pos hblank]
    rfl
  | cons d us =>
    simp only [blank?, List.cons_append, List.head?_cons, List.drop_one, List.tail_cons] at h ⊢
    split at h
    next hb => cases h
    next hb =>
      rw [if_neg hb]
      split at h
      next hc =>
        rw [if_pos hc]
        have hend := hline (by simp_all [isLine])
        rw [← List.cons_append, restOfLine_before (Option.some.inj h) hend]
      next hc =>
        rw [if_neg hc]
        split at h
        next hs =>
          rw [if_pos hs]
          have hend := hline (by simp_all [isLine])
          rw [← List.cons_append, restOfLine_before (Option.some.inj h) hend]
        next hs =>
          rw [if_neg hs]
          split at h
          next hstar =>
            rw [if_pos hstar]
            have hlen : Literal.throughComment (us ++ vs) = us.length :=
              Nat.succ.inj (Option.some.inj h)
            by_cases hvs : vs = []
            · rw [hnil hvs, ← hvs, hlen]
              rfl
            · rw [Literal.throughComment_append hvs ws (Nat.le_of_eq hlen), hlen]
              rfl
          next => cases h

/-- A comment without its own end goes to the end of its line. -/
theorem atLineEnd_of_blank? (h : blank? first c (us ++ vs) = some us.length)
    (hline : isLine c us = true) : AtLineEnd vs := by
  have hrest (hlen : restOfLine (us ++ vs) = us.length) : AtLineEnd vs := by
    have hend := (restOfLine_spec (us ++ vs)).2
    rwa [hlen, List.drop_left] at hend
  have hstar (hc : c ≠ '#') (hhead : (us ++ vs).head? = some '*') (hus : us.head? = some '/') :
      False := by
    obtain ⟨us, rfl⟩ := List.head?_eq_some_iff.mp hus
    cases hhead
  have hblank : isBlank '/' = false ∧ isBlank '#' = false := by decide
  unfold blank? at h
  unfold isLine at hline
  grind

theorem blank?_eq_none_iff {cs : Text} :
    blank? first c cs = none ↔ isBlank c = false ∧
      (c = '/' → cs.head? ≠ some '/' ∧ cs.head? ≠ some '*') ∧
      (c = '#' → cs.head? = some '!' → first = false) := by
  have hsharp : isBlank '#' = false := by decide
  unfold blank?
  grind

theorem blank?_eq_none_before (h : blank? first c (us ++ vs) = none) (hws : Clear c us ws)
    (hbang : ws.head? = some '!' → vs.head? = some '!') : blank? first c (us ++ ws) = none := by
  cases us with
  | nil =>
    rw [List.nil_append, blank?_eq_none_iff] at h ⊢
    exact ⟨h.1, hws.slash rfl, fun hc hb => h.2.2 hc (hbang hb)⟩
  | cons d us =>
    rw [blank?_eq_none_iff] at h ⊢
    exact h

end Gaps

end Token

end Desugar
