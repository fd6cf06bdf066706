import Desugar.Proofs.Chains

/-! Texts put together from atoms: words of any script, numbers, single signs and gaps. Where no
atom runs into what follows it, scanning gives one token for each atom that is no gap, as long
as no elements are looked for. -/
namespace Desugar

open Unicode Text Token

/-! ### Characters of words -/

/-- Do no ranges of the two sets meet? -/
def Unicode.Ranges.apart (a b : Ranges) : Bool :=
  a.all fun r => b.all fun s => r.2 < s.1 || s.2 < r.1

theorem Unicode.Ranges.has_of_apart {a b : Ranges} (h : apart a b = true) {c : Char}
    (hc : a.has c = true) : b.has c = false := by
  obtain ⟨r, hr, hcr⟩ := List.any_eq_true.mp hc
  refine List.any_eq_false.mpr fun s hs hcs => ?_
  have hrs := List.all_eq_true.mp (List.all_eq_true.mp h r hr) s hs
  simp only [Bool.and_eq_true, Bool.or_eq_true, decide_eq_true_eq] at hcr hcs hrs
  omega

theorem isBlank_of_isWordRest {c : Char} (h : isWordRest c = true) : isBlank c = false := by
  cases hascii : isAscii c with
  | true =>
    have hall := forall_ascii (p := fun c => !isWordRest c || !isBlank c) (by decide +kernel)
      (of_decide_eq_true hascii)
    simpa [h] using hall
  | false =>
    have hlow : 128 ≤ c.toNat := Nat.le_of_not_lt (of_decide_eq_false hascii)
    have hsign (d : Char) (hd : d.toNat < 128) : (c == d) = false := by
      rw [beq_eq_false_iff_ne]
      rintro rfl
      omega
    have hword : alphabetic.has c = true ∨ numeric.has c = true := by
      simpa [isWordRest, isAlphanumeric, hascii, hsign '_' (by decide), hsign '$' (by decide)]
        using h
    have hblank : blank.has c = false := by
      rcases hword with hword | hword
      · exact Ranges.has_of_apart (by decide +kernel) hword
      · exact Ranges.has_of_apart (by decide +kernel) hword
    have hcontrol : (decide (c.toNat ≤ 13)) = false := decide_eq_false (by omega)
    simp [isBlank, hsign ' ' (by decide), hcontrol, hblank]

theorem isWordRest_of_isWordStart {c : Char} (h : isWordStart c = true) : isWordRest c = true := by
  simp only [isWordStart, isWordRest, isAlphabetic, isAlphanumeric, isAsciiAlphanumeric,
    Bool.or_eq_true] at h ⊢
  split <;> simp_all <;> tauto

/-! ### Atoms -/

/-- An identifier or a keyword. -/
structure Word where
  first : Char
  rest : Text
  starts : isWordStart first = true
  continues : rest.all isWordRest = true

def Word.text (w : Word) : Text := w.first :: w.rest

def Identifier.word (n : Identifier) : Word where
  first := n.first
  rest := n.rest
  starts := isWordStart_of_isNameStart n.starts
  continues := List.all_eq_true.mpr fun c hc =>
    (class_of_continuesName (List.all_eq_true.mp n.continues c hc)).1

/-- Any number of blanks, or none. -/
structure Gap where
  text : Text
  blank : text.all isBlank = true

inductive Sign where
  | colon
  | comma
  | query
  | semicolon
  | less
  | greater
  | opening (bracket : Bracket)
  | closing (bracket : Bracket)

namespace Sign

def char : Sign → Char
  | .colon => ':'
  | .comma => ','
  | .query => '?'
  | .semicolon => ';'
  | .less => '<'
  | .greater => '>'
  | .opening .paren => '('
  | .opening .brace => '{'
  | .opening .square => '['
  | .closing .paren => ')'
  | .closing .brace => '}'
  | .closing .square => ']'

def kind : Sign → Kind
  | .colon => .punct ':'
  | .comma => .comma
  | .query => .punct '?'
  | .semicolon => .semicolon
  | .less => .less
  | .greater => .greater
  | .opening bracket => .opening bracket
  | .closing bracket => .closing bracket

end Sign

inductive Atom where
  | word (word : Word)
  | number (value : Decimal)
  | sign (sign : Sign)
  | gap (gap : Gap)

namespace Atom

def text : Atom → Text
  | .word w => w.text
  | .number d => d.text
  | .sign s => [s.char]
  | .gap g => g.text

/-- The kind of the token of an atom; a gap has none. -/
def kind? : Atom → Option Kind
  | .word w => some (Lexeme.wordKind w.text)
  | .number _ => some .number
  | .sign s => some s.kind
  | .gap _ => none

def written (xs : List Atom) : Text := xs.flatMap text

/-- The tokens of atoms that stand behind the text `front`. -/
def tokens : (front : Text) → List Atom → List Token
  | _, [] => []
  | front, x :: xs =>
    (x.kind?.map fun k => .behind front k x.text).toList ++ tokens (front ++ x.text) xs

@[simp] theorem written_nil : written [] = [] := rfl

@[simp] theorem written_cons (x : Atom) (xs : List Atom) :
    written (x :: xs) = x.text ++ written xs := rfl

@[simp] theorem written_append (xs ys : List Atom) :
    written (xs ++ ys) = written xs ++ written ys := List.flatMap_append

theorem tokens_cons {x : Atom} {k : Kind} (hk : x.kind? = some k) (front : Text) (xs : List Atom) :
    tokens front (x :: xs) = .behind front k x.text :: tokens (front ++ x.text) xs := by
  rw [tokens, hk]
  rfl

theorem tokens_append (front : Text) (xs ys : List Atom) :
    tokens front (xs ++ ys) = tokens front xs ++ tokens (front ++ written xs) ys := by
  induction xs generalizing front with
  | nil => simp [tokens]
  | cons x xs ih => simp [tokens, ih]

/-! ### Atoms apart -/

/-- Could the atom go on with the character? -/
def takes : Atom → Char → Bool
  | .word _, c => isWordRest c
  | .number _, c => continuesName c || c == '.'
  | .sign .query, c => c == '.'
  | _, _ => false

/-- The text goes on with a character that does not belong to the atom. -/
def Bounded (x : Atom) (cs : Text) : Prop := ∀ c, cs.head? = some c → x.takes c = false

theorem bounded_iff {x : Atom} {cs : Text} : cs.head?.any x.takes = false ↔ Bounded x cs := by
  cases cs <;> simp [Bounded]

instance (x : Atom) (cs : Text) : Decidable (Bounded x cs) := decidable_of_iff _ bounded_iff

/-- No atom runs into the next ones or the text behind them. -/
def Separate (cs : Text) : List Atom → Prop
  | [] => True
  | x :: xs => Bounded x (written xs ++ cs) ∧ Separate cs xs

instance Separate.decidable (cs : Text) : (xs : List Atom) → Decidable (Separate cs xs)
  | [] => .isTrue trivial
  | x :: xs =>
    have := Separate.decidable cs xs
    inferInstanceAs (Decidable (Bounded x (written xs ++ cs) ∧ Separate cs xs))

theorem separate_append {cs : Text} {xs ys : List Atom} :
    Separate cs (xs ++ ys) ↔ Separate (written ys ++ cs) xs ∧ Separate cs ys := by
  induction xs with
  | nil => exact (and_iff_right trivial).symm
  | cons x xs ih => simp only [List.cons_append, Separate, written_append, List.append_assoc, ih,
      and_assoc]

/-- The text is empty or begins with a character that no atom takes. -/
def Detached (cs : Text) : Prop := ∀ c, cs.head? = some c → isWordRest c = false ∧ c ≠ '.'

theorem Detached.cons {c : Char} (h : isWordRest c = false) (hc : c ≠ '.') (cs : Text) :
    Detached (c :: cs) := by
  intro d hd
  cases hd
  exact ⟨h, hc⟩

theorem Detached.sign (s : Sign) (cs : Text) : Detached (s.char :: cs) := by
  cases s with
  | opening b | closing b => cases b <;> exact .cons rfl (by decide) cs
  | _ => exact .cons rfl (by decide) cs

theorem Detached.gap {cs : Text} (h : Detached cs) (g : Gap) : Detached (g.text ++ cs) := by
  obtain ⟨g, hg⟩ := g
  cases g with
  | nil => exact h
  | cons c g =>
    have hc : isBlank c = true := (List.all_eq_true.mp hg) c List.mem_cons_self
    refine .cons (Bool.eq_false_iff.mpr fun hw => ?_) ?_ _
    · rw [isBlank_of_isWordRest hw] at hc
      cases hc
    · rintro rfl
      cases hc

theorem Detached.bounded {cs : Text} (h : Detached cs) (x : Atom) : Bounded x cs := by
  intro c hc
  obtain ⟨hword, hdot⟩ := h c hc
  have hname : continuesName c = false := Bool.eq_false_iff.mpr fun hname => by
    rw [(class_of_continuesName hname).1] at hword
    cases hword
  have hdot : (c == '.') = false := beq_eq_false_iff_ne.mpr hdot
  unfold takes
  split <;> simp [hword, hname, hdot]

theorem Separate.of_detached {cs : Text} (hcs : Detached cs) {xs : List Atom}
    (h : Separate [] xs) : Separate cs xs := by
  induction xs with
  | nil => trivial
  | cons x xs ih =>
    refine ⟨?_, ih h.2⟩
    have hx := h.1
    rw [List.append_nil] at hx
    cases hw : written xs with
    | nil => exact hcs.bounded x
    | cons d ds =>
      rw [hw] at hx
      exact hx

/-! ### Scanning -/

theorem read_word {w : Word} {cs : Text} (h : Bounded (.word w) cs) (markup : Bool) :
    (∀ first, blank? first w.first (w.rest ++ cs) = none) ∧
      ∀ context, Lexeme.read markup context w.first (w.rest ++ cs) =
        ⟨Lexeme.wordKind w.text, w.rest.length, false⟩ := by
  have hblank := isBlank_of_isWordRest (isWordRest_of_isWordStart w.starts)
  have hne (d : Char) (hd : isWordStart d = false) : (w.first == d) = false := by
    rw [beq_eq_false_iff_ne]
    intro heq
    rw [← heq, w.starts] at hd
    cases hd
  have hrest : (w.rest ++ cs).takeWhile isWordRest = w.rest :=
    Piece.takeWhile_of_bounded (List.all_eq_true.mp w.continues) h
  refine ⟨fun first => ?_, fun context => ?_⟩
  · simp [blank?, hblank, hne '/' rfl, hne '#' rfl]
  · rw [Lexeme.read, if_pos w.starts, Lexeme.word, hrest]
    rfl

theorem read_sign {s : Sign} {cs : Text} (h : Bounded (.sign s) cs) :
    (∀ first, blank? first s.char cs = none) ∧
      ∀ context, Lexeme.read false context s.char cs = ⟨s.kind, 0, false⟩ := by
  cases s with
  | query =>
    have hnext : (cs.head? == some '.') = false := by
      rw [beq_eq_false_iff_ne]
      intro hdot
      cases h '.' hdot
    refine ⟨fun _ => rfl, fun context => ?_⟩
    have hdot : ('?' == '?' && cs.head? == some '.' && !(cs.drop 1).head?.any Char.isDigit) =
        false := by
      rw [hnext]
      rfl
    simp only [Lexeme.read, Sign.char, hdot]
    rfl
  | opening b | closing b => cases b <;> exact ⟨fun _ => rfl, fun _ => rfl⟩
  | _ => exact ⟨fun _ => rfl, fun _ => rfl⟩

/-- An atom that is no gap is read as one token. -/
theorem read_atom {x : Atom} {k : Kind} {cs : Text} (hk : x.kind? = some k) (h : Bounded x cs) :
    ∃ c us, x.text = c :: us ∧ (∀ first, blank? first c (us ++ cs) = none) ∧
      ∀ context, Lexeme.read false context c (us ++ cs) = ⟨k, us.length, false⟩ := by
  cases x with
  | word w =>
    cases hk
    exact ⟨w.first, w.rest, rfl, read_word h false⟩
  | number d =>
    cases hk
    exact Piece.read_piece (x := .number d) rfl h false
  | sign s =>
    cases hk
    exact ⟨s.char, [], rfl, read_sign h⟩
  | gap g => cases hk

theorem run_gap (markup : Bool) (g : Gap) (cs front : Text) (context : Context)
    (before : Option Char) :
    ∃ before', Scan.run markup (Position.origin.advance front) context before 0 (g.text ++ cs) =
      Scan.run markup (Position.origin.advance (front ++ g.text)) context before' 0 cs := by
  obtain ⟨g, hg⟩ := g
  dsimp only
  induction g generalizing front before with
  | nil => exact ⟨before, by rw [List.append_nil]; rfl⟩
  | cons c g ih =>
    rw [List.all_cons, Bool.and_eq_true] at hg
    obtain ⟨before', hrun⟩ := ih (front ++ [c]) (some c) hg.2
    refine ⟨before', ?_⟩
    have hplace : (Position.origin.advance front).next c =
        Position.origin.advance (front ++ [c]) := by
      rw [Position.advance_append]
      rfl
    rw [List.cons_append, Scan.run, blank?, if_pos hg.1]
    dsimp only
    rw [hplace, hrun, List.append_assoc, List.singleton_append]

/-- Atoms are cut off one by one, and scanning goes on in some context. -/
theorem run_atoms {xs : List Atom} {cs : Text} (h : Separate cs xs) (front : Text)
    (context : Context) (before : Option Char) :
    ∃ context' before',
      Scan.run false (Position.origin.advance front) context before 0 (written xs ++ cs) =
        let rest :=
          Scan.run false (Position.origin.advance (front ++ written xs)) context' before' 0 cs
        ⟨tokens front xs ++ rest.tokens, rest.tooDeep⟩ := by
  induction xs generalizing front context before with
  | nil => exact ⟨context, before, by rw [written_nil, List.append_nil]; rfl⟩
  | cons x xs ih =>
    rw [written_cons, List.append_assoc, ← List.append_assoc front]
    cases hk : x.kind? with
    | none =>
      cases x with
      | gap g =>
        obtain ⟨before₁, hgap⟩ := run_gap false g (written xs ++ cs) front context before
        obtain ⟨context', before', hrun⟩ := ih h.2 (front ++ g.text) context before₁
        exact ⟨context', before', hgap.trans hrun⟩
      | _ => cases hk
    | some k =>
      obtain ⟨c, us, htext, hblank, hread⟩ := read_atom hk h.1
      obtain ⟨context₁, before₁, htoken⟩ :=
        Piece.run_token false hblank hread front context before
      obtain ⟨context', before', hrun⟩ := ih h.2 (front ++ x.text) context₁ before₁
      refine ⟨context', before', ?_⟩
      rw [htext] at hrun ⊢
      rw [htoken, hrun, tokens_cons hk, htext]
      rfl

/-- The tokens of a text put together from atoms. -/
theorem scan_atoms {xs : List Atom} (h : Separate [] xs) :
    scan false (written xs) =
      ⟨tokens [] xs ++ [finish (Position.origin.advance (written xs))], none⟩ := by
  obtain ⟨context', before', hrun⟩ := run_atoms h [] .empty none
  rw [List.append_nil] at hrun
  exact hrun

/-! ### Atoms without blanks at their edges -/

theorem firm_text {x : Atom} {k : Kind} (hk : x.kind? = some k) : Firm x.text := by
  cases x with
  | word w =>
    have hall : ∀ c ∈ w.text, isBlank c = false := List.forall_mem_cons.mpr
      ⟨isBlank_of_isWordRest (isWordRest_of_isWordStart w.starts),
        fun c hc => isBlank_of_isWordRest (List.all_eq_true.mp w.continues c hc)⟩
    exact ⟨.cons (hall _ List.mem_cons_self) _, .of_forall hall (List.cons_ne_nil _ _)⟩
  | number d => exact d.firm
  | sign s =>
    have hchar : isBlank s.char = false := by
      cases s with
      | opening b | closing b => cases b <;> rfl
      | _ => rfl
    exact ⟨.cons hchar _, .singleton hchar⟩
  | gap g => cases hk

end Atom

end Desugar
