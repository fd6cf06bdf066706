import Mathlib.Data.List.Chain
import Desugar.Marker
import Desugar.Proofs.Layout

/-! Texts put together from pieces: names, numbers, a few signs and blanks. Where no two
pieces run into each other, scanning such a text gives the tokens of its pieces, whatever
was scanned before. -/
namespace Desugar

open Unicode Token Marker

/-! ### Names and numbers -/

def continuesName (c : Char) : Bool := isAsciiAlphanumeric c || c == '_' || c == '$'

/-- An ASCII name that is no keyword. -/
structure Identifier where
  first : Char
  rest : Text
  starts : isNameStart first = true
  continues : rest.all continuesName = true
  plain : Keyword.ofText? (first :: rest) = none

def Identifier.text (n : Identifier) : Text := n.first :: n.rest

/-- Decimal digits, and those of a fraction if there is one. -/
structure Decimal where
  first : Char
  rest : Text
  fraction : Text
  digits : (first :: rest ++ fraction).all Char.isDigit = true

def Decimal.text (d : Decimal) : Text :=
  d.first :: (d.rest ++ if d.fraction.isEmpty then [] else '.' :: d.fraction)

/-! ### Characters -/

/-- What holds of the first 128 characters holds of all ASCII characters. -/
theorem forall_ascii {p : Char → Bool} (h : ∀ n : Fin 128, p (Char.ofNat n) = true) {c : Char}
    (hc : c.toNat < 128) : p c = true := by
  have hp := h ⟨c.toNat, hc⟩
  rwa [Char.ofNat_toNat] at hp

theorem toNat_of_continuesName {c : Char} (h : continuesName c = true) : c.toNat < 128 := by
  simp only [continuesName, Bool.or_eq_true, beq_iff_eq] at h
  rcases h with (h | rfl) | rfl
  · exact (toNat_of_alphanumeric h).2
  · decide
  · decide

theorem continuesName_of_isNameStart {c : Char} (h : isNameStart c = true) :
    continuesName c = true := by
  simp only [isNameStart, continuesName, isAsciiAlphanumeric, Bool.or_eq_true] at h ⊢
  tauto

theorem continuesName_of_isDigit {c : Char} (h : c.isDigit = true) : continuesName c = true := by
  simp [continuesName, isAsciiAlphanumeric, h]

/-- A character of a name, as the scanner sees it. -/
theorem class_of_continuesName {c : Char} (h : continuesName c = true) :
    isWordRest c = true ∧ isBlank c = false ∧ (c == '/') = false ∧ (c == '#') = false := by
  have hall := forall_ascii (p := fun c => !continuesName c ||
    (isWordRest c && !isBlank c && c != '/' && c != '#')) (by decide +kernel)
    (toNat_of_continuesName h)
  simpa [h, and_assoc] using hall

theorem isWordStart_of_isNameStart {c : Char} (h : isNameStart c = true) :
    isWordStart c = true := by
  have hall := forall_ascii (p := fun c => !isNameStart c || isWordStart c) (by decide +kernel)
    (toNat_of_continuesName (continuesName_of_isNameStart h))
  simpa [h] using hall

theorem isWordStart_of_isDigit {c : Char} (h : c.isDigit = true) : isWordStart c = false := by
  have hall := forall_ascii (p := fun c => !c.isDigit || !isWordStart c) (by decide +kernel)
    (toNat_of_continuesName (continuesName_of_isDigit h))
  simpa [h] using hall

/-! ### Pieces -/

/-- The token that stands right behind the text `front`. -/
def Token.behind (front : Text) (kind : Kind) (text : Text) : Token :=
  ⟨kind, text, Position.origin.advance front⟩

theorem Token.start_behind (front : Text) (kind : Kind) (text : Text) :
    (behind front kind text).start = Text.width front :=
  offset_origin_advance front

theorem Token.stop_behind (front : Text) (kind : Kind) (text : Text) :
    (behind front kind text).stop = Text.width (front ++ text) := by
  rw [Text.width_append, ← start_behind front kind text]
  rfl

inductive Piece where
  | name (name : Identifier)
  | number (value : Decimal)
  | blank
  | pipe
  | opening
  | closing
  | comma
  | dot

namespace Piece

def text : Piece → Text
  | .name n => n.text
  | .number d => d.text
  | .blank => [' ']
  | .pipe => ['|', '>']
  | .opening => ['(']
  | .closing => [')']
  | .comma => [',']
  | .dot => ['.']

/-- The kind of the token of a piece; a blank has none. -/
def kind? : Piece → Option Kind
  | .name _ => some .ident
  | .number _ => some .number
  | .blank => none
  | .pipe => some .pipe
  | .opening => some (.opening .paren)
  | .closing => some (.closing .paren)
  | .comma => some .comma
  | .dot => some .dot

def written (ps : List Piece) : Text := ps.flatMap text

/-- The tokens of pieces that stand behind the text `front`. -/
def tokens : (front : Text) → List Piece → List Token
  | _, [] => []
  | front, x :: xs =>
    (x.kind?.map fun k => .behind front k x.text).toList ++ tokens (front ++ x.text) xs

/-- Does the second piece not go on with the first? -/
def apart : Piece → Piece → Bool
  | .name _, .name _ | .name _, .number _ | .number _, .name _ | .number _, .number _
  | .number _, .dot => false
  | _, _ => true

/-- No two neighbours run into each other. -/
def Separate (ps : List Piece) : Prop := ps.IsChain fun x y => apart x y = true

@[simp] theorem written_nil : written [] = [] := rfl

@[simp] theorem written_cons (x : Piece) (xs : List Piece) :
    written (x :: xs) = x.text ++ written xs := rfl

@[simp] theorem written_append (xs ys : List Piece) :
    written (xs ++ ys) = written xs ++ written ys := List.flatMap_append

theorem tokens_append (front : Text) (xs ys : List Piece) :
    tokens front (xs ++ ys) = tokens front xs ++ tokens (front ++ written xs) ys := by
  induction xs generalizing front with
  | nil => simp [tokens]
  | cons x xs ih => simp [tokens, ih]

/-! ### Scanning -/

/-- Could the piece go on with the character? -/
def takes : Piece → Char → Bool
  | .name _, c => isWordRest c
  | .number _, c => continuesName c || c == '.'
  | _, _ => false

/-- The text goes on with a character that does not belong to the piece. -/
def Bounded (x : Piece) (cs : Text) : Prop := ∀ c, cs.head? = some c → x.takes c = false

theorem bounded_of_apart {x y : Piece} (h : apart x y = true) (cs : Text) :
    Bounded x (y.text ++ cs) := by
  intro c hc
  cases x with
  | name n =>
    cases y with
    | name m => cases h
    | number d => cases h
    | _ =>
      cases hc
      rfl
  | number d =>
    cases y with
    | name m => cases h
    | number e => cases h
    | dot => cases h
    | _ =>
      cases hc
      rfl
  | _ => rfl

theorem takeWhile_of_bounded {rest cs : Text} {p : Char → Bool} (hrest : ∀ c ∈ rest, p c = true)
    (hcs : ∀ c, cs.head? = some c → p c = false) : (rest ++ cs).takeWhile p = rest := by
  rw [List.takeWhile_append_of_pos hrest]
  cases cs with
  | nil => simp
  | cons c cs => rw [List.takeWhile_cons_of_neg (by rw [hcs c rfl]; decide), List.append_nil]

theorem number_append {ds : Text} (h : ∀ d ∈ ds, d.isDigit = true) (cs : Text) :
    Literal.number (ds ++ cs) = ds.length + Literal.number cs := by
  induction ds with
  | nil => simp
  | cons d ds ih =>
    obtain ⟨hd, hds⟩ := List.forall_mem_cons.mp h
    have hstep : (isAsciiAlphanumeric d || d == '_') = true := by simp [isAsciiAlphanumeric, hd]
    rw [List.cons_append, Literal.number, if_pos hstep, ih hds, List.length_cons]
    omega

theorem number_of_bounded {d : Decimal} {cs : Text} (h : Bounded (.number d) cs) :
    Literal.number cs = 0 := by
  cases cs with
  | nil => rfl
  | cons c cs =>
    have hc := h c rfl
    simp only [takes, continuesName, Bool.or_eq_false_iff] at hc
    obtain ⟨⟨⟨halpha, hline⟩, -⟩, hdot⟩ := hc
    simp [Literal.number, halpha, hline, hdot]

theorem number_point {d : Char} (h : d.isDigit = true) (cs : Text) :
    Literal.number ('.' :: d :: cs) = Literal.number (d :: cs) + 1 := by
  rw [Literal.number, if_neg (by decide), if_pos (by simpa using h)]

theorem number_decimal {d : Decimal} {cs : Text} (h : Bounded (.number d) cs) :
    Literal.number (d.text.tail ++ cs) = d.text.tail.length := by
  have hdigits : ∀ c ∈ d.rest ++ d.fraction, c.isDigit = true := fun c hc =>
    List.all_eq_true.mp d.digits c (List.mem_cons_of_mem _ hc)
  obtain ⟨hrest, hfraction⟩ := List.forall_mem_append.mp hdigits
  rw [Decimal.text, List.tail_cons, List.append_assoc, number_append hrest, List.length_append]
  cases hf : d.fraction with
  | nil => simpa using number_of_bounded h
  | cons e es =>
    rw [hf] at hfraction
    have hnumber := number_append hfraction cs
    rw [number_of_bounded h] at hnumber
    simp only [List.isEmpty_cons, Bool.false_eq_true, if_false, List.cons_append]
    rw [number_point (hfraction e List.mem_cons_self), ← List.cons_append, hnumber]
    rfl

/-- A piece that is a token is read as one. -/
theorem read_piece {x : Piece} {k : Kind} {cs : Text} (hk : x.kind? = some k) (h : Bounded x cs)
    (markup : Bool) :
    ∃ c us, x.text = c :: us ∧ (∀ first, blank? first c (us ++ cs) = none) ∧
      ∀ context, Lexeme.read markup context c (us ++ cs) = ⟨k, us.length, false⟩ := by
  cases x with
  | name n =>
    cases hk
    obtain ⟨-, hblank, hslash, hsharp⟩ :=
      class_of_continuesName (continuesName_of_isNameStart n.starts)
    have hrest : (n.rest ++ cs).takeWhile isWordRest = n.rest := by
      refine takeWhile_of_bounded (fun c hc => ?_) h
      exact (class_of_continuesName (List.all_eq_true.mp n.continues c hc)).1
    refine ⟨n.first, n.rest, rfl, fun first => ?_, fun context => ?_⟩
    · simp [blank?, hblank, hslash, hsharp]
    · rw [Lexeme.read, if_pos (isWordStart_of_isNameStart n.starts), Lexeme.word, hrest,
        Lexeme.wordKind, n.plain]
  | number d =>
    cases hk
    have hdigit : d.first.isDigit = true := List.all_eq_true.mp d.digits _ List.mem_cons_self
    obtain ⟨-, hblank, hslash, hsharp⟩ := class_of_continuesName (continuesName_of_isDigit hdigit)
    refine ⟨d.first, d.text.tail, rfl, fun first => ?_, fun context => ?_⟩
    · simp [blank?, hblank, hslash, hsharp]
    · simp only [Lexeme.read, isWordStart_of_isDigit hdigit, hdigit, number_decimal h,
        Bool.false_eq_true, if_false, if_true]
  | blank => cases hk
  | pipe =>
    cases hk
    exact ⟨'|', ['>'], rfl, fun _ => rfl, fun _ => rfl⟩
  | opening =>
    cases hk
    exact ⟨'(', [], rfl, fun _ => rfl, fun _ => rfl⟩
  | closing =>
    cases hk
    exact ⟨')', [], rfl, fun _ => rfl, fun _ => rfl⟩
  | comma =>
    cases hk
    exact ⟨',', [], rfl, fun _ => rfl, fun _ => rfl⟩
  | dot =>
    cases hk
    exact ⟨'.', [], rfl, fun _ => rfl, fun _ => rfl⟩

section Run

variable (markup : Bool)

/-- A token is cut off, and scanning goes on in some context. -/
theorem run_token {k : Kind} {c : Char} {us cs : Text}
    (hblank : ∀ first, blank? first c (us ++ cs) = none)
    (hread : ∀ context, Lexeme.read markup context c (us ++ cs) = ⟨k, us.length, false⟩)
    (front : Text) (context : Context) (before : Option Char) :
    ∃ context' before',
      Scan.run markup (Position.origin.advance front) context before 0 (c :: us ++ cs) =
        let rest :=
          Scan.run markup (Position.origin.advance (front ++ c :: us)) context' before' 0 cs
        ⟨.behind front k (c :: us) :: rest.tokens, rest.tooDeep⟩ := by
  have hplace : (Position.origin.advance (front ++ c :: us)) =
      ((Position.origin.advance front).next c).advance us := by
    rw [Position.advance_append, Position.advance_cons]
  rw [hplace]
  simp only [List.cons_append, Scan.run, hblank, hread, List.take_left, Token.behind,
    Bool.false_eq_true, if_false]
  let context' := context.push (.behind front k (c :: us)) before (us ++ cs).head?
  have hskip :=
    Scan.run_skip markup ((Position.origin.advance front).next c) context' (some c) us.length
      (us ++ cs)
  rw [List.take_left, List.drop_left] at hskip
  exact ⟨context', us.getLast?.or (some c), by rw [← hskip]; rfl⟩

/-- A piece is cut off, and scanning goes on in some context. -/
theorem run_piece {x : Piece} {cs : Text} (h : Bounded x cs) (front : Text) (context : Context)
    (before : Option Char) :
    ∃ context' before',
      Scan.run markup (Position.origin.advance front) context before 0 (x.text ++ cs) =
        let rest :=
          Scan.run markup (Position.origin.advance (front ++ x.text)) context' before' 0 cs
        ⟨tokens front [x] ++ rest.tokens, rest.tooDeep⟩ := by
  cases hk : x.kind? with
  | none =>
    cases x with
    | blank =>
      refine ⟨context, some ' ', ?_⟩
      rw [Position.advance_append]
      rfl
    | _ => cases hk
  | some k =>
    obtain ⟨c, us, htext, hblank, hread⟩ := read_piece hk h markup
    simp only [tokens, hk, htext, Option.map_some, Option.toList_some, List.append_nil,
      List.singleton_append]
    exact run_token markup hblank hread front context before

theorem run_pieces (ps : List Piece) (h : Separate ps) (front : Text) (context : Context)
    (before : Option Char) :
    Scan.run markup (Position.origin.advance front) context before 0 (written ps) =
      ⟨tokens front ps ++ [finish (Position.origin.advance (front ++ written ps))], none⟩ := by
  induction ps generalizing front context before with
  | nil =>
    rw [written_nil, List.append_nil]
    rfl
  | cons x xs ih =>
    have hbounded : Bounded x (written xs) := by
      cases xs with
      | nil => nofun
      | cons y ys => exact bounded_of_apart (List.isChain_cons_cons.mp h).1 (written ys)
    obtain ⟨context', before', hrun⟩ := run_piece markup hbounded front context before
    rw [written_cons, hrun, ih h.tail]
    simp [tokens]

end Run

/-- The tokens of a text put together from pieces. -/
theorem scan_written {ps : List Piece} (h : Separate ps) (markup : Bool) :
    scan markup (written ps) =
      ⟨tokens [] ps ++ [finish (Position.origin.advance (written ps))], none⟩ :=
  run_pieces markup ps h [] .empty none

end Piece

end Desugar
