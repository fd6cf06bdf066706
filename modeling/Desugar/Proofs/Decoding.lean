import Mathlib.Data.List.DropRight
import Mathlib.Data.List.Sort
import Desugar.Mapping

/-! Reading mappings back. The format is stated as a reader of its own: semicolons part the
lines, commas the segments of a line, and each segment holds four numbers relative to the
segment before. Reading what was written gives one link for each offset with an anchor, at
the line and column of that offset. -/
namespace Desugar.Mapping

open Text

/-! ### The format -/

/-- A place of the generated code and the place it stands for, in the source of an index. -/
structure Link where
  line : Int
  column : Int
  source : Int
  sourceLine : Int
  sourceColumn : Int
deriving DecidableEq, Repr

def digitValue? (c : Char) : Option Nat := alphabet.idxOf? c

/-- The unsigned numbers in a run of digits: five bits a digit, the least first, and a
sixth bit on all digits of a number but its last. -/
def numerals? : Text → Option (List Nat)
  | [] => some []
  | c :: cs =>
    match digitValue? c, numerals? cs with
    | some d, some ns =>
      if d < 32 then some (d :: ns)
      else match ns with
        | n :: ns => some ((d - 32 + 32 * n) :: ns)
        | [] => none
    | _, _ => none

/-- The lowest bit is the sign. -/
def signed (n : Nat) : Int := if n % 2 = 0 then (n / 2 : Nat) else -(n / 2 : Nat)

/-- The segment after `last` on the same line. -/
def link? (last : Link) (text : Text) : Option Link :=
  match (numerals? text).map (List.map signed) with
  | some [column, source, line, sourceColumn] =>
    some ⟨last.line, last.column + column, last.source + source, last.sourceLine + line,
      last.sourceColumn + sourceColumn⟩
  | _ => none

/-- The segments after `last` on the same line. -/
def row? (last : Link) : List Text → Option (List Link)
  | [] => some []
  | piece :: pieces => do
    let link ← link? last piece
    let rest ← row? link pieces
    pure (link :: rest)

/-- The segments after `last`, line by line. Columns start anew on each line. -/
def rows? (last : Link) : List (List Text) → Option (List Link)
  | [] => some []
  | row :: rows => do
    let links ← row? last row
    let before := links.getLastD last
    let rest ← rows? { before with line := before.line + 1, column := 0 } rows
    pure (links ++ rest)

/-- The segments of a line, which may be empty. -/
def pieces (line : Text) : List Text := if line.isEmpty then [] else line.splitOn ','

def decode? (text : Text) : Option (List Link) :=
  rows? ⟨0, 0, 0, 0, 0⟩ ((text.splitOn ';').map pieces)

example : decode? "AAAA;AACA,gBAAD".toList =
    some [⟨0, 0, 0, 0, 0⟩, ⟨1, 0, 0, 1, 0⟩, ⟨1, 16, 0, 1, -1⟩] := by decide +kernel

/-! ### Digits -/

theorem digitValue?_digit : ∀ n < 64, digitValue? (digit n) = some n := by decide +kernel

theorem digit_ne_separator : ∀ n < 64, digit n ≠ ',' ∧ digit n ≠ ';' := by decide +kernel

theorem numerals?_digits (n : Nat) (rest : Text) :
    numerals? (digits n ++ rest) = (numerals? rest).map (n :: ·) := by
  fun_induction digits n with
  | case1 n h =>
    rw [List.singleton_append, numerals?, digitValue?_digit n (by omega)]
    cases numerals? rest with
    | none => rfl
    | some ns => simp [h]
  | case2 n h ih =>
    rw [List.cons_append, numerals?, digitValue?_digit _ (by omega), ih]
    cases numerals? rest with
    | none => rfl
    | some ns =>
      have hdigit : ¬ n % 32 + 32 < 32 := by omega
      have hvalue : n % 32 + 32 - 32 + 32 * (n / 32) = n := by omega
      simp only [Option.map_some, if_neg hdigit, hvalue]

theorem signed_code (n : Int) :
    signed (if n < 0 then 2 * n.natAbs + 1 else 2 * n.natAbs) = n := by
  unfold signed
  split <;> split <;> omega

theorem fields_number (n : Int) (rest : Text) :
    (numerals? (number n ++ rest)).map (List.map signed) =
      ((numerals? rest).map (List.map signed)).map (n :: ·) := by
  rw [number, numerals?_digits]
  cases numerals? rest with
  | none => rfl
  | some ns => simp only [Option.map_some, List.map_cons, signed_code]

theorem ne_separator_of_mem_digits {n : Nat} {c : Char} (h : c ∈ digits n) : c ≠ ',' ∧ c ≠ ';' := by
  fun_induction digits n with
  | case1 n hn =>
    rw [List.mem_singleton.mp h]
    exact digit_ne_separator n (by omega)
  | case2 n hn ih =>
    rcases List.mem_cons.mp h with rfl | h
    · exact digit_ne_separator _ (by omega)
    · exact ih h

theorem digits_ne_nil (n : Nat) : digits n ≠ [] := by
  rw [digits]
  split <;> exact List.cons_ne_nil _ _

/-! ### Segments -/

/-- The written form of the segment `s` after `last`. -/
def piece (last s : Segment) : Text :=
  number (s.column - (if last.line < s.line then 0 else last.column : Nat)) ++ number 0 ++
    number (s.sourceLine - last.sourceLine) ++ number (s.sourceColumn - last.sourceColumn)

def Segment.link (s : Segment) : Link := ⟨s.line, s.column, 0, s.sourceLine, s.sourceColumn⟩

theorem ne_separator_of_mem_piece {last s : Segment} {c : Char} (h : c ∈ piece last s) :
    c ≠ ',' ∧ c ≠ ';' := by
  simp only [piece, List.mem_append] at h
  rcases h with ((h | h) | h) | h <;> exact ne_separator_of_mem_digits h

theorem piece_ne_nil (last s : Segment) : piece last s ≠ [] := by
  intro h
  simp only [piece, List.append_eq_nil_iff] at h
  exact digits_ne_nil _ h.1.1.1

theorem link?_piece (last s : Segment) :
    link? ⟨s.line, (if last.line < s.line then 0 else last.column : Nat), 0, last.sourceLine,
      last.sourceColumn⟩ (piece last s) = some s.link := by
  have hnil : (numerals? []).map (List.map signed) = some [] := rfl
  unfold link? piece
  rw [← List.append_nil (number (s.sourceColumn - last.sourceColumn))]
  simp only [List.append_assoc, fields_number, hnil, Option.map_some]
  simp only [Segment.link, Option.some.injEq, Link.mk.injEq, true_and]
  refine ⟨by omega, by omega, by omega, by omega⟩

/-! ### Lines -/

/-- The written segments line by line, from the line of `last` on. -/
def rows (last : Segment) : List Segment → List (List Text)
  | [] => [[]]
  | s :: ss =>
    List.replicate (s.line - last.line) [] ++ (rows s ss).modifyHead (piece last s :: ·)

theorem rows_ne_nil (last : Segment) (ss : List Segment) : rows last ss ≠ [] := by
  cases ss with
  | nil => exact List.cons_ne_nil _ _
  | cons s ss =>
    intro h
    rw [rows, List.append_eq_nil_iff, List.modifyHead_eq_nil_iff] at h
    exact rows_ne_nil s ss h.2

theorem mem_rows {last : Segment} {ss : List Segment} {row : List Text} {p : Text}
    (hrow : row ∈ rows last ss) (hp : p ∈ row) : ∃ s s', p = piece s s' := by
  induction ss generalizing last row with
  | nil =>
    rw [List.mem_singleton.mp hrow] at hp
    cases hp
  | cons s ss ih =>
    obtain ⟨r, rs, hrs⟩ := List.exists_cons_of_ne_nil (rows_ne_nil s ss)
    rw [rows, hrs, List.modifyHead_cons, List.mem_append, List.mem_cons] at hrow
    rcases hrow with hrow | rfl | hrow
    · rw [(List.mem_replicate.mp hrow).2] at hp
      cases hp
    · rcases List.mem_cons.mp hp with rfl | hp
      · exact ⟨last, s, rfl⟩
      · exact ih (hrs ▸ List.mem_cons_self) hp
    · exact ih (hrs ▸ List.mem_cons_of_mem r hrow) hp

theorem intercalate_cons_eq (x : Char) (l : Text) (ls : List Text) :
    [x].intercalate (l :: ls) = l ++ ls.flatMap (x :: ·) := by
  induction ls generalizing l with
  | nil => simp
  | cons m ls ih => rw [List.intercalate_cons_cons, ih]; simp

/-- The rest of the line of `last`, then the other lines. -/
theorem encodeFrom_eq (last : Segment) (fresh : Bool) (ss : List Segment) {row : List Text}
    {others : List (List Text)} (h : rows last ss = row :: others) :
    encodeFrom ⟨last, fresh⟩ ss =
      (if fresh then [','].intercalate row else row.flatMap (',' :: ·)) ++
        others.flatMap fun r => ';' :: [','].intercalate r := by
  induction ss generalizing last fresh row others with
  | nil =>
    obtain ⟨rfl, rfl⟩ := List.cons.inj h
    cases fresh <;> rfl
  | cons s ss ih =>
    obtain ⟨r, rs, hrs⟩ := List.exists_cons_of_ne_nil (rows_ne_nil s ss)
    have hrest := ih s false hrs
    rw [rows, hrs, List.modifyHead_cons] at h
    have hpiece : encodeFrom ⟨last, fresh⟩ (s :: ss) =
        List.replicate (s.line - last.line) ';' ++
          ((if fresh || last.line < s.line then [] else [',']) ++
            (piece last s ++ encodeFrom ⟨s, false⟩ ss)) := by
      rw [encodeFrom, piece]
      simp only [List.append_assoc]
    rw [hpiece, hrest]
    by_cases hline : last.line < s.line
    · -- the line of `last` is over
      obtain ⟨k, hk⟩ : ∃ k, s.line - last.line = k + 1 := ⟨s.line - last.line - 1, by omega⟩
      rw [hk, List.replicate_succ, List.cons_append] at h
      obtain ⟨rfl, rfl⟩ := List.cons.inj h
      have hsemicolons : (List.replicate k ([] : List Text)).flatMap
          (fun r => ';' :: [','].intercalate r) = List.replicate k ';' := by
        rw [List.flatMap_replicate]
        simp
      simp only [hk, hline, decide_true, Bool.or_true, if_true, List.flatMap_append, hsemicolons,
        List.flatMap_cons, intercalate_cons_eq, List.replicate_succ']
      cases fresh <;> simp
    · have hk : s.line - last.line = 0 := by omega
      rw [hk] at h ⊢
      obtain ⟨rfl, rfl⟩ := List.cons.inj h
      cases fresh <;> simp [hline, intercalate_cons_eq]

theorem mem_intercalate {x c : Char} {ls : List Text} (h : c ∈ [x].intercalate ls) :
    c = x ∨ ∃ l ∈ ls, c ∈ l := by
  cases ls with
  | nil => cases h
  | cons l ls =>
    rw [intercalate_cons_eq, List.mem_append, List.mem_flatMap] at h
    rcases h with h | ⟨m, hm, h⟩
    · exact .inr ⟨l, List.mem_cons_self, h⟩
    · exact (List.mem_cons.mp h).imp_right fun h => ⟨m, List.mem_cons_of_mem l hm, h⟩

theorem pieces_intercalate {row : List Text} (hne : ∀ p ∈ row, p ≠ [])
    (hcomma : ∀ p ∈ row, ',' ∉ p) : pieces ([','].intercalate row) = row := by
  cases row with
  | nil => rfl
  | cons p ps =>
    have hfull : ([','].intercalate (p :: ps)).isEmpty = false := by
      rw [intercalate_cons_eq, List.isEmpty_eq_false_iff]
      exact List.append_ne_nil_of_left_ne_nil (hne p List.mem_cons_self) _
    rw [pieces, hfull]
    exact List.splitOn_intercalate ',' hcomma (List.cons_ne_nil _ _)

/-- The lines of the written text, each cut into its segments. -/
theorem pieces_splitOn (last : Segment) (ss : List Segment) :
    ((encodeFrom ⟨last, true⟩ ss).splitOn ';').map pieces = rows last ss := by
  obtain ⟨row, others, hrows⟩ := List.exists_cons_of_ne_nil (rows_ne_nil last ss)
  have htext : encodeFrom ⟨last, true⟩ ss =
      [';'].intercalate ((rows last ss).map [','].intercalate) := by
    rw [encodeFrom_eq last true ss hrows, hrows, List.map_cons, intercalate_cons_eq,
      List.flatMap_map]
    rfl
  have hlines : ∀ l ∈ (rows last ss).map [','].intercalate, ';' ∉ l := by
    intro l hl hc
    obtain ⟨r, hr, rfl⟩ := List.mem_map.mp hl
    rcases mem_intercalate hc with hc | ⟨p, hp, hc⟩
    · cases hc
    · obtain ⟨s, s', rfl⟩ := mem_rows hr hp
      exact (ne_separator_of_mem_piece hc).2 rfl
  have hpieces : ∀ r ∈ rows last ss, pieces ([','].intercalate r) = r := by
    intro r hr
    refine pieces_intercalate (fun p hp => ?_) (fun p hp hc => ?_)
    · obtain ⟨s, s', rfl⟩ := mem_rows hr hp
      exact piece_ne_nil s s'
    · obtain ⟨s, s', rfl⟩ := mem_rows hr hp
      exact (ne_separator_of_mem_piece hc).1 rfl
  have hne : (rows last ss).map [','].intercalate ≠ [] := by simpa using rows_ne_nil last ss
  rw [htext, List.splitOn_intercalate ';' hlines hne, List.map_map]
  exact (List.map_congr_left hpieces).trans (List.map_id _)

/-! ### Reading lines -/

theorem rows?_cons_cons {last link : Link} {p : Text} (h : link? last p = some link)
    (row : List Text) (others : List (List Text)) :
    rows? last ((p :: row) :: others) = (rows? link (row :: others)).map (link :: ·) := by
  simp only [rows?, row?, h, Option.bind_eq_bind, Option.bind_some, Option.pure_def]
  cases row? link row with
  | none => rfl
  | some links =>
    simp only [Option.bind_some, List.getLastD_cons]
    cases rows? _ others <;> rfl

/-- Empty lines only move on to a later line. -/
theorem rows?_replicate (last : Link) (k : Nat) (others : List (List Text)) :
    rows? last (List.replicate (k + 1) [] ++ others) =
      rows? { last with line := last.line + (k + 1 : Nat), column := 0 } others := by
  have hone (last : Link) (others : List (List Text)) :
      rows? last ([] :: others) =
        rows? { last with line := last.line + 1, column := 0 } others := by
    simp only [rows?, row?, Option.bind_eq_bind, Option.bind_some, Option.pure_def,
      List.getLastD_nil]
    cases rows? _ others <;> rfl
  induction k generalizing last with
  | zero => exact hone last others
  | succ k ih =>
    rw [List.replicate_succ, List.cons_append, hone, ih]
    simp only [Int.add_assoc]
    congr 3
    omega

/-- Lines never go back from one segment to the next. -/
theorem rows?_rows {last : Segment} {ss : List Segment}
    (h : (last :: ss).Pairwise fun s s' => s.line ≤ s'.line) :
    rows? last.link (rows last ss) = some (ss.map Segment.link) := by
  induction ss generalizing last with
  | nil => rfl
  | cons s ss ih =>
    have hle : last.line ≤ s.line := (List.pairwise_cons.mp h).1 s List.mem_cons_self
    obtain ⟨row, others, hrows⟩ := List.exists_cons_of_ne_nil (rows_ne_nil s ss)
    have hrest := ih (List.pairwise_cons.mp h).2
    have hlink := link?_piece last s
    rw [hrows] at hrest
    rw [rows, hrows, List.modifyHead_cons]
    by_cases hline : last.line < s.line
    · -- empty lines lead up to the line of `s`
      obtain ⟨k, hk⟩ : ∃ k, s.line - last.line = k + 1 := ⟨s.line - last.line - 1, by omega⟩
      have hreached : (last.line : Int) + (k + 1 : Nat) = s.line := by omega
      rw [if_pos hline] at hlink
      rw [hk, rows?_replicate]
      simp only [Segment.link, hreached]
      exact (rows?_cons_cons hlink row others).trans (by rw [hrest]; rfl)
    · have hk : s.line - last.line = 0 := by omega
      have hsame : last.line = s.line := by omega
      rw [if_neg hline, ← hsame] at hlink
      rw [hk, List.replicate_zero, List.nil_append]
      exact (rows?_cons_cons hlink row others).trans (by rw [hrest]; rfl)

theorem decode?_encodeFrom {ss : List Segment} (h : ss.Pairwise fun s s' => s.line ≤ s'.line) :
    decode? (encodeFrom ⟨⟨0, 0, 0, 0⟩, true⟩ ss) = some (ss.map Segment.link) := by
  rw [decode?, pieces_splitOn]
  exact @rows?_rows ⟨0, 0, 0, 0⟩ ss (List.pairwise_cons.mpr ⟨fun s _ => Nat.zero_le s.line, h⟩)

/-! ### Lines and columns -/

/-- The characters that end at or before the offset. -/
def upTo : (offset : Nat) → Text → Text
  | _, [] => []
  | offset, c :: cs => if c.utf8Size ≤ offset then c :: upTo (offset - c.utf8Size) cs else []

/-- The number of line ends before the offset. -/
def lineOf (text : Text) (offset : Nat) : Nat := (upTo offset text).count '\n'

/-- What follows the last line end. -/
def lastLine (text : Text) : Text := text.rtakeWhile (· != '\n')

/-- The UTF-16 units between the last line end and the offset, none if the offset lies
inside a character. -/
def columnOf (text : Text) (offset : Nat) : Nat :=
  if width (upTo offset text) = offset then units (lastLine (upTo offset text)) else 0

theorem upTo_zero (text : Text) : upTo 0 text = [] := by
  cases text with
  | nil => rfl
  | cons c cs =>
    have hc := c.utf8Size_pos
    rw [upTo, if_neg (by omega)]

theorem isPrefix_upTo {n m : Nat} (h : n ≤ m) (text : Text) : upTo n text <+: upTo m text := by
  induction text generalizing n m with
  | nil => exact List.prefix_rfl
  | cons c cs ih =>
    simp only [upTo]
    by_cases hc : c.utf8Size ≤ n
    · rw [if_pos hc, if_pos (by omega)]
      exact List.cons_prefix_cons.mpr ⟨rfl, ih (by omega)⟩
    · rw [if_neg hc]
      exact List.nil_prefix

theorem lineOf_mono (text : Text) {n m : Nat} (h : n ≤ m) : lineOf text n ≤ lineOf text m :=
  (isPrefix_upTo h text).sublist.count_le _

theorem lastLine_eq_self {text : Text} (h : '\n' ∉ text) : lastLine text = text := by
  rw [lastLine, List.rtakeWhile_eq_self_iff]
  intro c hc
  rw [bne_iff_ne]
  rintro rfl
  exact h hc

theorem lastLine_cons_of_mem {text : Text} (h : '\n' ∈ text) (c : Char) :
    lastLine (c :: text) = lastLine text := by
  have hall : ¬ (text.reverse.takeWhile (· != '\n')).length = text.reverse.length := by
    intro hlen
    have hwhole := (List.takeWhile_prefix (· != '\n')).eq_of_length hlen
    have hmem : '\n' ∈ text.reverse.takeWhile (· != '\n') := by simpa [hwhole] using h
    simpa using List.mem_takeWhile_imp hmem
  rw [lastLine, lastLine, List.rtakeWhile, List.rtakeWhile, List.reverse_cons,
    List.takeWhile_append, if_neg hall]

theorem lastLine_newline (text : Text) : lastLine ('\n' :: text) = lastLine text := by
  by_cases h : '\n' ∈ text
  · exact lastLine_cons_of_mem h '\n'
  · rw [lastLine_eq_self h, lastLine, List.rtakeWhile, List.reverse_cons,
      List.takeWhile_append_of_pos fun c hc => ?_]
    · simp
    · rw [bne_iff_ne]
      rintro rfl
      exact h (List.mem_reverse.mp hc)

/-- Walking through the text counts the lines; the column goes on from that of the first
place until a line ends. -/
theorem locateFrom_eq (line column : Nat) (text : Text) (offset : Nat) :
    locateFrom line column text offset =
      (line + lineOf text offset,
        if width (upTo offset text) = offset then
          (if '\n' ∈ upTo offset text then 0 else column) + units (lastLine (upTo offset text))
        else 0) := by
  induction text generalizing line column offset with
  | nil => cases offset <;> simp [locateFrom, lineOf, upTo, lastLine]
  | cons c cs ih =>
    cases offset with
    | zero => simp [locateFrom, lineOf, upTo_zero, lastLine]
    | succ n =>
      simp only [locateFrom, lineOf, upTo]
      by_cases hc : c.utf8Size ≤ n + 1
      · have hwidth : (width (c :: upTo (n + 1 - c.utf8Size) cs) = n + 1) =
            (width (upTo (n + 1 - c.utf8Size) cs) = n + 1 - c.utf8Size) := by
          rw [width_cons]
          exact propext (by omega)
        simp only [if_pos hc, ih, hwidth]
        by_cases hnl : c = '\n'
        · subst hnl
          simp only [if_true, lineOf, List.count_cons_self, lastLine_newline, List.mem_cons_self,
            ite_self, Nat.add_assoc, Nat.add_comm 1]
        · have hcount : (c :: upTo (n + 1 - c.utf8Size) cs).count '\n' =
              lineOf cs (n + 1 - c.utf8Size) := List.count_cons_of_ne hnl
          rw [hcount, if_neg hnl]
          by_cases hmem : '\n' ∈ upTo (n + 1 - c.utf8Size) cs
          · simp only [hmem, List.mem_cons_of_mem, if_true, lastLine_cons_of_mem]
          · have hnot : '\n' ∉ c :: upTo (n + 1 - c.utf8Size) cs := by
              simpa using ⟨Ne.symm hnl, hmem⟩
            simp only [hmem, hnot, if_false, lastLine_eq_self hmem, lastLine_eq_self hnot, units,
              Nat.add_assoc, Nat.add_zero]
      · simp only [if_neg hc]
        simp

theorem locate_eq (text : Text) (offset : Nat) :
    locate text offset = (lineOf text offset, columnOf text offset) := by
  rw [locate, locateFrom_eq]
  simp only [ite_self, Nat.zero_add]
  rfl

/-! ### Anchors in order -/

/-- Anchors by increasing offset in the generated code. -/
def Increasing (anchors : List Anchor) : Prop :=
  anchors.Pairwise fun a b => a.generated < b.generated

theorem mem_place {a b : Anchor} {anchors : List Anchor} (h : Increasing anchors) :
    b ∈ place a anchors ↔ b = a ∨ b ∈ anchors ∧ b.generated ≠ a.generated := by
  induction anchors with
  | nil => simp [place]
  | cons c cs ih =>
    obtain ⟨hlater, hcs⟩ := List.pairwise_cons.mp h
    rw [place]
    split
    next hlt =>
      have hne : ∀ d ∈ c :: cs, d.generated ≠ a.generated := by
        intro d hd
        rcases List.mem_cons.mp hd with rfl | hd
        · omega
        · have hlt' := hlater d hd
          omega
      rw [List.mem_cons]
      exact or_congr_right ⟨fun hb => ⟨hb, hne b hb⟩, And.left⟩
    next =>
      split
      next heq =>
        have hne : ∀ d ∈ cs, d.generated ≠ a.generated := by
          intro d hd
          have hlt := hlater d hd
          omega
        rw [List.mem_cons, List.mem_cons]
        refine or_congr_right ⟨fun hb => ⟨.inr hb, hne b hb⟩, ?_⟩
        rintro ⟨rfl | hb, hdiffer⟩
        · exact absurd heq.symm hdiffer
        · exact hb
      next hne =>
        rw [List.mem_cons, List.mem_cons, ih hcs]
        constructor
        · rintro (rfl | rfl | ⟨hb, hdiffer⟩)
          · exact .inr ⟨.inl rfl, fun heq => hne heq.symm⟩
          · exact .inl rfl
          · exact .inr ⟨.inr hb, hdiffer⟩
        · rintro (rfl | ⟨rfl | hb, hdiffer⟩)
          · exact .inr (.inl rfl)
          · exact .inl rfl
          · exact .inr (.inr ⟨hb, hdiffer⟩)

theorem increasing_place (a : Anchor) {anchors : List Anchor} (h : Increasing anchors) :
    Increasing (place a anchors) := by
  induction anchors with
  | nil => exact List.pairwise_singleton _ _
  | cons c cs ih =>
    obtain ⟨hlater, hcs⟩ := List.pairwise_cons.mp h
    rw [place]
    split
    next hlt =>
      refine List.pairwise_cons.mpr ⟨fun d hd => ?_, h⟩
      rcases List.mem_cons.mp hd with rfl | hd
      · exact hlt
      · exact Nat.lt_trans hlt (hlater d hd)
    next =>
      split
      next heq => exact List.pairwise_cons.mpr ⟨fun d hd => heq ▸ hlater d hd, hcs⟩
      next hne =>
        refine List.pairwise_cons.mpr ⟨fun d hd => ?_, ih hcs⟩
        rcases (mem_place hcs).mp hd with rfl | ⟨hd, _⟩
        · omega
        · exact hlater d hd

theorem increasing_arrange (size : Nat) (anchors : List Anchor) :
    Increasing (arrange size anchors) := by
  unfold arrange
  induction anchors.filter (·.generated < size) with
  | nil => exact .nil
  | cons a as ih => exact increasing_place a ih

/-- Increasing anchors inside the text are arranged as they are. -/
theorem arrange_eq_self {size : Nat} {anchors : List Anchor} (h : Increasing anchors)
    (hlt : ∀ a ∈ anchors, a.generated < size) : arrange size anchors = anchors := by
  rw [arrange, List.filter_eq_self.mpr fun a ha => decide_eq_true (hlt a ha)]
  clear hlt
  induction anchors with
  | nil => rfl
  | cons a as ih =>
    obtain ⟨hlater, has⟩ := List.pairwise_cons.mp h
    rw [List.foldr_cons, ih has]
    cases as with
    | nil => rfl
    | cons b bs => rw [place, if_pos (hlater b List.mem_cons_self)]

theorem mem_arrange {size : Nat} {anchors : List Anchor} {b : Anchor} :
    b ∈ arrange size anchors ↔
      b.generated < size ∧ anchors.find? (·.generated == b.generated) = some b := by
  induction anchors with
  | nil => simp [arrange]
  | cons a as ih =>
    by_cases ha : a.generated < size
    · have harrange : arrange size (a :: as) = place a (arrange size as) := by
        simp [arrange, ha]
      rw [harrange, mem_place (increasing_arrange size as), ih]
      by_cases heq : a.generated = b.generated
      · rw [List.find?_cons_of_pos (by simpa using heq), Option.some.injEq]
        constructor
        · rintro (rfl | ⟨_, hne⟩)
          · exact ⟨ha, rfl⟩
          · exact absurd heq.symm hne
        · rintro ⟨_, rfl⟩
          exact .inl rfl
      · rw [List.find?_cons_of_neg (by simpa using heq)]
        constructor
        · rintro (rfl | ⟨hb, _⟩)
          · exact absurd rfl heq
          · exact hb
        · exact fun hb => .inr ⟨hb, fun h => heq h.symm⟩
    · have harrange : arrange size (a :: as) = arrange size as := by
        simp [arrange, ha]
      rw [harrange, ih]
      refine and_congr_right fun hb => ?_
      rw [List.find?_cons_of_neg (by simp; omega)]

/-- For each offset inside the code that has an anchor, the first one. -/
theorem arrange_eq (size : Nat) (anchors : List Anchor) :
    arrange size anchors =
      (List.range size).filterMap fun g => anchors.find? (·.generated == g) := by
  have hfound {g : Nat} {a : Anchor} (h : anchors.find? (·.generated == g) = some a) :
      a.generated = g := by simpa using List.find?_some h
  have hincreasing : Increasing
      ((List.range size).filterMap fun g => anchors.find? (·.generated == g)) := by
    refine List.pairwise_filterMap.mpr (List.pairwise_lt_range.imp ?_)
    intro g g' hlt a ha b hb
    rw [hfound ha, hfound hb]
    exact hlt
  have : Std.Irrefl fun a b : Anchor => a.generated < b.generated := ⟨fun a => Nat.lt_irrefl _⟩
  have : Std.Antisymm fun a b : Anchor => a.generated < b.generated :=
    ⟨fun a b hab hba => absurd hab (Nat.lt_asymm hba)⟩
  refine (increasing_arrange size anchors).eq_of_mem_iff hincreasing fun b => ?_
  rw [mem_arrange, List.mem_filterMap]
  constructor
  · rintro ⟨hlt, hb⟩
    exact ⟨b.generated, List.mem_range.mpr hlt, hb⟩
  · rintro ⟨g, hg, hb⟩
    rw [hfound hb]
    exact ⟨List.mem_range.mp hg, hb⟩

/-- Reading written mappings gives, by increasing offset in the generated code, one link for
each offset with an anchor: from the line and column there to those of the first anchor at
that offset, in the only source. -/
theorem decode_encode (source generated : Text) (anchors : List Anchor) :
    decode? (encode source generated anchors) =
      some ((List.range (width generated)).filterMap fun g =>
        (anchors.find? (·.generated == g)).map fun a =>
          let o := min a.source (width source)
          ⟨lineOf generated g, columnOf generated g, 0, lineOf source o, columnOf source o⟩) := by
  have hlines : ((arrange (width generated) anchors).map (segment source generated)).Pairwise
      fun s s' => s.line ≤ s'.line := by
    refine List.pairwise_map.mpr ((increasing_arrange _ anchors).imp fun {a b} hlt => ?_)
    simp only [segment, locate_eq]
    exact lineOf_mono generated (Nat.le_of_lt hlt)
  rw [encode, decode?_encodeFrom hlines, arrange_eq, List.map_map, List.map_filterMap]
  refine congrArg some (List.filterMap_congr fun g _ => ?_)
  cases h : anchors.find? (·.generated == g) with
  | none => rfl
  | some a =>
    have hg : a.generated = g := by simpa using List.find?_some h
    simp only [Option.map_some, Function.comp_apply, segment, Segment.link, locate_eq, hg]

/-- Two lines, a surrogate pair, an offset inside a character and two anchors at one offset. -/
example : decode? (encode "é𝄞;\nb".toList "𝄞x\ny".toList [⟨6, 8⟩, ⟨4, 2⟩, ⟨4, 0⟩, ⟨2, 6⟩, ⟨9, 0⟩]) =
    some [⟨0, 0, 0, 0, 3⟩, ⟨0, 2, 0, 0, 1⟩, ⟨1, 0, 0, 1, 0⟩] := by decide +kernel

end Desugar.Mapping
