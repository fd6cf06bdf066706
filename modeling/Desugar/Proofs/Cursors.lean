import Desugar.Proofs.Elements

/-! Scanning elements with a cursor. The scanner of elements is stated once more over the bytes
of a text, which it reads one at a time at the offset of a cursor. Whatever could go wrong in
such a scan is an outcome of its own: a byte read beyond the end, a brace closed where none is
open, a loop that goes on for too long. The rest of the module says what the cursor finds when
it stands between two characters. -/
namespace Desugar

/-! ### Bytes -/

namespace Text

/-- The bytes of a text in UTF-8. -/
def bytes (text : Text) : List UInt8 := text.flatMap String.utf8EncodeChar

@[simp] theorem bytes_nil : bytes [] = [] := rfl

@[simp] theorem bytes_cons (c : Char) (cs : Text) :
    bytes (c :: cs) = String.utf8EncodeChar c ++ bytes cs := List.flatMap_cons

@[simp] theorem bytes_append (s t : Text) : bytes (s ++ t) = bytes s ++ bytes t :=
  List.flatMap_append

@[simp] theorem length_bytes (text : Text) : (bytes text).length = width text := by
  induction text with
  | nil => rfl
  | cons c cs ih =>
    rw [bytes_cons, List.length_append, String.length_utf8EncodeChar, ih, width_cons]

end Text

theorem utf8Size_eq_one_iff {c : Char} : c.utf8Size = 1 ↔ c.toNat < 128 := by
  rw [Char.utf8Size_eq_one_iff, UInt32.le_iff_toNat_le]
  exact Nat.lt_succ_iff.symm

theorem encode_ascii {c : Char} (h : c.toNat < 128) : String.utf8EncodeChar c = [c.toUInt8] :=
  String.utf8EncodeChar_eq_singleton (utf8Size_eq_one_iff.mpr h)

theorem toNat_toUInt8 {c : Char} (h : c.toNat < 128) : c.toUInt8.toNat = c.toNat := by
  change c.val.toNat % 256 = c.val.toNat
  exact Nat.mod_eq_of_lt (Nat.lt_trans h (by decide))

/-- All bytes of a character beyond ASCII are high. -/
theorem le_of_mem_encode {c : Char} {b : UInt8} (h : 128 ≤ c.toNat)
    (hb : b ∈ String.utf8EncodeChar c) : 128 ≤ b.toNat := by
  have hc : ¬ c.val.toNat ≤ 127 := Nat.not_le.mpr h
  unfold String.utf8EncodeChar at hb
  simp only [if_neg hc] at hb
  split at hb
  · simp only [List.mem_cons, List.not_mem_nil, or_false] at hb
    rcases hb with rfl | rfl <;> simp <;> omega
  split at hb
  · simp only [List.mem_cons, List.not_mem_nil, or_false] at hb
    rcases hb with rfl | rfl | rfl <;> simp <;> omega
  · simp only [List.mem_cons, List.not_mem_nil, or_false] at hb
    rcases hb with rfl | rfl | rfl | rfl <;> simp <;> omega

theorem ne_of_high {b : UInt8} {d : Char} (hd : d.toNat < 128) (hb : 128 ≤ b.toNat) :
    b ≠ d.toUInt8 := by
  rintro rfl
  rw [toNat_toUInt8 hd] at hb
  omega

/-- A byte of a character is that of an ASCII sign only if the character is the sign. -/
theorem mem_encode_eq_iff {c d : Char} {b : UInt8} (hb : b ∈ String.utf8EncodeChar c)
    (hd : d.toNat < 128) : b = d.toUInt8 ↔ c = d := by
  by_cases hc : c.toNat < 128
  · rw [encode_ascii hc, List.mem_singleton] at hb
    subst hb
    refine ⟨fun h => ?_, fun h => congrArg Char.toUInt8 h⟩
    have hn := congrArg UInt8.toNat h
    rw [toNat_toUInt8 hc, toNat_toUInt8 hd] at hn
    exact Char.toNat_inj.mp hn
  · refine iff_of_false (ne_of_high hd (le_of_mem_encode (Nat.le_of_not_lt hc) hb)) ?_
    rintro rfl
    exact hc hd

namespace Element.Cursor

open Text Unicode

/-! ### The scanner -/

/-- Why a scan ends without an offset. Only the first of these is meant to happen. -/
inductive Halt where
  | tooDeep
  /-- A byte beyond the end of the text was read. -/
  | outside
  /-- A brace was closed where none was open. -/
  | unopened
  /-- A loop was not over after the rounds it was given. -/
  | endless
deriving DecidableEq, Repr

/-- The value, or a halt if there is none. -/
def orHalt {α : Type} (halt : Halt) (x : Option α) : Except Halt α := x.elim (.error halt) .ok

/-- Is this the byte of one of the signs? -/
def among (signs : Text) (b : UInt8) : Bool := signs.any fun d => b == d.toUInt8

def isLetter (b : UInt8) : Bool := (65 ≤ b && b ≤ 90) || (97 ≤ b && b ≤ 122)

/-- May an element stand behind these bytes? -/
def opens (front : List UInt8) : Bool :=
  (front.reverse.find? fun b => !among [' ', '\t', '\n', '\x0c', '\r'] b).any
    (among ['(', ',', '{', '[', '&', '|', '?', ':', '>', '=', '!'])

/-- The index of the first `*/`. -/
def commentEnd? : List UInt8 → Option Nat
  | [] => none
  | b :: rest =>
    if b = '*'.toUInt8 ∧ rest.head? = some '/'.toUInt8 then some 0
    else (commentEnd? rest).map (· + 1)

section

variable (bytes : List UInt8)

def byteAt (i : Nat) : Except Halt UInt8 := orHalt .outside bytes[i]?

/-- The bytes before the offset. -/
def before (i : Nat) : Except Halt (List UInt8) :=
  if i ≤ bytes.length then .ok (bytes.take i) else .error .outside

/-- The bytes from the offset on. -/
def behind (i : Nat) : Except Halt (List UInt8) :=
  if i ≤ bytes.length then .ok (bytes.drop i) else .error .outside

def isTagStart (i : Nat) : Bool :=
  bytes[i]? == some '<'.toUInt8 &&
    bytes[i + 1]?.any fun b => isLetter b || b == '/'.toUInt8 || b == '>'.toUInt8

/-- The offset behind the first `b` from `i` on, or the end. -/
def past (b : UInt8) (i : Nat) : Nat :=
  ((bytes.drop i).idxOf? b).elim bytes.length (i + · + 1)

/-- The offset behind the first `*/` from `i` on, or the end. -/
def pastComment (i : Nat) : Except Halt Nat := do
  let rest ← behind bytes i
  pure ((commentEnd? rest).elim bytes.length (i + · + 2))

/-- The offset behind the next closing quote, or the end. -/
def pastQuote (quote : UInt8) : (rounds i : Nat) → Except Halt Nat
  | 0, _ => .error .endless
  | rounds + 1, i =>
    if i < bytes.length then do
      let b ← byteAt bytes i
      if b = '\\'.toUInt8 then pastQuote quote rounds (i + 2)
      else if b = quote then pure (i + 1)
      else pastQuote quote rounds (i + 1)
    else pure bytes.length

-- how many rounds each loop is given
variable (limit : Nat)

/-- The offset behind the string that starts at `i`. -/
def pastString (i : Nat) : Except Halt Nat := do
  let quote ← byteAt bytes i
  pastQuote bytes quote limit (i + 1)

/-- The offset behind an opening tag, and whether it closes itself. -/
def openTag (container : Nat → Except Halt Nat) : (rounds i : Nat) → Except Halt (Nat × Bool)
  | 0, _ => .error .endless
  | rounds + 1, i =>
    if i < bytes.length then do
      let b ← byteAt bytes i
      if among ['"', '\''] b then
        let j ← pastString bytes limit i
        openTag container rounds j
      else if b = '{'.toUInt8 then
        let j ← container i
        openTag container rounds j
      else if b = '/'.toUInt8 ∧ bytes[i + 1]? = some '>'.toUInt8 then pure (i + 2, true)
      else if b = '>'.toUInt8 then pure (i + 1, false)
      else openTag container rounds (i + 1)
    else pure (bytes.length, false)

/-- The offset behind the tag that closes the first one, with `depth` tags open. -/
def tags (container : Nat → Except Halt Nat) : (rounds depth i : Nat) → Except Halt Nat
  | 0, _, _ => .error .endless
  | rounds + 1, depth, i =>
    if i < bytes.length then
      if isTagStart bytes i then do
        let b ← byteAt bytes (i + 1)
        if b = '/'.toUInt8 then
          if depth - 1 = 0 then pure (past bytes '>'.toUInt8 (i + 2))
          else tags container rounds (depth - 1) (past bytes '>'.toUInt8 (i + 2))
        else
          let tag ← openTag bytes limit container limit (i + 1)
          if tag.2 = false then tags container rounds (depth + 1) tag.1
          else if depth = 0 then pure tag.1
          else tags container rounds depth tag.1
      else if depth = 0 then pure i
      else do
        let b ← byteAt bytes i
        if b = '{'.toUInt8 then
          let j ← container i
          tags container rounds depth j
        else tags container rounds depth (i + 1)
    else pure bytes.length

/-- The offset behind the brace that closes the first one, with `depth` braces open. -/
def braces (element : Nat → Except Halt Nat) : (rounds depth i : Nat) → Except Halt Nat
  | 0, _, _ => .error .endless
  | rounds + 1, depth, i =>
    if i < bytes.length then do
      let b ← byteAt bytes i
      if b = '{'.toUInt8 then braces element rounds (depth + 1) (i + 1)
      else if b = '}'.toUInt8 then
        if depth = 0 then .error .unopened
        else if depth - 1 = 0 then pure (i + 1)
        else braces element rounds (depth - 1) (i + 1)
      else if among ['"', '\'', '`'] b then
        let j ← pastString bytes limit i
        braces element rounds depth j
      else if b = '/'.toUInt8 ∧ bytes[i + 1]? = some '/'.toUInt8 then
        braces element rounds depth (past bytes '\n'.toUInt8 i)
      else if b = '/'.toUInt8 ∧ bytes[i + 1]? = some '*'.toUInt8 then
        let j ← pastComment bytes (i + 2)
        braces element rounds depth j
      else if isTagStart bytes i then
        let front ← before bytes i
        if opens front then
          let j ← element i
          braces element rounds depth j
        else braces element rounds depth (i + 1)
      else braces element rounds depth (i + 1)
    else pure bytes.length

mutual

/-- The offset behind the element that starts at `i`, with `room` levels left for it. -/
def element : (room : Nat) → Nat → Except Halt Nat
  | 0, _ => .error .tooDeep
  | room + 1, i => tags bytes limit (container room) limit 0 i

/-- The offset behind the container that starts at `i`, with `room` levels left for it. -/
def container : (room : Nat) → Nat → Except Halt Nat
  | 0, _ => .error .tooDeep
  | room + 1, i => braces bytes limit (element room) limit 0 i

end

/-- The offset where the element at `i` ends. -/
def stop (i : Nat) : Except Halt Nat := element bytes limit (Literal.maxDepth + 1) i

end

/-! ### Between two characters -/

theorem drop_bytes (front rest : Text) :
    (bytes (front ++ rest)).drop (width front) = bytes rest := by
  rw [bytes_append, ← length_bytes, List.drop_left]

theorem take_bytes (front rest : Text) :
    (bytes (front ++ rest)).take (width front) = bytes front := by
  rw [bytes_append, ← length_bytes, List.take_left]

theorem getElem?_bytes (front rest : Text) :
    (bytes (front ++ rest))[width front]? = (bytes rest).head? := by
  rw [← drop_bytes front rest, List.head?_drop]

theorem exists_byte (front cs : Text) {c : Char} {j : Nat} (hj : j < c.utf8Size) :
    ∃ b ∈ String.utf8EncodeChar c, (bytes (front ++ c :: cs))[width front + j]? = some b := by
  have hlen : j < (String.utf8EncodeChar c).length := by rwa [String.length_utf8EncodeChar]
  refine ⟨_, List.getElem_mem hlen, ?_⟩
  rw [← List.getElem?_drop, drop_bytes, bytes_cons, List.getElem?_append_left hlen,
    List.getElem?_eq_getElem hlen]

theorem exists_head (c : Char) (cs : Text) :
    ∃ b ∈ String.utf8EncodeChar c, (bytes (c :: cs)).head? = some b := by
  obtain ⟨b, hb, h⟩ := @exists_byte [] cs c 0 c.utf8Size_pos
  exact ⟨b, hb, by rw [← h, ← getElem?_bytes [] (c :: cs)]; rfl⟩

theorem head?_bytes_eq_iff (rest : Text) {d : Char} (hd : d.toNat < 128) :
    (bytes rest).head? = some d.toUInt8 ↔ rest.head? = some d := by
  cases rest with
  | nil => exact iff_of_false nofun nofun
  | cons c cs =>
    obtain ⟨b, hb, h⟩ := exists_head c cs
    rw [h, List.head?_cons, Option.some_inj, Option.some_inj]
    exact mem_encode_eq_iff hb hd

theorem byteAt_eq {text front cs : Text} {c : Char} (htext : text = front ++ c :: cs) :
    ∃ b ∈ String.utf8EncodeChar c, byteAt (bytes text) (width front) = .ok b ∧
      width front < (bytes text).length := by
  obtain ⟨b, hb, hat⟩ := @exists_byte front cs c 0 c.utf8Size_pos
  rw [← htext, Nat.add_zero] at hat
  refine ⟨b, hb, by rw [byteAt, hat]; rfl, ?_⟩
  exact (List.getElem?_eq_some_iff.mp hat).1

/-- Behind a sign of ASCII stands the next character. -/
theorem getElem?_succ_eq_iff {text front cs : Text} {c d : Char} (htext : text = front ++ c :: cs)
    (hc : c.toNat < 128) (hd : d.toNat < 128) :
    (bytes text)[width front + 1]? = some d.toUInt8 ↔ cs.head? = some d := by
  have hnext := getElem?_bytes (front ++ [c]) cs
  rw [width_append, width_cons, width_nil, utf8Size_eq_one_iff.mpr hc, List.append_assoc] at hnext
  rw [htext, ← head?_bytes_eq_iff cs hd, ← hnext]
  rfl

/-! ### Signs -/

theorem ascii_of_contains {signs : Text} (hsigns : signs.all fun d => d.toNat < 128) {c : Char}
    (hc : signs.contains c = true) : c.toNat < 128 := by
  simpa using List.all_eq_true.mp hsigns c (List.contains_iff_mem.mp hc)

theorem among_eq {signs : Text} (hsigns : signs.all fun d => d.toNat < 128) {c : Char} {b : UInt8}
    (hb : b ∈ String.utf8EncodeChar c) : among signs b = signs.contains c := by
  have hsign (d : Char) (hd : d ∈ signs) : b = d.toUInt8 ↔ c = d :=
    mem_encode_eq_iff hb (by simpa using List.all_eq_true.mp hsigns d hd)
  rw [Bool.eq_iff_iff, among, List.any_eq_true, List.contains_iff_mem]
  constructor
  · rintro ⟨d, hd, heq⟩
    rwa [(hsign d hd).mp (beq_iff_eq.mp heq)]
  · intro hc
    exact ⟨c, hc, beq_iff_eq.mpr ((hsign c hc).mpr rfl)⟩

theorem isLetter_eq {c : Char} {b : UInt8} (hb : b ∈ String.utf8EncodeChar c) :
    isLetter b = c.isAlpha := by
  have hchar : c.isAlpha = true ↔
      (65 ≤ c.toNat ∧ c.toNat ≤ 90) ∨ (97 ≤ c.toNat ∧ c.toNat ≤ 122) := by
    change (decide (c.val ≥ 65 ∧ c.val ≤ 90) || decide (c.val ≥ 97) && decide (c.val ≤ 122)) = true
      ↔ _
    simp only [Bool.or_eq_true, Bool.and_eq_true, decide_eq_true_eq, UInt32.le_iff_toNat_le,
      ge_iff_le]
    rfl
  have hbyte : isLetter b = true ↔
      (65 ≤ b.toNat ∧ b.toNat ≤ 90) ∨ (97 ≤ b.toNat ∧ b.toNat ≤ 122) := by
    simp only [isLetter, Bool.or_eq_true, Bool.and_eq_true, decide_eq_true_eq,
      UInt8.le_iff_toNat_le]
    rfl
  rw [Bool.eq_iff_iff, hchar, hbyte]
  by_cases hc : c.toNat < 128
  · rw [encode_ascii hc, List.mem_singleton] at hb
    rw [hb, toNat_toUInt8 hc]
  · have hle := le_of_mem_encode (Nat.le_of_not_lt hc) hb
    omega

theorem isTagStart_eq (front rest : Text) :
    isTagStart (bytes (front ++ rest)) (width front) = Element.isTagStart rest := by
  unfold isTagStart
  rw [getElem?_bytes]
  by_cases hhead : rest.head? = some '<'
  · obtain ⟨cs, rfl⟩ := List.head?_eq_some_iff.mp hhead
    have hnext := getElem?_bytes (front ++ ['<']) cs
    rw [List.append_assoc, width_append] at hnext
    have hnext' : (bytes (front ++ '<' :: cs))[width front + 1]? = (bytes cs).head? := hnext
    rw [(head?_bytes_eq_iff _ (by decide)).mpr hhead, hnext', beq_self_eq_true, Bool.true_and]
    cases cs with
    | nil => rfl
    | cons c cs =>
      obtain ⟨b, hb, h⟩ := exists_head c cs
      have hslash := mem_encode_eq_iff hb (show '/'.toNat < 128 by decide)
      have hgreater := mem_encode_eq_iff hb (show '>'.toNat < 128 by decide)
      rw [h, Option.any_some, isLetter_eq hb]
      simp only [Element.isTagStart, Bool.beq_eq_decide_eq, hslash, hgreater]
  · have hbyte : ¬ (bytes rest).head? = some '<'.toUInt8 :=
      fun h => hhead ((head?_bytes_eq_iff rest (by decide)).mp h)
    rw [beq_eq_false_iff_ne.mpr hbyte, Bool.false_and]
    unfold Element.isTagStart
    split <;> simp_all

theorem isAsciiBlank_eq (c : Char) :
    isAsciiBlank c = [' ', '\t', '\n', '\x0c', '\r'].contains c := by
  simp only [isAsciiBlank, List.contains_cons, List.contains_nil, Bool.or_false, Bool.or_assoc]

theorem opens_append (front : Text) (c : Char) :
    opens (bytes (front ++ [c])) =
      if isAsciiBlank c then opens (bytes front) else opensExpression c := by
  have hne : String.utf8EncodeChar c ≠ [] := by
    intro h
    have hlen := String.length_utf8EncodeChar c
    rw [h] at hlen
    exact Nat.ne_of_lt c.utf8Size_pos hlen
  obtain ⟨init, b, hlast⟩ : ∃ init b, String.utf8EncodeChar c = init ++ [b] :=
    ⟨_, _, (List.dropLast_concat_getLast hne).symm⟩
  have hb : b ∈ String.utf8EncodeChar c := by
    rw [hlast]
    exact List.mem_append_right init (List.mem_singleton_self b)
  have hreverse : (bytes (front ++ [c])).reverse =
      b :: (init.reverse ++ (bytes front).reverse) := by
    rw [bytes_append, bytes_cons, bytes_nil, hlast]
    simp
  have hblank : among [' ', '\t', '\n', '\x0c', '\r'] b = isAsciiBlank c :=
    (among_eq (by decide) hb).trans (isAsciiBlank_eq c).symm
  rw [opens, hreverse, List.find?_cons, hblank]
  cases hc : isAsciiBlank c with
  | false => exact among_eq (by decide) hb
  | true =>
    -- a blank is a single byte
    have hascii := ascii_of_contains (by decide) ((isAsciiBlank_eq c).symm.trans hc)
    have hinit : init = [] := by
      have hlen := congrArg List.length hlast
      rw [encode_ascii hascii] at hlen
      simpa using hlen
    rw [hinit]
    rfl

theorem opens_lastVisible {front : Text} {last : Char}
    (h : opens (bytes front) = opensExpression last) (u : Text) :
    opens (bytes (front ++ u)) = opensExpression (lastVisible last u) := by
  induction u generalizing front last with
  | nil => rwa [List.append_nil]
  | cons c u ih =>
    rw [List.append_cons, lastVisible]
    refine ih ?_
    rw [opens_append, h, apply_ite opensExpression]

/-! ### Passing bytes -/

/-- A loop that passes high bytes one by one passes the rest of a character. -/
theorem exists_rounds {α : Type} {text : Text} (loop : Nat → Nat → α)
    (hhigh : ∀ rounds i b, (bytes text)[i]? = some b → 128 ≤ b.toNat →
      loop (rounds + 1) i = loop rounds (i + 1))
    {front cs : Text} {c : Char} (htext : text = front ++ c :: cs) {rounds : Nat}
    (hrounds : width (c :: cs) ≤ rounds) :
    ∃ r, width cs < r ∧ loop rounds (width front + 1) = loop r (width (front ++ [c])) := by
  have hover (k i rounds : Nat)
      (h : ∀ j < k, ∃ b, (bytes text)[i + j]? = some b ∧ 128 ≤ b.toNat) :
      loop (rounds + k) i = loop rounds (i + k) := by
    induction k generalizing i with
    | zero => rfl
    | succ k ih =>
      obtain ⟨b, hb, hle⟩ := h 0 (Nat.succ_pos k)
      rw [← Nat.add_assoc, hhigh _ i b hb hle, ih (i + 1), Nat.add_assoc, Nat.add_comm 1]
      intro j hj
      have hj' := h (j + 1) (Nat.succ_lt_succ hj)
      rwa [Nat.add_comm j 1, ← Nat.add_assoc] at hj'
  have hpos := c.utf8Size_pos
  rw [width_cons] at hrounds
  refine ⟨rounds - (c.utf8Size - 1), by omega, ?_⟩
  have hwidth : width (front ++ [c]) = width front + 1 + (c.utf8Size - 1) := by
    rw [width_append, width_cons, width_nil]
    omega
  rw [hwidth, ← hover (c.utf8Size - 1) (width front + 1), Nat.sub_add_cancel (by omega)]
  intro j hj
  obtain ⟨b, hb, hat⟩ := @exists_byte front cs c (1 + j) (by omega)
  rw [← Nat.add_assoc, ← htext] at hat
  refine ⟨b, hat, le_of_mem_encode (Nat.le_of_not_lt fun hascii => ?_) hb⟩
  -- a character of ASCII has no second byte
  have hone := utf8Size_eq_one_iff.mpr hascii
  omega

end Element.Cursor

end Desugar
