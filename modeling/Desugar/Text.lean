import Desugar.Unicode.Class

/-! Texts as lists of characters, with the two measures the compiler reports: bytes
of UTF-8 for offsets and units of UTF-16 for the columns of a source map. Cutting by
byte offsets succeeds only between characters. -/
namespace Desugar

open Unicode

abbrev Text := List Char

namespace Text

/-- Number of bytes in UTF-8. -/
def width : Text → Nat
  | [] => 0
  | c :: cs => c.utf8Size + width cs

/-- Number of units in UTF-16. -/
def units : Text → Nat
  | [] => 0
  | c :: cs => (if c.toNat < 0x10000 then 1 else 2) + units cs

/-- What follows the first `n` bytes. -/
def dropBytes? : Nat → Text → Option Text
  | 0, cs => some cs
  | _ + 1, [] => none
  | n + 1, c :: cs => if c.utf8Size ≤ n + 1 then dropBytes? (n + 1 - c.utf8Size) cs else none

/-- The first `n` bytes. -/
def takeBytes? : Nat → Text → Option Text
  | 0, _ => some []
  | _ + 1, [] => none
  | n + 1, c :: cs =>
    if c.utf8Size ≤ n + 1 then (takeBytes? (n + 1 - c.utf8Size) cs).map (c :: ·) else none

/-- The bytes from `start` up to `stop`. -/
def slice? (text : Text) (start stop : Nat) : Option Text :=
  if start ≤ stop then (dropBytes? start text).bind (takeBytes? (stop - start)) else none

def trimStart (text : Text) : Text := text.dropWhile isBlank

def trimEnd (text : Text) : Text := (text.reverse.dropWhile isBlank).reverse

def trim (text : Text) : Text := trimEnd (trimStart text)

/-- Does `word` stand somewhere in `text`? -/
def occurs (word : Text) : Text → Bool
  | [] => word.isEmpty
  | c :: cs => word.isPrefixOf (c :: cs) || occurs word cs

/-- ASCII letters in lower case. -/
def lower (text : Text) : Text := text.map Char.toLower

@[simp] theorem width_nil : width [] = 0 := rfl

@[simp] theorem width_cons (c : Char) (cs : Text) : width (c :: cs) = c.utf8Size + width cs := rfl

@[simp] theorem width_append (s t : Text) : width (s ++ t) = width s + width t := by
  induction s with
  | nil => simp
  | cons c s ih => simp [ih, Nat.add_assoc]

@[simp] theorem units_nil : units [] = 0 := rfl

@[simp] theorem dropBytes?_zero (text : Text) : dropBytes? 0 text = some text := by
  cases text <;> rfl

@[simp] theorem takeBytes?_zero (text : Text) : takeBytes? 0 text = some [] := by
  cases text <;> rfl

@[simp] theorem dropBytes?_width (s t : Text) : dropBytes? (width s) (s ++ t) = some t := by
  induction s with
  | nil => simp
  | cons c s ih =>
    have hc : 0 < c.utf8Size := c.utf8Size_pos
    obtain ⟨n, hn⟩ : ∃ n, c.utf8Size + width s = n + 1 := ⟨c.utf8Size + width s - 1, by omega⟩
    rw [width_cons, hn, List.cons_append, dropBytes?, if_pos (by omega), ← hn, Nat.add_sub_cancel_left, ih]

@[simp] theorem takeBytes?_width (s t : Text) : takeBytes? (width s) (s ++ t) = some s := by
  induction s with
  | nil => simp
  | cons c s ih =>
    have hc : 0 < c.utf8Size := c.utf8Size_pos
    obtain ⟨n, hn⟩ : ∃ n, c.utf8Size + width s = n + 1 := ⟨c.utf8Size + width s - 1, by omega⟩
    rw [width_cons, hn, List.cons_append, takeBytes?, if_pos (by omega), ← hn, Nat.add_sub_cancel_left, ih]
    rfl

/-- A piece of a text is cut out by the widths before and through it. -/
theorem slice?_append (s t u : Text) :
    slice? (s ++ t ++ u) (width s) (width s + width t) = some t := by
  simp [slice?, List.append_assoc]

end Text

end Desugar
