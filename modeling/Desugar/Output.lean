import Desugar.Text

/-! Generated code with anchors: places of the code that stand for places of the
source. Outputs are put together by `append`, which moves the anchors of the second
part behind the first. -/
namespace Desugar

/-- Byte offsets in the generated code and in the source. -/
structure Anchor where
  generated : Nat
  source : Nat
deriving DecidableEq, Repr

def Anchor.shift (n : Nat) (a : Anchor) : Anchor := ⟨n + a.generated, a.source⟩

@[simp] theorem Anchor.shift_zero : Anchor.shift 0 = id := by
  funext a
  simp [Anchor.shift]

structure Output where
  code : Text
  anchors : List Anchor
deriving DecidableEq, Repr

namespace Output

def empty : Output := ⟨[], []⟩

def append (a b : Output) : Output :=
  ⟨a.code ++ b.code, a.anchors ++ b.anchors.map (Anchor.shift (Text.width a.code))⟩

instance : Append Output := ⟨append⟩

/-- Code that stands for no place of its own. -/
def raw (code : Text) : Output := ⟨code, []⟩

/-- An anchor for the offset `source`, before any code. -/
def mark (source : Nat) : Output := ⟨[], [⟨0, source⟩]⟩

/-- Anchors after each line end of a copied text that is not its last character. The
offsets are those of the head of the text. -/
def lineAnchors : (generated source : Nat) → Text → List Anchor
  | _, _, [] => []
  | generated, source, c :: cs =>
    let rest := lineAnchors (generated + c.utf8Size) (source + c.utf8Size) cs
    if c = '\n' && !cs.isEmpty then ⟨generated + 1, source + 1⟩ :: rest else rest

/-- A text copied from the offset `source`. -/
def copied (source : Nat) (text : Text) : Output :=
  ⟨text, ⟨0, source⟩ :: lineAnchors 0 source text⟩

@[simp] theorem code_append (a b : Output) : (a ++ b).code = a.code ++ b.code := rfl

@[simp] theorem anchors_append (a b : Output) :
    (a ++ b).anchors = a.anchors ++ b.anchors.map (Anchor.shift (Text.width a.code)) := rfl

theorem append_assoc (a b c : Output) : a ++ b ++ c = a ++ (b ++ c) := by
  show append (append a b) c = append a (append b c)
  simp [append, Function.comp_def, Anchor.shift, Nat.add_assoc]

@[simp] theorem append_empty (a : Output) : a ++ empty = a := by
  show append a empty = a
  simp [append, empty]

@[simp] theorem empty_append (a : Output) : empty ++ a = a := by
  show append empty a = a
  simp [append, empty]

end Output

end Desugar
