import Desugar.Fault
import Desugar.Node

/-! Passes: one for each construct that is replaced. A construct whose pass is not
enabled is copied, with the constructs inside it still worked on. -/
namespace Desugar

inductive Pass where
  | struct
  | trait
  | impl
  | binding
  | pipe
deriving DecidableEq, Repr

namespace Pass

/-- All passes in their standard order. -/
def all : List Pass := [.struct, .trait, .impl, .binding, .pipe]

/-- The place of a pass in the standard order. -/
def rank : Pass → Nat
  | .struct => 0
  | .trait => 1
  | .impl => 2
  | .binding => 3
  | .pipe => 4

def name : Pass → Text
  | .struct => "struct".toList
  | .trait => "trait".toList
  | .impl => "impl".toList
  | .binding => "let".toList
  | .pipe => "pipe".toList

/-- The pass of a name, in any case and with blanks around it. -/
def ofName? (name : Text) : Option Pass :=
  all.find? fun p => p.name == Text.lower (Text.trim name)

/-- The pass that replaces a node. -/
def ofNode? : Node → Option Pass
  | .other _ => none
  | .binding _ => some .binding
  | .struct _ _ _ => some .struct
  | .trait _ _ _ _ => some .trait
  | .impl _ _ _ _ _ => some .impl
  | .pipe _ _ _ _ => some .pipe

/-- Puts a pass in its place among passes in standard order. -/
def insert (p : Pass) : List Pass → List Pass
  | [] => [p]
  | q :: qs => if p = q then q :: qs else if p.rank < q.rank then p :: q :: qs else q :: insert p qs

end Pass

/-- The enabled passes, in standard order. -/
structure Passes where
  order : List Pass
deriving DecidableEq, Repr

namespace Passes

def standard : Passes := ⟨Pass.all⟩

def none : Passes := ⟨[]⟩

def enabled (passes : Passes) (p : Pass) : Bool := passes.order.contains p

def enable (passes : Passes) (p : Pass) : Passes := ⟨p.insert passes.order⟩

def disable (passes : Passes) (p : Pass) : Passes := ⟨passes.order.filter (· != p)⟩

/-- Enables the passes of the given names one after the other. -/
def enableNames (passes : Passes) : List Text → Except Fault Passes
  | [] => .ok passes
  | name :: names =>
    match Pass.ofName? name with
    | some p => enableNames (passes.enable p) names
    | .none => .error (.config (.unknownPass name))

/-- The passes of the given names; no name at all means all passes. -/
def ofNames (names : List Text) : Except Fault Passes :=
  if names.isEmpty then .ok standard else none.enableNames names

theorem enabled_standard (p : Pass) : standard.enabled p = true := by
  cases p <;> rfl

def text (passes : Passes) : Text := " → ".toList.intercalate (passes.order.map Pass.name)

end Passes

end Desugar
