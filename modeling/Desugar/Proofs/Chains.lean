import Desugar.Proofs.Carrying
import Desugar.Proofs.Pieces

/-! Chains of pipes and the calls they stand for. A chain is an operand and the steps that
are applied to it one after the other; arguments may be chains themselves. The pieces of a
chain never run into each other, and the calls have no blank at their edges. -/
namespace Desugar

open Unicode Text

/-! ### Syntax -/

/-- Names joined by dots. -/
structure Dotted where
  first : Identifier
  more : List Identifier

mutual

/-- An operand with the steps applied to it. -/
inductive Chain where
  | mk (head : Operand) (steps : Steps)

inductive Operand where
  | name (name : Identifier)
  | call (name : Identifier) (args : Args)

inductive Steps where
  | last (step : Step)
  | more (step : Step) (steps : Steps)

inductive Step where
  | bare (path : Dotted)
  /-- A path with empty parentheses. -/
  | empty (path : Dotted)
  | call (path : Dotted) (args : Args)

inductive Args where
  | last (arg : Arg)
  | more (arg : Arg) (args : Args)

inductive Arg where
  | name (name : Identifier)
  | number (value : Decimal)
  | chain (chain : Chain)

end

namespace Dotted

def members (names : List Identifier) : List Piece := names.flatMap fun n => [.dot, .name n]

def pieces (path : Dotted) : List Piece := .name path.first :: members path.more

def text (path : Dotted) : Text := Piece.written path.pieces

/-- The path with parentheses around the given pieces. -/
def applied (path : Dotted) (ps : List Piece) : List Piece :=
  path.pieces ++ ([.opening] ++ (ps ++ [.closing]))

theorem exists_last (path : Dotted) : ∃ ps n, path.pieces = ps ++ [.name n] := by
  obtain ⟨first, more⟩ := path
  induction more generalizing first with
  | nil => exact ⟨[], first, rfl⟩
  | cons n more ih =>
    obtain ⟨ps, m, hpieces⟩ := ih n
    refine ⟨.name first :: .dot :: ps, m, ?_⟩
    show .name first :: .dot :: (.name n :: members more) = _
    rw [show .name n :: members more = ps ++ [.name m] from hpieces]
    rfl

end Dotted

mutual

def Chain.pieces : Chain → List Piece
  | .mk head steps => head.pieces ++ steps.pieces

def Operand.pieces : Operand → List Piece
  | .name n => [.name n]
  | .call n args => .name n :: .opening :: (args.pieces ++ [.closing])

def Steps.pieces : Steps → List Piece
  | .last step => .blank :: .pipe :: .blank :: step.pieces
  | .more step steps => .blank :: .pipe :: .blank :: (step.pieces ++ steps.pieces)

def Step.pieces : Step → List Piece
  | .bare path => path.pieces
  | .empty path => path.applied []
  | .call path args => path.applied args.pieces

def Args.pieces : Args → List Piece
  | .last arg => arg.pieces
  | .more arg args => arg.pieces ++ .comma :: .blank :: args.pieces

def Arg.pieces : Arg → List Piece
  | .name n => [.name n]
  | .number d => [.number d]
  | .chain c => c.pieces

end

def Chain.text (c : Chain) : Text := Piece.written c.pieces

mutual

/-- The calls that a chain stands for. -/
def Chain.lower : Chain → Text
  | .mk head steps => steps.lower head.lower

def Operand.lower : Operand → Text
  | .name n => n.text
  | .call n args => n.text ++ '(' :: args.lower ++ [')']

/-- The steps applied from the left to the value so far. -/
def Steps.lower (value : Text) : Steps → Text
  | .last step => step.lower value
  | .more step steps => steps.lower (step.lower value)

def Step.lower (value : Text) : Step → Text
  | .bare path | .empty path => path.text ++ '(' :: value ++ [')']
  | .call path args => path.text ++ '(' :: value ++ ", ".toList ++ args.lower ++ [')']

def Args.lower : Args → Text
  | .last arg => arg.lower
  | .more arg args => arg.lower ++ ", ".toList ++ args.lower

def Arg.lower : Arg → Text
  | .name n => n.text
  | .number d => d.text
  | .chain c => c.lower

end

mutual

/-- How deep the parentheses nest. -/
def Chain.depth : Chain → Nat
  | .mk head steps => max head.depth steps.depth

def Operand.depth : Operand → Nat
  | .name _ => 0
  | .call _ args => args.depth + 1

def Steps.depth : Steps → Nat
  | .last step => step.depth
  | .more step steps => max step.depth steps.depth

def Step.depth : Step → Nat
  | .bare _ => 0
  | .empty _ => 1
  | .call _ args => args.depth + 1

def Args.depth : Args → Nat
  | .last arg => arg.depth
  | .more arg args => max arg.depth args.depth

def Arg.depth : Arg → Nat
  | .name _ | .number _ => 0
  | .chain c => c.depth

end

/-! ### Pieces side by side -/

namespace Piece

/-- A piece that neither goes on with another nor can be gone on with. -/
def isSign : Piece → Bool
  | .name _ | .number _ | .dot => false
  | _ => true

theorem apart_sign (x : Piece) {y : Piece} (hy : y.isSign = true) : apart x y = true := by
  cases y with
  | name n => cases hy
  | number d => cases hy
  | dot => cases hy
  | _ => cases x <;> rfl

theorem sign_apart {x : Piece} (hx : x.isSign = true) (y : Piece) : apart x y = true := by
  cases x with
  | name n => cases hx
  | number d => cases hx
  | _ => rfl

theorem Separate.sign_cons {x : Piece} (hx : x.isSign = true) {ps : List Piece} (h : Separate ps) :
    Separate (x :: ps) :=
  List.IsChain.cons h fun y _ => sign_apart hx y

theorem Separate.append_sign {ps qs : List Piece} {x : Piece} (hp : Separate ps)
    (hx : x.isSign = true) (hq : Separate qs) : Separate (ps ++ x :: qs) := by
  refine hp.append (hq.sign_cons hx) fun y _ z hz => ?_
  cases hz
  exact apart_sign y hx

end Piece

open Piece

theorem Dotted.separate_members (n : Identifier) (names : List Identifier) :
    Separate (.name n :: members names) := by
  induction names generalizing n with
  | nil => exact .singleton _
  | cons m names ih => exact .cons_cons rfl (.cons_cons rfl (ih m))

mutual

theorem Chain.separate : ∀ c : Chain, Separate c.pieces
  | .mk head steps => by
    obtain ⟨ps, hpieces, hps⟩ := steps.separate
    rw [Chain.pieces, hpieces]
    exact head.separate.append_sign rfl hps

theorem Operand.separate : ∀ o : Operand, Separate o.pieces
  | .name n => .singleton _
  | .call n args => by
    have hname : Separate [.name n] := .singleton _
    exact hname.append_sign rfl (args.separate.append_sign rfl .nil)

theorem Steps.separate : ∀ steps : Steps, ∃ ps, steps.pieces = .blank :: ps ∧ Separate ps
  | .last step => ⟨_, rfl, (step.separate.sign_cons rfl).sign_cons rfl⟩
  | .more step steps => by
    obtain ⟨ps, hpieces, hps⟩ := steps.separate
    refine ⟨_, rfl, Separate.sign_cons rfl (Separate.sign_cons rfl ?_)⟩
    rw [hpieces]
    exact step.separate.append_sign rfl hps

theorem Step.separate : ∀ s : Step, Separate s.pieces
  | .bare _ => Dotted.separate_members _ _
  | .empty _ => (Dotted.separate_members _ _).append_sign rfl (.singleton _)
  | .call _ args =>
    (Dotted.separate_members _ _).append_sign rfl (args.separate.append_sign rfl .nil)

theorem Args.separate : ∀ args : Args, Separate args.pieces
  | .last arg => arg.separate
  | .more arg args => arg.separate.append_sign rfl (args.separate.sign_cons rfl)

theorem Arg.separate : ∀ a : Arg, Separate a.pieces
  | .name _ => .singleton _
  | .number _ => .singleton _
  | .chain c => c.separate

end

/-! ### Texts without blanks at their edges -/

theorem Identifier.firm (n : Identifier) : Firm n.text := by
  have hall : ∀ c ∈ n.text, isBlank c = false := by
    refine List.forall_mem_cons.mpr ⟨?_, fun c hc => ?_⟩
    · exact (class_of_continuesName (continuesName_of_isNameStart n.starts)).2.1
    · exact (class_of_continuesName (List.all_eq_true.mp n.continues c hc)).2.1
  exact ⟨.cons (hall _ List.mem_cons_self) _, .of_forall hall (List.cons_ne_nil _ _)⟩

theorem Decimal.continuesName_or (d : Decimal) {c : Char} (hc : c ∈ d.text) :
    continuesName c = true ∨ c = '.' := by
  have hmem : c ∈ d.first :: d.rest ++ d.fraction ∨ c = '.' := by
    rw [text] at hc
    split at hc
    all_goals
      simp only [List.append_nil, List.cons_append, List.mem_cons, List.mem_append] at hc ⊢
      tauto
  exact hmem.imp_left fun hmem => continuesName_of_isDigit (List.all_eq_true.mp d.digits c hmem)

theorem Decimal.firm (d : Decimal) : Firm d.text := by
  have hall : ∀ c ∈ d.text, isBlank c = false := by
    intro c hc
    rcases d.continuesName_or hc with hc | rfl
    · exact (class_of_continuesName hc).2.1
    · decide
  exact ⟨.cons (hall _ List.mem_cons_self) _, .of_forall hall (List.cons_ne_nil _ _)⟩

theorem Dotted.startsFirm (path : Dotted) : StartsFirm path.text := path.first.firm.1.append _

theorem endsFirm_paren (s : Text) : EndsFirm (s ++ [')']) :=
  EndsFirm.append (.singleton (by decide)) s

theorem Operand.firm (o : Operand) : Firm o.lower := by
  cases o with
  | name n => exact n.firm
  | call n args => exact ⟨(n.firm.1.append _).append _, endsFirm_paren _⟩

theorem Step.firm (value : Text) (s : Step) : Firm (s.lower value) := by
  cases s with
  | bare path => exact ⟨(path.startsFirm.append _).append _, endsFirm_paren _⟩
  | empty path => exact ⟨(path.startsFirm.append _).append _, endsFirm_paren _⟩
  | call path args =>
    exact ⟨(((path.startsFirm.append _).append _).append _).append _, endsFirm_paren _⟩

theorem Steps.firm : ∀ (value : Text) (steps : Steps), Firm (steps.lower value)
  | value, .last step => step.firm value
  | value, .more step steps => steps.firm (step.lower value)

theorem Arg.firm (a : Arg) : Firm a.lower := by
  cases a with
  | name n => exact n.firm
  | number d => exact d.firm
  | chain c =>
    cases c with
    | mk head steps => exact steps.firm head.lower

theorem Args.firm : ∀ args : Args, Firm args.lower
  | .last arg => arg.firm
  | .more arg args => ⟨(arg.firm.1.append _).append _, args.firm.2.append _⟩

theorem Text.Firm.trim_eq {s : Text} (h : Firm s) : trim s = s := by
  have hend := trimEnd_append h.2 []
  rw [List.append_nil] at hend
  rw [trim, h.1.trimStart_eq, hend]
  exact List.append_nil s

end Desugar
