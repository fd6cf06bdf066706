import Desugar.Node
import Desugar.Proofs.Layout

/-! The grammar of constructs over the tokens of a text, as relations between a run of
tokens and what it stands for. Every token of a run belongs to exactly one place of its
derivation, so what holds of all tokens of a text is proved by following derivations. -/
namespace Desugar.Grammar

open Text Token

/-- The token right before `t` is a dot. -/
def AfterDot (all : List Token) (t : Token) : Prop :=
  ∃ front dot rest, all = front ++ dot :: t :: rest ∧ dot.kind = .dot

/-! ### Heads, fields and paths -/

/-- Names and the dots between them. -/
def IsPath (ts : List Token) : Prop := ∀ t ∈ ts, t.kind = .dot ∨ t.kind.isWord = true

/-- A declared name, with the inside of its type parameters if it has any. -/
inductive IsHead (text : Text) : List Token → Head → Prop where
  | plain {name : Token} : name.kind = .ident → IsHead text [name] ⟨name.text, none⟩
  | generic {name less greater : Token} {ts : List Token} {inside : Text} :
      name.kind = .ident → less.kind = .less → greater.kind = .greater →
      slice? text less.stop greater.start = some inside →
      IsHead text (name :: less :: ts ++ [greater]) ⟨name.text, some (trim inside)⟩

/-- The field of a piece between two semicolons. -/
def fieldOf (piece : Text) : List Text := if (trim piece).isEmpty then [] else [trim piece]

/-- Fields between the offsets `start` and `stop`, separated by semicolons. -/
inductive IsFields (text : Text) : (start stop : Nat) → List Token → List Text → Prop where
  | last {start stop : Nat} {ts : List Token} {piece : Text} :
      slice? text start stop = some piece → IsFields text start stop ts (fieldOf piece)
  | more {start stop : Nat} {ts us : List Token} {semicolon : Token} {piece : Text}
      {fields : List Text} :
      semicolon.kind = .semicolon → slice? text start semicolon.start = some piece →
      IsFields text semicolon.stop stop us fields →
      IsFields text start stop (ts ++ semicolon :: us) (fieldOf piece ++ fields)

theorem IsFields.cons {text : Text} {start stop : Nat} {ts : List Token}
    {fields : List Text} (t : Token)
    (h : IsFields text start stop ts fields) : IsFields text start stop (t :: ts) fields := by
  cases h with
  | last hpiece => exact .last hpiece
  | more hk hpiece h =>
    rw [← List.cons_append]
    exact .more hk hpiece h

/-! ### Constructs -/

mutual

/-- The constructs in a run of tokens. The tokens between them are stepped over; a
`let` is only where it names a member. -/
inductive IsSequence (text : Text) (all : List Token) : List Token → List Node → Prop where
  | nil : IsSequence text all [] []
  | step {t : Token} {ts : List Token} {ns : List Node} :
      (t.kind = .keyword .letWord → AfterDot all t) → IsSequence text all ts ns →
      IsSequence text all (t :: ts) ns
  | construct {us ts : List Token} {n : Node} {ns : List Node} :
      IsConstruct text all us n → IsSequence text all ts ns →
        IsSequence text all (us ++ ts) (n :: ns)

/-- The tokens of one construct. -/
inductive IsConstruct (text : Text) (all : List Token) : List Token → Node → Prop where
  | binding {t : Token} :
      t.kind = .keyword .letWord → ¬ AfterDot all t → IsConstruct text all [t] (.binding t.span)
  | struct {t opener close : Token} {hs fs : List Token} {head : Head} {fields : List Text} :
      t.kind = .keyword .structWord → IsHead text hs head → opener.kind = .opening .brace →
      IsFields text opener.stop close.start fs fields → close.kind = .closing .brace →
      IsConstruct text all (t :: hs ++ opener :: fs ++ [close])
        (.struct ⟨t.start, close.stop⟩ head fields)
  | trait {t opener close : Token} {hs bs : List Token} {head : Head} {ns : List Node} :
      t.kind = .keyword .traitWord → IsHead text hs head → opener.kind = .opening .brace →
      IsSequence text all bs ns → close.kind = .closing .brace →
      IsConstruct text all (t :: hs ++ opener :: bs ++ [close])
        (.trait ⟨t.start, close.stop⟩ head ⟨opener.stop, close.start⟩
          (Node.cover close.start opener.stop ns))
  | impl {t word opener close : Token} {hs gs bs : List Token} {head target : Head}
      {ns : List Node} :
      t.kind = .keyword .implWord → IsHead text hs head → word.kind = .keyword .forWord →
      IsHead text gs target → opener.kind = .opening .brace → IsSequence text all bs ns →
      close.kind = .closing .brace →
      IsConstruct text all (t :: hs ++ word :: gs ++ opener :: bs ++ [close])
        (.impl ⟨t.start, close.stop⟩ head target ⟨opener.stop, close.start⟩
          (Node.cover close.start opener.stop ns))
  | pipe {first last : Token} {hs ss : List Token} {ns : List Node} {stages : List Stage}
      {stage : Stage} :
      hs.head? = some first → hs.getLast? = some last → IsSequence text all hs ns →
      IsChain text all ss stages → stages.getLast? = some stage →
      IsConstruct text all (hs ++ ss)
        (.pipe ⟨first.start, stage.span.stop⟩ ⟨first.start, last.stop⟩
          (Node.cover last.stop first.start ns) stages)

/-- Pipes with their stages. -/
inductive IsChain (text : Text) (all : List Token) : List Token → List Stage → Prop where
  | nil : IsChain text all [] []
  | cons {pipe : Token} {us ts : List Token} {s : Stage} {ss : List Stage} :
      pipe.kind = .pipe → IsStage text all us s → IsChain text all ts ss →
      IsChain text all (pipe :: us ++ ts) (s :: ss)

/-- The tokens of one stage. -/
inductive IsStage (text : Text) (all : List Token) : List Token → Stage → Prop where
  | bare {first last : Token} {ps : List Token} {path : Text} :
      IsPath ps → ps.head? = some first → ps.getLast? = some last →
      slice? text first.start last.stop = some path →
      IsStage text all ps (.bare ⟨first.start, last.stop⟩ path)
  | call {first last opener close : Token} {ps bs : List Token} {path : Text} {ns : List Node} :
      IsPath ps → ps.head? = some first → ps.getLast? = some last →
      slice? text first.start last.stop = some path → opener.kind = .opening .paren →
      IsSequence text all bs ns → close.kind = .closing .paren →
      IsStage text all (ps ++ opener :: bs ++ [close])
        (.call ⟨first.start, close.stop⟩ path ⟨opener.stop, close.start⟩
          (Node.cover close.start opener.stop ns))
  | group {opener close : Token} {bs : List Token} {ns : List Node} :
      opener.kind = .opening .paren → IsSequence text all bs ns → close.kind = .closing .paren →
      IsStage text all (opener :: bs ++ [close])
        (.group ⟨opener.start, close.stop⟩ (Node.cover close.stop opener.start ns))

end

theorem IsSequence.append {text : Text} {all : List Token} :
    ∀ {us ts : List Token} {ns ms : List Node}, IsSequence text all us ns →
      IsSequence text all ts ms →
      IsSequence text all (us ++ ts) (ns ++ ms)
  | _, _, _, _, .nil, h₂ => h₂
  | _, _, _, _, .step ht h, h₂ => .step ht (h.append h₂)
  | _, _, _, _, .construct hc h, h₂ => by
    rw [List.append_assoc]
    exact .construct hc (h.append h₂)

theorem IsConstruct.sequence {text : Text} {all us : List Token} {n : Node}
    (h : IsConstruct text all us n) :
    IsSequence text all us [n] := by
  simpa using IsSequence.construct h .nil

end Desugar.Grammar
