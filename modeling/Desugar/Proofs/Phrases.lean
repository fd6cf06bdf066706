import Desugar.Node.Parse
import Desugar.Proofs.Grammar

/-! The items of a sequence of tokens, with what follows them. An operand goes on as long as
it can, a group runs to its closing bracket or to the end of the text, and a token is passed
only where nothing starts; so the tokens that come next are part of every rule. What stands
between brackets is a parameter of the rules, as it is of the readers. Forgetting what
follows leaves the grammar of constructs. -/
namespace Desugar

namespace Kind

/-- Tokens that are operands by themselves. -/
def isAtom : Kind → Bool
  | .ident | .number | .string | .template | .regex | .markup => true
  | _ => false

/-- Tokens that start neither an operand nor a group. -/
def isPassed : Kind → Bool
  | .opening _ | .eof => false
  | k => !k.isAtom

/-- Tokens that neither open nor close anything. -/
def isNeutral : Kind → Bool
  | .eof | .opening _ | .closing _ => false
  | _ => true

/-- Tokens that start no declaration. -/
def isUndeclared : Kind → Bool
  | .keyword .structWord | .keyword .traitWord | .keyword .implWord => false
  | _ => true

theorem isNeutral_of_isWord {k : Kind} (h : k.isWord = true) : k.isNeutral = true := by
  cases k <;> first | rfl | cases h

theorem isNeutral_of_isAtom {k : Kind} (h : k.isAtom = true) : k.isNeutral = true := by
  cases k <;> first | rfl | cases h

end Kind

namespace Phrase

open Text Token Node.Parse
open Grammar (AfterDot IsHead IsFields IsSequence IsConstruct)

/-- A run of tokens up to a closing one, what follows it, and the constructs in it. -/
abbrev Inside := (close : Option Kind) → (us rest : List Token) → List Node → Prop

/-! ### What comes next -/

/-- A dot and the name of a member come next. -/
def Dotted (rest : List Token) : Prop := headKind rest = .dot ∧ (headKind rest.tail).isWord = true

/-- What comes next belongs to an operand before it. -/
def Continues (rest : List Token) : Prop :=
  headKind rest = .opening .paren ∨ headKind rest = .opening .square ∨
    headKind rest = .template ∨ Dotted rest

theorem continues_cons {t : Token} {ts : List Token} :
    Continues (t :: ts) ↔ t.kind = .opening .paren ∨ t.kind = .opening .square ∨
      t.kind = .template ∨ t.kind = .dot ∧ (headKind ts).isWord = true :=
  .rfl

/-- What comes next is the closing token or the end of the text. -/
def Stops (close : Option Kind) (rest : List Token) : Prop :=
  headKind rest = .eof ∨ some (headKind rest) = close

section Rules

variable (text : Text) (all : List Token) (inside : Inside)

/-! ### Operands -/

/-- A group with its brackets. Only the end of the text leaves it without a closing one. -/
inductive IsGroup (bracket : Bracket) : (us rest : List Token) → List Node → Prop where
  | closed {opener close : Token} {us rest : List Token} {ns : List Node} :
      opener.kind = .opening bracket → inside (some (.closing bracket)) us (close :: rest) ns →
      close.kind = .closing bracket → IsGroup bracket (opener :: us ++ [close]) rest ns
  | unclosed {opener : Token} {us rest : List Token} {ns : List Node} :
      opener.kind = .opening bracket → inside (some (.closing bracket)) us rest ns →
      headKind rest = .eof → IsGroup bracket (opener :: us) rest ns

/-- Members, calls, indices and templates behind an operand, as many as there are. -/
inductive IsTrailers : (us rest : List Token) → List Node → Prop where
  | nil {rest : List Token} : ¬ Continues rest → IsTrailers [] rest []
  | member {dot name : Token} {us rest : List Token} {ns : List Node} :
      dot.kind = .dot → name.kind.isWord = true → AfterDot all name → IsTrailers us rest ns →
      IsTrailers (dot :: name :: us) rest ns
  | template {t : Token} {us rest : List Token} {ns : List Node} :
      t.kind = .template → IsTrailers us rest ns → IsTrailers (t :: us) rest ns
  | group {bracket : Bracket} {us vs rest : List Token} {ns ms : List Node} :
      bracket ≠ .brace → IsGroup inside bracket us (vs ++ rest) ns → IsTrailers vs rest ms →
      IsTrailers (us ++ vs) rest (ns ++ ms)

/-- A single token or a group in parentheses or square brackets. -/
inductive IsPrimary : (us rest : List Token) → List Node → Prop where
  | atom {t : Token} {rest : List Token} : t.kind.isAtom = true → IsPrimary [t] rest []
  | group {bracket : Bracket} {us rest : List Token} {ns : List Node} :
      bracket ≠ .brace → IsGroup inside bracket us rest ns → IsPrimary us rest ns

/-- A postfix expression, as long as it can be. -/
inductive IsOperand : (us rest : List Token) → List Node → Prop where
  | mk {us vs rest : List Token} {ns ms : List Node} :
      IsPrimary inside us (vs ++ rest) ns → IsTrailers all inside vs rest ms →
      IsOperand (us ++ vs) rest (ns ++ ms)

/-! ### Pipes -/

/-- Names with dots between them, as many as there are. -/
inductive IsPath : (us rest : List Token) → Prop where
  | last {name : Token} {rest : List Token} :
      name.kind.isWord = true → ¬ Dotted rest → IsPath [name] rest
  | more {name dot : Token} {us rest : List Token} :
      name.kind.isWord = true → dot.kind = .dot → IsPath us rest → IsPath (name :: dot :: us) rest

/-- A stage. A path begins with a name that is no keyword; one that parentheses follow is
called with what they hold. -/
inductive IsStage : (us rest : List Token) → Stage → Prop where
  | bare {first last : Token} {ps rest : List Token} {path : Text} :
      IsPath ps rest → ps.head? = some first → first.kind = .ident → ps.getLast? = some last →
      slice? text first.start last.stop = some path → headKind rest ≠ .opening .paren →
      IsStage ps rest (.bare ⟨first.start, last.stop⟩ path)
  | call {first last opener close : Token} {ps bs rest : List Token} {path : Text}
      {ns : List Node} :
      IsPath ps (opener :: bs ++ close :: rest) → ps.head? = some first → first.kind = .ident →
      ps.getLast? = some last → slice? text first.start last.stop = some path →
      opener.kind = .opening .paren → inside (some (.closing .paren)) bs (close :: rest) ns →
      close.kind = .closing .paren →
      IsStage (ps ++ opener :: bs ++ [close]) rest
        (.call ⟨first.start, close.stop⟩ path ⟨opener.stop, close.start⟩
          (Node.cover close.start opener.stop ns))
  | group {opener close : Token} {bs rest : List Token} {ns : List Node} :
      opener.kind = .opening .paren → inside (some (.closing .paren)) bs (close :: rest) ns →
      close.kind = .closing .paren →
      IsStage (opener :: bs ++ [close]) rest
        (.group ⟨opener.start, close.stop⟩ (Node.cover close.stop opener.start ns))

/-- Pipes with their stages. -/
inductive IsChain : (us rest : List Token) → List Stage → Prop where
  | nil {rest : List Token} : IsChain [] rest []
  | cons {pipe : Token} {us ts rest : List Token} {s : Stage} {ss : List Stage} :
      pipe.kind = .pipe → IsStage text inside us (ts ++ rest) s → IsChain ts rest ss →
      IsChain (pipe :: us ++ ts) rest (s :: ss)

/-! ### Items -/

/-- What an item is. -/
inductive Role where
  | passed
  | binding
  | block
  | declaration
  | operand
  | chain
deriving DecidableEq, Repr

/-- An item. A keyword is passed where the construct that it starts is given up, a `let` only
where it names a member. -/
inductive IsItem : Role → (us rest : List Token) → List Node → Prop where
  | passed {t : Token} {rest : List Token} :
      t.kind.isPassed = true → (t.kind = .keyword .letWord → AfterDot all t) →
      IsItem .passed [t] rest []
  | binding {t : Token} {rest : List Token} :
      t.kind = .keyword .letWord → ¬ AfterDot all t → IsItem .binding [t] rest [.binding t.span]
  | block {us rest : List Token} {ns : List Node} :
      IsGroup inside .brace us rest ns → IsItem .block us rest ns
  | struct {t opener close : Token} {hs fs rest : List Token} {head : Head}
      {fields : List Text} :
      t.kind = .keyword .structWord → IsHead text hs head → opener.kind = .opening .brace →
      IsFields text opener.stop close.start fs fields → close.kind = .closing .brace →
      IsItem .declaration (t :: hs ++ opener :: fs ++ [close]) rest
        [.struct ⟨t.start, close.stop⟩ head fields]
  | trait {t opener close : Token} {hs bs rest : List Token} {head : Head} {ns : List Node} :
      t.kind = .keyword .traitWord → IsHead text hs head → opener.kind = .opening .brace →
      inside (some (.closing .brace)) bs (close :: rest) ns → close.kind = .closing .brace →
      IsItem .declaration (t :: hs ++ opener :: bs ++ [close]) rest
        [.trait ⟨t.start, close.stop⟩ head ⟨opener.stop, close.start⟩
          (Node.cover close.start opener.stop ns)]
  | impl {t word opener close : Token} {hs gs bs rest : List Token} {head target : Head}
      {ns : List Node} :
      t.kind = .keyword .implWord → IsHead text hs head → word.kind = .keyword .forWord →
      IsHead text gs target → opener.kind = .opening .brace →
      inside (some (.closing .brace)) bs (close :: rest) ns → close.kind = .closing .brace →
      IsItem .declaration (t :: hs ++ word :: gs ++ opener :: bs ++ [close]) rest
        [.impl ⟨t.start, close.stop⟩ head target ⟨opener.stop, close.start⟩
          (Node.cover close.start opener.stop ns)]
  | operand {us rest : List Token} {ns : List Node} :
      IsOperand all inside us rest ns → IsItem .operand us rest ns
  | chain {first last : Token} {hs ss rest : List Token} {ns : List Node} {stages : List Stage}
      {stage : Stage} :
      hs.head? = some first → hs.getLast? = some last → IsOperand all inside hs (ss ++ rest) ns →
      IsChain text inside ss rest stages → stages.getLast? = some stage →
      IsItem .chain (hs ++ ss) rest
        [.pipe ⟨first.start, stage.span.stop⟩ ⟨first.start, last.stop⟩
          (Node.cover last.stop first.start ns) stages]

/-- Items in a row, none of which starts at the closing token or at the end of the text. -/
inductive IsRow (close : Option Kind) : List Role → (us rest : List Token) → List Node → Prop where
  | nil {rest : List Token} : IsRow close [] [] rest []
  | snoc {roles : List Role} {role : Role} {us vs rest : List Token} {ns ms : List Node} :
      IsRow close roles us (vs ++ rest) ns → ¬ Stops close (vs ++ rest) →
      IsItem text all inside role vs rest ms →
      IsRow close (roles ++ [role]) (us ++ vs) rest (ns ++ ms)

end Rules

/-- What is read with `room` levels left: rows of items, with less room inside brackets. -/
def Reads (text : Text) (all : List Token) : (room : Nat) → Inside
  | 0 => fun _ _ _ _ => False
  | room + 1 => fun close us rest ns =>
    ∃ roles, IsRow text all (Reads text all room) close roles us rest ns

/-! ### Forgetting what follows -/

/-- What stands between brackets follows the grammar. -/
def Inside.Grammatical (text : Text) (all : List Token) (inside : Inside) : Prop :=
  ∀ {close us rest ns}, inside close us rest ns → IsSequence text all us ns

section Sequences

variable {text : Text} {all us rest : List Token} {inside : Inside} {ns : List Node}

theorem isSequence_token {t : Token} (hk : t.kind ≠ .keyword .letWord) :
    IsSequence text all [t] [] :=
  .step (fun h => absurd h hk) .nil

theorem IsGroup.sequence {bracket : Bracket} (hin : inside.Grammatical text all)
    (h : IsGroup inside bracket us rest ns) : IsSequence text all us ns := by
  cases h with
  | @closed opener close us _ _ ho hb hc =>
    have hclose : IsSequence text all [close] [] := isSequence_token (by rw [hc]; nofun)
    have hinside := (hin hb).append hclose
    rw [List.append_nil] at hinside
    exact .step (fun h => by rw [ho] at h; cases h) hinside
  | unclosed ho hb _ => exact .step (fun h => by rw [ho] at h; cases h) (hin hb)

theorem IsTrailers.sequence (hin : inside.Grammatical text all)
    (h : IsTrailers all inside us rest ns) : IsSequence text all us ns := by
  induction h with
  | nil => exact .nil
  | member hd _ hname _ ih =>
    exact .step (fun h => by rw [hd] at h; cases h) (.step (fun _ => hname) ih)
  | template ht _ ih => exact .step (fun h => by rw [ht] at h; cases h) ih
  | group _ hg _ ih => exact (hg.sequence hin).append ih

theorem IsPrimary.sequence (hin : inside.Grammatical text all)
    (h : IsPrimary inside us rest ns) : IsSequence text all us ns := by
  cases h with
  | atom ht => exact isSequence_token (by rintro hlet; rw [hlet] at ht; cases ht)
  | group _ hg => exact hg.sequence hin

theorem IsOperand.sequence (hin : inside.Grammatical text all)
    (h : IsOperand all inside us rest ns) : IsSequence text all us ns := by
  obtain ⟨hp, ht⟩ := h
  exact (hp.sequence hin).append (ht.sequence hin)

theorem IsPath.names (h : IsPath us rest) : Grammar.IsPath us := by
  induction h with
  | last hn _ => exact List.forall_mem_singleton.mpr (.inr hn)
  | more hn hd _ ih =>
    exact List.forall_mem_cons.mpr ⟨.inr hn, List.forall_mem_cons.mpr ⟨.inl hd, ih⟩⟩

theorem IsStage.grammatical {s : Stage} (hin : inside.Grammatical text all)
    (h : IsStage text inside us rest s) : Grammar.IsStage text all us s := by
  cases h with
  | bare hp hf _ hl hs _ => exact .bare hp.names hf hl hs
  | call hp hf _ hl hs ho hb hc => exact .call hp.names hf hl hs ho (hin hb) hc
  | group ho hb hc => exact .group ho (hin hb) hc

theorem IsChain.grammatical {stages : List Stage} (hin : inside.Grammatical text all)
    (h : IsChain text inside us rest stages) : Grammar.IsChain text all us stages := by
  induction h with
  | nil => exact .nil
  | cons hp hs _ ih => exact .cons hp (hs.grammatical hin) ih

theorem IsItem.sequence {role : Role} (hin : inside.Grammatical text all)
    (h : IsItem text all inside role us rest ns) : IsSequence text all us ns := by
  cases h with
  | passed _ hdot => exact .step hdot .nil
  | binding hk hdot => exact (IsConstruct.binding hk hdot).sequence
  | block hg => exact hg.sequence hin
  | struct hk hh ho hf hc => exact (IsConstruct.struct hk hh ho hf hc).sequence
  | trait hk hh ho hb hc => exact (IsConstruct.trait hk hh ho (hin hb) hc).sequence
  | impl hk hh hw hg ho hb hc => exact (IsConstruct.impl hk hh hw hg ho (hin hb) hc).sequence
  | operand ho => exact ho.sequence hin
  | chain hf hl ho hc hs =>
    exact (IsConstruct.pipe hf hl (ho.sequence hin) (hc.grammatical hin) hs).sequence

theorem IsRow.sequence {close : Option Kind} {roles : List Role}
    (hin : inside.Grammatical text all) (h : IsRow text all inside close roles us rest ns) :
    IsSequence text all us ns := by
  induction h with
  | nil => exact .nil
  | snoc _ _ hitem ih => exact ih.append (hitem.sequence hin)

end Sequences

theorem grammatical_reads (text : Text) (all : List Token) (room : Nat) :
    (Reads text all room).Grammatical text all := by
  induction room with
  | zero => exact False.elim
  | succ room ih =>
    rintro close us rest ns ⟨roles, hrow⟩
    exact hrow.sequence ih

end Phrase

end Desugar
