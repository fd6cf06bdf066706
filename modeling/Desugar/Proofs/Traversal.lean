import Desugar.Proofs.Heads

/-! What holds of all that is read. A property of runs of tokens and the constructs in them holds
of every row of items if each rule keeps it; only the constructs themselves need an argument. -/
namespace Desugar.Phrase

open Text Token Node.Parse

/-- Each rule keeps the property. A token that is no construct by itself is not the end of the
text. -/
structure Kept (text : Text) (P : List Token → List Node → Prop) : Prop where
  nil : P [] []
  append : ∀ {us vs : List Token} {ns ms : List Node}, P us ns → P vs ms → P (us ++ vs) (ns ++ ms)
  token : ∀ {t : Token}, t.kind ≠ .eof → P [t] []
  binding : ∀ {t : Token}, t.kind = .keyword .letWord → P [t] [.binding t.span]
  struct : ∀ {t opener close : Token} {hs fs : List Token} {head : Head} {fields : List Text},
    t.kind = .keyword .structWord → Grammar.IsHead text hs head → opener.kind = .opening .brace →
    Grammar.IsFields text opener.stop close.start fs fields → close.kind = .closing .brace →
    P (t :: hs ++ opener :: fs ++ [close]) [.struct ⟨t.start, close.stop⟩ head fields]
  trait : ∀ {t opener close : Token} {hs bs : List Token} {head : Head} {ns : List Node},
    t.kind = .keyword .traitWord → Grammar.IsHead text hs head → opener.kind = .opening .brace →
    P bs ns → close.kind = .closing .brace →
    P (t :: hs ++ opener :: bs ++ [close])
      [.trait ⟨t.start, close.stop⟩ head ⟨opener.stop, close.start⟩
        (Node.cover close.start opener.stop ns)]
  impl : ∀ {t word opener close : Token} {hs gs bs : List Token} {head target : Head}
      {ns : List Node},
    t.kind = .keyword .implWord → Grammar.IsHead text hs head → word.kind = .keyword .forWord →
    Grammar.IsHead text gs target → opener.kind = .opening .brace → P bs ns →
    close.kind = .closing .brace →
    P (t :: hs ++ word :: gs ++ opener :: bs ++ [close])
      [.impl ⟨t.start, close.stop⟩ head target ⟨opener.stop, close.start⟩
        (Node.cover close.start opener.stop ns)]
  chain : ∀ {first last : Token} {hs ss rest : List Token} {ns : List Node} {stages : List Stage}
      {stage : Stage},
    hs.head? = some first → hs.getLast? = some last → Begins first → P hs ns →
    IsChain text (fun _ us _ ns => P us ns) ss rest stages → stages.getLast? = some stage →
    P (hs ++ ss)
      [.pipe ⟨first.start, stage.span.stop⟩ ⟨first.start, last.stop⟩
        (Node.cover last.stop first.start ns) stages]

section Weakening

variable {text : Text} {us rest : List Token} {inside inside' : Inside}
  (hin : ∀ {close us rest ns}, inside close us rest ns → inside' close us rest ns)

include hin

theorem IsStage.mono {s : Stage} (h : IsStage text inside us rest s) :
    IsStage text inside' us rest s := by
  cases h with
  | bare hp hf hk hl hs hnext => exact .bare hp hf hk hl hs hnext
  | call hp hf hk hl hs ho hb hc => exact .call hp hf hk hl hs ho (hin hb) hc
  | group ho hb hc => exact .group ho (hin hb) hc

theorem IsChain.mono {stages : List Stage} (h : IsChain text inside us rest stages) :
    IsChain text inside' us rest stages := by
  induction h with
  | nil => exact .nil
  | cons hk hs _ ih => exact .cons hk (hs.mono hin) ih

end Weakening

section Rules

variable {text : Text} {all us rest : List Token} {inside : Inside} {ns : List Node}
  {P : List Token → List Node → Prop} (hP : Kept text P)
  (hin : ∀ {close us rest ns}, inside close us rest ns → P us ns)

include hP hin

theorem IsGroup.kept {bracket : Bracket} (h : IsGroup inside bracket us rest ns) : P us ns := by
  cases h with
  | closed ho hb hc =>
    have hopener := hP.token (by rw [ho]; nofun)
    have hclose := hP.token (by rw [hc]; nofun)
    have hall := hP.append hopener (hP.append (hin hb) hclose)
    rwa [List.nil_append, List.append_nil] at hall
  | unclosed ho hb _ => exact hP.append (hP.token (by rw [ho]; nofun)) (hin hb)

theorem IsTrailers.kept (h : IsTrailers all inside us rest ns) : P us ns := by
  induction h with
  | nil => exact hP.nil
  | member hd hn _ _ ih =>
    have hdot := hP.token (by rw [hd]; nofun)
    have hname := hP.token fun hk => by rw [hk] at hn; cases hn
    exact hP.append hdot (hP.append hname ih)
  | template hk _ ih => exact hP.append (hP.token (by rw [hk]; nofun)) ih
  | group _ hg _ ih => exact hP.append (hg.kept hP hin) ih

theorem IsOperand.kept (h : IsOperand all inside us rest ns) : P us ns := by
  obtain ⟨hp, ht⟩ := h
  refine hP.append ?_ (ht.kept hP hin)
  cases hp with
  | atom hk => exact hP.token fun heof => by rw [heof] at hk; cases hk
  | group _ hg => exact hg.kept hP hin

theorem IsItem.kept {role : Role} (h : IsItem text all inside role us rest ns) : P us ns := by
  cases h with
  | passed hk _ => exact hP.token fun heof => by rw [heof] at hk; cases hk
  | binding hk _ => exact hP.binding hk
  | block hg => exact hg.kept hP hin
  | struct hk hh ho hf hc => exact hP.struct hk hh ho hf hc
  | trait hk hh ho hb hc => exact hP.trait hk hh ho (hin hb) hc
  | impl hk hh hw hg ho hb hc => exact hP.impl hk hh hw hg ho (hin hb) hc
  | operand ho => exact ho.kept hP hin
  | chain hf hl ho hc hs =>
    obtain ⟨first, tail, rfl, hfirst⟩ := ho.begins
    obtain rfl := Option.some.inj hf
    exact hP.chain hf hl hfirst (ho.kept hP hin) (hc.mono hin) hs

theorem IsRow.kept {close : Option Kind} {roles : List Role}
    (h : IsRow text all inside close roles us rest ns) : P us ns := by
  induction h with
  | nil => exact hP.nil
  | snoc _ _ hitem ih => exact hP.append ih (hitem.kept hP hin)

end Rules

theorem Kept.reads {text : Text} {P : List Token → List Node → Prop} (hP : Kept text P)
    {all : List Token} {room : Nat} :
    ∀ {close us rest ns}, Reads text all room close us rest ns → P us ns := by
  induction room with
  | zero => exact False.elim
  | succ room ih =>
    rintro close us rest ns ⟨roles, hrow⟩
    exact hrow.kept hP ih

/-- The end of the text is not read. -/
theorem kind_ne_eof_of_reads {text : Text} {all : List Token} {room : Nat} {close : Option Kind}
    {us rest : List Token} {ns : List Node} (h : Reads text all room close us rest ns) {t : Token}
    (ht : us.getLast? = some t) : t.kind ≠ .eof := by
  have hlast (us : List Token) {close : Token} (hk : close.kind ≠ .eof) :
      ∀ t, (us ++ [close]).getLast? = some t → t.kind ≠ .eof := by
    intro t ht
    rw [List.getLast?_concat] at ht
    exact Option.some.inj ht ▸ hk
  have happend {us vs : List Token} (hu : ∀ t, us.getLast? = some t → t.kind ≠ .eof)
      (hv : ∀ t, vs.getLast? = some t → t.kind ≠ .eof) :
      ∀ t, (us ++ vs).getLast? = some t → t.kind ≠ .eof := by
    intro t ht
    rcases getLast?_append_cases ht with hlater | ⟨-, hearlier⟩
    · exact hv t hlater
    · exact hu t hearlier
  have hP : Kept text fun us _ => ∀ t, us.getLast? = some t → t.kind ≠ .eof := by
    refine ⟨nofun, happend, hlast [], fun hk => hlast [] (by rw [hk]; rintro ⟨⟩),
      fun _ _ _ _ hc => hlast _ (by rw [hc]; rintro ⟨⟩),
      fun _ _ _ _ hc => hlast _ (by rw [hc]; rintro ⟨⟩),
      fun _ _ _ _ _ _ hc => hlast _ (by rw [hc]; rintro ⟨⟩), fun _ _ _ hu hchain _ => ?_⟩
    refine happend hu fun t ht => ?_
    rcases hchain.last ht with hk | ⟨hk, -⟩
    · rw [hk]
      rintro ⟨⟩
    · intro heof
      rw [heof] at hk
      cases hk
  exact hP.reads h t ht

end Desugar.Phrase
