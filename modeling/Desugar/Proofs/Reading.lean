import Desugar.Proofs.Phrases

/-! Reading follows the rules of items. Each reader is shown to use a run of tokens that they
derive, and to fail only where the reader of what brackets hold does: every slice it takes lies
between two tokens of the text. Which places readers may stand at is a parameter, kept by every
phrase. The loops that count down tokens to be passed are first restated as loops on what comes
after those tokens. -/
namespace Desugar.Node.Parse

open Text Token Phrase
open Grammar (AfterDot IsHead IsFields IsSequence fieldOf)

/-- The fault of a file that nests too deep, at some line and column. -/
def TooDeep (file : Text) (fault : Fault) : Prop :=
  ∃ line column, fault = .tooDeep ⟨file, line, column⟩ Literal.maxDepth

/-! ### Passing tokens -/

/-- The same constructs with `n` tokens passed before them. -/
def Found.passing (n : Nat) (f : Found) : Found := { f with used := f.used + n }

def Stages.passing (n : Nat) (s : Stages) : Stages := { s with used := s.used + n }

theorem trailers_append (inner : Inner) (skipped tokens : List Token) (notes : Notes) :
    trailers inner skipped.length (skipped ++ tokens) notes =
      (trailers inner 0 tokens notes).map (Found.passing skipped.length) := by
  induction skipped with
  | nil =>
    rw [List.nil_append, List.length_nil]
    cases trailers inner 0 tokens notes <;> rfl
  | cons t skipped ih =>
    rw [List.length_cons, List.cons_append, trailers, ih]
    cases trailers inner 0 tokens notes <;> rfl

theorem chain_append (source : Source) (inner : Inner) (skipped tokens : List Token)
    (notes : Notes) :
    chain source inner skipped.length (skipped ++ tokens) notes =
      (chain source inner 0 tokens notes).map (Stages.passing skipped.length) := by
  induction skipped with
  | nil =>
    rw [List.nil_append, List.length_nil]
    cases chain source inner 0 tokens notes <;> rfl
  | cons t skipped ih =>
    rw [List.length_cons, List.cons_append, chain, ih]
    cases chain source inner 0 tokens notes <;> rfl

theorem items_append (source : Source) (inner : Inner) (close : Option Kind) (last : Option Token)
    (skipped tokens : List Token) (notes : Notes) :
    items source inner close last skipped.length (skipped ++ tokens) notes =
      (items source inner close (skipped.getLast?.or last) 0 tokens notes).map
        (Found.passing skipped.length) := by
  induction skipped generalizing last with
  | nil =>
    rw [List.nil_append, List.length_nil, List.getLast?_nil, Option.none_or]
    cases items source inner close last 0 tokens notes <;> rfl
  | cons t skipped ih =>
    have hlast : (t :: skipped).getLast?.or last = skipped.getLast?.or (some t) := by
      rw [List.getLast?_cons]
      cases skipped.getLast? <;> rfl
    rw [List.length_cons, List.cons_append, items, ih, hlast]
    cases items source inner close (skipped.getLast?.or (some t)) 0 tokens notes <;> rfl

/-! ### What a reader has used -/

section Readers

variable {source : Source} {all : List Token} {inside : Inside} {inner : Inner} {n : Nat}
  {E : Fault → Prop} {stands : List Token → Prop}

/-- The constructs found are those that a rule gives to the tokens used. -/
def Found.Covers (rule : List Token → List Token → List Node → Prop) (tokens : List Token)
    (f : Found) : Prop :=
  ∃ us rest, tokens = us ++ rest ∧ f.used = us.length ∧ rule us rest f.nodes

/-- The same of a reader that has used at least the token `t`. -/
def Found.Takes (rule : List Token → List Token → List Node → Prop) (t : Token)
    (tokens : List Token) (f : Found) : Prop :=
  ∃ us rest, tokens = us ++ rest ∧ f.used = us.length + 1 ∧ rule (t :: us) rest f.nodes

/-- A reader of what stands between brackets, at any place of the tokens `all` behind the first
`n`. It goes on to the closing token or to the end, and its faults are in `E`. -/
def Inner.Sound (E : Fault → Prop) (all : List Token) (n : Nat) (inside : Inside) (inner : Inner) :
    Prop :=
  ∀ (close : Option Kind) (front tokens : List Token) (notes : Notes), all = front ++ tokens →
    n ≤ front.length → Ends E
      (Found.Covers (fun us rest ns => inside close us rest ns ∧ Stops close rest) tokens)
      (inner close front.getLast? tokens notes)

/-- The same of a reader that is asked only behind the brackets at places in `stands`. The rules
lead from such a place to another one, group by group. -/
structure Inner.SoundAt (E : Fault → Prop) (all : List Token) (inside : Inside)
    (stands : List Token → Prop) (inner : Inner) : Prop where
  opened {front tokens : List Token} {opener : Token} {bracket : Bracket} (notes : Notes) :
    all = front ++ opener :: tokens → opener.kind = .opening bracket → stands front → Ends E
      (Found.Covers (fun us rest ns => inside (some (.closing bracket)) us rest ns ∧
        Stops (some (.closing bracket)) rest) tokens)
      (inner (some (.closing bracket)) (some opener) tokens notes)
  group {front us rest : List Token} {bracket : Bracket} {ns : List Node} :
    all = front ++ us ++ rest → IsGroup inside bracket us rest ns → stands front →
      stands (front ++ us)
  neutral {front rest : List Token} {t : Token} :
    all = front ++ t :: rest → t.kind.isNeutral = true → stands front → stands (front ++ [t])
  declared {front us rest : List Token} {t : Token} :
    all = front ++ t :: us ++ rest → t.kind.isUndeclared = false → stands front →
      stands (front ++ t :: us)

theorem headKind_eq {tokens : List Token} {k : Kind} (h : headKind tokens = k) (hk : k ≠ .eof) :
    ∃ t rest, tokens = t :: rest ∧ t.kind = k := by
  cases tokens with
  | nil => exact absurd h.symm hk
  | cons t rest => exact ⟨t, rest, rfl, h⟩

theorem stopAfter_append {us rest : List Token} {last : Token} (h : us.getLast? = some last) :
    stopAfter us.length (us ++ rest) = last.stop := by
  rw [stopAfter, List.take_left, h]

/-- Behind the first tokens every place is good. -/
theorem Inner.Sound.soundAt (hinner : inner.Sound E all n inside) :
    inner.SoundAt E all inside fun front => n ≤ front.length + 1 where
  opened {front tokens opener bracket} notes h _ hat := by
    have hin := hinner (some (.closing bracket)) (front ++ [opener]) tokens notes (by simp [h])
      (by simpa using hat)
    rwa [List.getLast?_concat] at hin
  group _ _ hat := by simp only [List.length_append]; omega
  neutral _ _ hat := by simp only [List.length_append]; omega
  declared _ _ hat := by simp only [List.length_append]; omega

/-! ### Where phrases lead -/

theorem Inner.SoundAt.path (hinner : inner.SoundAt E all inside stands)
    {front us rest : List Token} (h : all = front ++ us ++ rest) (hpath : IsPath us rest)
    (hat : stands front) : stands (front ++ us) := by
  induction hpath generalizing front with
  | last hn _ => exact hinner.neutral (by simpa using h) (Kind.isNeutral_of_isWord hn) hat
  | @more name dot us rest hn hd _ ih =>
    have hname : stands (front ++ [name]) :=
      hinner.neutral (by simpa using h) (Kind.isNeutral_of_isWord hn) hat
    have hdot : stands (front ++ [name] ++ [dot]) :=
      hinner.neutral (by simpa using h) (by rw [hd]; rfl) hname
    simpa using ih (by simpa using h) hdot

theorem Inner.SoundAt.trailers (hinner : inner.SoundAt E all inside stands)
    {front us rest : List Token} {ns : List Node} (h : all = front ++ us ++ rest)
    (htrailers : IsTrailers all inside us rest ns) (hat : stands front) :
    stands (front ++ us) := by
  induction htrailers generalizing front with
  | nil => simpa using hat
  | @member dot name us rest ns hd hn _ _ ih =>
    have hdot : stands (front ++ [dot]) :=
      hinner.neutral (by simpa using h) (by rw [hd]; rfl) hat
    have hname : stands (front ++ [dot] ++ [name]) :=
      hinner.neutral (by simpa using h) (Kind.isNeutral_of_isWord hn) hdot
    simpa using ih (by simpa using h) hname
  | @template t us rest ns ht _ ih =>
    have htemplate : stands (front ++ [t]) :=
      hinner.neutral (by simpa using h) (by rw [ht]; rfl) hat
    simpa using ih (by simpa using h) htemplate
  | @group bracket us vs rest ns ms _ hg _ ih =>
    have hgroup : stands (front ++ us) := hinner.group (by simpa using h) hg hat
    simpa using ih (by simpa using h) hgroup

theorem Inner.SoundAt.primary (hinner : inner.SoundAt E all inside stands)
    {front us rest : List Token} {ns : List Node} (h : all = front ++ us ++ rest)
    (hprimary : IsPrimary inside us rest ns) (hat : stands front) : stands (front ++ us) := by
  cases hprimary with
  | atom ht => exact hinner.neutral (by simpa using h) (Kind.isNeutral_of_isAtom ht) hat
  | group _ hg => exact hinner.group h hg hat

theorem Inner.SoundAt.operand (hinner : inner.SoundAt E all inside stands)
    {front us rest : List Token} {ns : List Node} (h : all = front ++ us ++ rest)
    (hoperand : IsOperand all inside us rest ns) (hat : stands front) : stands (front ++ us) := by
  obtain @⟨us, vs, _, _, _, hp, ht⟩ := hoperand
  have hprimary : stands (front ++ us) := hinner.primary (by simpa using h) hp hat
  simpa using hinner.trailers (by simpa using h) ht hprimary

theorem Inner.SoundAt.stage (hinner : inner.SoundAt E all inside stands)
    {front us rest : List Token} {s : Stage} (h : all = front ++ us ++ rest)
    (hstage : IsStage source.text inside us rest s) (hat : stands front) :
    stands (front ++ us) := by
  cases hstage with
  | bare hp => exact hinner.path h hp hat
  | @call _ _ opener close ps bs _ _ _ hp _ _ _ _ ho hb hc =>
    have hpath : stands (front ++ ps) := hinner.path (by simpa using h) hp hat
    simpa using hinner.group (by simpa using h) (.closed ho hb hc) hpath
  | group ho hb hc => exact hinner.group h (.closed ho hb hc) hat

theorem Inner.SoundAt.chain (hinner : inner.SoundAt E all inside stands)
    {front us rest : List Token} {stages : List Stage} (h : all = front ++ us ++ rest)
    (hchain : IsChain source.text inside us rest stages) (hat : stands front) :
    stands (front ++ us) := by
  induction hchain generalizing front with
  | nil => simpa using hat
  | @cons pipe us ts rest s ss hp hs _ ih =>
    have hpipe : stands (front ++ [pipe]) :=
      hinner.neutral (by simpa using h) (by rw [hp]; rfl) hat
    have hstage : stands (front ++ [pipe] ++ us) := hinner.stage (by simpa using h) hs hpipe
    simpa using ih (by simpa using h) hstage

/-- A bracket that closes nothing here may be passed, too. -/
theorem Inner.SoundAt.item (hinner : inner.SoundAt E all inside stands) {role : Role}
    {front us rest : List Token} {ns : List Node} (h : all = front ++ us ++ rest)
    (hitem : IsItem source.text all inside role us rest ns) (hat : stands front)
    (hclosing : ∀ t bracket, us = [t] → t.kind = .closing bracket → stands (front ++ us)) :
    stands (front ++ us) := by
  cases hitem with
  | @passed t _ hk _ =>
    cases hkind : t.kind with
    | opening | eof => rw [hkind] at hk; cases hk
    | closing bracket => exact hclosing t bracket rfl hkind
    | _ => exact hinner.neutral (by simpa using h) (by rw [hkind]; rfl) hat
  | binding hk _ => exact hinner.neutral (by simpa using h) (by rw [hk]; rfl) hat
  | block hg => exact hinner.group h hg hat
  | struct hk | trait hk | impl hk =>
    simpa using hinner.declared (by simpa using h) (by rw [hk]; rfl) hat
  | operand ho => exact hinner.operand h ho hat
  | @chain _ _ hs ss _ _ _ _ _ _ ho hc _ =>
    have hoperand : stands (front ++ hs) := hinner.operand (by simpa using h) ho hat
    simpa using hinner.chain (by simpa using h) hc hoperand

/-! ### Groups and operands -/

/-- A group is what stands between its brackets, or runs on to the end without a closing
one. -/
theorem group_ends {front tokens : List Token} {first : Token} {bracket : Bracket}
    (hinner : inner.SoundAt E all inside stands) (notes : Notes)
    (h : all = front ++ first :: tokens) (hat : stands front)
    (hk : first.kind = .opening bracket) :
    Ends E
      (fun r => ∃ us rest, tokens = us ++ rest ∧
        inside (some (.closing bracket)) us rest r.1.nodes ∧
        (r.2 = false ∧ headKind rest = .eof ∧ r.1.used = us.length + 1 ∨
          ∃ close rest', r.2 = true ∧ rest = close :: rest' ∧ close.kind = .closing bracket ∧
            r.1.used = us.length + 2))
      (group inner bracket first tokens notes) := by
  rw [group_eq_bind]
  refine (hinner.opened notes h hk hat).bind ?_
  rintro f ⟨us, rest, htokens, hused, hinside, hstop⟩
  simp only [htokens, hused, List.drop_left]
  split
  next hk =>
    obtain ⟨close, rest', rfl, hclose⟩ := headKind_eq hk nofun
    exact ⟨us, _, rfl, hinside, .inr ⟨close, rest', rfl, rfl, hclose, rfl⟩⟩
  next hk =>
    have hend : headKind rest = .eof := hstop.resolve_right fun hc => hk (Option.some.inj hc)
    exact ⟨us, rest, rfl, hinside, .inl ⟨rfl, hend, rfl⟩⟩

theorem group_takes {front tokens : List Token} {first : Token} {bracket : Bracket}
    (hinner : inner.SoundAt E all inside stands) (notes : Notes)
    (h : all = front ++ first :: tokens) (hat : stands front)
    (hk : first.kind = .opening bracket) :
    Ends E (fun r => r.1.Takes (IsGroup inside bracket) first tokens)
      (group inner bracket first tokens notes) := by
  refine (group_ends hinner notes h hat hk).mono ?_
  rintro ⟨f, closed⟩ ⟨us, rest, htokens, hinside,
    ⟨_, hend, hused⟩ | ⟨close, rest', _, rfl, hclose, hused⟩⟩
  · exact ⟨us, rest, htokens, hused, .unclosed hk hinside hend⟩
  · exact ⟨us ++ [close], rest', by simp [htokens], by rw [List.length_append]; exact hused,
      .closed hk hinside hclose⟩

/-- What comes before trailers, followed by the loop that reads them. -/
theorem trailers_after {first rule : List Token → List Token → List Node → Prop} {t : Token}
    {tokens : List Token} {f : Found} (hf : f.Takes first t tokens)
    (htrailers : ∀ us rest, tokens = us ++ rest → first (t :: us) rest f.nodes →
      Ends E (Found.Covers (IsTrailers all inside) rest)
        (trailers inner 0 rest f.notes))
    (hrule : ∀ {us vs rest ns ms}, first us (vs ++ rest) ns → IsTrailers all inside vs rest ms →
      rule (us ++ vs) rest (ns ++ ms)) :
    Ends E (Found.Takes rule t tokens) (do
      let rest ← trailers inner (f.used - 1) tokens f.notes
      pure (rest.succ.prepend f.nodes)) := by
  obtain ⟨us, rest, rfl, hused, hfirst⟩ := hf
  rw [hused, Nat.add_sub_cancel, trailers_append]
  have hloop : Ends E
      (fun g => (g.succ.prepend f.nodes).Takes rule t (us ++ rest))
      ((trailers inner 0 rest f.notes).map (Found.passing us.length)) := by
    refine (htrailers us rest rfl hfirst).map ?_
    rintro g ⟨vs, rest', rfl, hvused, htrailers⟩
    refine ⟨us ++ vs, rest', by rw [List.append_assoc], ?_, hrule hfirst htrailers⟩
    simp only [Found.prepend, Found.succ, Found.passing, hvused, List.length_append]
    omega
  exact hloop.bind fun _ hg => hg

theorem Found.Takes.covers {rule : List Token → List Token → List Node → Prop} {t : Token}
    {tokens : List Token} {f : Found} (hf : f.Takes rule t tokens) :
    f.Covers rule (t :: tokens) := by
  obtain ⟨us, rest, htokens, hused, hrule⟩ := hf
  exact ⟨t :: us, rest, by rw [htokens, List.cons_append], hused, hrule⟩

theorem trailers_ends (hinner : inner.SoundAt E all inside stands) (front tokens : List Token)
    (notes : Notes) (h : all = front ++ tokens) (hat : stands front) :
    Ends E (Found.Covers (IsTrailers all inside) tokens)
      (trailers inner 0 tokens notes) := by
  match tokens, h with
  | [], _ => exact ⟨[], [], rfl, rfl, .nil (by rintro (h | h | h | ⟨h, _⟩) <;> cases h)⟩
  | t :: ts, h =>
    have hstop (hnext : ¬ Continues (t :: ts)) :
        Found.Covers (IsTrailers all inside) (t :: ts) (.nothing notes) :=
      ⟨[], t :: ts, rfl, rfl, .nil hnext⟩
    have hrest (us rest : List Token) (notes : Notes) (hts : ts = us ++ rest)
        (hat : stands (front ++ t :: us)) :=
      trailers_ends hinner (front ++ t :: us) rest notes (by rw [h, hts]; simp) hat
    -- a group, and then the loop on what follows it
    have hgroup {bracket : Bracket} (hb : bracket ≠ .brace) (hk : t.kind = .opening bracket) :
        Ends E (Found.Covers (IsTrailers all inside) (t :: ts)) (do
          let r ← group inner bracket t ts notes
          let rest ← trailers inner (r.1.used - 1) ts r.1.notes
          pure (rest.succ.prepend r.1.nodes)) :=
      (group_takes hinner notes h hat hk).bind fun r hr =>
        (trailers_after hr
          (fun us rest hts hg =>
            hrest us rest r.1.notes hts (hinner.group (by rw [h, hts]; simp) hg hat))
          fun hg => .group hb hg).mono fun _ hf => hf.covers
    rw [trailers]
    split
    next hk =>
      split
      next hw =>
        -- the name after the dot, which may be any word
        obtain ⟨name, rest, rfl⟩ : ∃ name rest, ts = name :: rest := by
          cases ts with
          | nil => cases hw
          | cons name rest => exact ⟨name, rest, rfl⟩
        rw [show trailers inner 1 (name :: rest) notes = _ from
          trailers_append inner [name] rest notes]
        have hloop : Ends E
            (fun g => g.succ.Covers (IsTrailers all inside) (t :: name :: rest))
            ((trailers inner 0 rest notes).map (Found.passing 1)) := by
          have hdot : stands (front ++ [t]) := hinner.neutral h (by rw [hk]; rfl) hat
          have hname : stands (front ++ [t] ++ [name]) :=
            hinner.neutral (by simpa using h) (Kind.isNeutral_of_isWord hw) hdot
          refine (hrest [name] rest notes rfl (by simpa using hname)).map ?_
          rintro g ⟨vs, rest', rfl, hused, hvs⟩
          exact ⟨t :: name :: vs, rest', rfl, by simp [Found.succ, Found.passing, hused],
            .member hk hw ⟨front, t, vs ++ rest', h, hk⟩ hvs⟩
        exact hloop.map fun _ hg => hg
      next hw => exact hstop (by simpa [continues_cons, hk] using hw)
    next hk => exact hgroup nofun hk
    next hk => exact hgroup nofun hk
    next hk =>
      refine (hrest [] ts notes rfl (hinner.neutral h (by rw [hk]; rfl) hat)).map ?_
      rintro g ⟨vs, rest', rfl, hused, hvs⟩
      exact ⟨t :: vs, rest', rfl, by rw [Found.succ, hused, List.length_cons], .template hk hvs⟩
    next hd hp hs ht => exact hstop (by rintro (h | h | h | ⟨h, _⟩) <;> contradiction)
termination_by tokens.length
decreasing_by
  simp only [hts, List.length_cons, List.length_append]
  omega

theorem primary_takes {front tokens : List Token} {t : Token}
    (hinner : inner.SoundAt E all inside stands) (notes : Notes)
    (h : all = front ++ t :: tokens) (hat : stands front)
    (hk : t.kind.isAtom = true ∨ t.kind = .opening .paren ∨ t.kind = .opening .square) :
    Ends E (Found.Takes (IsPrimary inside) t tokens)
      (primary inner t tokens notes) := by
  have hgroup {bracket : Bracket} (hb : bracket ≠ .brace) (hk : t.kind = .opening bracket) :
      Ends E (Found.Takes (IsPrimary inside) t tokens)
        ((group inner bracket t tokens notes).map Prod.fst) :=
    (group_takes hinner notes h hat hk).map fun _ ⟨us, rest, htokens, hused, hg⟩ =>
      ⟨us, rest, htokens, hused, .group hb hg⟩
  unfold primary
  split
  next hk => exact hgroup nofun hk
  next hk => exact hgroup nofun hk
  next hp hs =>
    have hatom : t.kind.isAtom = true := hk.resolve_right fun hk => hk.elim hp hs
    exact ⟨[], tokens, rfl, rfl, .atom hatom⟩

theorem operand_takes {front tokens : List Token} {t : Token}
    (hinner : inner.SoundAt E all inside stands) (notes : Notes)
    (h : all = front ++ t :: tokens) (hat : stands front)
    (hk : t.kind.isAtom = true ∨ t.kind = .opening .paren ∨ t.kind = .opening .square) :
    Ends E (Found.Takes (IsOperand all inside) t tokens)
      (operand inner t tokens notes) :=
  (primary_takes hinner notes h hat hk).bind fun _ hf => trailers_after hf
    (fun us rest hts hprimary => trailers_ends hinner (front ++ t :: us) rest _
      (by rw [h, hts]; simp) (hinner.primary (by rw [h, hts]; simp) hprimary hat))
    .mk

/-! ### Pipes -/

/-- A path takes its first name and the names after dots. -/
theorem isPath_pathTail {t : Token} (ht : t.kind.isWord = true) (ts : List Token) :
    ∃ us rest, ts = us ++ rest ∧ pathTail ts = us.length ∧ Phrase.IsPath (t :: us) rest := by
  fun_induction pathTail ts generalizing t with
  | case1 d u ts hk ih =>
    rw [Bool.and_eq_true, decide_eq_true_iff] at hk
    obtain ⟨us, rest, rfl, hlen, hpath⟩ := ih hk.2
    exact ⟨d :: u :: us, rest, rfl, by rw [hlen]; rfl, .more ht hk.1 hpath⟩
  | case2 d u ts hk =>
    refine ⟨[], _, rfl, rfl, .last ht fun hd => hk ?_⟩
    rw [Bool.and_eq_true, decide_eq_true_iff]
    exact hd
  | case3 ts hne =>
    refine ⟨[], _, rfl, rfl, .last ht ?_⟩
    match ts, hne with
    | [], _ => exact nofun
    | [d], _ => exact nofun
    | d :: u :: ts, hne => exact absurd rfl (hne d u ts)

theorem cover_eq {start stop : Nat} (h : start ≤ stop) (ns : List Node) :
    Block.cover start stop ns = ⟨⟨start, stop⟩, Node.cover stop start ns⟩ := by
  rw [Block.cover, Nat.max_eq_left h]

/-- The path of a stage lies in the text. -/
theorem exists_slice?_path (hall : Layout source.text all) {front us rest : List Token}
    {first : Token} (h : all = front ++ first :: (us ++ rest)) :
    ∃ path, slice? source.text first.start
      (stopAfter (us.length + 1) (first :: (us ++ rest))) = some path := by
  obtain ⟨last, hlast⟩ : ∃ last, (first :: us).getLast? = some last := ⟨_, List.getLast?_cons⟩
  have hspan : Within source.text first.start last.stop (first :: us) :=
    (Within.whole (hall.sublist (by rw [h]; simp))).span rfl hlast
  rw [show stopAfter (us.length + 1) (first :: (us ++ rest)) = last.stop from
    stopAfter_append hlast]
  exact hspan.start_boundary.exists_slice? hspan.stop_boundary hspan.le

theorem stage_ends (hall : Layout source.text all) (hinner : inner.SoundAt E all inside stands)
    {front tokens : List Token} (notes : Notes) (h : all = front ++ tokens) (hat : stands front) :
    Ends E
      (fun r => ∀ s used, r.1 = some (s, used) →
        ∃ us rest, tokens = us ++ rest ∧ used = us.length ∧ IsStage source.text inside us rest s)
      (stage source inner tokens notes) := by
  unfold stage
  split
  next => exact nofun
  next first ts =>
    split
    next hk =>
      obtain ⟨us, rest, rfl, hlen, hpath⟩ := isPath_pathTail (t := first) (by rw [hk]; rfl) ts
      obtain ⟨last, hlast⟩ : ∃ last, (first :: us).getLast? = some last := ⟨_, List.getLast?_cons⟩
      have hstop : stopAfter (us.length + 1) (first :: (us ++ rest)) = last.stop :=
        stopAfter_append hlast
      obtain ⟨path, hpiece⟩ := exists_slice?_path hall h
      rw [hstop] at hpiece
      simp only [hlen, hstop]
      refine (Ends.of_slice? hpiece).bind fun path hpiece => ?_
      have hbare (hnext : headKind rest ≠ .opening .paren) : IsStage source.text inside
          (first :: us) rest (.bare ⟨first.start, last.stop⟩ path) :=
        .bare hpath rfl hk hlast hpiece hnext
      rw [List.drop_succ_cons, List.drop_left]
      split
      next opener args =>
        split
        next ho =>
          have hopener : all = (front ++ first :: us) ++ opener :: args := by rw [h]; simp
          have hbehind : stands (front ++ first :: us) :=
            hinner.path (by rw [h]; simp) hpath hat
          refine (hinner.opened notes hopener ho hbehind).bind ?_
          rintro f ⟨bs, rest, rfl, hused, hinside, -⟩
          simp only [hused, List.drop_left]
          split
          next close rest =>
            split
            next hc =>
              have hle : opener.stop ≤ close.start := (Within.between (hopener ▸ hall)).le
              rintro s used ⟨⟩
              rw [cover_eq hle]
              exact ⟨first :: us ++ opener :: bs ++ [close], rest, by simp, by simp; omega,
                .call hpath rfl hk hlast hpiece ho hinside hc⟩
            next => exact nofun
          next => exact nofun
        next ho =>
          rintro s used ⟨⟩
          exact ⟨first :: us, _, rfl, rfl, hbare ho⟩
      next =>
        rintro s used ⟨⟩
        exact ⟨first :: us, _, rfl, rfl, hbare nofun⟩
    next hk =>
      refine (group_ends hinner notes h hat hk).bind ?_
      rintro ⟨f, closed⟩ ⟨us, rest, rfl, hinside,
        ⟨hclosed, _⟩ | ⟨close, rest', hclosed, rfl, hclose, hused⟩⟩
      · obtain rfl : closed = false := hclosed
        exact nofun
      · obtain rfl : closed = true := hclosed
        have hused : f.used = (us.length + 1) + 1 := hused
        have hstop : stopAfter f.used (first :: (us ++ close :: rest')) = close.stop := by
          rw [hused]
          simpa using @stopAfter_append (first :: us ++ [close]) rest' close List.getLast?_concat
        have hle : first.stop ≤ close.start := (Within.between (h ▸ hall)).le
        simp only [if_true]
        rintro s used ⟨⟩
        rw [hstop, cover_eq (by simp only [stop, start] at hle ⊢; omega)]
        exact ⟨first :: us ++ [close], rest', by simp, by simp [hused], .group hk hinside hclose⟩
    next => exact nofun

theorem chain_ends (hall : Layout source.text all) (hinner : inner.SoundAt E all inside stands)
    (front tokens : List Token) (notes : Notes) (h : all = front ++ tokens) (hat : stands front) :
    Ends E
      (fun r => ∃ us rest, tokens = us ++ rest ∧ r.used = us.length ∧
        IsChain source.text inside us rest r.stages)
      (chain source inner 0 tokens notes) := by
  match tokens, h with
  | [], _ => exact ⟨[], [], rfl, rfl, .nil⟩
  | t :: ts, h =>
    rw [chain]
    split
    next hk =>
      rw [Bool.and_eq_true, decide_eq_true_iff] at hk
      have hts : all = (front ++ [t]) ++ ts := by rw [h]; simp
      have hpipe : stands (front ++ [t]) := hinner.neutral h (by rw [hk.1]; rfl) hat
      refine (stage_ends hall hinner notes hts hpipe).bind ?_
      rintro ⟨_ | ⟨s, used⟩, notes⟩ hread
      · exact ⟨[], t :: ts, rfl, rfl, .nil⟩
      · obtain ⟨us, rest, hts, rfl, hstage⟩ := hread s used rfl
        have hbehind : stands (front ++ [t] ++ us) :=
          hinner.stage (by rw [h, hts]; simp) hstage hpipe
        have ih := chain_ends hall hinner (front ++ t :: us) rest notes (by rw [h, hts]; simp)
          (by simpa using hbehind)
        subst hts
        have hloop : Ends E
            (fun r => ∃ vs rest', t :: (us ++ rest) = vs ++ rest' ∧ r.used + 1 = vs.length ∧
              IsChain source.text inside vs rest' (s :: r.stages))
            ((chain source inner 0 rest notes).map (Stages.passing us.length)) := by
          refine ih.map ?_
          rintro r ⟨vs, rest', rfl, hused, hchain⟩
          refine ⟨t :: us ++ vs, rest', by simp, ?_, .cons hk.1 hstage hchain⟩
          simp only [Stages.passing, hused, List.length_append, List.length_cons]
          omega
        dsimp only
        rw [chain_append]
        exact hloop.bind fun _ hr => hr
    next => exact ⟨[], t :: ts, rfl, rfl, .nil⟩
termination_by tokens.length
decreasing_by
  simp only [hts, List.length_cons, List.length_append]
  omega

/-- An item, whatever it is. -/
def AnyItem (text : Text) (all : List Token) (inside : Inside) (us rest : List Token)
    (ns : List Node) : Prop :=
  ∃ role, IsItem text all inside role us rest ns

theorem expression_takes (hall : Layout source.text all)
    (hinner : inner.SoundAt E all inside stands) {front tokens : List Token} {t : Token}
    (notes : Notes) (h : all = front ++ t :: tokens) (hat : stands front)
    (hk : t.kind.isAtom = true ∨ t.kind = .opening .paren ∨ t.kind = .opening .square) :
    Ends E (Found.Takes (AnyItem source.text all inside) t tokens)
      (expression source inner t tokens notes) := by
  refine (operand_takes hinner notes h hat hk).bind ?_
  rintro f ⟨us, rest, rfl, hused, hoperand⟩
  have hhead (notes : Notes) : Found.Takes (AnyItem source.text all inside) t (us ++ rest)
      { f with notes := notes } :=
    ⟨us, rest, rfl, hused, .operand, .operand hoperand⟩
  obtain ⟨last, hlast⟩ : ∃ last, (t :: us).getLast? = some last := ⟨_, List.getLast?_cons⟩
  have hstop : stopAfter f.used (t :: (us ++ rest)) = last.stop := by
    rw [hused]
    exact stopAfter_append hlast
  have hspan : Within source.text t.start last.stop (t :: us) :=
    (Within.whole (hall.sublist (by rw [h]; simp))).span rfl hlast
  have hdrop : (t :: (us ++ rest)).drop f.used = rest := by
    rw [hused, List.drop_succ_cons, List.drop_left]
  rw [hdrop]
  split
  next => exact hhead _
  next next rest =>
    split
    next hn =>
      have hbehind : stands (front ++ t :: us) := hinner.operand (by rw [h]; simp) hoperand hat
      refine (chain_ends hall hinner (front ++ t :: us) (next :: rest) f.notes (by rw [h]; simp)
        hbehind).bind ?_
      rintro chained ⟨vs, rest', hvs, hvused, hchain⟩
      split
      next => exact hhead _
      next stage hstage =>
        rw [hstop, cover_eq hspan.le]
        refine ⟨us ++ vs, rest', by rw [hvs, List.append_assoc], ?_, .chain,
          .chain rfl hlast (hvs ▸ hoperand) hchain hstage⟩
        simp only [hused, hvused, List.length_append]
        omega
    next => exact hhead _

/-! ### Declarations -/

theorem generics_eq_some {depth : Nat} {tokens : List Token} {greater : Token} {used : Nat}
    (h : generics depth tokens = some (greater, used)) :
    ∃ us rest, tokens = us ++ greater :: rest ∧ used = us.length + 1 ∧ greater.kind = .greater := by
  induction tokens generalizing depth used with
  | nil => cases h
  | cons t ts ih =>
    have hmore {depth : Nat}
        (h : (generics depth ts).map (fun r => (r.1, r.2 + 1)) = some (greater, used)) :
        ∃ us rest, t :: ts = us ++ greater :: rest ∧ used = us.length + 1 ∧
          greater.kind = .greater := by
      obtain ⟨⟨_, used'⟩, hr, heq⟩ := Option.map_eq_some_iff.mp h
      cases heq
      obtain ⟨us, rest, rfl, rfl, hk⟩ := ih hr
      exact ⟨t :: us, rest, rfl, rfl, hk⟩
    rw [generics] at h
    split at h
    next => exact hmore h
    next hk =>
      split at h
      next =>
        cases h
        exact ⟨[], ts, rfl, rfl, hk⟩
      next => exact hmore h
    all_goals first | exact hmore h | cases h

theorem head_ends (hall : Layout source.text all) {front tokens : List Token}
    (h : all = front ++ tokens) :
    Ends E
      (fun r => ∀ name used, r = some (name, used) →
        ∃ us rest, tokens = us ++ rest ∧ used = us.length ∧ IsHead source.text us name)
      (head source tokens) := by
  unfold head
  split
  next => exact nofun
  next name ts =>
    have hplain (hk : name.kind = .ident) : ∀ head used,
      some (⟨name.text, none⟩, 1) = some (head, used) →
        ∃ us rest, name :: ts = us ++ rest ∧ used = us.length ∧ IsHead source.text us head := by
      rintro head used ⟨⟩
      exact ⟨[name], ts, rfl, rfl, .plain hk⟩
    split
    next hk =>
      split
      next less rest =>
        split
        next hl =>
          split
          next greater used hg =>
            obtain ⟨us, rest', rfl, rfl, hgk⟩ := generics_eq_some hg
            have hless : all = (front ++ [name]) ++ less :: (us ++ greater :: rest') := by
              rw [h]
              simp
            have hin := Within.between (hless ▸ hall)
            obtain ⟨inside, hpiece⟩ := hin.start_boundary.exists_slice? hin.stop_boundary hin.le
            refine (Ends.of_slice? hpiece).bind fun inside hpiece => ?_
            rintro head used ⟨⟩
            exact ⟨name :: less :: us ++ [greater], rest', by simp, by simp,
              .generic hk hl hgk hpiece⟩
          next => exact nofun
        next => exact hplain hk
      next => exact hplain hk
    next => exact nofun

theorem field_ends {start stop : Nat} (hs : Boundary source.text start)
    (he : Boundary source.text stop) (hle : start ≤ stop) :
    Ends E (fun r => ∃ piece, slice? source.text start stop = some piece ∧
      r = fieldOf piece) (field source start stop) := by
  obtain ⟨piece, hpiece⟩ := hs.exists_slice? he hle
  exact (Ends.of_slice? hpiece).bind fun piece hpiece => ⟨piece, hpiece, rfl⟩

/-- Fields read up to their closing brace, if it was found. -/
def TakesFields (text : Text) (start : Nat) (tokens : List Token)
    (r : Option (List Text × Token × Nat)) : Prop :=
  ∀ found close used, r = some (found, close, used) →
    ∃ us rest, tokens = us ++ close :: rest ∧ used = us.length + 1 ∧ close.kind = .closing .brace ∧
      IsFields text start close.start us found

theorem fields_ends (hall : Layout source.text all) {start : Nat} (depth : Nat)
    {front tokens : List Token} (h : all = front ++ tokens)
    (hs : Boundary source.text start) (hle : ∀ t ∈ tokens, start ≤ t.start) :
    Ends E (TakesFields source.text start tokens)
      (fields source start depth tokens) := by
  induction tokens generalizing start depth front with
  | nil => exact nofun
  | cons t ts ih =>
    have htoken := hall.stands t (by rw [h]; simp)
    have hts : all = (front ++ [t]) ++ ts := by rw [h]; simp
    -- the token `t` belongs to a field
    have hmore (depth : Nat) :
        Ends E (TakesFields source.text start (t :: ts)) (do
          let rest ← fields source start depth ts
          pure (rest.map fun r => (r.1, r.2.1, r.2.2 + 1))) := by
      refine (ih depth hts hs fun u hu => hle u (List.mem_cons_of_mem t hu)).bind ?_
      rintro (_ | ⟨found, close, used⟩) hread
      · exact nofun
      · rintro _ _ _ ⟨⟩
        obtain ⟨us, rest, rfl, rfl, hk, hfields⟩ := hread found close used rfl
        exact ⟨t :: us, rest, rfl, rfl, hk, hfields.cons t⟩
    rw [fields]
    split
    next => exact nofun
    next bracket hk =>
      split
      next hend =>
        rw [Bool.and_eq_true, decide_eq_true_iff] at hend
        refine (field_ends hs htoken.start_boundary (hle t List.mem_cons_self)).bind ?_
        rintro _ ⟨piece, hpiece, rfl⟩ _ _ _ ⟨⟩
        exact ⟨[], ts, rfl, rfl, by rw [hk, hend.1], .last hpiece⟩
      next => exact hmore _
    next hk =>
      split
      next =>
        refine (field_ends hs htoken.start_boundary (hle t List.mem_cons_self)).bind ?_
        rintro _ ⟨piece, hpiece, rfl⟩
        have hlater : ∀ u ∈ ts, t.stop ≤ u.start :=
          (List.pairwise_cons.mp (h ▸ hall).append_right.ordered).1
        refine (ih 0 hts htoken.stop_boundary hlater).bind ?_
        rintro (_ | ⟨found, close, used⟩) hread
        · exact nofun
        · rintro _ _ _ ⟨⟩
          obtain ⟨us, rest, rfl, rfl, hclose, hfields⟩ := hread found close used rfl
          exact ⟨t :: us, rest, rfl, rfl, hclose, @IsFields.more _ _ _ [] _ _ _ _ hk hpiece hfields⟩
      next => exact hmore _
    next => exact hmore _
    next => exact hmore _

theorem fields_opened (hall : Layout source.text all) {front tokens : List Token} {opener : Token}
    (h : all = front ++ opener :: tokens) :
    Ends E (TakesFields source.text opener.stop tokens) (fields source opener.stop 0 tokens) := by
  have hbody : all = (front ++ [opener]) ++ tokens := by rw [h]; simp
  have hlater := (List.pairwise_cons.mp (h ▸ hall).append_right.ordered).1
  have hboundary := (hall.stands opener (by rw [h]; simp)).stop_boundary
  exact fields_ends hall 0 hbody hboundary hlater

theorem giveUp_takes {t : Token} {word : Keyword} (hk : t.kind = .keyword word)
    (hlet : word ≠ .letWord) (tokens : List Token) (notes : Notes) :
    (giveUp t notes).Takes (AnyItem source.text all inside) t tokens :=
  ⟨[], tokens, rfl, rfl, .passed, .passed (by rw [hk]; rfl)
    fun h => absurd (Kind.keyword.inj (hk.symm.trans h)) hlet⟩

theorem struct_takes (hall : Layout source.text all) {front tokens : List Token} {t : Token}
    (notes : Notes) (h : all = front ++ t :: tokens) (hk : t.kind = .keyword .structWord) :
    Ends E (Found.Takes (AnyItem source.text all inside) t tokens)
      (struct source t tokens notes) := by
  have hgive (notes : Notes) :
      (giveUp t notes).Takes (AnyItem source.text all inside) t tokens :=
    giveUp_takes hk nofun tokens notes
  refine (head_ends hall (by rw [h]; exact List.append_cons front t tokens)).bind ?_
  rintro (_ | ⟨name, used⟩) hhead
  · exact hgive notes
  obtain ⟨hs, rest, rfl, rfl, hname⟩ := hhead name used rfl
  dsimp only
  rw [List.drop_left]
  split
  next opener body =>
    split
    next ho =>
      have hopener : all = (front ++ t :: hs) ++ opener :: body := by rw [h]; simp
      refine (fields_opened hall hopener).bind ?_
      rintro (_ | ⟨found, close, inside⟩) hfields
      · exact hgive _
      obtain ⟨fs, rest, rfl, rfl, hclose, hfound⟩ := hfields found close inside rfl
      exact ⟨hs ++ opener :: fs ++ [close], rest, by simp, by simp; omega, .declaration,
        .struct hk hname ho hfound hclose⟩
    next => exact hgive notes
  next => exact hgive notes

/-- A body in braces, if its closing brace was found. -/
def TakesBody (inside : Inside) (tokens : List Token) (r : Option (Block × Token × Nat)) :
    Prop :=
  ∀ block close used, r = some (block, close, used) →
    ∃ opener bs rest ns, tokens = opener :: bs ++ close :: rest ∧ used = bs.length + 2 ∧
      opener.kind = .opening .brace ∧ inside (some (.closing .brace)) bs (close :: rest) ns ∧
      close.kind = .closing .brace ∧
      block = ⟨⟨opener.stop, close.start⟩, Node.cover close.start opener.stop ns⟩

theorem body_ends (hall : Layout source.text all) (hinner : inner.SoundAt E all inside stands)
    {front tokens : List Token} (t : Token) (cause : Warning.Cause) (notes : Notes)
    (h : all = front ++ tokens) (hat : stands front) :
    Ends E (fun r => TakesBody inside tokens r.1)
      (body inner t cause tokens notes) := by
  unfold body
  split
  next => exact nofun
  next opener ts =>
    split
    next ho =>
      refine (hinner.opened notes h ho hat).bind ?_
      rintro f ⟨bs, rest, rfl, hused, hinside, -⟩
      rw [hused, List.drop_left]
      split
      next close rest =>
        split
        next hc =>
          have hle : opener.stop ≤ close.start := (Within.between (h ▸ hall)).le
          rintro _ _ _ ⟨⟩
          exact ⟨opener, bs, rest, f.nodes, rfl, rfl, ho, hinside, hc, cover_eq hle _⟩
        next => exact nofun
      next => exact nofun
    next => exact nofun

theorem trait_takes (hall : Layout source.text all) (hinner : inner.SoundAt E all inside stands)
    {front tokens : List Token} {t : Token} (notes : Notes) (h : all = front ++ t :: tokens)
    (hat : stands front) (hk : t.kind = .keyword .traitWord) :
    Ends E (Found.Takes (AnyItem source.text all inside) t tokens)
      (trait source inner t tokens notes) := by
  have hgive (notes : Notes) :
      (giveUp t notes).Takes (AnyItem source.text all inside) t tokens :=
    giveUp_takes hk nofun tokens notes
  refine (head_ends hall (by rw [h]; exact List.append_cons front t tokens)).bind ?_
  rintro (_ | ⟨name, used⟩) hhead
  · exact hgive notes
  obtain ⟨hs, rest, rfl, rfl, hname⟩ := hhead name used rfl
  dsimp only
  rw [List.drop_left]
  have hrest : all = (front ++ t :: hs) ++ rest := by rw [h]; simp
  have hbehind : stands (front ++ t :: hs) := hinner.declared hrest (by rw [hk]; rfl) hat
  refine (body_ends hall hinner t _ notes hrest hbehind).bind ?_
  rintro ⟨_ | ⟨block, close, more⟩, notes⟩ hbody
  · exact hgive notes
  obtain ⟨opener, bs, rest, ns, rfl, rfl, ho, hinside, hc, rfl⟩ := hbody block close more rfl
  exact ⟨hs ++ opener :: bs ++ [close], rest, by simp, by simp, .declaration,
    .trait hk hname ho hinside hc⟩

theorem impl_takes (hall : Layout source.text all) (hinner : inner.SoundAt E all inside stands)
    {front tokens : List Token} {t : Token} (notes : Notes) (h : all = front ++ t :: tokens)
    (hat : stands front) (hk : t.kind = .keyword .implWord) :
    Ends E (Found.Takes (AnyItem source.text all inside) t tokens)
      (impl source inner t tokens notes) := by
  have hgive (notes : Notes) :
      (giveUp t notes).Takes (AnyItem source.text all inside) t tokens :=
    giveUp_takes hk nofun tokens notes
  refine (head_ends hall (by rw [h]; exact List.append_cons front t tokens)).bind ?_
  rintro (_ | ⟨name, used⟩) hhead
  · exact hgive notes
  obtain ⟨hs, rest, rfl, rfl, hname⟩ := hhead name used rfl
  dsimp only
  rw [List.drop_left]
  split
  next => exact hgive notes
  next word rest =>
    split
    next hw =>
      have hrest : all = (front ++ t :: hs ++ [word]) ++ rest := by rw [h]; simp
      refine (head_ends hall hrest).bind ?_
      rintro (_ | ⟨target, used⟩) htarget
      · exact hgive notes
      obtain ⟨gs, rest, rfl, rfl, hgs⟩ := htarget target used rfl
      dsimp only
      rw [List.drop_left]
      have hbody : all = (front ++ t :: hs ++ word :: gs) ++ rest := by rw [h]; simp
      have hbehind : stands (front ++ t :: (hs ++ word :: gs)) :=
        hinner.declared (by simpa using hbody) (by rw [hk]; rfl) hat
      refine (body_ends hall hinner t _ notes hbody (by simpa using hbehind)).bind ?_
      rintro ⟨_ | ⟨block, close, more⟩, notes⟩ hbody
      · exact hgive notes
      obtain ⟨opener, bs, rest, ns, rfl, rfl, ho, hinside, hc, rfl⟩ := hbody block close more rfl
      exact ⟨hs ++ word :: gs ++ opener :: bs ++ [close], rest, by simp, by simp; omega,
        .declaration, .impl hk hname hw hgs ho hinside hc⟩
    next => split <;> exact hgive _

/-! ### Sequences -/

/-- The token before shows whether a member is named. -/
theorem afterDot_iff (hall : Layout source.text all) {front tokens : List Token} {t : Token}
    (h : all = front ++ t :: tokens) (hk : t.kind ≠ .eof) :
    AfterDot all t ↔ front.getLast?.any (·.kind = .dot) = true := by
  rw [Option.any_eq_true]
  constructor
  · rintro ⟨front', dot, rest, hdot, hd⟩
    have heq : front ++ t :: tokens = (front' ++ [dot]) ++ t :: rest := by rw [← h, hdot]; simp
    obtain rfl := (h ▸ hall).front_eq heq hk
    exact ⟨dot, List.getLast?_concat, by simpa using hd⟩
  · rintro ⟨dot, hlast, hd⟩
    obtain ⟨front', rfl⟩ := List.getLast?_eq_some_iff.mp hlast
    exact ⟨front', dot, tokens, by rw [h]; simp, by simpa using hd⟩

theorem item_takes (hall : Layout source.text all) (hinner : inner.SoundAt E all inside stands)
    {front tokens : List Token} {t : Token} (notes : Notes) (h : all = front ++ t :: tokens)
    (hat : stands front) (hne : t.kind ≠ .eof) :
    Ends E (Found.Takes (AnyItem source.text all inside) t tokens)
      (item source inner front.getLast? t tokens notes) := by
  have hstep (hk : t.kind.isPassed = true) (ht : t.kind = .keyword .letWord → AfterDot all t) :
      (Found.step notes).Takes (AnyItem source.text all inside) t tokens :=
    ⟨[], tokens, rfl, rfl, .passed, .passed hk ht⟩
  have hexpression := expression_takes hall hinner notes h hat
  unfold item
  split
  next hk =>
    split
    next => exact hstep (by rw [hk]; rfl) (by rw [hk]; nofun)
    next => exact struct_takes hall notes h hk
  next hk =>
    split
    next => exact hstep (by rw [hk]; rfl) (by rw [hk]; nofun)
    next => exact trait_takes hall hinner notes h hat hk
  next hk =>
    split
    next => exact hstep (by rw [hk]; rfl) (by rw [hk]; nofun)
    next => exact impl_takes hall hinner notes h hat hk
  next hk =>
    have hdot := afterDot_iff hall h (by rw [hk]; nofun)
    split
    next hlast => exact hstep (by rw [hk]; rfl) fun _ => hdot.mpr hlast
    next hlast =>
      exact ⟨[], tokens, rfl, rfl, .binding, .binding hk fun hd => hlast (hdot.mp hd)⟩
  next hk =>
    exact (group_takes hinner notes h hat hk).map fun _ ⟨us, rest, htokens, hused, hg⟩ =>
      ⟨us, rest, htokens, hused, .block, .block hg⟩
  case h_12 hk => exact hexpression (.inr (.inl hk))
  case h_13 hk => exact hexpression (.inr (.inr hk))
  case h_14 =>
    refine hstep ?_ fun hk => by contradiction
    cases hk : t.kind with
    | opening bracket => cases bracket <;> contradiction
    | _ => first | rfl | contradiction
  all_goals next hk => exact hexpression (.inl (by rw [hk]; rfl))

/-- The loop on items keeps what each item keeps. `P us rest ns notes` is an invariant of the
tokens read behind `front`, those that are left, and what was found and noted so far. -/
theorem items_keep {E : Fault → Prop} {close : Option Kind} {front : List Token}
    {P : List Token → List Token → List Node → Notes → Prop}
    (hitem : ∀ us t ts ns notes, P us (t :: ts) ns notes → ¬ Stops close (t :: ts) →
      Ends E (fun f => ∃ vs rest, ts = vs ++ rest ∧ f.used = vs.length + 1 ∧
        P (us ++ t :: vs) rest (ns ++ f.nodes) f.notes)
        (item source inner (front ++ us).getLast? t ts notes))
    (ns : List Node) (us tokens : List Token) (notes : Notes) (h : P us tokens ns notes) :
    Ends E (fun f => ∃ vs rest, tokens = vs ++ rest ∧ f.used = vs.length ∧
        P (us ++ vs) rest (ns ++ f.nodes) f.notes ∧ Stops close rest)
      (items source inner close (front ++ us).getLast? 0 tokens notes) := by
  match tokens, h with
  | [], h => exact ⟨[], [], rfl, rfl, by simpa [Found.nothing] using h, .inl rfl⟩
  | t :: ts, h =>
    rw [items]
    split
    next hstop =>
      rw [Bool.or_eq_true, decide_eq_true_iff, decide_eq_true_iff] at hstop
      exact ⟨[], t :: ts, rfl, rfl, by simpa [Found.nothing] using h, hstop⟩
    next hstop =>
      rw [Bool.or_eq_true, decide_eq_true_iff, decide_eq_true_iff] at hstop
      refine (hitem us t ts ns notes h hstop).bind ?_
      rintro first ⟨vs, rest, hts, hused, hfirst⟩
      subst hts
      have ih := items_keep hitem (ns ++ first.nodes) (us ++ t :: vs) rest first.notes hfirst
      have hlast : (front ++ (us ++ t :: vs)).getLast? = vs.getLast?.or (some t) := by
        rw [List.getLast?_append, List.getLast?_append, List.getLast?_cons]
        cases vs.getLast? <;> rfl
      rw [hused, Nat.add_sub_cancel, items_append, ← hlast]
      have hloop : Ends E
          (fun g => ∃ ws rest', t :: (vs ++ rest) = ws ++ rest' ∧ g.used + 1 = ws.length ∧
            P (us ++ ws) rest' (ns ++ (first.nodes ++ g.nodes)) g.notes ∧ Stops close rest')
          ((items source inner close (front ++ (us ++ t :: vs)).getLast? 0 rest first.notes).map
            (Found.passing vs.length)) := by
        refine ih.map ?_
        rintro g ⟨ws, rest', rfl, hwused, hkept, hstop'⟩
        refine ⟨t :: vs ++ ws, rest', by simp, ?_, ?_, hstop'⟩
        · simp only [Found.passing, hwused, List.length_append, List.length_cons]
          omega
        · simpa [Found.passing] using hkept
      exact hloop.bind fun _ hg => hg
termination_by tokens.length
decreasing_by
  simp only [hts, List.length_cons, List.length_append]
  omega

/-- Items go on up to the closing token. The invariant is that those read so far are a row, and
that it leads to a place in `stands`. -/
theorem items_ends (hall : Layout source.text all) (hinner : inner.SoundAt E all inside stands)
    (close : Option Kind)
    (hclosing : ∀ {front t rest bracket}, all = front ++ t :: rest → t.kind = .closing bracket →
      ¬ Stops close (t :: rest) → stands front → stands (front ++ [t]))
    (front tokens : List Token) (notes : Notes) (h : all = front ++ tokens) (hat : stands front) :
    Ends E
      (Found.Covers (fun us rest ns => ((∃ roles,
        IsRow source.text all inside close roles us rest ns) ∧ Stops close rest) ∧
        stands (front ++ us)) tokens)
      (items source inner close front.getLast? 0 tokens notes) := by
  rw [← List.append_nil front]
  refine (items_keep (P := fun us rest ns _ => all = front ++ us ++ rest ∧
    stands (front ++ us) ∧ ∃ roles, IsRow source.text all inside close roles us rest ns) ?_ [] []
    tokens notes ⟨by simpa using h, by simpa using hat, [], .nil⟩).mono ?_
  · rintro us t ts ns notes ⟨hsplit, hat, roles, hrow⟩ hstop
    refine (item_takes hall hinner notes hsplit hat fun hk => hstop (.inl hk)).mono ?_
    rintro f ⟨vs, rest, rfl, hused, role, hitem⟩
    have hnext : stands (front ++ us ++ t :: vs) :=
      hinner.item (by simp [hsplit]) hitem hat fun _ _ hvs hk => by
        cases hvs
        exact hclosing hsplit hk hstop hat
    exact ⟨vs, rest, rfl, hused, by simp [hsplit], by simpa using hnext, roles ++ [role],
      hrow.snoc hstop hitem⟩
  · rintro f ⟨us, rest, htokens, hused, ⟨_, hat, hrow⟩, hstop⟩
    exact ⟨us, rest, htokens, hused, ⟨hrow, hstop⟩, by simpa using hat⟩

theorem Inner.Sound.items_ends (hall : Layout source.text all) (hinner : inner.Sound E all n inside)
    (close : Option Kind) (front tokens : List Token) (notes : Notes) (h : all = front ++ tokens)
    (hat : n ≤ front.length + 1) :
    Ends E
      (Found.Covers (fun us rest ns => (∃ roles,
        IsRow source.text all inside close roles us rest ns) ∧ Stops close rest) tokens)
      (items source inner close front.getLast? 0 tokens notes) :=
  (Parse.items_ends hall hinner.soundAt close
    (fun _ _ _ hat => by simp only [List.length_append]; omega) front tokens notes h hat).mono
    fun _ ⟨us, rest, htokens, hused, hrow, _⟩ => ⟨us, rest, htokens, hused, hrow⟩

/-- By induction on the room: a sequence reads what its brackets hold with less room. -/
theorem sequence_sound (hall : Layout source.text all) (room : Nat) :
    (sequence source room).Sound (TooDeep source.file) all 0 (Reads source.text all room) := by
  induction room with
  | zero => exact fun close front tokens notes h _ => ⟨_, _, rfl⟩
  | succ room ih =>
    exact fun close front tokens notes h _ =>
      ih.items_ends hall close front tokens notes h (Nat.zero_le _)

/-- Every level takes a bracket, so with more room than there are tokens left nothing fails. -/
theorem sequence_returns (hall : Layout source.text all) (room : Nat) :
    (sequence source room).Sound (fun _ => False) all (all.length + 1 - room)
      (Reads source.text all room) := by
  induction room with
  | zero =>
    intro close front tokens notes h hfront
    have hlength : all.length = front.length + tokens.length := by rw [h, List.length_append]
    omega
  | succ room ih =>
    exact fun close front tokens notes h hfront =>
      ih.items_ends hall close front tokens notes h (by omega)

end Readers

/-- A text is read as one sequence, if its literals do not nest too deep. -/
theorem parseTokens_eq_ok {source : Source} {scan : Scan} {block : Block}
    {warnings : List Warning} :
    parseTokens source scan = .ok (block, warnings) ↔ scan.tooDeep = none ∧
      ∃ f, sequence source Literal.maxDepth none none scan.tokens .empty = .ok f ∧
        block = Block.cover 0 (width source.text) f.nodes ∧ warnings = f.notes.warnings := by
  unfold parseTokens
  cases scan.tooDeep with
  | some p => exact iff_of_false nofun fun h => by cases h.1
  | none =>
    cases sequence source Literal.maxDepth none none scan.tokens .empty with
    | error fault =>
      refine iff_of_false nofun ?_
      rintro ⟨-, f, hf, -⟩
      cases hf
    | ok f =>
      constructor
      · rintro ⟨⟩
        exact ⟨rfl, f, rfl, rfl, rfl⟩
      · rintro ⟨-, _, ⟨⟩, rfl, rfl⟩
        rfl

/-- A text that does not nest too deep is read to its end. -/
theorem parse_reads (file text : Text) (markup : Bool) :
    Ends (TooDeep file)
      (fun r => ∃ us rest ns, (Token.scan markup text).tokens = us ++ rest ∧ headKind rest = .eof ∧
        Reads text (Token.scan markup text).tokens Literal.maxDepth none us rest ns ∧
        r.1 = ⟨⟨0, width text⟩, Node.cover (width text) 0 ns⟩)
      (parse file text markup) := by
  have hall := layout_scan markup text
  unfold parse parseTokens
  split
  next p _ => exact ⟨p.line, p.column, rfl⟩
  next =>
    have hseq := @sequence_sound ⟨file, text, true⟩ _ hall Literal.maxDepth none [] _ .empty rfl
      (Nat.le_refl 0)
    refine hseq.bind ?_
    rintro found ⟨us, rest, htokens, _, hreads, hstop⟩
    exact ⟨us, rest, found.nodes, htokens, hstop.resolve_right nofun, hreads,
      cover_eq (Nat.zero_le _) _⟩

/-- The constructs of a text are those that the grammar derives from its tokens. -/
theorem parse_ends (file text : Text) (markup : Bool) :
    Ends (TooDeep file)
      (fun r => ∃ us rest ns, (Token.scan markup text).tokens = us ++ rest ∧ headKind rest = .eof ∧
        IsSequence text (Token.scan markup text).tokens us ns ∧
        r.1 = ⟨⟨0, width text⟩, Node.cover (width text) 0 ns⟩)
      (parse file text markup) :=
  (parse_reads file text markup).mono fun _ ⟨us, rest, ns, htokens, hend, hreads, hblock⟩ =>
    ⟨us, rest, ns, htokens, hend, grammatical_reads text _ _ hreads, hblock⟩

end Desugar.Node.Parse
