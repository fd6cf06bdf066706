import Desugar.Proofs.Coverage

/-! Where the head of a chain of pipes begins. The head is the operand at the place where the
row of items before it ends, and an operand goes on as long as it can. So the head is a whole
postfix expression unless what stands before it was no operand to the reader: a dot that it
passed, a keyword, or the last stage of another chain. Words of statements are read as names. -/
namespace Desugar

open Text Token Node.Parse

namespace Phrase

/-! ### First and last tokens -/

section Edges

variable {text : Text} {all us rest : List Token} {inside : Inside} {ns : List Node}

theorem getLast?_append_cases {us vs : List Token} {t : Token} (h : (us ++ vs).getLast? = some t) :
    vs.getLast? = some t ∨ vs = [] ∧ us.getLast? = some t := by
  rw [List.getLast?_append, Option.or_eq_some_iff] at h
  exact h.imp_right fun h => ⟨List.getLast?_eq_none_iff.mp h.1, h.2⟩

/-- A group that something follows has its closing bracket. -/
theorem IsGroup.last {bracket : Bracket} (h : IsGroup inside bracket us rest ns)
    (hrest : headKind rest ≠ .eof) :
    ∃ close, us.getLast? = some close ∧ close.kind = .closing bracket := by
  cases h with
  | closed _ _ hc => exact ⟨_, List.getLast?_concat, hc⟩
  | unclosed _ _ hend => exact absurd hend hrest

theorem IsGroup.last_ne_dot {bracket : Bracket} (h : IsGroup inside bracket us rest ns)
    (hrest : headKind rest ≠ .eof) {t : Token} (ht : us.getLast? = some t) : t.kind ≠ .dot := by
  obtain ⟨close, hlast, hk⟩ := h.last hrest
  obtain rfl : close = t := Option.some.inj (hlast.symm.trans ht)
  rw [hk]
  nofun

theorem IsTrailers.not_continues (h : IsTrailers all inside us rest ns) : ¬ Continues rest := by
  induction h with
  | nil hnext => exact hnext
  | member _ _ _ _ ih | template _ _ ih | group _ _ _ ih => exact ih

theorem IsTrailers.last_ne_dot (h : IsTrailers all inside us rest ns)
    (hrest : headKind rest ≠ .eof) {t : Token} (ht : us.getLast? = some t) : t.kind ≠ .dot := by
  induction h with
  | nil => cases ht
  | @member dot name us _ _ _ hn _ _ ih =>
    rcases @getLast?_append_cases [dot, name] us t ht with hlater | ⟨_, hname⟩
    · exact ih hrest hlater
    · obtain rfl : name = t := Option.some.inj hname
      intro hk
      rw [hk] at hn
      cases hn
  | @template u us _ _ hk _ ih =>
    rcases @getLast?_append_cases [u] us t ht with hlater | ⟨_, htemplate⟩
    · exact ih hrest hlater
    · obtain rfl : u = t := Option.some.inj htemplate
      rw [hk]
      nofun
  | group _ hg _ ih =>
    rcases getLast?_append_cases ht with hlater | ⟨rfl, hgroup⟩
    · exact ih hrest hlater
    · exact hg.last_ne_dot hrest hgroup

theorem IsPrimary.last_ne_dot (h : IsPrimary inside us rest ns) (hrest : headKind rest ≠ .eof)
    {t : Token} (ht : us.getLast? = some t) : t.kind ≠ .dot := by
  cases h with
  | @atom u _ hk =>
    obtain rfl : u = t := Option.some.inj ht
    intro hd
    rw [hd] at hk
    cases hk
  | group _ hg => exact hg.last_ne_dot hrest ht

/-- An operand is as long as it can be. -/
theorem IsOperand.not_continues (h : IsOperand all inside us rest ns) : ¬ Continues rest := by
  obtain ⟨_, ht⟩ := h
  exact ht.not_continues

theorem IsOperand.last_ne_dot (h : IsOperand all inside us rest ns)
    (hrest : headKind rest ≠ .eof) {t : Token} (ht : us.getLast? = some t) : t.kind ≠ .dot := by
  obtain ⟨hp, htrailers⟩ := h
  rcases getLast?_append_cases ht with hlater | ⟨rfl, hprimary⟩
  · exact htrailers.last_ne_dot hrest hlater
  · exact hp.last_ne_dot hrest hprimary

/-- A token that an operand begins with. -/
def Begins (t : Token) : Prop :=
  t.kind.isAtom = true ∨ t.kind = .opening .paren ∨ t.kind = .opening .square

theorem Begins.ne_eof {t : Token} (h : Begins t) : t.kind ≠ .eof := by
  rintro hk
  rw [Begins, hk] at h
  rcases h with h | h | h <;> cases h

theorem IsGroup.begins {bracket : Bracket} (h : IsGroup inside bracket us rest ns) :
    ∃ opener tail, us = opener :: tail ∧ opener.kind = .opening bracket := by
  cases h with
  | closed ho _ _ => exact ⟨_, _, rfl, ho⟩
  | unclosed ho _ _ => exact ⟨_, _, rfl, ho⟩

theorem IsOperand.begins (h : IsOperand all inside us rest ns) :
    ∃ first tail, us = first :: tail ∧ Begins first := by
  obtain ⟨hp, _⟩ := h
  cases hp with
  | atom hk => exact ⟨_, _, rfl, .inl hk⟩
  | @group bracket _ _ _ hb hg =>
    obtain ⟨opener, tail, rfl, hk⟩ := hg.begins
    refine ⟨opener, _, rfl, .inr ?_⟩
    cases bracket with
    | paren => exact .inl hk
    | square => exact .inr hk
    | brace => exact absurd rfl hb

theorem IsTrailers.continues {t : Token} {ts : List Token}
    (h : IsTrailers all inside (t :: ts) rest ns) : Continues (t :: ts ++ rest) := by
  generalize hus : t :: ts = us at h
  cases h with
  | nil => cases hus
  | member hd hn _ _ => exact .inr (.inr (.inr ⟨hd, hn⟩))
  | template hk _ => exact .inr (.inr (.inl hk))
  | @group bracket _ _ _ _ _ hb hg _ =>
    obtain ⟨opener, tail, rfl, hk⟩ := hg.begins
    cases bracket with
    | paren => exact .inl hk
    | square => exact .inr (.inl hk)
    | brace => exact absurd rfl hb

/-- Behind a name at its beginning an operand goes on or is at its end. -/
theorem IsOperand.after_atom {first : Token} {tail : List Token}
    (h : IsOperand all inside (first :: tail) rest ns) (hk : first.kind.isAtom = true) :
    tail = [] ∨ Continues (tail ++ rest) := by
  generalize hus : first :: tail = us at h
  obtain ⟨hp, ht⟩ := h
  cases hp with
  | @atom t _ _ =>
    obtain ⟨rfl, rfl⟩ := List.cons.inj hus
    cases tail with
    | nil => exact .inl rfl
    | cons u us => exact .inr ht.continues
  | group _ hg =>
    obtain ⟨opener, inner, rfl, ho⟩ := hg.begins
    obtain ⟨rfl, _⟩ := List.cons.inj hus
    rw [ho] at hk
    cases hk

theorem IsPath.ends (h : IsPath us rest) : ∃ t, us.getLast? = some t ∧ t.kind.isWord = true := by
  induction h with
  | last hn _ => exact ⟨_, rfl, hn⟩
  | @more name dot us _ _ _ _ ih =>
    obtain ⟨t, hlast, hk⟩ := ih
    exact ⟨t, by rw [List.getLast?_cons, List.getLast?_cons, hlast]; rfl, hk⟩

/-- How a stage ends: with its closing bracket, or with a name that no call follows. -/
def Finishes (t : Token) (rest : List Token) : Prop :=
  t.kind = .closing .paren ∨ t.kind.isWord = true ∧ headKind rest ≠ .opening .paren

theorem IsStage.last {s : Stage} (h : IsStage text inside us rest s) :
    ∃ t, us.getLast? = some t ∧ Finishes t rest := by
  cases h with
  | bare hp _ _ _ _ hnext =>
    obtain ⟨t, hlast, hk⟩ := hp.ends
    exact ⟨t, hlast, .inr ⟨hk, hnext⟩⟩
  | call _ _ _ _ _ _ _ hc | group _ _ hc => exact ⟨_, List.getLast?_concat, .inl hc⟩

theorem IsChain.last {stages : List Stage} (h : IsChain text inside us rest stages) {t : Token}
    (ht : us.getLast? = some t) : Finishes t rest := by
  induction h with
  | nil => cases ht
  | @cons pipe us ts rest s ss _ hs _ ih =>
    rcases getLast?_append_cases ht with hlater | ⟨rfl, hstage⟩
    · exact ih hlater
    · obtain ⟨u, hlast, hfinish⟩ := hs.last
      rw [List.getLast?_cons, hlast] at hstage
      obtain rfl : u = t := Option.some.inj hstage
      exact hfinish

theorem IsChain.begins {stages : List Stage} {stage : Stage}
    (h : IsChain text inside us rest stages) (hs : stages.getLast? = some stage) :
    ∃ pipe tail, us = pipe :: tail ∧ pipe.kind = .pipe := by
  cases h with
  | nil => cases hs
  | cons hp _ _ => exact ⟨_, _, rfl, hp⟩

end Edges

/-! ### Before a head -/

/-- A sequence starts here: at the beginning of the text or behind an opening bracket. -/
def Opened (outer : List Token) : Prop :=
  ∀ t, outer.getLast? = some t → ∃ bracket, t.kind = .opening bracket

theorem opened_concat (front : List Token) {opener : Token} {bracket : Bracket}
    (hk : opener.kind = .opening bracket) : Opened (front ++ [opener]) := by
  intro t ht
  rw [List.getLast?_concat] at ht
  exact ⟨bracket, Option.some.inj ht ▸ hk⟩

/-- The token before belongs to the expression that goes on with `first`: a dot, or a word right
at its bracket. -/
def Attached (p first : Token) : Prop :=
  p.kind = .dot ∨ p.kind.isWord = true ∧ p.stop = first.start ∧
    (first.kind = .opening .paren ∨ first.kind = .opening .square)

/-- The readers part what is attached: `p` is the last token before the operand at `first`, and
`roles` are the items before that operand in its sequence. -/
inductive Parted (roles : List Role) (p first : Token) : Prop where
  /-- A dot was passed because no name follows it or no operand stands before it. -/
  | dot :
      p.kind = .dot → roles.getLast? = some .passed →
      (first.kind.isWord = true → roles.dropLast.getLast? ≠ some .operand) → Parted roles p first
  /-- A keyword is no operand that a bracket could belong to. -/
  | keyword {word : Keyword} :
      p.kind = .keyword word → roles.getLast? = some .passed ∨ roles.getLast? = some .binding →
      p.stop = first.start → first.kind = .opening .paren ∨ first.kind = .opening .square →
      Parted roles p first
  /-- A stage is a path, which may be called but has no index. -/
  | stage :
      p.kind.isWord = true → roles.getLast? = some .chain → p.stop = first.start →
      first.kind = .opening .square → Parted roles p first

theorem Parted.attached {roles : List Role} {p first : Token} (h : Parted roles p first) :
    Attached p first := by
  cases h with
  | dot hk _ _ => exact .inl hk
  | keyword hk _ hstop hopen => exact .inr ⟨by rw [hk]; rfl, hstop, hopen⟩
  | stage hk _ hstop hopen => exact .inr ⟨hk, hstop, .inr hopen⟩

theorem not_attached_of_bracket {p first : Token} {bracket : Bracket}
    (hk : p.kind = .opening bracket ∨ p.kind = .closing bracket) : ¬ Attached p first := by
  rcases hk with hk | hk <;> rintro (h | ⟨h, _⟩) <;> rw [hk] at h <;> cases h

section Rows

variable {text : Text} {all : List Token} {inside : Inside} {close : Option Kind}

/-- The item at the end of a row. -/
theorem IsRow.last {roles : List Role} {role : Role} {us rest : List Token} {ns : List Node}
    (h : IsRow text all inside close roles us rest ns) (hrole : roles.getLast? = some role) :
    ∃ vs ms, IsItem text all inside role vs rest ms := by
  cases h with
  | nil => cases hrole
  | snoc _ _ hitem =>
    rw [List.getLast?_concat, Option.some.injEq] at hrole
    exact ⟨_, _, hrole ▸ hitem⟩

/-- Every item has a token. -/
theorem IsItem.last {role : Role} {us rest : List Token} {ns : List Node}
    (h : IsItem text all inside role us rest ns) : ∃ t, us.getLast? = some t := by
  cases h with
  | passed | binding => exact ⟨_, rfl⟩
  | struct | trait | impl => exact ⟨_, List.getLast?_concat⟩
  | block hg =>
    obtain ⟨opener, tail, rfl, _⟩ := hg.begins
    exact ⟨_, List.getLast?_cons⟩
  | operand ho =>
    obtain ⟨first, tail, rfl, _⟩ := ho.begins
    exact ⟨_, List.getLast?_cons⟩
  | chain _ _ ho _ _ =>
    obtain ⟨first, tail, rfl, _⟩ := ho.begins
    exact ⟨_, List.getLast?_cons⟩

theorem IsItem.not_continues {us rest : List Token} {ns : List Node}
    (h : IsItem text all inside .operand us rest ns) : ¬ Continues rest := by
  cases h with
  | operand ho => exact ho.not_continues

/-- An item that is attached to the operand behind it was parted from it. -/
theorem IsItem.parted {roles : List Role} {role : Role} {us vs rest : List Token}
    {ns ms : List Node} {first p : Token}
    (hrow : IsRow text all inside close roles us (vs ++ first :: rest) ns)
    (h : IsItem text all inside role vs (first :: rest) ms) (hfirst : Begins first)
    (hp : vs.getLast? = some p) (hattached : Attached p first) :
    Parted (roles ++ [role]) p first := by
  have hne : headKind (first :: rest) ≠ .eof := hfirst.ne_eof
  have hlast : (roles ++ [role]).getLast? = some role := List.getLast?_concat
  cases h with
  | @passed t _ hk _ =>
    obtain rfl : t = p := Option.some.inj hp
    rcases hattached with hd | ⟨hw, hstop, hopen⟩
    · refine .dot hd hlast fun hword hoperand => ?_
      -- an operand would have gone on with the dot and the name behind it
      rw [List.dropLast_concat] at hoperand
      obtain ⟨ws, ks, hitem⟩ := hrow.last hoperand
      exact hitem.not_continues (continues_cons.mpr (.inr (.inr (.inr ⟨hd, hword⟩))))
    · cases hkind : t.kind with
      | keyword word => exact .keyword hkind (.inl hlast) hstop hopen
      | ident => rw [hkind] at hk; cases hk
      | _ => rw [hkind] at hw; cases hw
  | @binding t _ hk _ =>
    obtain rfl : t = p := Option.some.inj hp
    rcases hattached with hd | ⟨_, hstop, hopen⟩
    · rw [hk] at hd
      cases hd
    · exact .keyword hk (.inr hlast) hstop hopen
  | block hg =>
    obtain ⟨c, hc, hk⟩ := hg.last hne
    obtain rfl : c = p := Option.some.inj (hc.symm.trans hp)
    exact absurd hattached (not_attached_of_bracket (.inr hk))
  | struct _ _ _ _ hk | trait _ _ _ _ hk | impl _ _ _ _ _ _ hk =>
    rw [List.getLast?_concat] at hp
    obtain rfl := Option.some.inj hp
    exact absurd hattached (not_attached_of_bracket (.inr hk))
  | operand ho =>
    rcases hattached with hd | ⟨_, _, hopen⟩
    · exact absurd hd (ho.last_ne_dot hne hp)
    · exact absurd (hopen.imp_right .inl) ho.not_continues
  | @chain _ _ hs ss _ _ _ _ _ _ ho hchain hstage =>
    obtain ⟨pipe, tail, rfl, _⟩ := hchain.begins hstage
    have hss : (pipe :: tail).getLast? = some p :=
      (getLast?_append_cases hp).resolve_right fun h => List.cons_ne_nil _ _ h.1
    rcases hchain.last hss with hk | ⟨hk, hnext⟩
    · exact absurd hattached (not_attached_of_bracket (.inr hk))
    · rcases hattached with hd | ⟨_, hstop, hopen⟩
      · rw [hd] at hk
        cases hk
      · exact .stage hk hlast hstop (hopen.resolve_left hnext)

/-- What is attached to an operand behind a row was parted from it by the row's last item. -/
theorem IsRow.parted {roles : List Role} {outer us rest : List Token} {ns : List Node}
    {first p : Token} (h : IsRow text all inside close roles us (first :: rest) ns)
    (hopened : Opened outer) (hfirst : Begins first) (hp : (outer ++ us).getLast? = some p)
    (hattached : Attached p first) : Parted roles p first := by
  generalize hafter : first :: rest = after at h
  cases h with
  | nil =>
    rw [List.append_nil] at hp
    obtain ⟨bracket, hk⟩ := hopened p hp
    exact absurd hattached (not_attached_of_bracket (.inl hk))
  | @snoc roles role us vs _ ns ms hrow _ hitem =>
    subst hafter
    obtain ⟨u, hu⟩ := hitem.last
    have hlast : vs.getLast? = some p := by
      rwa [← List.append_assoc, List.getLast?_append, hu, Option.some_or, ← hu] at hp
    exact hitem.parted hrow hfirst hlast hattached

end Rows

/-! ### Heads at every depth -/

/-- The head of a chain at its place among the tokens of a text. A sequence starts behind
`outer`; behind the row of items `before` it holds the operand `hs`, at the offsets `inner`,
and then the pipes and stages of the chain. -/
structure HeadAt (text : Text) (all : List Token) (inner : Span) (stages : List Stage)
    (room : Nat) (roles : List Role) (outer before hs after : List Token) : Prop where
  tokens : all = outer ++ before ++ hs ++ after
  opened : Opened outer
  row : ∃ close ns, IsRow text all (Reads text all room) close roles before (hs ++ after) ns
  operand : ∃ ns, IsOperand all (Reads text all room) hs after ns
  chain : ∃ ss rest, after = ss ++ rest ∧ IsChain text (Reads text all room) ss rest stages
  pipe : headKind after = .pipe
  span : ∃ first last, hs.head? = some first ∧ hs.getLast? = some last ∧
    inner = ⟨first.start, last.stop⟩

/-- If the node is a chain, its head is at some place. -/
def Headed (text : Text) (all : List Token) (n : Node) : Prop :=
  ∀ span inner nodes stages, n = .pipe span inner nodes stages →
    ∃ room roles outer before hs after,
      HeadAt text all inner stages room roles outer before hs after

/-- All that stands between brackets has chains with their heads, at every depth. -/
def Inside.AllHeaded (text : Text) (all : List Token) (inside : Inside) : Prop :=
  ∀ {close us rest ns} (front : List Token), all = front ++ us ++ rest → Opened front →
    inside close us rest ns → ∀ m ∈ Node.subnodesOf ns, Headed text all m

theorem headed_of_mem_cover {text : Text} {all : List Token} {ns : List Node}
    (h : ∀ m ∈ Node.subnodesOf ns, Headed text all m) (stop start : Nat) :
    ∀ m ∈ Node.subnodesOf (Node.cover stop start ns), Headed text all m := by
  have hgap (start stop : Nat) :
      ∀ m ∈ Node.subnodesOf (Node.gap start stop), Headed text all m := by
    intro m hm
    rw [Node.eq_other_of_mem_gap hm]
    exact nofun
  induction ns generalizing start with
  | nil => exact hgap start stop
  | cons n ns ih =>
    rw [Node.subnodesOf, List.forall_mem_append] at h
    rw [Node.cover, Node.subnodesOf_append, Node.subnodesOf]
    exact List.forall_mem_append.mpr ⟨hgap _ _, List.forall_mem_append.mpr ⟨h.1, ih h.2 _⟩⟩

section Depths

variable {text : Text} {all us rest : List Token} {inside : Inside} {ns : List Node}
  (hin : inside.AllHeaded text all) (front : List Token)

include hin

theorem headed_of_group {bracket : Bracket} (hall : all = front ++ us ++ rest)
    (h : IsGroup inside bracket us rest ns) : ∀ m ∈ Node.subnodesOf ns, Headed text all m := by
  cases h with
  | @closed opener _ _ _ _ ho hb _ =>
    exact hin (front ++ [opener]) (by rw [hall]; simp) (opened_concat front ho) hb
  | @unclosed opener _ _ _ ho hb _ =>
    exact hin (front ++ [opener]) (by rw [hall]; simp) (opened_concat front ho) hb

theorem headed_of_trailers (hall : all = front ++ us ++ rest)
    (h : IsTrailers all inside us rest ns) : ∀ m ∈ Node.subnodesOf ns, Headed text all m := by
  induction h generalizing front with
  | nil => exact nofun
  | @member dot name _ _ _ _ _ _ _ ih => exact ih (front ++ [dot, name]) (by rw [hall]; simp)
  | @template t _ _ _ _ _ ih => exact ih (front ++ [t]) (by rw [hall]; simp)
  | @group _ us vs rest ns ms _ hg _ ih =>
    rw [Node.subnodesOf_append]
    exact List.forall_mem_append.mpr ⟨headed_of_group hin front (by rw [hall]; simp) hg,
      ih (front ++ us) (by rw [hall]; simp)⟩

theorem headed_of_operand (hall : all = front ++ us ++ rest)
    (h : IsOperand all inside us rest ns) : ∀ m ∈ Node.subnodesOf ns, Headed text all m := by
  cases h with
  | @mk us vs rest ns ms hp ht =>
    have htrailers := headed_of_trailers hin (front ++ us) (by rw [hall]; simp) ht
    rw [Node.subnodesOf_append]
    refine List.forall_mem_append.mpr ⟨?_, htrailers⟩
    cases hp with
    | atom => exact nofun
    | group _ hg => exact headed_of_group hin front (by rw [hall]; simp) hg

theorem headed_of_stage {s : Stage} (hall : all = front ++ us ++ rest)
    (h : IsStage text inside us rest s) :
    ∀ m ∈ s.hole?.elim [] fun b => Node.subnodesOf b.nodes, Headed text all m := by
  cases h with
  | bare => exact nofun
  | @call _ _ opener _ ps _ _ _ _ _ _ _ _ _ ho hb _ =>
    exact headed_of_mem_cover
      (hin (front ++ ps ++ [opener]) (by rw [hall]; simp) (opened_concat _ ho) hb) _ _
  | @group opener _ _ _ _ ho hb _ =>
    exact headed_of_mem_cover
      (hin (front ++ [opener]) (by rw [hall]; simp) (opened_concat front ho) hb) _ _

theorem headed_of_chain {stages : List Stage} (hall : all = front ++ us ++ rest)
    (h : IsChain text inside us rest stages) :
    ∀ m ∈ Node.subnodesOfStages stages, Headed text all m := by
  induction h generalizing front with
  | nil => exact nofun
  | @cons pipe us ts _ _ _ _ hs _ ih =>
    rw [Node.subnodesOfStages_cons]
    exact List.forall_mem_append.mpr
      ⟨headed_of_stage hin (front ++ [pipe]) (by rw [hall]; simp) hs,
        ih (front ++ pipe :: us) (by rw [hall]; simp)⟩

/-- An item whose own chain has its head has all of them. -/
theorem headed_of_item {role : Role} (hall : all = front ++ us ++ rest)
    (h : IsItem text all inside role us rest ns)
    (hself : role = .chain → ∀ n ∈ ns, Headed text all n) :
    ∀ m ∈ Node.subnodesOf ns, Headed text all m := by
  cases h with
  | passed => exact nofun
  | binding | struct => exact List.forall_mem_singleton.mpr nofun
  | block hg => exact headed_of_group hin front hall hg
  | @trait t opener _ hs _ _ _ _ _ _ ho hb _ =>
    rw [Node.subnodesOf, Node.subnodes, Node.subnodesOf, List.append_nil]
    exact List.forall_mem_cons.mpr ⟨nofun, headed_of_mem_cover
      (hin (front ++ t :: hs ++ [opener]) (by rw [hall]; simp) (opened_concat _ ho) hb) _ _⟩
  | @impl t word opener _ hs gs _ _ _ _ _ _ _ _ _ ho hb _ =>
    rw [Node.subnodesOf, Node.subnodes, Node.subnodesOf, List.append_nil]
    exact List.forall_mem_cons.mpr ⟨nofun, headed_of_mem_cover
      (hin (front ++ t :: hs ++ word :: gs ++ [opener]) (by rw [hall]; simp)
        (opened_concat _ ho) hb) _ _⟩
  | operand ho => exact headed_of_operand hin front hall ho
  | @chain _ _ hs _ _ _ _ _ _ _ ho hc _ =>
    rw [Node.subnodesOf, Node.subnodes, Node.subnodesOf, List.append_nil]
    refine List.forall_mem_cons.mpr ⟨hself rfl _ List.mem_cons_self, List.forall_mem_append.mpr
      ⟨headed_of_mem_cover (headed_of_operand hin front (by rw [hall]; simp) ho) _ _, ?_⟩⟩
    exact headed_of_chain hin (front ++ hs) (by rw [hall]; simp) hc

end Depths

/-- By induction on the room: rows have their heads if what their brackets hold has. -/
theorem headed_reads (text : Text) (all : List Token) (room : Nat) :
    (Reads text all room).AllHeaded text all := by
  induction room with
  | zero => exact fun _ _ _ h => False.elim h
  | succ room ih =>
    rintro close us rest ns front hall hopened ⟨roles, hrow⟩
    induction hrow with
    | nil => exact nofun
    | @snoc roles role us vs rest ns ms hrow _ hitem ihrow =>
      rw [Node.subnodesOf_append]
      refine List.forall_mem_append.mpr ⟨ihrow (by rw [hall]; simp), ?_⟩
      refine headed_of_item ih (front ++ us) (by rw [hall]; simp) hitem ?_
      rintro rfl
      cases hitem with
      | @chain first last hs ss _ _ stages stage hf hl ho hc hs' =>
        refine List.forall_mem_singleton.mpr ?_
        rintro _ _ _ _ ⟨⟩
        obtain ⟨pipe, tail, rfl, hk⟩ := hc.begins hs'
        exact ⟨room, roles, front, us, hs, pipe :: tail ++ rest, by rw [hall]; simp, hopened,
          ⟨close, ns, by rwa [List.append_assoc] at hrow⟩, ⟨_, ho⟩, ⟨_, rest, rfl, hc⟩, hk,
          first, last, hf, hl, rfl⟩

/-! ### Words of statements -/

/-- Words that begin no expression but are names to the scanner. -/
def statementWords : List Text :=
  ["return".toList, "throw".toList, "case".toList, "default".toList, "in".toList, "of".toList]

theorem kind_of_wordStart {markup : Bool} {front rest : Text} {context : Context} {ts : List Token}
    (h : Lexed markup front context rest ts) {t : Token} (ht : t ∈ ts)
    (hstart : t.text.head?.any isWordStart = true) : t.kind = Lexeme.wordKind t.text := by
  induction h with
  | done =>
    rw [List.mem_singleton.mp ht] at hstart
    cases hstart
  | blank _ _ ih => exact ih ht
  | @token _ _ c cs lexeme u _ _ hread hu _ ih =>
    rcases List.mem_cons.mp ht with rfl | ht
    · have hc : isWordStart c = true := by rwa [hu] at hstart
      have hword : lexeme = Lexeme.word c cs := by rw [← hread, Lexeme.read, if_pos hc]
      rw [hu, hword]
      exact congrArg (fun more => Lexeme.wordKind (c :: more)) (take_length_takeWhile _ cs).symm
    · exact ih ht

theorem kind_of_statementWord {markup : Bool} {text : Text} {t : Token}
    (ht : t ∈ (scan markup text).tokens) (hword : t.text ∈ statementWords) : t.kind = .ident := by
  have hwords : statementWords.all (fun w => w.head?.any isWordStart &&
      Lexeme.wordKind w = .ident) = true := by decide
  have hw := List.all_eq_true.mp hwords t.text hword
  rw [Bool.and_eq_true, decide_eq_true_iff] at hw
  rw [kind_of_wordStart (lexed_scan markup text) ht hw.1, hw.2]

/-- The head of every chain in a text is the operand that the row of items before it leaves. It
is attached to the token before it exactly where the readers part an expression there: behind a
dot that they passed, at a bracket behind a keyword, or at an index behind the path of another
chain. It begins with the word of a statement only if the word is read as a name, with a pipe or
the rest of an operand right behind it. -/
theorem head_of_pipe {file text : Text} {markup : Bool} {block : Block} {warnings : List Warning}
    (h : Node.parse file text markup = .ok (block, warnings)) {span inner : Span}
    {nodes : List Node} {stages : List Stage}
    (hn : .pipe span inner nodes stages ∈ Node.subnodesOf block.nodes) :
    ∃ room roles outer before first tail after,
      HeadAt text (scan markup text).tokens inner stages room roles outer before (first :: tail)
        after ∧
      (∀ p, (outer ++ before).getLast? = some p → (Attached p first ↔ Parted roles p first)) ∧
      (first.text ∈ statementWords → first.kind = .ident ∧
        (headKind (tail ++ after) = .pipe ∨ Continues (tail ++ after))) := by
  have hreads := parse_reads file text markup
  rw [h] at hreads
  obtain ⟨us, rest, ns, htokens, _, hns, hblock⟩ := hreads
  obtain rfl : block = _ := hblock
  have hall := headed_of_mem_cover
    (headed_reads text _ Literal.maxDepth [] (by simpa using htokens) nofun hns) (width text) 0
  obtain ⟨room, roles, outer, before, hs, after, hat⟩ := hall _ hn span inner nodes stages rfl
  obtain ⟨ks, hoperand⟩ := hat.operand
  obtain ⟨first, tail, rfl, hbegins⟩ := hoperand.begins
  refine ⟨room, roles, outer, before, first, tail, after, hat, fun p hp => ?_, fun hword => ?_⟩
  · refine ⟨fun hattached => ?_, Parted.attached⟩
    obtain ⟨close, ms, hrow⟩ := hat.row
    exact hrow.parted hat.opened hbegins hp hattached
  · have hident : first.kind = .ident :=
      kind_of_statementWord (by rw [hat.tokens]; simp) hword
    refine ⟨hident, (hoperand.after_atom (by rw [hident]; rfl)).imp_left ?_⟩
    rintro rfl
    exact hat.pipe

/-- The offsets of the head, if the node is a chain. -/
def headSpan? : Node → Option Span
  | .pipe _ inner _ _ => some inner
  | _ => none

/-- The chain among the arguments has its head behind the word `from`, in the middle of a call. -/
theorem head_of_pipe_in_arguments :
    let text := "x |> g(from(y) |> f)".toList
    ∃ block warnings span nodes stages,
      Node.parse "a.bs".toList text false = .ok (block, warnings) ∧
      .pipe span ⟨11, 14⟩ nodes stages ∈ Node.subnodesOf block.nodes ∧
      ∃ room roles outer before first tail after,
        HeadAt text (scan false text).tokens ⟨11, 14⟩ stages room roles outer before
          (first :: tail) after ∧
        (∀ p, (outer ++ before).getLast? = some p → (Attached p first ↔ Parted roles p first)) ∧
        (first.text ∈ statementWords → first.kind = .ident ∧
          (headKind (tail ++ after) = .pipe ∨ Continues (tail ++ after))) := by
  intro text
  obtain ⟨⟨block, warnings⟩, h, hspans⟩ :=
    exists_ok_of_map (x := Node.parse "a.bs".toList text false)
      (f := fun r => (Node.subnodesOf r.1.nodes).filterMap headSpan?)
      (b := [⟨0, 1⟩, ⟨11, 14⟩]) (by decide +kernel)
  have hmem : ⟨11, 14⟩ ∈ (Node.subnodesOf block.nodes).filterMap headSpan? := by
    rw [hspans]
    exact List.mem_cons_of_mem _ List.mem_cons_self
  obtain ⟨n, hn, hspan⟩ := List.mem_filterMap.mp hmem
  cases n with
  | pipe span inner nodes stages =>
    obtain rfl : inner = ⟨11, 14⟩ := Option.some.inj hspan
    exact ⟨block, warnings, span, nodes, stages, h, hn, head_of_pipe h hn⟩
  | _ => cases hspan

end Phrase

end Desugar
