import Desugar.Proofs.Coverage

/-! Which `let` keywords are replaced. A run of tokens is shared out among the items that are
read from it, and each `let` in it falls to exactly one of them: it is passed behind a dot, it
lies in a struct or before the body of a trait or an implementation, or it is a node of its own.
Attempts that were given up leave no trace, since what they had read is read anew. -/
namespace Desugar

open Text Token Node.Parse
open Grammar (AfterDot)

/-! ### Bindings and where there are none -/

namespace Node

def binding? : Node → Option Span
  | .binding span => some span
  | _ => none

/-- The `let` keywords among the nodes at any depth, in order. -/
def bindingSpans (ns : List Node) : List Span := (subnodesOf ns).filterMap binding?

/-- Does the span lie where the node has no constructs: anywhere in a struct, or before the body
of a trait or an implementation? -/
def mutes (s : Span) : Node → Bool
  | .struct span _ _ => span.start ≤ s.start && s.stop ≤ span.stop
  | .trait span _ inner _ | .impl span _ _ inner _ =>
    span.start ≤ s.start && s.stop ≤ inner.start
  | .other _ | .binding _ | .pipe _ _ _ _ => false

end Node

namespace Token

/-- Is the token right before `t` a dot? -/
def afterDot (t : Token) : List Token → Bool
  | dot :: u :: ts => (dot.kind = .dot && u = t) || afterDot t (u :: ts)
  | _ => false

/-- Is the token a `let` that names no member and that none of the nodes mutes? -/
def declares (all : List Token) (ms : List Node) (t : Token) : Bool :=
  t.kind = .keyword .letWord && !t.afterDot all && ms.all fun m => !m.mutes t.span

theorem afterDot_iff {t : Token} {ts : List Token} : t.afterDot ts = true ↔ AfterDot ts t := by
  induction ts with
  | nil =>
    refine iff_of_false nofun ?_
    rintro ⟨front, dot, rest, h, _⟩
    cases front <;> cases h
  | cons d ts ih =>
    cases ts with
    | nil =>
      refine iff_of_false nofun ?_
      rintro ⟨front, dot, rest, h, _⟩
      rcases front with _ | ⟨_, _ | _⟩ <;> cases h
    | cons u ts =>
      rw [afterDot, Bool.or_eq_true, ih, Bool.and_eq_true, decide_eq_true_iff, decide_eq_true_iff]
      constructor
      · rintro (⟨hd, rfl⟩ | ⟨front, dot, rest, h, hd⟩)
        · exact ⟨[], d, ts, rfl, hd⟩
        · exact ⟨d :: front, dot, rest, by rw [h]; rfl, hd⟩
      · rintro ⟨front, dot, rest, h, hd⟩
        cases front with
        | nil =>
          cases h
          exact .inl ⟨hd, rfl⟩
        | cons _ front =>
          obtain ⟨-, h⟩ := List.cons.inj h
          exact .inr ⟨front, dot, rest, h, hd⟩

theorem declares_iff {all : List Token} {ms : List Node} {t : Token} :
    t.declares all ms = true ↔
      t.kind = .keyword .letWord ∧ ¬ AfterDot all t ∧ ∀ m ∈ ms, m.mutes t.span = false := by
  rw [declares, Bool.and_eq_true, Bool.and_eq_true, decide_eq_true_iff, and_assoc, ← afterDot_iff]
  simp

end Token

/-! ### Runs of tokens and the nodes read from them -/

/-- The nodes `ms`, at every depth of what is read from the tokens `us`, mute no `let` but those
of `us`, and of these they have the ones that declare something. -/
structure Declared (all us : List Token) (ms : List Node) : Prop where
  confined : ∀ m ∈ ms, ∀ t ∈ all, t.kind = .keyword .letWord → m.mutes t.span = true → t ∈ us
  bindings : ms.filterMap Node.binding? = (us.filter (declares all ms)).map span

namespace Declared

variable {text : Text} {all front us vs rest : List Token} {ms ks : List Node}

/-- Nodes that mute the same `let` keywords of a run leave the same ones. -/
theorem filter_congr (h : ∀ t ∈ us, t.kind = .keyword .letWord →
      ((∀ m ∈ ms, m.mutes t.span = false) ↔ ∀ m ∈ ks, m.mutes t.span = false)) :
    us.filter (declares all ms) = us.filter (declares all ks) := by
  refine List.filter_congr fun t ht => ?_
  rw [Bool.eq_iff_iff, declares_iff, declares_iff]
  exact and_congr_right fun hk => and_congr_right fun _ => h t ht hk

/-- Tokens that are passed: a `let` among them names a member. -/
theorem passed (h : ∀ t ∈ us, t.kind = .keyword .letWord → AfterDot all t) :
    Declared all us [] where
  confined := nofun
  bindings := by
    have hnone : us.filter (declares all []) = [] := by
      refine List.filter_eq_nil_iff.mpr fun t ht hdeclares => ?_
      obtain ⟨hk, hdot, -⟩ := declares_iff.mp hdeclares
      exact hdot (h t ht hk)
    rw [hnone]
    rfl

theorem nil : Declared all [] [] := passed nofun

theorem token {t : Token} (h : t.kind ≠ .keyword .letWord) : Declared all [t] [] :=
  passed (List.forall_mem_singleton.mpr fun hk => absurd hk h)

theorem binding {t : Token} (hk : t.kind = .keyword .letWord) (hdot : ¬ AfterDot all t) :
    Declared all [t] [.binding t.span] where
  confined := List.forall_mem_singleton.mpr nofun
  bindings := by
    have hdeclares : declares all [.binding t.span] t = true :=
      declares_iff.mpr ⟨hk, hdot, List.forall_mem_singleton.mpr rfl⟩
    rw [List.filter_singleton, hdeclares]
    rfl

/-- In a layout, no `let` stands in two runs. -/
theorem disjoint (hall : Layout text (us ++ vs)) {t : Token} (hk : t.kind = .keyword .letWord)
    (hu : t ∈ us) (hv : t ∈ vs) : False := by
  have hlt := (hall.stands t (List.mem_append_left vs hu)).start_lt_stop (by rw [hk]; nofun)
  have hle := hall.stop_le_start hu hv
  omega

theorem append (hall : Layout text (us ++ vs)) (hin : us ++ vs ⊆ all) (hus : Declared all us ms)
    (hvs : Declared all vs ks) : Declared all (us ++ vs) (ms ++ ks) where
  confined := List.forall_mem_append.mpr
    ⟨fun m hm t ht hk hmutes => List.mem_append_left vs (hus.confined m hm t ht hk hmutes),
      fun m hm t ht hk hmutes => List.mem_append_right us (hvs.confined m hm t ht hk hmutes)⟩
  bindings := by
    -- what one side reads mutes nothing on the other
    have hleft : us.filter (declares all (ms ++ ks)) = us.filter (declares all ms) := by
      refine filter_congr fun t ht hk => ?_
      rw [List.forall_mem_append]
      refine and_iff_left fun m hm => Bool.eq_false_iff.mpr fun hmutes => ?_
      exact disjoint hall hk ht
        (hvs.confined m hm t (hin (List.mem_append_left vs ht)) hk hmutes)
    have hright : vs.filter (declares all (ms ++ ks)) = vs.filter (declares all ks) := by
      refine filter_congr fun t ht hk => ?_
      rw [List.forall_mem_append]
      refine and_iff_right fun m hm => Bool.eq_false_iff.mpr fun hmutes => ?_
      exact disjoint hall hk
        (hus.confined m hm t (hin (List.mem_append_right us ht)) hk hmutes) ht
    rw [List.filterMap_append, List.filter_append, List.map_append, hleft, hright, hus.bindings,
      hvs.bindings]

/-- A node that mutes nothing and is no binding. -/
theorem cons_silent {n : Node} (hn : n.binding? = none) (hmutes : ∀ s, n.mutes s = false)
    (h : Declared all us ms) : Declared all us (n :: ms) where
  confined := List.forall_mem_cons.mpr
    ⟨fun t _ _ ht => absurd ht (by rw [hmutes]; decide), h.confined⟩
  bindings := by
    have hsame : us.filter (declares all (n :: ms)) = us.filter (declares all ms) := by
      refine filter_congr fun t _ _ => ?_
      rw [List.forall_mem_cons]
      exact and_iff_right (hmutes t.span)
    rw [List.filterMap_cons_none hn, hsame, h.bindings]

/-- A node that mutes the tokens before those of its body. -/
theorem cons_muting {n : Node} {hidden : List Token} (hall : Layout text (hidden ++ us))
    (hin : hidden ++ us ⊆ all) (hn : n.binding? = none)
    (hmutes : ∀ t ∈ all, t.kind = .keyword .letWord → (n.mutes t.span = true ↔ t ∈ hidden))
    (h : Declared all us ms) : Declared all (hidden ++ us) (n :: ms) where
  confined := List.forall_mem_cons.mpr
    ⟨fun t ht hk hm => List.mem_append_left us ((hmutes t ht hk).mp hm),
      fun m hm t ht hk hmuted => List.mem_append_right hidden (h.confined m hm t ht hk hmuted)⟩
  bindings := by
    have hnone : hidden.filter (declares all (n :: ms)) = [] := by
      refine List.filter_eq_nil_iff.mpr fun t ht hdeclares => ?_
      obtain ⟨hk, -, hfree⟩ := declares_iff.mp hdeclares
      have hmuted := (hmutes t (hin (List.mem_append_left us ht)) hk).mpr ht
      rw [hfree n List.mem_cons_self] at hmuted
      cases hmuted
    have hsame : us.filter (declares all (n :: ms)) = us.filter (declares all ms) := by
      refine filter_congr fun t ht hk => ?_
      rw [List.forall_mem_cons]
      refine and_iff_right (Bool.eq_false_iff.mpr fun hm => ?_)
      exact disjoint hall hk ((hmutes t (hin (List.mem_append_right hidden ht)) hk).mp hm) ht
    rw [List.filterMap_cons_none hn, List.filter_append, hnone, hsame, h.bindings]
    rfl

/-- Copied spans do not matter. -/
theorem of_filter_eq
    (heq : ms.filter (fun m => !m.isOther) = ks.filter fun m => !m.isOther)
    (h : Declared all us ms) : Declared all us ks := by
  have hfind (js : List Node) : (js.filter fun m => !m.isOther).filterMap Node.binding? =
      js.filterMap Node.binding? := by
    rw [List.filterMap_filter]
    refine List.filterMap_congr fun m _ => ?_
    cases m <;> rfl
  have hmem {s : Span} {js is : List Node} (heq : js.filter (fun m => !m.isOther) =
      is.filter fun m => !m.isOther) {m : Node} (hm : m ∈ js) (hmutes : m.mutes s = true) :
      m ∈ is := by
    have hno : (!m.isOther) = true := by cases m <;> first | rfl | cases hmutes
    have hfilter : m ∈ js.filter fun m => !m.isOther := List.mem_filter.mpr ⟨hm, hno⟩
    rw [heq] at hfilter
    exact (List.mem_filter.mp hfilter).1
  refine ⟨fun m hm t ht hk hmutes => h.confined m (hmem heq.symm hm hmutes) t ht hk hmutes, ?_⟩
  have hsame : us.filter (declares all ks) = us.filter (declares all ms) := by
    refine filter_congr fun t _ _ => ⟨fun hfree m hm => ?_, fun hfree m hm => ?_⟩
    · exact Bool.eq_false_iff.mpr fun hmutes => by
        rw [hfree m (hmem heq hm hmutes)] at hmutes
        cases hmutes
    · exact Bool.eq_false_iff.mpr fun hmutes => by
        rw [hfree m (hmem heq.symm hm hmutes)] at hmutes
        cases hmutes
  rw [hsame, ← hfind ks, ← heq, hfind ms, h.bindings]

theorem filter_subnodesOf_cover (ns : List Node) (start stop : Nat) :
    (Node.subnodesOf (Node.cover stop start ns)).filter (fun m => !m.isOther) =
      (Node.subnodesOf ns).filter fun m => !m.isOther := by
  have hgap (start stop : Nat) :
      (Node.subnodesOf (Node.gap start stop)).filter (fun m => !m.isOther) = [] := by
    refine List.filter_eq_nil_iff.mpr fun m hm => ?_
    rw [Node.eq_other_of_mem_gap hm]
    exact Bool.false_ne_true
  induction ns generalizing start with
  | nil => exact hgap start stop
  | cons n ns ih =>
    rw [Node.cover, Node.subnodesOf_append, Node.subnodesOf, Node.subnodesOf, List.filter_append,
      List.filter_append, List.filter_append, hgap, ih]
    rfl

theorem cover {ns : List Node} (h : Declared all us (Node.subnodesOf ns)) (start stop : Nat) :
    Declared all us (Node.subnodesOf (Node.cover stop start ns)) :=
  h.of_filter_eq (filter_subnodesOf_cover ns start stop).symm

end Declared

/-! ### Items -/

namespace Phrase

/-- All that stands between brackets has the `let` keywords that declare something. -/
def Inside.AllDeclared (all : List Token) (inside : Inside) : Prop :=
  ∀ {close us rest ns} (front : List Token), all = front ++ us ++ rest →
    inside close us rest ns → Declared all us (Node.subnodesOf ns)

section Runs

variable {text : Text} {all us rest : List Token} {inside : Inside} {ns : List Node}
  (hall : Layout text all) (hin : inside.AllDeclared all) (front : List Token)

include hall

/-- Two runs one behind the other. -/
theorem declared_append {vs : List Token} {ms ks : List Node}
    (h : all = front ++ (us ++ vs) ++ rest) (hus : Declared all us ms)
    (hvs : Declared all vs ks) : Declared all (us ++ vs) (ms ++ ks) := by
  have hinfix : us ++ vs <:+: all := ⟨front, rest, h.symm⟩
  exact hus.append (hall.sublist hinfix.sublist) hinfix.subset hvs

/-- A run between two tokens that are no keywords. -/
theorem declared_between {opener close : Token} {ms : List Node}
    (h : all = front ++ (opener :: us ++ [close]) ++ rest)
    (ho : opener.kind ≠ .keyword .letWord) (hc : close.kind ≠ .keyword .letWord)
    (hus : Declared all us ms) : Declared all (opener :: us ++ [close]) ms := by
  have hleft : all = front ++ ([opener] ++ us) ++ (close :: rest) := by rw [h]; simp
  have hopened := declared_append hall front hleft (.token ho) hus
  have hwhole := declared_append hall front h hopened (.token hc)
  rwa [List.append_nil] at hwhole

/-- The tokens of a run are those that lie in its span. -/
theorem mem_run_iff {first last t : Token} (h : all = front ++ us ++ rest)
    (hf : us.head? = some first) (hl : us.getLast? = some last) (ht : t ∈ all)
    (hk : t.kind ≠ .eof) : first.start ≤ t.start ∧ t.stop ≤ last.stop ↔ t ∈ us := by
  have hlt := (hall.stands t ht).start_lt_stop hk
  subst h
  constructor
  · rintro ⟨hstart, hstop⟩
    rcases List.mem_append.mp ht with hmem | hmem
    · rcases List.mem_append.mp hmem with hmem | hmem
      · have hle := hall.append_left.stop_le_start hmem (List.mem_of_head? hf)
        omega
      · exact hmem
    · have hle := hall.stop_le_start
        (List.mem_append_right front (List.mem_of_getLast? hl)) hmem
      omega
  · intro hmem
    have hspan := (Within.whole hall.append_left.append_right).span hf hl
    exact ⟨hspan.start_le t hmem, hspan.le_stop t hmem⟩

/-- A construct without blocks. -/
theorem declared_of_opaque {first last : Token} {n : Node} (h : all = front ++ us ++ rest)
    (hf : us.head? = some first) (hl : us.getLast? = some last) (hn : n.binding? = none)
    (hmutes : ∀ s, n.mutes s = (decide (first.start ≤ s.start) && decide (s.stop ≤ last.stop))) :
    Declared all us [n] := by
  have hinfix : us ++ [] <:+: all := ⟨front, rest, by rw [List.append_nil, h]⟩
  have hwhole := Declared.cons_muting (hall.sublist hinfix.sublist) hinfix.subset hn
    (fun t ht hk => ?_) .nil
  · rwa [List.append_nil] at hwhole
  · rw [hmutes, Bool.and_eq_true, decide_eq_true_iff, decide_eq_true_iff]
    exact mem_run_iff hall front h hf hl ht (by rw [hk]; nofun)

/-- A construct with a body, in which it mutes nothing. -/
theorem declared_of_braced {first opener close : Token} {hs bs : List Token} {n : Node}
    {ms : List Node} (h : all = front ++ (hs ++ opener :: bs ++ [close]) ++ rest)
    (hf : hs.head? = some first) (hc : close.kind ≠ .keyword .letWord) (hn : n.binding? = none)
    (hmutes : ∀ s, n.mutes s = (decide (first.start ≤ s.start) && decide (s.stop ≤ opener.stop)))
    (hbs : Declared all bs ms) :
    Declared all (hs ++ opener :: bs ++ [close]) (n :: ms) := by
  have hrun : all = front ++ (hs ++ [opener]) ++ (bs ++ close :: rest) := by rw [h]; simp
  have hright : all = (front ++ hs ++ [opener]) ++ (bs ++ [close]) ++ rest := by rw [h]; simp
  have hbody := declared_append hall _ hright hbs (.token hc)
  have hinfix : (hs ++ [opener]) ++ (bs ++ [close]) <:+: all :=
    ⟨front, rest, by rw [h]; simp⟩
  have hfirst : (hs ++ [opener]).head? = some first := by rw [List.head?_append, hf]; rfl
  have hwhole := Declared.cons_muting (hall.sublist hinfix.sublist) hinfix.subset hn
    (fun t ht hk => ?_) hbody
  · simpa using hwhole
  · rw [hmutes, Bool.and_eq_true, decide_eq_true_iff, decide_eq_true_iff]
    exact mem_run_iff hall front hrun hfirst List.getLast?_concat ht (by rw [hk]; nofun)

omit hall in
/-- In a path every name but the first stands behind a dot. -/
theorem IsPath.afterDot {after : List Token} (hp : IsPath us rest)
    (h : all = front ++ us ++ after) :
    ∀ t ∈ us, t.kind = .keyword .letWord → us.head? = some t ∨ AfterDot all t := by
  induction hp generalizing front with
  | last => exact List.forall_mem_singleton.mpr fun _ => .inl rfl
  | @more name dot us _ _ hd _ ih =>
    refine List.forall_mem_cons.mpr ⟨fun _ => .inl rfl, List.forall_mem_cons.mpr ⟨fun hk => ?_, ?_⟩⟩
    · rw [hd] at hk
      cases hk
    · intro t ht hk
      rcases ih (front ++ [name, dot]) (by rw [h]; simp) t ht hk with hhead | hdot
      · obtain ⟨us, rfl⟩ := List.head?_eq_some_iff.mp hhead
        exact .inr ⟨front ++ [name], dot, us ++ after, by rw [h]; simp, hd⟩
      · exact .inr hdot

omit hall in
/-- A path is passed, since its first name is no keyword. -/
theorem declared_of_path {after : List Token} {first : Token} (hp : IsPath us rest)
    (h : all = front ++ us ++ after) (hf : us.head? = some first) (hk : first.kind = .ident) :
    Declared all us [] := by
  refine .passed fun t ht hlet => (hp.afterDot front h t ht hlet).resolve_left fun hhead => ?_
  obtain rfl : first = t := Option.some.inj (hf.symm.trans hhead)
  rw [hk] at hlet
  cases hlet

include hin

theorem declared_of_group {bracket : Bracket} (h : all = front ++ us ++ rest)
    (hg : IsGroup inside bracket us rest ns) :
    Declared all us (Node.subnodesOf ns) := by
  cases hg with
  | @closed opener close us _ _ ho hb hc =>
    exact declared_between hall front h (by rw [ho]; nofun) (by rw [hc]; nofun)
      (hin (front ++ [opener]) (by rw [h]; simp) hb)
  | @unclosed opener us _ _ ho hb _ =>
    have hopener : Declared all [opener] [] := .token (by rw [ho]; nofun)
    exact declared_append hall front h hopener (hin (front ++ [opener]) (by rw [h]; simp) hb)

theorem declared_of_trailers (h : all = front ++ us ++ rest)
    (ht : IsTrailers all inside us rest ns) :
    Declared all us (Node.subnodesOf ns) := by
  induction ht generalizing front with
  | nil => exact .nil
  | @member dot name us _ ns hd _ hname _ ih =>
    have hpassed : Declared all [dot, name] [] := by
      refine .passed (List.forall_mem_cons.mpr ⟨fun hk => ?_, ?_⟩)
      · rw [hd] at hk
        cases hk
      · exact List.forall_mem_singleton.mpr fun _ => hname
    exact declared_append hall front h hpassed (ih (front ++ [dot, name]) (by rw [h]; simp))
  | @template t us _ ns hk _ ih =>
    have htoken : Declared all [t] [] := .token (by rw [hk]; nofun)
    exact declared_append hall front h htoken (ih (front ++ [t]) (by rw [h]; simp))
  | @group _ us vs _ ns ms _ hg _ ih =>
    rw [Node.subnodesOf_append]
    exact declared_append hall front h
      (declared_of_group hall hin front (by rw [h]; simp) hg)
      (ih (front ++ us) (by rw [h]; simp))

theorem declared_of_operand (h : all = front ++ us ++ rest)
    (ho : IsOperand all inside us rest ns) :
    Declared all us (Node.subnodesOf ns) := by
  obtain @⟨us, vs, _, ns, ms, hp, ht⟩ := ho
  have hprimary : Declared all us (Node.subnodesOf ns) := by
    cases hp with
    | @atom t _ hk => exact .token (by rintro hlet; rw [hlet] at hk; cases hk)
    | group _ hg => exact declared_of_group hall hin front (by rw [h]; simp) hg
  rw [Node.subnodesOf_append]
  exact declared_append hall front h hprimary
    (declared_of_trailers hall hin (front ++ us) (by rw [h]; simp) ht)

theorem declared_of_stage {s : Stage} (h : all = front ++ us ++ rest)
    (hs : IsStage text inside us rest s) :
    Declared all us (s.hole?.elim [] fun b => Node.subnodesOf b.nodes) := by
  cases hs with
  | bare hp hf hk _ _ _ => exact declared_of_path front hp h hf hk
  | @call first last opener close ps bs _ _ ns hp hf hk _ _ ho hb hc =>
    have hleft : all = front ++ ps ++ (opener :: bs ++ close :: rest) := by rw [h]; simp
    have hright : all = (front ++ ps) ++ (opener :: bs ++ [close]) ++ rest := by rw [h]; simp
    have hwhole : all = front ++ (ps ++ (opener :: bs ++ [close])) ++ rest := by rw [h]; simp
    have hbody := hin (front ++ ps ++ [opener]) (by rw [h]; simp) hb
    have hdeclared := declared_append hall front hwhole
      (declared_of_path front hp hleft hf hk)
      (declared_between hall _ hright (by rw [ho]; nofun) (by rw [hc]; nofun) hbody)
    rw [← List.append_assoc] at hdeclared
    exact hdeclared.cover _ _
  | @group opener close bs _ ns ho hb hc =>
    have hbody := hin (front ++ [opener]) (by rw [h]; simp) hb
    exact (declared_between hall front h (by rw [ho]; nofun) (by rw [hc]; nofun) hbody).cover _ _

theorem declared_of_chain {stages : List Stage} (h : all = front ++ us ++ rest)
    (hc : IsChain text inside us rest stages) :
    Declared all us (Node.subnodesOfStages stages) := by
  induction hc generalizing front with
  | nil => exact .nil
  | @cons pipe us ts rest s stages hp hs _ ih =>
    have hleft : all = front ++ ([pipe] ++ us) ++ (ts ++ rest) := by rw [h]; simp
    have hstage := declared_of_stage hall hin (front ++ [pipe]) (by rw [h]; simp) hs
    have hhead := declared_append hall front hleft (.token (by rw [hp]; nofun)) hstage
    rw [Node.subnodesOfStages_cons]
    exact declared_append hall front h hhead (ih (front ++ pipe :: us) (by rw [h]; simp))

theorem declared_of_item {role : Role} (h : all = front ++ us ++ rest)
    (hitem : IsItem text all inside role us rest ns) :
    Declared all us (Node.subnodesOf ns) := by
  cases hitem with
  | passed _ hdot => exact .passed (List.forall_mem_singleton.mpr hdot)
  | binding hk hdot => exact .binding hk hdot
  | block hg => exact declared_of_group hall hin front h hg
  | struct => exact declared_of_opaque hall front h rfl List.getLast?_concat rfl fun _ => rfl
  | @trait t opener close hs bs _ _ ns _ _ _ hb hc =>
    have hbody := hin (front ++ t :: hs ++ [opener]) (by rw [h]; simp) hb
    rw [Node.subnodesOf, Node.subnodes, Node.subnodesOf, List.append_nil]
    exact declared_of_braced hall front h rfl (by rw [hc]; nofun) rfl (fun _ => rfl)
      (hbody.cover _ _)
  | @impl t word opener close hs gs bs _ _ _ ns _ _ _ _ _ hb hc =>
    have hbody := hin (front ++ t :: hs ++ word :: gs ++ [opener]) (by rw [h]; simp) hb
    rw [Node.subnodesOf, Node.subnodes, Node.subnodesOf, List.append_nil]
    exact declared_of_braced hall front h rfl (by rw [hc]; nofun) rfl (fun _ => rfl)
      (hbody.cover _ _)
  | operand ho => exact declared_of_operand hall hin front h ho
  | @chain first last hs ss _ ns stages stage _ _ ho hc _ =>
    have hoperand := declared_of_operand hall hin front (by rw [h]; simp) ho
    have hchain := declared_of_chain hall hin (front ++ hs) (by rw [h]; simp) hc
    have hwhole := declared_append hall front h (hoperand.cover first.start last.stop) hchain
    rw [Node.subnodesOf, Node.subnodes, Node.subnodesOf, List.append_nil]
    exact hwhole.cons_silent rfl fun _ => rfl

end Runs

/-- By induction on the room: rows have what their items have. -/
theorem declared_reads {text : Text} {all : List Token} (hall : Layout text all) (room : Nat) :
    (Reads text all room).AllDeclared all := by
  induction room with
  | zero => exact fun _ _ h => False.elim h
  | succ room ih =>
    rintro close us rest ns front h ⟨roles, hrow⟩
    induction hrow with
    | nil => exact .nil
    | @snoc roles role us vs rest ns ms hrow _ hitem ihrow =>
      rw [Node.subnodesOf_append]
      exact declared_append hall front h (ihrow (by rw [h]; simp))
        (declared_of_item hall ih (front ++ us) (by rw [h]; simp) hitem)

end Phrase

/-- Behind the end of the text there is nothing. -/
theorem Token.Layout.kind_of_mem_end {text : Text} {ts : List Token} (h : Layout text ts)
    (hend : headKind ts = .eof) : ∀ t ∈ ts, t.kind = .eof := by
  cases ts with
  | nil => exact nofun
  | cons e ts =>
    refine List.forall_mem_cons.mpr ⟨hend, fun t ht => ?_⟩
    have hstart := (h.stands e List.mem_cons_self).start_of_eof hend
    have hle := (List.pairwise_cons.mp h.ordered).1 t ht
    have hbehind : width text ≤ t.start :=
      hstart ▸ Nat.le_trans (Nat.le_add_right e.start (width e.text)) hle
    by_contra hk
    exact Nat.not_lt_of_le hbehind ((h.stands t (List.mem_cons_of_mem e ht)).start_lt_width hk)

/-- The `let` keywords that are replaced, at any depth of a text, are in their order and each
once the `let` tokens that are not right behind a dot and lie neither in a struct nor before the
body of a trait or an implementation. -/
theorem Node.bindingSpans_of_parse {file text : Text} {markup : Bool} {block : Block}
    {warnings : List Warning} (h : parse file text markup = .ok (block, warnings)) :
    let tokens := (scan markup text).tokens
    bindingSpans block.nodes =
      (tokens.filter (declares tokens (subnodesOf block.nodes))).map Token.span := by
  have hall := layout_scan markup text
  have hreads := parse_reads file text markup
  rw [h] at hreads
  obtain ⟨us, rest, ns, htokens, hend, hns, hblock⟩ := hreads
  obtain rfl : block = _ := hblock
  have hrun : (scan markup text).tokens = [] ++ (us ++ rest) ++ [] := by simpa using htokens
  have hus := Phrase.declared_reads hall Literal.maxDepth [] (by simpa using htokens) hns
  have hlayout : Layout text (us ++ rest) := htokens ▸ hall
  have hrest : Declared (scan markup text).tokens rest [] := by
    refine .passed fun t ht hk => ?_
    rw [hlayout.append_right.kind_of_mem_end hend t ht] at hk
    cases hk
  have hwhole := Phrase.declared_append hall [] hrun (hus.cover 0 (width text)) hrest
  rw [List.append_nil, ← htokens] at hwhole
  exact hwhole.bindings

/-- A `let` names a member, one lies in a struct and one among type parameters. The other four
declare something, two of them where a stage is given up. -/
theorem Node.bindingSpans_of_parse_given_up :
    let text :=
      "let a.let; struct S { let b } trait T<let> { x |> f(let c) } y |> let |> g(let".toList
    ∃ block warnings, parse "a.bs".toList text false = .ok (block, warnings) ∧
      let tokens := (scan false text).tokens
      (tokens.filter (declares tokens (subnodesOf block.nodes))).map Token.span =
        [⟨0, 3⟩, ⟨52, 55⟩, ⟨66, 69⟩, ⟨75, 78⟩] ∧
      bindingSpans block.nodes =
        (tokens.filter (declares tokens (subnodesOf block.nodes))).map Token.span := by
  intro text
  obtain ⟨⟨block, warnings⟩, h, hspans⟩ :=
    exists_ok_of_map (x := parse "a.bs".toList text false)
      (f := fun r => ((scan false text).tokens.filter
        (declares (scan false text).tokens (subnodesOf r.1.nodes))).map Token.span)
      (b := [⟨0, 3⟩, ⟨52, 55⟩, ⟨66, 69⟩, ⟨75, 78⟩]) (by decide +kernel)
  exact ⟨block, warnings, h, hspans, bindingSpans_of_parse h⟩

end Desugar
