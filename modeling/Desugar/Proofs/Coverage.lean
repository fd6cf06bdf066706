import Mathlib.Data.List.Chain
import Desugar.Proofs.Emission
import Desugar.Proofs.Reading

/-! The shape of what is read. In a block the nodes follow each other without a gap from its
start to its stop, and no two copied spans stand side by side. The blocks inside a node lie
in it one behind the other. All of this holds at every depth. -/
namespace Desugar

namespace Node

def isOther : Node → Bool
  | .other _ => true
  | _ => false

/-- The nodes follow each other from `start` to `stop` without gap or overlap, and none of
them is empty. -/
def Joined (stop : Nat) : (start : Nat) → List Node → Prop
  | start, [] => start = stop
  | start, n :: ns => n.span.start = start ∧ n.span.start < n.span.stop ∧ Joined stop n.span.stop ns

end Node

/-- The nodes of the block cover its span, and no two of them that are only copied meet. -/
structure Block.Covered (b : Block) : Prop where
  joined : Node.Joined b.span.stop b.span.start b.nodes
  apart : b.nodes.IsChain fun n m => ¬ (n.isOther = true ∧ m.isOther = true)

/-- The blocks inside the node are covered and lie in it, one behind the other. A chain of
pipes starts with its head and stops with its last stage. -/
structure Node.Nested (n : Node) : Prop where
  covered : ∀ b ∈ n.holes, b.Covered
  ordered : n.holes.Pairwise fun b c => b.span.stop < c.span.start
  inside : ∀ b ∈ n.holes, n.span.start ≤ b.span.start ∧ b.span.stop ≤ n.span.stop
  pipe : ∀ span inner head stages, n = .pipe span inner head stages →
    inner.start = span.start ∧ ∃ s, stages.getLast? = some s ∧ s.span.stop = span.stop

namespace Node

open Text Token Grammar

section Blocks

variable {text : Text} {all : List Token}

theorem Tiles.joined {start stop : Nat} {ns : List Node} (h : Tiles text start stop ns) :
    Joined stop start ns := by
  induction ns generalizing start with
  | nil =>
    cases h
    rfl
  | cons n ns ih =>
    cases h with
    | cons _ hlt _ h => exact ⟨rfl, hlt, ih h⟩

theorem isOther_of_construct {us : List Token} {n : Node} (h : IsConstruct text all us n) :
    n.isOther = false := by
  cases h <;> rfl

theorem isOther_of_sequence : ∀ {ts : List Token} {ns : List Node}, IsSequence text all ts ns →
    ∀ n ∈ ns, n.isOther = false
  | _, _, .nil => nofun
  | _, _, .step _ h => isOther_of_sequence h
  | _, _, .construct hc h =>
    List.forall_mem_cons.mpr ⟨isOther_of_construct hc, isOther_of_sequence h⟩

/-- Between constructs there is at most one copied span. -/
theorem apart_cover {ns : List Node} (h : ∀ n ∈ ns, n.isOther = false) (start stop : Nat) :
    (cover stop start ns).IsChain fun n m => ¬ (n.isOther = true ∧ m.isOther = true) := by
  induction ns generalizing start with
  | nil =>
    rw [cover, gap]
    split <;> simp
  | cons n ns ih =>
    obtain ⟨hn, hns⟩ := List.forall_mem_cons.mp h
    have hrest : (n :: cover stop n.span.stop ns).IsChain
        fun n m => ¬ (n.isOther = true ∧ m.isOther = true) := by
      refine (ih hns n.span.stop).cons fun m _ => ?_
      simp [hn]
    rw [cover, gap]
    split
    · refine hrest.cons fun m hm => ?_
      cases hm
      simp [hn]
    · exact hrest

theorem covered_of_sequence {ts : List Token} {ns : List Node} {start stop : Nat}
    (h : IsSequence text all ts ns) (hw : Within text start stop ts) :
    Block.Covered ⟨⟨start, stop⟩, cover stop start ns⟩ :=
  ⟨(tiles_of_sequence h hw).joined, apart_cover (isOther_of_sequence h) start stop⟩

/-! ### Blocks inside a node -/

/-- The block of a stage lies between its first and its last token. -/
theorem hole_of_stage {us : List Token} {s : Stage} {first last : Token} {start stop : Nat}
    (h : IsStage text all us s) (hw : Within text start stop us) (hf : us.head? = some first)
    (hl : us.getLast? = some last) {b : Block} (hb : s.hole? = some b) :
    b.Covered ∧ first.start ≤ b.span.start ∧ b.span.stop ≤ last.stop := by
  have hspan := hw.span hf hl
  cases h with
  | bare => cases hb
  | @call _ _ opener close ps bs _ ns _ _ _ _ _ hbs _ =>
    cases hb
    have hopener := hspan.start_le opener (by simp)
    have hclose := hspan.le_stop close (by simp)
    exact ⟨covered_of_sequence hbs hw.inside, Nat.le_trans hopener (Nat.le_add_right _ _),
      Nat.le_trans (Nat.le_add_right _ _) hclose⟩
  | @group opener close bs ns _ hbs _ =>
    cases hb
    exact ⟨covered_of_sequence hbs hw.group, hspan.start_le opener (by simp),
      hspan.le_stop close (by simp)⟩

/-- A pipe stands before the tokens of its stage. -/
theorem lt_start_of_stage {sign first : Token} {us ts : List Token} {start stop : Nat}
    (hw : Within text start stop (sign :: us ++ ts)) (hk : sign.kind = .pipe)
    (hf : us.head? = some first) : start < first.start := by
  have hmem : first ∈ us ++ ts := List.mem_append_left ts (List.mem_of_head? hf)
  have hsign := hw.start_le sign List.mem_cons_self
  have hlt := (hw.layout.stands sign List.mem_cons_self).start_lt_stop (by rw [hk]; nofun)
  have hnext := (List.pairwise_cons.mp hw.layout.ordered).1 first hmem
  omega

/-- The blocks of the stages follow each other, each behind its pipe. -/
theorem holes_of_chain : ∀ {ts : List Token} {stages : List Stage} {start stop : Nat},
    IsChain text all ts stages → Within text start stop ts →
      (∀ b ∈ stages.filterMap Stage.hole?,
        b.Covered ∧ start < b.span.start ∧ b.span.stop ≤ stop) ∧
      (stages.filterMap Stage.hole?).Pairwise fun b c => b.span.stop < c.span.start
  | _, _, _, _, .nil, _ => ⟨nofun, .nil⟩
  | _, _, start, stop, @IsChain.cons _ _ sign us ts s ss hk hs hc, hw => by
    obtain ⟨first, last, hf, hl, _⟩ := span_of_stage hs
    have hlast : (sign :: us).getLast? = some last := by
      rw [List.getLast?_cons, hl]
      rfl
    have hfirst := lt_start_of_stage hw hk hf
    have hrest := hw.after hlast
    have hlo : start ≤ last.stop := (hw.stage.span hf hl).le.trans' hfirst.le
    obtain ⟨hholes, hordered⟩ := holes_of_chain hc hrest
    have hlater : ∀ b ∈ ss.filterMap Stage.hole?,
        b.Covered ∧ start < b.span.start ∧ b.span.stop ≤ stop := fun b hb =>
      ⟨(hholes b hb).1, Nat.lt_of_le_of_lt hlo (hholes b hb).2.1, (hholes b hb).2.2⟩
    cases hhole : s.hole? with
    | none =>
      rw [List.filterMap_cons_none hhole]
      exact ⟨hlater, hordered⟩
    | some b =>
      obtain ⟨hcovered, hlow, hhigh⟩ := hole_of_stage hs hw.stage hf hl hhole
      rw [List.filterMap_cons_some hhole]
      refine ⟨List.forall_mem_cons.mpr ⟨⟨hcovered, ?_, ?_⟩, hlater⟩,
        List.pairwise_cons.mpr ⟨fun c hc => ?_, hordered⟩⟩
      · exact Nat.lt_of_lt_of_le hfirst hlow
      · exact Nat.le_trans hhigh hrest.le
      · exact Nat.lt_of_le_of_lt hhigh (hholes c hc).2.1

/-- A node with one block or none, which is no chain of pipes. -/
theorem Nested.of_single {n : Node} {b : Block} (hn : n.holes = [b]) (hb : b.Covered)
    (hstart : n.span.start ≤ b.span.start) (hstop : b.span.stop ≤ n.span.stop)
    (hpipe : ∀ span inner head stages, n ≠ .pipe span inner head stages) : n.Nested where
  covered := by
    rw [hn]
    exact List.forall_mem_singleton.mpr hb
  ordered := by
    rw [hn]
    exact List.pairwise_singleton _ _
  inside := by
    rw [hn]
    exact List.forall_mem_singleton.mpr ⟨hstart, hstop⟩
  pipe span inner head stages h := absurd h (hpipe span inner head stages)

theorem Nested.of_no_holes {n : Node} (hn : n.holes = []) : n.Nested where
  covered := by simp [hn]
  ordered := by simp [hn]
  inside := by simp [hn]
  pipe span inner head stages h := by
    subst h
    cases hn

theorem nested_of_construct {us : List Token} {n : Node} {start stop : Nat}
    (h : IsConstruct text all us n) (hw : Within text start stop us) : n.Nested := by
  cases h with
  | binding => exact .of_no_holes rfl
  | struct => exact .of_no_holes rfl
  | @trait t opener close hs bs head ns _ _ ho hb _ =>
    have hfirst := first_lt_stop hw (u := opener) (by simp) (by simp [ho])
    exact .of_single rfl (covered_of_sequence hb hw.inside) (Nat.le_of_lt hfirst)
      (Nat.le_add_right _ _) (by simp)
  | @impl t word opener close hs gs bs head target ns _ _ _ _ ho hb _ =>
    have hfirst := first_lt_stop hw (u := opener) (by simp) (by simp [ho])
    exact .of_single rfl (covered_of_sequence hb hw.inside) (Nat.le_of_lt hfirst)
      (Nat.le_add_right _ _) (by simp)
  | @pipe first last hs ss ns stages stage hf hl hh hc hst =>
    have hhead := (hw.sublist (List.sublist_append_left hs ss)).span hf hl
    have hchain := within_chain hf hl hc hst hw
    obtain ⟨hholes, hordered⟩ := holes_of_chain hc hchain
    have hlater : ∀ b ∈ stages.filterMap Stage.hole?, last.stop < b.span.start :=
      fun b hb => (hholes b hb).2.1
    refine ⟨?_, List.pairwise_cons.mpr ⟨hlater, hordered⟩, ?_, ?_⟩
    · exact List.forall_mem_cons.mpr
        ⟨covered_of_sequence hh hhead, fun b hb => (hholes b hb).1⟩
    · refine List.forall_mem_cons.mpr ⟨⟨Nat.le_refl _, hchain.le⟩, fun b hb => ?_⟩
      exact ⟨Nat.le_trans hhead.le (Nat.le_of_lt (hlater b hb)), (hholes b hb).2.2⟩
    · rintro _ _ _ _ ⟨⟩
      exact ⟨rfl, stage, hst, rfl⟩

/-! ### Every depth -/

theorem nested_of_mem_gap {start stop : Nat} {m : Node} (h : m ∈ subnodesOf (gap start stop)) :
    m.Nested := by
  rw [eq_other_of_mem_gap h]
  exact .of_no_holes rfl

theorem subnodesOf_append (ns ms : List Node) :
    subnodesOf (ns ++ ms) = subnodesOf ns ++ subnodesOf ms := by
  induction ns with
  | nil => rfl
  | cons n ns ih => rw [List.cons_append, subnodesOf, subnodesOf, ih, List.append_assoc]

theorem subnodesOfStages_cons (s : Stage) (stages : List Stage) :
    subnodesOfStages (s :: stages) =
      (s.hole?.elim [] fun b => subnodesOf b.nodes) ++ subnodesOfStages stages := by
  cases s <;> rfl

mutual

/-- In a block, the nodes at every depth have their blocks in order. -/
theorem nested_of_mem_sequence : ∀ {ts : List Token} {ns : List Node} {start stop : Nat},
    IsSequence text all ts ns → Within text start stop ts →
      ∀ m ∈ subnodesOf (cover stop start ns), m.Nested
  | _, _, _, _, .nil, _ => fun m hm => nested_of_mem_gap hm
  | _, _, _, _, .step _ h, hw =>
    nested_of_mem_sequence h (hw.sublist (List.sublist_cons_self _ _))
  | _, _, _, _, @IsSequence.construct _ _ us ts n ns hc h, hw => by
    obtain ⟨first, last, hf, hl, hspan⟩ := span_of_construct hc
    have hus := (hw.sublist (List.sublist_append_left us ts)).span hf hl
    intro m hm
    rw [cover, subnodesOf_append, subnodesOf, List.mem_append, List.mem_append, hspan] at hm
    rcases hm with hm | hm | hm
    · exact nested_of_mem_gap hm
    · exact nested_of_mem_construct hc hus m hm
    · exact nested_of_mem_sequence h (hw.after hl) m hm

theorem nested_of_mem_construct : ∀ {us : List Token} {n : Node} {start stop : Nat},
    IsConstruct text all us n → Within text start stop us → ∀ m ∈ n.subnodes, m.Nested
  | _, _, _, _, h@(.binding _ _), hw =>
    List.forall_mem_singleton.mpr (nested_of_construct h hw)
  | _, _, _, _, h@(.struct _ _ _ _ _), hw =>
    List.forall_mem_singleton.mpr (nested_of_construct h hw)
  | _, _, _, _, h@(.trait _ _ _ hb _), hw =>
    List.forall_mem_cons.mpr ⟨nested_of_construct h hw, nested_of_mem_sequence hb hw.inside⟩
  | _, _, _, _, h@(.impl _ _ _ _ _ hb _), hw =>
    List.forall_mem_cons.mpr ⟨nested_of_construct h hw, nested_of_mem_sequence hb hw.inside⟩
  | _, _, _, _, h@(.pipe hf hl hh hc hst), hw => by
    have hhead := (hw.sublist (List.sublist_append_left _ _)).span hf hl
    refine List.forall_mem_cons.mpr ⟨nested_of_construct h hw,
      List.forall_mem_append.mpr ⟨nested_of_mem_sequence hh hhead, ?_⟩⟩
    exact nested_of_mem_chain hc (within_chain hf hl hc hst hw)

theorem nested_of_mem_chain : ∀ {ts : List Token} {stages : List Stage} {start stop : Nat},
    IsChain text all ts stages → Within text start stop ts →
      ∀ m ∈ subnodesOfStages stages, m.Nested
  | _, _, _, _, .nil, _ => nofun
  | _, _, _, _, @IsChain.cons _ _ sign us ts _ _ _ hs hc, hw => by
    have hlater := nested_of_mem_chain hc (hw.sublist (List.sublist_append_right (sign :: us) ts))
    rw [subnodesOfStages_cons]
    exact List.forall_mem_append.mpr ⟨nested_of_mem_stage hs hw.stage, hlater⟩

theorem nested_of_mem_stage : ∀ {us : List Token} {s : Stage} {start stop : Nat},
    IsStage text all us s → Within text start stop us →
      ∀ m ∈ s.hole?.elim [] fun b => subnodesOf b.nodes, m.Nested
  | _, _, _, _, .bare _ _ _ _, _ => nofun
  | _, _, _, _, .call _ _ _ _ _ hb _, hw => nested_of_mem_sequence hb hw.inside
  | _, _, _, _, .group _ hb _, hw => nested_of_mem_sequence hb hw.group

end

end Blocks

/-- What is read from a text covers it, and so does every block inside it cover its span. -/
theorem covered_of_parse {file text : Text} {markup : Bool} {block : Block}
    {warnings : List Warning} (h : parse file text markup = .ok (block, warnings)) :
    block.span = ⟨0, width text⟩ ∧ block.Covered ∧ ∀ n ∈ subnodesOf block.nodes, n.Nested := by
  have hends := Parse.parse_ends file text markup
  rw [h] at hends
  obtain ⟨us, rest, ns, htokens, _, hseq, hblock⟩ := hends
  have hall : Layout text (us ++ rest) := htokens ▸ layout_scan markup text
  have hw : Within text 0 (width text) us := .whole hall.append_left
  obtain rfl : block = _ := hblock
  exact ⟨rfl, covered_of_sequence hseq hw, nested_of_mem_sequence hseq hw⟩

theorem covered_of_parse_pipe_in_trait :
    let text := "trait T { a |> f(b |> g) |> (h); }".toList
    ∃ block warnings, parse "a.bs".toList text false = .ok (block, warnings) ∧
      (subnodesOf block.nodes).flatMap (fun n => n.holes.map Block.span) =
        [⟨9, 33⟩, ⟨10, 11⟩, ⟨17, 23⟩, ⟨28, 31⟩, ⟨17, 18⟩] ∧
      block.span = ⟨0, 34⟩ ∧ block.Covered ∧ ∀ n ∈ subnodesOf block.nodes, n.Nested := by
  intro text
  obtain ⟨⟨block, warnings⟩, h, hspans⟩ :=
    exists_ok_of_map (x := parse "a.bs".toList text false)
      (f := fun r => (subnodesOf r.1.nodes).flatMap fun n => n.holes.map Block.span)
      (b := [⟨9, 33⟩, ⟨10, 11⟩, ⟨17, 23⟩, ⟨28, 31⟩, ⟨17, 18⟩]) (by decide +kernel)
  exact ⟨block, warnings, h, hspans, covered_of_parse h⟩

end Node

/-! ### At every depth -/

/-- The nodes at every depth are in `P`. -/
def Node.Throughout (P : Node → Prop) (ns : List Node) : Prop := ∀ m ∈ Node.subnodesOf ns, P m

/-- Everything in the block of the stage is in `P`. -/
def Stage.Throughout (P : Node → Prop) (s : Stage) : Prop :=
  ∀ b, s.hole? = some b → Node.Throughout P b.nodes

namespace Node.Throughout

variable {P : Node → Prop} {ns ms : List Node}

theorem nil : Throughout P [] := fun _ hm => absurd hm List.not_mem_nil

theorem append_iff : Throughout P (ns ++ ms) ↔ Throughout P ns ∧ Throughout P ms := by
  rw [Throughout, subnodesOf_append, List.forall_mem_append]
  rfl

/-- What is only copied between the nodes does not count. -/
theorem cover_iff (hP : ∀ span, P (.other span)) {start stop : Nat} :
    Throughout P (cover stop start ns) ↔ Throughout P ns := by
  have hgap (start stop : Nat) : Throughout P (gap start stop) := by
    intro m hm
    rw [eq_other_of_mem_gap hm]
    exact hP _
  induction ns generalizing start with
  | nil => exact iff_of_true (hgap start stop) nil
  | cons n ns ih =>
    have hcover : cover stop start (n :: ns) =
        Node.gap start n.span.start ++ ([n] ++ cover stop n.span.stop ns) := rfl
    have hrest : Throughout P (cover stop n.span.stop ns) ↔ Throughout P ns := ih
    rw [hcover, append_iff, append_iff, hrest, ← append_iff]
    exact and_iff_right (hgap _ _)

theorem stages_iff {stages : List Stage} :
    (∀ m ∈ subnodesOfStages stages, P m) ↔ ∀ s ∈ stages, s.Throughout P := by
  induction stages with
  | nil => simp [subnodesOfStages]
  | cons s stages ih =>
    have hhole : (∀ m ∈ s.hole?.elim [] fun b => subnodesOf b.nodes, P m) ↔ s.Throughout P := by
      unfold Stage.Throughout
      cases s.hole? <;> simp [Throughout]
    rw [List.forall_mem_cons, subnodesOfStages_cons, List.forall_mem_append, ih, hhole]

theorem pipe_iff {span inner : Span} {stages : List Stage} :
    Throughout P [.pipe span inner ns stages] ↔
      P (.pipe span inner ns stages) ∧ Throughout P ns ∧ ∀ s ∈ stages, s.Throughout P := by
  rw [Throughout, subnodesOf, subnodes, subnodesOf, List.append_nil, List.forall_mem_cons,
    List.forall_mem_append, stages_iff]
  rfl

theorem trait_iff {span inner : Span} {head : Head} :
    Throughout P [.trait span head inner ns] ↔
      P (.trait span head inner ns) ∧ Throughout P ns := by
  rw [Throughout, subnodesOf, subnodes, subnodesOf, List.append_nil, List.forall_mem_cons]
  rfl

theorem impl_iff {span inner : Span} {head target : Head} :
    Throughout P [.impl span head target inner ns] ↔
      P (.impl span head target inner ns) ∧ Throughout P ns := by
  rw [Throughout, subnodesOf, subnodes, subnodesOf, List.append_nil, List.forall_mem_cons]
  rfl

end Node.Throughout

end Desugar
