import Desugar.Proofs.Compilation
import Desugar.Proofs.Coverage

/-! Passes that are not enabled. A construct whose pass is not enabled is written as if it had
not been recognised: as copies of what stands around its blocks, with the blocks still worked
on. So writing with some passes is writing with all of them once the constructs of the others
are forgotten, at every depth. -/
namespace Desugar

namespace Node

/-! ### Forgetting constructs -/

/-- What is in the blocks, with copies of what stands around them between `start` and `stop`. -/
def spread (stop : Nat) : (start : Nat) → List Block → List Node
  | start, [] => gap start stop
  | start, b :: bs => gap start b.span.start ++ b.nodes ++ spread stop b.span.stop bs

/-- The node taken apart into its blocks and the text around them. -/
def dissolve (n : Node) : List Node := spread n.span.stop n.span.start n.holes

/-- The node if its pass is enabled, else what it is taken apart into. -/
def keep (passes : Passes) (n : Node) : List Node := if passes.replaces n then [n] else n.dissolve

mutual

/-- The node without the constructs in it, itself included, whose pass is not enabled. -/
def forget (passes : Passes) : Node → List Node
  | .other span => [.other span]
  | .binding span => keep passes (.binding span)
  | .struct span head fields => keep passes (.struct span head fields)
  | .trait span head inner body => keep passes (.trait span head inner (forgetAll passes body))
  | .impl span head target inner body =>
    keep passes (.impl span head target inner (forgetAll passes body))
  | .pipe span inner head stages =>
    keep passes (.pipe span inner (forgetAll passes head) (forgetStages passes stages))

def forgetAll (passes : Passes) : List Node → List Node
  | [] => []
  | n :: ns => forget passes n ++ forgetAll passes ns

def forgetStages (passes : Passes) : List Stage → List Stage
  | [] => []
  | .bare span path :: stages => .bare span path :: forgetStages passes stages
  | .call span path inner args :: stages =>
    .call span path inner (forgetAll passes args) :: forgetStages passes stages
  | .group span body :: stages =>
    .group span (forgetAll passes body) :: forgetStages passes stages

end

end Node

/-- The block without the constructs, at any depth, whose pass is not enabled. -/
def Block.forget (passes : Passes) (b : Block) : Block := ⟨b.span, Node.forgetAll passes b.nodes⟩

namespace Output

open Node

/-! ### Outputs in a row -/

/-- Both outputs, the second behind the first. -/
def join (x y : Except Fault Output) : Except Fault Output := do
  let first ← x
  let second ← y
  pure (first ++ second)

theorem join_empty (x : Except Fault Output) : join x (.ok empty) = x := by
  cases x with
  | ok out => exact congrArg Except.ok (append_empty out)
  | error fault => rfl

theorem empty_join (x : Except Fault Output) : join (.ok empty) x = x := by
  cases x with
  | ok out => exact congrArg Except.ok (empty_append out)
  | error fault => rfl

theorem join_assoc (x y z : Except Fault Output) : join (join x y) z = join x (join y z) := by
  cases x with
  | error fault => rfl
  | ok a =>
    cases y with
    | error fault => rfl
    | ok b =>
      cases z with
      | error fault => rfl
      | ok c => exact congrArg Except.ok (append_assoc a b c)

/-- Three outputs in a row, as they are written around a block. -/
theorem bind_three (x y z : Except Fault Output) :
    (do let a ← x; let b ← y; let c ← z; pure (a ++ b ++ c)) = join (join x y) z := by
  cases x with
  | error fault => rfl
  | ok a =>
    cases y with
    | error fault => rfl
    | ok b => cases z <;> rfl

section Writing

variable (passes : Passes) (source : Text)

theorem emitNodes_append (ns ms : List Node) :
    emitNodes passes source (ns ++ ms) =
      join (emitNodes passes source ns) (emitNodes passes source ms) := by
  induction ns with
  | nil => exact (empty_join _).symm
  | cons n ns ih =>
    calc emitNodes passes source (n :: (ns ++ ms))
        = join (emitNode passes source n) (emitNodes passes source (ns ++ ms)) := by
          rw [emitNodes]; rfl
      _ = join (join (emitNode passes source n) (emitNodes passes source ns))
            (emitNodes passes source ms) := by rw [ih, join_assoc]
      _ = join (emitNodes passes source (n :: ns)) (emitNodes passes source ms) := by
          rw [emitNodes]; rfl

theorem emitNodes_singleton (n : Node) :
    emitNodes passes source [n] = emitNode passes source n := by
  rw [emitNodes]
  exact join_empty _

theorem emitNodes_gap (start stop : Nat) :
    emitNodes passes source (gap start stop) = verbatim source start stop := by
  unfold gap
  split
  next => rw [emitNodes_singleton, emitNode]
  next hle => rw [verbatim, if_neg hle, emitNodes]

theorem emitNodes_spread_cons (stop start : Nat) (b : Block) (bs : List Block) :
    emitNodes passes source (spread stop start (b :: bs)) =
      join (join (verbatim source start b.span.start) (emitNodes passes source b.nodes))
        (emitNodes passes source (spread stop b.span.stop bs)) := by
  rw [spread, emitNodes_append, emitNodes_append, emitNodes_gap]

/-- A block with copies of what stands around it. -/
theorem emitNodes_around (stop start : Nat) (b : Block) :
    emitNodes passes source (spread stop start [b]) =
      join (join (verbatim source start b.span.start) (emitNodes passes source b.nodes))
        (verbatim source b.span.stop stop) := by
  rw [emitNodes_spread_cons, spread, emitNodes_gap]

/-- A node that is kept or taken apart is written as either of the two says. -/
theorem emitNodes_keep {kept : Passes} {n : Node} {p : Pass} (hp : Pass.ofNode? n = some p)
    {out : Except Fault Output}
    (hkept : kept.enabled p = true → emitNode passes source n = out)
    (hdissolved : ¬ kept.enabled p = true → emitNodes passes source n.dissolve = out) :
    emitNodes passes source (keep kept n) = out := by
  have hreplaces : kept.replaces n = kept.enabled p := by
    rw [Passes.replaces, hp]
    rfl
  unfold keep
  rw [hreplaces]
  split
  next h => rw [emitNodes_singleton, hkept h]
  next h => exact hdissolved h

end Writing

/-! ### Writing what is left -/

section Forgetting

variable (passes : Passes) (source : Text)

mutual

theorem emitNodes_forgetAll : ∀ ns : List Node,
    emitNodes .standard source (forgetAll passes ns) = emitNodes passes source ns
  | [] => by rw [forgetAll, emitNodes, emitNodes]
  | n :: ns => by
    rw [forgetAll, emitNodes_append, emitNodes_forget n, emitNodes_forgetAll ns, emitNodes]
    rfl

/-- Case by case: a node that is kept has its blocks written the same, and one that is taken
apart is the copy of the text around them. -/
theorem emitNodes_forget : ∀ n : Node,
    emitNodes .standard source (forget passes n) = emitNode passes source n
  | .other span => by rw [forget, emitNodes_singleton, emitNode, emitNode]
  | .binding span => by
    rw [forget, emitNode]
    refine emitNodes_keep .standard source rfl (fun h => ?_) fun h => ?_
    · rw [emitNode, if_pos (Passes.enabled_standard _), if_pos h]
    · rw [if_neg h]
      exact emitNodes_gap _ _ _ _
  | .struct span head fields => by
    rw [forget, emitNode]
    refine emitNodes_keep .standard source rfl (fun h => ?_) fun h => ?_
    · rw [emitNode, if_pos (Passes.enabled_standard _), if_pos h]
    · rw [if_neg h]
      exact emitNodes_gap _ _ _ _
  | .trait span head inner body => by
    have hbody := emitNodes_forgetAll body
    rw [forget, emitNode]
    refine emitNodes_keep .standard source rfl (fun h => ?_) fun h => ?_
    · rw [emitNode, if_pos (Passes.enabled_standard _), if_pos h, hbody]
    · rw [if_neg h, bind_three, ← hbody]
      exact emitNodes_around _ _ _ _ _
  | .impl span head target inner body => by
    have hbody := emitNodes_forgetAll body
    rw [forget, emitNode]
    refine emitNodes_keep .standard source rfl (fun h => ?_) fun h => ?_
    · rw [emitNode, if_pos (Passes.enabled_standard _), if_pos h, hbody]
    · rw [if_neg h, bind_three, ← hbody]
      exact emitNodes_around _ _ _ _ _
  | .pipe span inner head stages => by
    have hhead := emitNodes_forgetAll head
    rw [forget, emitNode]
    -- a chain is applied if its pass is enabled, and otherwise copied around its blocks
    refine emitNodes_keep .standard source rfl (fun h => ?_) fun h => ?_
    · rw [emitNode, if_pos (Passes.enabled_standard _), if_pos h, hhead]
      simp only [applyStages_forget _ stages]
    · rw [if_neg h, bind_three, ← hhead, ← copyStages_forget _ _ stages]
      exact emitNodes_spread_cons _ _ _ _ _ _

theorem applyStages_forget : ∀ (value : Text) (stages : List Stage),
    applyStages .standard source value (forgetStages passes stages) =
      applyStages passes source value stages
  | _, [] => by rw [forgetStages, applyStages, applyStages]
  | value, .bare span path :: stages => by
    rw [forgetStages, applyStages, applyStages, applyStages_forget _ stages]
  | value, .call span path inner args :: stages => by
    rw [forgetStages, applyStages, applyStages, emitNodes_forgetAll args]
    simp only [applyStages_forget _ stages]
  | value, .group span body :: stages => by
    rw [forgetStages, applyStages, applyStages, emitNodes_forgetAll body]
    simp only [applyStages_forget _ stages]

theorem copyStages_forget : ∀ (start stop : Nat) (stages : List Stage),
    emitNodes .standard source
        (spread stop start ((forgetStages passes stages).filterMap Stage.hole?)) =
      copyStages passes source start stop stages
  | start, stop, [] => by
    rw [forgetStages, copyStages]
    exact emitNodes_gap _ _ _ _
  | start, stop, .bare span path :: stages => by
    rw [forgetStages, copyStages]
    exact copyStages_forget start stop stages
  | start, stop, .call span path inner args :: stages => by
    rw [forgetStages, copyStages, bind_three, ← emitNodes_forgetAll args,
      ← copyStages_forget inner.stop stop stages]
    exact emitNodes_spread_cons _ _ _ _ _ _
  | start, stop, .group span body :: stages => by
    rw [forgetStages, copyStages, bind_three, ← emitNodes_forgetAll body,
      ← copyStages_forget span.stop stop stages]
    exact emitNodes_spread_cons _ _ _ _ _ _

end

end Forgetting

end Output

/-! ### What is left -/

/-- If the node is a construct, its pass is enabled. -/
def Passes.Admits (passes : Passes) (n : Node) : Prop :=
  ∀ p, Pass.ofNode? n = some p → passes.enabled p = true

namespace Node

theorem subnodesOfStages_eq (stages : List Stage) :
    subnodesOfStages stages =
      (stages.filterMap Stage.hole?).flatMap fun b => subnodesOf b.nodes := by
  induction stages with
  | nil => rfl
  | cons s stages ih =>
    rw [subnodesOfStages_cons, ih]
    cases s <;> rfl

/-- The nodes inside a node are those of its blocks. -/
theorem subnodes_eq (n : Node) :
    n.subnodes = n :: n.holes.flatMap fun b => subnodesOf b.nodes := by
  cases n with
  | trait | impl => simp [subnodes, holes]
  | pipe span inner head stages =>
    rw [subnodes, holes, List.flatMap_cons, subnodesOfStages_eq]
  | _ => rfl

section Admitted

variable {passes : Passes}

theorem admits_of_mem_gap {start stop : Nat} :
    ∀ m ∈ subnodesOf (gap start stop), passes.Admits m := by
  intro m hm
  rw [eq_other_of_mem_gap hm]
  exact nofun

theorem admits_of_mem_spread {bs : List Block}
    (h : ∀ b ∈ bs, ∀ m ∈ subnodesOf b.nodes, passes.Admits m) (start stop : Nat) :
    ∀ m ∈ subnodesOf (spread stop start bs), passes.Admits m := by
  induction bs generalizing start with
  | nil => exact admits_of_mem_gap
  | cons b bs ih =>
    obtain ⟨hb, hbs⟩ := List.forall_mem_cons.mp h
    rw [spread, subnodesOf_append, subnodesOf_append]
    exact List.forall_mem_append.mpr
      ⟨List.forall_mem_append.mpr ⟨admits_of_mem_gap, hb⟩, ih hbs _⟩

theorem admits_of_mem_keep {n : Node}
    (h : ∀ b ∈ n.holes, ∀ m ∈ subnodesOf b.nodes, passes.Admits m) :
    ∀ m ∈ subnodesOf (keep passes n), passes.Admits m := by
  unfold keep
  split
  next hreplaces =>
    rw [subnodesOf, subnodesOf, List.append_nil, subnodes_eq]
    refine List.forall_mem_cons.mpr ⟨fun p hp => ?_, fun m hm => ?_⟩
    · rwa [Passes.replaces, hp] at hreplaces
    · obtain ⟨b, hb, hm⟩ := List.mem_flatMap.mp hm
      exact h b hb m hm
  next => exact admits_of_mem_spread h _ _

mutual

theorem admits_of_mem_forgetAll : ∀ ns : List Node,
    ∀ m ∈ subnodesOf (forgetAll passes ns), passes.Admits m
  | [] => nofun
  | n :: ns => by
    rw [forgetAll, subnodesOf_append]
    exact List.forall_mem_append.mpr ⟨admits_of_mem_forget n, admits_of_mem_forgetAll ns⟩

theorem admits_of_mem_forget : ∀ n : Node, ∀ m ∈ subnodesOf (forget passes n), passes.Admits m
  | .other _ => List.forall_mem_singleton.mpr nofun
  | .binding _ => admits_of_mem_keep nofun
  | .struct _ _ _ => admits_of_mem_keep nofun
  | .trait _ _ _ body =>
    admits_of_mem_keep (List.forall_mem_singleton.mpr (admits_of_mem_forgetAll body))
  | .impl _ _ _ _ body =>
    admits_of_mem_keep (List.forall_mem_singleton.mpr (admits_of_mem_forgetAll body))
  | .pipe _ _ head stages =>
    admits_of_mem_keep
      (List.forall_mem_cons.mpr ⟨admits_of_mem_forgetAll head, admits_of_mem_forgetStages stages⟩)

theorem admits_of_mem_forgetStages : ∀ stages : List Stage,
    ∀ b ∈ (forgetStages passes stages).filterMap Stage.hole?,
      ∀ m ∈ subnodesOf b.nodes, passes.Admits m
  | [] => nofun
  | .bare _ _ :: stages => admits_of_mem_forgetStages stages
  | .call _ _ _ args :: stages =>
    List.forall_mem_cons.mpr ⟨admits_of_mem_forgetAll args, admits_of_mem_forgetStages stages⟩
  | .group _ body :: stages =>
    List.forall_mem_cons.mpr ⟨admits_of_mem_forgetAll body, admits_of_mem_forgetStages stages⟩

end

end Admitted

end Node

/-- Writing a text with some passes gives the code and the anchors of writing with all of them
what is left once the constructs of the other passes are forgotten. -/
theorem Output.emit_forget (passes : Passes) {file text : Text} {markup : Bool} {block : Block}
    {warnings : List Warning} (h : Node.parse file text markup = .ok (block, warnings)) :
    (∃ out, emit passes text block = .ok out ∧
      emit .standard text (block.forget passes) = .ok out) ∧
    ∀ n ∈ Node.subnodesOf (block.forget passes).nodes, passes.Admits n := by
  obtain ⟨out, hout, _⟩ := renders_of_parse passes h
  refine ⟨⟨out, hout, ?_⟩, Node.admits_of_mem_forgetAll block.nodes⟩
  rw [← hout]
  exact emitNodes_forgetAll passes text block.nodes

/-- A chain and a struct are forgotten, the trait around the chain and the `let` in its
arguments are not. -/
theorem Output.emit_forget_chain_in_trait :
    let text := "trait T \x7b a |> f(let b);\n c \x7d struct S \x7b d \x7d".toList
    let passes : Passes := ⟨[.trait, .binding]⟩
    ∃ block warnings, Node.parse "a.bs".toList text false = .ok (block, warnings) ∧
      (Node.subnodesOf (block.forget passes).nodes).map Node.span =
        [⟨0, 29⟩, ⟨9, 10⟩, ⟨10, 11⟩, ⟨11, 17⟩, ⟨17, 20⟩, ⟨20, 22⟩, ⟨22, 23⟩, ⟨23, 28⟩, ⟨29, 30⟩,
          ⟨30, 44⟩] ∧
      (∃ out, emit passes text block = .ok out ∧
        emit .standard text (block.forget passes) = .ok out) ∧
      ∀ n ∈ Node.subnodesOf (block.forget passes).nodes, passes.Admits n := by
  intro text passes
  obtain ⟨⟨block, warnings⟩, h, hspans⟩ :=
    exists_ok_of_map (x := Node.parse "a.bs".toList text false)
      (f := fun r => (Node.subnodesOf (r.1.forget passes).nodes).map Node.span)
      (b := [⟨0, 29⟩, ⟨9, 10⟩, ⟨10, 11⟩, ⟨11, 17⟩, ⟨17, 20⟩, ⟨20, 22⟩, ⟨22, 23⟩, ⟨23, 28⟩, ⟨29, 30⟩,
        ⟨30, 44⟩]) (by decide +kernel)
  exact ⟨block, warnings, h, hspans, emit_forget passes h⟩

end Desugar
