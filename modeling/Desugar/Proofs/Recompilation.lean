import Desugar.Proofs.Bracketing
import Desugar.Proofs.FastPath
import Desugar.Proofs.Lowering
import Desugar.Proofs.Rescanning
import Desugar.Proofs.Unmarked

/-! Compiling the code that a compilation gave. It is compiled to itself if nothing is left in
it to replace. That is so where the only constructs of the text were bindings: a name stands
for each `let`, the tokens are the same otherwise, and they nest no deeper. It is so for
chains of pipes, whose calls have no marker. It is not so in general: a pipe that found no
stage may find one in the code. -/
namespace Desugar

open Text Token Grammar

namespace Kind

/-- Tokens that start no declaration and are no pipe. -/
def isSimple : Kind → Bool
  | .keyword .structWord | .keyword .traitWord | .keyword .implWord | .pipe => false
  | _ => true

theorem isUndeclared_of_isSimple {k : Kind} (h : k.isSimple = true) : k.isUndeclared = true := by
  unfold isUndeclared
  split
  next => cases h
  next => cases h
  next => cases h
  next => rfl

end Kind

/-! ### Bindings -/

namespace Token

theorem mem_bindings {t : Token} : ∀ {last : Option Token} {ts : List Token},
    t ∈ bindings last ts → t ∈ ts ∧ t.kind = .keyword .letWord
  | _, u :: ts, h => by
    rw [bindings] at h
    split at h
    next hu =>
      rcases List.mem_cons.mp h with rfl | h
      · simp only [Bool.and_eq_true, decide_eq_true_eq] at hu
        exact ⟨List.mem_cons_self, hu.1⟩
      · exact (mem_bindings h).imp_left (List.mem_cons_of_mem u)
    next => exact (mem_bindings h).imp_left (List.mem_cons_of_mem u)

theorem bindings_append : ∀ (last : Option Token) (us rest : List Token),
    bindings last (us ++ rest) = bindings last us ++ bindings (us.getLast?.or last) rest
  | _, [], _ => rfl
  | last, u :: us, rest => by
    have hlast : us.getLast?.or (some u) = (u :: us).getLast?.or last := by
      rw [List.getLast?_cons]
      cases us.getLast? <;> rfl
    rw [List.cons_append, bindings, bindings, bindings_append (some u) us rest, hlast]
    split <;> rfl

/-- Nothing is bound behind the end. -/
theorem bindings_behind {text : Text} {us rest : List Token} (h : Layout text (us ++ rest))
    (heof : Node.Parse.headKind rest = .eof) (last : Option Token) : bindings last rest = [] := by
  refine List.eq_nil_iff_forall_not_mem.mpr fun t ht => ?_
  obtain ⟨hmem, hk⟩ := mem_bindings ht
  cases rest with
  | nil => cases hmem
  | cons e rest =>
    have hrest := h.append_right
    have heof : e.kind = .eof := heof
    rcases List.mem_cons.mp hmem with rfl | hmem
    · rw [heof] at hk
      cases hk
    · have hend := (hrest.stands e List.mem_cons_self).start_of_eof heof
      have hle := (List.pairwise_cons.mp hrest.ordered).1 t hmem
      have hlt := (hrest.stands t (List.mem_cons_of_mem e hmem)).start_lt_width (by rw [hk]; nofun)
      have hstop : e.start ≤ e.stop := Nat.le_add_right _ _
      omega

/-- Once the bindings are names, none is left. -/
theorem bindings_of_rebound : ∀ {last : Option Token} {ts : List Token} {ks : List Kind},
    ts.map kind = rebound (last.any (·.kind = .dot)) ks → bindings last ts = []
  | _, [], _, _ => rfl
  | last, t :: ts, [], h => by cases h
  | last, t :: ts, k :: ks, h => by
    rw [List.map_cons, rebound, List.cons.injEq] at h
    obtain ⟨ht, hts⟩ := h
    split at ht
    next hk =>
      obtain rfl : k = .keyword .letWord := by simp at hk; exact hk.1
      rw [bindings, ht]
      exact bindings_of_rebound (by rw [hts, Option.any_some, ht]; rfl)
    next hk =>
      rw [bindings, ht, if_neg hk]
      exact bindings_of_rebound (by rw [hts, Option.any_some, ht])

theorem outline_rebound : ∀ (dotted : Bool) (ks : List Kind),
    (rebound dotted ks).map Kind.outline = ks.map Kind.outline
  | _, [] => rfl
  | dotted, k :: ks => by
    have hk : (if k = .keyword .letWord && !dotted then Kind.ident else k).outline = k.outline := by
      split <;> simp_all [Kind.outline, Kind.isNeutral]
    rw [rebound, List.map_cons, List.map_cons, hk, outline_rebound]

theorem reach_rebound (room : Nat) (dotted : Bool) (ks : List Kind) :
    Kind.reach room none (rebound dotted ks) = Kind.reach room none ks := by
  rw [← Kind.reach_outline room none _ .none, outline_rebound,
    Kind.reach_outline room none ks .none]

theorem simple_of_rebound : ∀ {dotted : Bool} {ks : List Kind}, (∀ k ∈ ks, k.isSimple = true) →
    ∀ k ∈ rebound dotted ks, k.isSimple = true
  | _, [], _, k, hk => nomatch hk
  | dotted, k :: ks, h, u, hu => by
    obtain ⟨hk, hks⟩ := List.forall_mem_cons.mp h
    rcases List.mem_cons.mp hu with rfl | hu
    · split
      · rfl
      · exact hk
    · exact simple_of_rebound hks u hu

end Token

/-! ### Texts of simple tokens -/

namespace Node

theorem replaces_gap (passes : Passes) (start stop : Nat) :
    ∀ n ∈ subnodesOf (gap start stop), passes.replaces n = false := by
  intro n hn
  rw [eq_other_of_mem_gap hn]
  rfl

/-- No simple token starts a declaration, and none is a pipe. -/
theorem binding_of_simple {text : Text} {all us : List Token} {n : Node}
    (h : IsConstruct text all us n) (hs : ∀ t ∈ us, t.kind.isSimple = true) :
    ∃ t, us = [t] ∧ n = .binding t.span ∧ t.kind = .keyword .letWord ∧ ¬ AfterDot all t := by
  cases h with
  | @binding t hk hdot => exact ⟨t, rfl, rfl, hk, hdot⟩
  | struct hk => simp [hk, Kind.isSimple] at hs
  | trait hk => simp [hk, Kind.isSimple] at hs
  | impl hk => simp [hk, Kind.isSimple] at hs
  | pipe _ _ _ hchain hlast =>
    obtain ⟨t, ht, hk⟩ := exists_pipe_of_chain hchain (by rintro rfl; cases hlast)
    have hsimple := hs t (List.mem_append_right _ ht)
    rw [hk] at hsimple
    cases hsimple

/-- A run of simple tokens starts with a step or a binding. -/
theorem sequence_of_simple {text : Text} {all us : List Token} {ns : List Node}
    (h : IsSequence text all us ns) (hs : ∀ t ∈ us, t.kind.isSimple = true) :
    us = [] ∧ ns = [] ∨
    ∃ t ts ms, us = t :: ts ∧ IsSequence text all ts ms ∧
      (ns = ms ∧ (t.kind = .keyword .letWord → AfterDot all t) ∨
        ns = .binding t.span :: ms ∧ t.kind = .keyword .letWord ∧ ¬ AfterDot all t) := by
  cases h with
  | nil => exact .inl ⟨rfl, rfl⟩
  | step ht h => exact .inr ⟨_, _, _, rfl, h, .inl ⟨rfl, ht⟩⟩
  | construct hc h =>
    obtain ⟨t, rfl, rfl, hk, hdot⟩ :=
      binding_of_simple hc fun t ht => hs t (List.mem_append_left _ ht)
    exact .inr ⟨t, _, _, rfl, h, .inr ⟨rfl, hk, hdot⟩⟩

/-- What is read from simple tokens are their bindings. -/
theorem nodes_of_simple {text : Text} {all front us rest : List Token} {ns : List Node}
    (hall : Layout text all) (hfront : all = front ++ (us ++ rest))
    (hs : ∀ t ∈ us, t.kind.isSimple = true) (h : IsSequence text all us ns) :
    ns = (bindings front.getLast? us).map fun t => .binding t.span := by
  induction us generalizing front ns with
  | nil =>
    rcases sequence_of_simple h hs with ⟨_, rfl⟩ | ⟨_, _, _, hus, _⟩
    · rfl
    · cases hus
  | cons u us ih =>
    rcases sequence_of_simple h hs with ⟨hus, _⟩ | ⟨t, ts, ms, hus, hrest, hms⟩
    · cases hus
    · obtain ⟨rfl, rfl⟩ := List.cons.inj hus
      have hmore :=
        @ih (front ++ [u]) ms (by rw [hfront]; simp) (List.forall_mem_cons.mp hs).2 hrest
      rw [List.getLast?_concat] at hmore
      have hafter (hk : u.kind = .keyword .letWord) :=
        @Parse.afterDot_iff ⟨[], text, true⟩ all hall front (us ++ rest) u hfront (by simp [hk])
      rw [bindings]
      rcases hms with ⟨rfl, hstep⟩ | ⟨rfl, hk, hdot⟩
      · by_cases hk : u.kind = .keyword .letWord
        · simp only [hk, (hafter hk).mp (hstep hk), hmore]
          rfl
        · simp only [hk, decide_false, Bool.false_and, hmore]
          rfl
      · rw [hafter hk, Bool.not_eq_true] at hdot
        simp only [hk, hdot, hmore]
        rfl

/-- Simple tokens that end in time are read in full. -/
theorem parse_of_simple {file text : Text} {markup : Bool} {block : Block} {warnings : List Warning}
    (hs : ∀ t ∈ (scan markup text).tokens, t.kind.isSimple = true)
    (h : parse file text markup = .ok (block, warnings)) :
    block.nodes = cover (width text) 0
      ((bindings none (scan markup text).tokens).map fun t => .binding t.span) := by
  have hends := Parse.parse_ends file text markup
  have hall := layout_scan markup text
  rw [h] at hends
  obtain ⟨us, rest, ns, htokens, heof, hseq, rfl⟩ := hends
  rw [htokens] at hs
  have hus : ∀ t ∈ us, t.kind.isSimple = true := fun t ht => hs t (List.mem_append_left _ ht)
  have hns := @nodes_of_simple text _ [] us rest ns hall htokens hus hseq
  rw [htokens, bindings_append, bindings_behind (htokens ▸ hall) heof, List.append_nil]
  exact congrArg (cover (width text) 0) hns

/-- Whether simple tokens nest too deep shows in their kinds. -/
theorem exists_parse_iff (file : Text) {text : Text} {markup : Bool}
    (hs : ∀ t ∈ (scan markup text).tokens, t.kind.isSimple = true) :
    (∃ r, parse file text markup = .ok r) ↔ (scan markup text).tooDeep = none ∧
      ∃ n, Kind.reach Literal.maxDepth none ((scan markup text).tokens.map kind) = some n := by
  have hreach := @Parse.sequence_counts ⟨file, text, true⟩ _ (layout_scan markup text)
    (fun t ht => Kind.isUndeclared_of_isSimple (hs t ht)) Literal.maxDepth none .none []
    (scan markup text).tokens .empty rfl
  rw [List.getLast?_nil] at hreach
  unfold parse parseTokens
  cases (scan markup text).tooDeep with
  | some p => simp
  | none =>
    cases hread : Parse.sequence ⟨file, text, true⟩ Literal.maxDepth none none
      (scan markup text).tokens .empty with
    | error fault =>
      rw [hread] at hreach
      refine iff_of_false nofun ?_
      rintro ⟨-, n, hn⟩
      cases hreach.symm.trans hn
    | ok f =>
      rw [hread] at hreach
      obtain ⟨us, rest, htokens, _, hcounted, _⟩ := hreach
      exact iff_of_true ⟨_, rfl⟩ ⟨rfl, us.length, by rw [htokens]; exact hcounted⟩

end Node

namespace Output

/-- Where bindings are replaced, the text is written with `const` in their places. -/
theorem adds_rewritten {passes : Passes} (hpasses : passes.enabled .binding = true) {text : Text} :
    ∀ {offset : Nat} {rest out : Text} {ts : List Token}, Rewritten offset rest ts out →
    ∀ front : Text, text = front ++ rest → width front = offset →
    Adds passes text offset (width text) (ts.map fun t => .binding t.span) out
  | offset, rest, _, _, .nil, front, htext, hfront =>
    .copy (slice?_eq_some_iff.mpr ⟨front, [], by rw [htext, List.append_nil], hfront,
      by rw [htext, width_append, hfront]⟩)
  | offset, _, _, _, @Rewritten.cons _ gap rest out t ts hstart h, front, htext, hfront => by
    have hgap : slice? text offset t.start = some gap :=
      slice?_eq_some_iff.mpr ⟨front, t.text ++ rest, by simp [htext], hfront, hstart.symm⟩
    have hstop : width (front ++ gap ++ t.text) = t.stop := by
      rw [width_append, width_append, hfront, ← hstart]
      rfl
    have hbinding : Adds passes text t.start t.stop [.binding t.span] "const".toList := by
      refine Adds.node (n := .binding t.span) ⟨_, rest, by simp [htext], hstop⟩ ?_
      rw [emitNode, hpasses]
      rfl
    have ih := @adds_rewritten passes hpasses text _ _ _ _ h (front ++ gap ++ t.text)
      (by simp [htext]) hstop
    rw [List.append_assoc]
    exact (Adds.copy hgap).append (hbinding.append ih)

theorem emits_rewritten {passes : Passes} (hpasses : passes.enabled .binding = true)
    {text out : Text} {ts : List Token} (h : Rewritten 0 text ts out) :
    Returns (fun written => written.code = out)
      (emitNodes passes text (Node.cover (width text) 0 (ts.map fun t => .binding t.span))) :=
  (adds_rewritten hpasses h [] rfl rfl).emits (.zero text)

end Output

/-! ### Settled texts -/

/-- Nothing is left to do: the text has no marker, or it is read without any construct that
a pass replaces. -/
def Passes.Settled (passes : Passes) (markup : Bool) (id text : Text) : Prop :=
  Marker.ofText text = [] ∨ ∃ block warnings, Node.parse id text markup = .ok (block, warnings) ∧
    ∀ n ∈ Node.subnodesOf block.nodes, passes.replaces n = false

namespace Compiler

variable (c : Compiler) (r : Request)

theorem exists_parse_of_compile (hm : Marker.ofText r.text ≠ [])
    (h : (c.compile r).1.errors = []) :
    ∃ block warnings, Node.parse r.id r.text (c.readsMarkup r.id) = .ok (block, warnings) := by
  cases hp : Node.parse r.id r.text (c.readsMarkup r.id) with
  | ok read => exact ⟨read.1, read.2, rfl⟩
  | error fault =>
    rw [c.compile_of_fault r hm hp] at h
    cases h

/-- A settled text is its own code. -/
theorem compile_of_settled (h : c.passes.Settled (c.readsMarkup r.id) r.id r.text) :
    (c.compile r).1.errors = [] ∧ (c.compile r).1.code = r.text := by
  by_cases hm : Marker.ofText r.text = []
  · rw [c.compile_of_no_markers r hm]
    exact ⟨rfl, rfl⟩
  · obtain ⟨block, warnings, hparse, hkeep⟩ := h.resolve_left hm
    obtain ⟨out, hout, hrenders⟩ := Output.renders_of_parse c.passes hparse
    rw [(c.passes.touches_eq_false_iff _).mpr hkeep] at hrenders
    rw [c.compile_of_parse r hm hparse hout]
    exact ⟨rfl, Output.code_eq_of_renders hrenders⟩

/-- Without pipes, only a settled text is its own code. -/
theorem compile_eq_iff (hpipe : Text.occurs ['|', '>'] r.text = false) :
    (c.compile r).1.errors = [] ∧ (c.compile r).1.code = r.text ↔
      c.passes.Settled (c.readsMarkup r.id) r.id r.text := by
  refine ⟨fun ⟨herrors, hcode⟩ => ?_, c.compile_of_settled r⟩
  by_cases hm : Marker.ofText r.text = []
  · exact .inl hm
  · obtain ⟨block, warnings, hparse⟩ := c.exists_parse_of_compile r hm herrors
    obtain ⟨out, hout, hrenders⟩ := Output.renders_of_parse c.passes hparse
    rw [c.compile_of_parse r hm hparse hout, code_eq_iff_of_renders hpipe hrenders] at hcode
    exact .inr ⟨block, warnings, hparse, (c.passes.touches_eq_false_iff _).mp hcode⟩

/-- Where all tokens are simple, the code is settled. -/
theorem settled_of_simple (hpasses : c.passes.enabled .binding = true)
    (h : (c.compile r).1.errors = [])
    (hs : ∀ t ∈ (scan (c.readsMarkup r.id) r.text).tokens, t.kind.isSimple = true) :
    c.passes.Settled (c.readsMarkup r.id) r.id (c.compile r).1.code := by
  by_cases hm : Marker.ofText r.text = []
  · rw [c.code_compile_of_no_markers r hm]
    exact .inl hm
  · obtain ⟨block, warnings, hparse⟩ := c.exists_parse_of_compile r hm h
    obtain ⟨hdeep, hreach⟩ := (Node.exists_parse_iff r.id hs).mp ⟨_, hparse⟩
    obtain ⟨out, hwritten, hdeep', hkinds⟩ := scan_rewritten hdeep
    have hemit := Output.emits_rewritten hpasses hwritten
    rw [← Node.parse_of_simple hs hparse] at hemit
    obtain ⟨written, hout, hcode⟩ := hemit.exists_ok
    rw [c.compile_of_parse r hm hparse hout, hcode]
    have hs' : ∀ t ∈ (scan (c.readsMarkup r.id) out).tokens, t.kind.isSimple = true := by
      intro t ht
      have hmem : t.kind ∈ rebound false ((scan (c.readsMarkup r.id) r.text).tokens.map kind) :=
        hkinds ▸ List.mem_map_of_mem ht
      exact simple_of_rebound (by simpa using hs) t.kind hmem
    have hreach' : ∃ n, Kind.reach Literal.maxDepth none
        ((scan (c.readsMarkup r.id) out).tokens.map kind) = some n := by
      rwa [hkinds, reach_rebound]
    obtain ⟨⟨block', warnings'⟩, hparse'⟩ :=
      (Node.exists_parse_iff r.id hs').mpr ⟨hdeep', hreach'⟩
    refine .inr ⟨block', warnings', hparse', ?_⟩
    have hnone : bindings none (scan (c.readsMarkup r.id) out).tokens = [] :=
      bindings_of_rebound hkinds
    rw [Node.parse_of_simple hs' hparse', hnone]
    exact Node.replaces_gap c.passes 0 (width out)

/-! ### Default options -/

/-- Compiling the code once more gives no error and the same code. -/
def Stable (id code : Text) : Prop :=
  (compileText .default id code).1.errors = [] ∧ (compileText .default id code).1.code = code

theorem stable_of_settled {id code : Text}
    (h : Passes.standard.Settled (decide (SourceKind.ofId id = .markup)) id code) :
    Stable id code := by
  obtain ⟨c, hpasses, hmarkup, hcompile⟩ := exists_default
  rw [← hpasses, ← hmarkup] at h
  rw [Stable, hcompile]
  exact c.compile_of_settled ⟨id, code, false, false⟩ h

theorem settled_of_stable {id code : Text} (hpipe : Text.occurs ['|', '>'] code = false)
    (h : Stable id code) :
    Passes.standard.Settled (decide (SourceKind.ofId id = .markup)) id code := by
  obtain ⟨c, hpasses, hmarkup, hcompile⟩ := exists_default
  rw [Stable, hcompile] at h
  rw [← hpasses, ← hmarkup]
  exact (c.compile_eq_iff ⟨id, code, false, false⟩ hpipe).mp h

theorem settled_compileText {id text : Text} (h : (compileText .default id text).1.errors = [])
    (hs : ∀ t ∈ (scan (decide (SourceKind.ofId id = .markup)) text).tokens,
      t.kind.isSimple = true) :
    Passes.standard.Settled (decide (SourceKind.ofId id = .markup)) id
      (compileText .default id text).1.code := by
  obtain ⟨c, hpasses, hmarkup, hcompile⟩ := exists_default
  rw [hcompile] at h ⊢
  rw [← hmarkup] at hs ⊢
  rw [← hpasses]
  exact c.settled_of_simple ⟨id, text, false, false⟩ (by rw [hpasses]; rfl) h hs

/-- The calls that a chain stands for have no marker. -/
theorem ofText_compileText_chain (chain : Chain) (h : chain.depth ≤ 255) (id : Text) :
    Marker.ofText (compileText .default id chain.text).1.code = [] := by
  obtain ⟨c, hpasses, hmarkup, hcompile⟩ := exists_default
  obtain ⟨block, hparse, hemit⟩ := chain.parse_text h id (c.readsMarkup id)
  rw [← hpasses] at hemit
  obtain ⟨out, hout, hcode⟩ := hemit.exists_ok
  have hm : Marker.ofText chain.text ≠ [] :=
    List.ne_nil_of_mem (List.mem_filter.mpr ⟨by decide, chain.occurs_pipe⟩ : Marker.pipe ∈ _)
  rw [hcompile, c.compile_of_parse ⟨id, chain.text, false, false⟩ hm hparse hout, hcode]
  exact ofText_of_tight chain.tight

/-- Code is compiled to itself if nothing is left in it to replace, and without pipes only
then. That is so for texts without declarations and pipes, and for chains of pipes; a pipe
that found no stage may find one the next time. -/
theorem stable_code (id text : Text) (h : (compileText .default id text).1.errors = []) :
    let markup := decide (SourceKind.ofId id = .markup)
    let code := (compileText .default id text).1.code
    ((∀ t ∈ (scan markup text).tokens, t.kind.isSimple = true) → Stable id code) ∧
    (∀ chain : Chain, chain.depth ≤ 255 → text = chain.text → Stable id code) ∧
    (Passes.standard.Settled markup id code → Stable id code) ∧
    (Text.occurs ['|', '>'] code = false → Stable id code →
      Passes.standard.Settled markup id code) := by
  intro markup code
  refine ⟨fun hs => ?_, fun chain hdepth htext => ?_, stable_of_settled, settled_of_stable⟩
  · exact stable_of_settled (settled_compileText h hs)
  · subst htext
    exact stable_of_settled (.inl (ofText_compileText_chain chain hdepth id))

/-- A binding whose word stands in other places too is stable; `5` is no stage, and the pipe
behind it is left for the next time. -/
theorem stable_code_left_pipe :
    let id := "a.bs".toList
    let bound := (compileText .default id "let a = b.let(`let`); // let c".toList).1
    let left := (compileText .default id "x |> f |> 5 |> g".toList).1
    bound.errors = [] ∧ bound.code = "const a = b.let(`let`); // let c".toList ∧
      Stable id bound.code ∧
    left.errors = [] ∧ left.warnings = [] ∧ left.code = "f(x) |> g(5)".toList ∧
      (compileText .default id left.code).1.code = "g(f(x), 5)".toList ∧
      ¬ Passes.standard.Settled false id left.code := by
  intro id bound left
  have hruns : (bound.errors = [] ∧ bound.code = "const a = b.let(`let`); // let c".toList) ∧
      left.errors = [] ∧ left.warnings = [] ∧ left.code = "f(x) |> g(5)".toList ∧
      (compileText .default id left.code).1.code = "g(f(x), 5)".toList := by
    decide +kernel
  obtain ⟨⟨hbound, hconst⟩, hleft, hwarnings, hcode, hagain⟩ := hruns
  refine ⟨hbound, hconst, (stable_code id _ hbound).1 (by decide +kernel), hleft, hwarnings, hcode,
    hagain, fun hsettled => ?_⟩
  have hstable : Stable id left.code := (stable_code id _ hleft).2.2.1 hsettled
  rw [Stable, hagain, hcode] at hstable
  exact absurd hstable.2 (by decide)

end Compiler

end Desugar
