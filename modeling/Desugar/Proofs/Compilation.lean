import Desugar.Compiler
import Desugar.Proofs.Emission
import Desugar.Proofs.Reading

/-! Reading and writing put together. A text that is read is tiled by its nodes, so writing
them succeeds with any passes, and without passes it gives the text back. The only fault
left is nesting that goes too deep. -/
namespace Desugar

open Text Token

/-! ### Reading and writing -/

theorem Node.tiles_of_parse {file text : Text} {markup : Bool} {block : Block}
    {warnings : List Warning} (h : Node.parse file text markup = .ok (block, warnings)) :
    Node.Tiles text 0 (width text) block.nodes := by
  have hends := Node.Parse.parse_ends file text markup
  rw [h] at hends
  obtain ⟨us, rest, ns, htokens, _, hseq, hblock⟩ := hends
  have hall : Layout text (us ++ rest) := htokens ▸ layout_scan markup text
  obtain rfl : block = _ := hblock
  exact Node.tiles_of_sequence hseq (.whole hall.append_left)

namespace Output

theorem renders_of_parse (passes : Passes) {file text : Text} {markup : Bool} {block : Block}
    {warnings : List Warning} (h : Node.parse file text markup = .ok (block, warnings)) :
    ∃ out, emit passes text block = .ok out ∧
      Renders text 0 (width text) (passes.touches (Node.subnodesOf block.nodes)) out.code :=
  (emitNodes_ends (Node.tiles_of_parse h)).exists_ok

/-- Untouched code is the text. -/
theorem code_eq_of_renders {text code : Text} (h : Renders text 0 (width text) false code) :
    code = text := by
  obtain ⟨piece, hpiece, hcopy, _⟩ := h
  rw [hcopy rfl]
  exact Option.some.inj (hpiece.symm.trans (slice?_whole text))

theorem replaces_none (n : Node) : Passes.none.replaces n = false := by
  cases n <;> rfl

theorem touches_none (ns : List Node) : Passes.none.touches ns = false := by
  rw [Passes.touches, List.any_eq_false]
  intro n _
  rw [replaces_none]
  decide

/-- Without passes, a text that is read is written back as it was. -/
theorem code_emit_none {file text : Text} {markup : Bool} {block : Block} {warnings : List Warning}
    (h : Node.parse file text markup = .ok (block, warnings)) :
    ∃ out, emit Passes.none text block = .ok out ∧ out.code = text := by
  obtain ⟨out, hout, hrenders⟩ := renders_of_parse Passes.none h
  rw [touches_none] at hrenders
  exact ⟨out, hout, code_eq_of_renders hrenders⟩

theorem code_emit_none_nested_pipe :
    let text := "let y = (a |> f) |> g(1);\nstruct P".toList
    ∃ block warnings out, Node.parse "a.bs".toList text false = .ok (block, warnings) ∧
      block.nodes.map Node.span = [⟨0, 3⟩, ⟨3, 8⟩, ⟨8, 24⟩, ⟨24, 34⟩] ∧
      emit Passes.none text block = .ok out ∧ out.code = text := by
  intro text
  obtain ⟨⟨block, warnings⟩, h, hspans⟩ :=
    exists_ok_of_map (x := Node.parse "a.bs".toList text false)
      (f := fun r => r.1.nodes.map Node.span) (b := [⟨0, 3⟩, ⟨3, 8⟩, ⟨8, 24⟩, ⟨24, 34⟩])
      (by decide +kernel)
  obtain ⟨out, hout, hcode⟩ := code_emit_none h
  exact ⟨block, warnings, out, h, hspans, hout, hcode⟩

end Output

namespace Compiler

/-! ### The ways of a compilation -/

section Ways

variable (c : Compiler) (r : Request)

theorem compile_of_no_markers (hm : Marker.ofText r.text = []) :
    c.compile r = (⟨r.text, none, Import.ofText (c.readsMarkup r.id) r.text, [], []⟩, []) := by
  simp only [compile, attempt, hm, List.isEmpty_nil, if_true]

theorem compile_of_fault (hm : Marker.ofText r.text ≠ []) {fault : Fault}
    (h : Node.parse r.id r.text (c.readsMarkup r.id) = .error fault) :
    c.compile r = (.failure (Diagnostic.ofFault fault).text,
      [.failed r.id ((Diagnostic.ofFault fault).location.map Location.line) fault]) := by
  have hmarkers : (Marker.ofText r.text).isEmpty = false := List.isEmpty_eq_false_iff.mpr hm
  simp only [compile, attempt, hmarkers, h, Bool.false_eq_true, if_false, Bind.bind, Except.bind]

theorem compile_of_parse (hm : Marker.ofText r.text ≠ []) {block : Block}
    {warnings : List Warning} {out : Output}
    (h : Node.parse r.id r.text (c.readsMarkup r.id) = .ok (block, warnings))
    (hout : Output.emit c.passes r.text block = .ok out) :
    c.compile r =
      (⟨out.code,
        if c.options.sourceMaps then some (Mapping.render r.id r.text out.code out.anchors)
        else none,
        Import.ofText (c.readsMarkup r.id) out.code,
        warnings.map fun w => (w.diagnostic r.id).text, []⟩,
      if c.options.verbose then
        [.compiled r.id (Marker.ofText r.text) c.passes r.build r.ssr,
          .output (out.code.take previewLength)]
      else []) := by
  have hmarkers : (Marker.ofText r.text).isEmpty = false := List.isEmpty_eq_false_iff.mpr hm
  simp only [compile, attempt, hmarkers, h, hout, Bool.false_eq_true, if_false, Bind.bind,
    Except.bind]
  rfl

end Ways

/-- A compiler with the default options. -/
theorem exists_default : ∃ c : Compiler, c.passes = .standard ∧
    (∀ id, c.readsMarkup id = decide (SourceKind.ofId id = .markup)) ∧
    ∀ id text, compileText .default id text = c.compile ⟨id, text, false, false⟩ := by
  obtain ⟨c, hc, hfields⟩ := exists_ok_of_map (x := ofOptions .default)
    (f := fun c => (c.passes, c.options.markupPassthrough)) (b := (.standard, true))
    (by decide +kernel)
  rw [Prod.mk.injEq] at hfields
  refine ⟨c, hfields.1, fun id => ?_, fun id text => ?_⟩
  · rw [readsMarkup, hfields.2, Bool.and_true]
  · rw [compileText, hc]

/-- Only nesting that goes too deep stops a compilation. -/
theorem attempt_ends (c : Compiler) (r : Request) :
    Ends (Node.Parse.TooDeep r.id) (fun done => done.1.errors = []) (c.attempt r) := by
  cases hm : (Marker.ofText r.text).isEmpty with
  | true =>
    simp only [attempt, hm, if_true]
    rfl
  | false =>
    simp only [attempt, hm, Bool.false_eq_true, if_false]
    cases hp : Node.parse r.id r.text (c.readsMarkup r.id) with
    | error fault =>
      have hends := Node.Parse.parse_ends r.id r.text (c.readsMarkup r.id)
      rw [hp] at hends
      exact hends
    | ok read =>
      obtain ⟨block, warnings⟩ := read
      obtain ⟨out, hout, _⟩ := Output.renders_of_parse c.passes hp
      simp only [Bind.bind, Except.bind, hout]
      rfl

theorem text_of_tooDeep {file : Text} {fault : Fault} (h : Node.Parse.TooDeep file fault) :
    ∃ line column : Nat, (Diagnostic.ofFault fault).text =
      s!"{String.ofList file}:{line}:{column}: imbrication trop profonde (limite 256)" := by
  obtain ⟨line, column, rfl⟩ := h
  refine ⟨line, column, ?_⟩
  have hdepth : Fault.depthMessage Literal.maxDepth = "imbrication trop profonde (limite 256)" := by
    decide +kernel
  have hsplit : ": imbrication trop profonde (limite 256)" =
      ": " ++ "imbrication trop profonde (limite 256)" := by
    decide +kernel
  show s!"{String.ofList file}:{line}:{column}: {Fault.depthMessage Literal.maxDepth}" = _
  rw [hdepth, hsplit]
  simp only [toString, String.append_assoc]

/-- Reading fails only where nesting goes too deep and writing never does, so a compilation
has no error or that one alone. -/
theorem faults_only_by_depth (c : Compiler) (r : Request) (file text : Text) (markup : Bool) :
    ((∃ block warnings, Node.parse file text markup = .ok (block, warnings) ∧
        ∀ passes, ∃ out, Output.emit passes text block = .ok out) ∨
      ∃ line column, Node.parse file text markup = .error (.tooDeep ⟨file, line, column⟩ 256)) ∧
    ((c.compile r).1.errors = [] ∨
      ∃ line column : Nat, (c.compile r).1 =
        ⟨[], none, [], [],
          [s!"{String.ofList r.id}:{line}:{column}: imbrication trop profonde (limite 256)"]⟩) := by
  constructor
  · cases hp : Node.parse file text markup with
    | ok read =>
      obtain ⟨block, warnings⟩ := read
      refine .inl ⟨block, warnings, rfl, fun passes => ?_⟩
      obtain ⟨out, hout, _⟩ := Output.renders_of_parse passes hp
      exact ⟨out, hout⟩
    | error fault =>
      have hends := Node.Parse.parse_ends file text markup
      rw [hp] at hends
      obtain ⟨line, column, rfl⟩ := hends
      exact .inr ⟨line, column, rfl⟩
  · have hends := attempt_ends c r
    unfold compile
    cases hc : c.attempt r with
    | ok done =>
      rw [hc] at hends
      exact .inl hends
    | error fault =>
      rw [hc] at hends
      obtain ⟨line, column, htext⟩ := text_of_tooDeep hends
      exact .inr ⟨line, column, by rw [← htext]; rfl⟩

end Compiler

end Desugar
