import Desugar.Proofs.Comparison
import Desugar.Proofs.Compilation

/-! What the name of a file has to do with its compilation. Giving the file another name commutes
with reading it, and what is left of the name in a compilation are the places of its
diagnostics. -/
namespace Desugar

open Text

namespace Node

namespace Parse

open Token

def Source.inFile (file : Text) (source : Source) : Source := { source with file := file }

/-- By induction on the room: the name of the file shows only in the fault of nesting too deep. -/
theorem sequence_moved {source : Source} {all : List Token} (hall : Layout source.text all)
    (file : Text) (room : Nat) :
    (sequence source room).Tracks (.moved file) all Eq (fun _ => True)
      (sequence (source.inFile file) room) := by
  induction room with
  | zero =>
    refine fun _ _ tokens _ _ _ _ => ⟨fun _ => nofun, fun _ => nofun, ?_⟩
    rintro _ ⟨⟩ _ ⟨⟩
    rfl
  | succ room ih =>
    have htext : (source.inFile file).text = source.text := rfl
    have hkeeps : Keeps source (source.inFile file) (.moved file) all (sequence source room) Eq
        (fun _ => True) := closed_eq.keeps hall htext (fun _ _ _ heq => heq ▸ rfl) _ _
    exact fun close last tokens notes notes' hts hnotes =>
      items_tracks hkeeps ih close last 0 hts hnotes

end Parse

open Parse

/-- Under another name a text has the same constructs and warnings, or nests too deep at the
same place. -/
theorem parse_moved (file other text : Text) (markup : Bool) :
    parse other text markup = (parse file text markup).mapError (Fault.inFile other) := by
  have hall := Token.layout_scan markup text
  unfold parse parseTokens
  split
  next => rfl
  next =>
    have htracks := @sequence_moved ⟨file, text, true⟩ _ hall other Literal.maxDepth none none _
      .empty .empty List.suffix_rfl rfl
    cases hread : sequence ⟨file, text, true⟩ Literal.maxDepth none none
        (Token.scan markup text).tokens .empty with
    | error fault =>
      have hfault := htracks.fault other rfl fault hread
      rw [show sequence ⟨other, text, true⟩ Literal.maxDepth none none
        (Token.scan markup text).tokens .empty = _ from hfault]
      rfl
    | ok f =>
      obtain ⟨g, halike, hg⟩ := htracks.same f hread
      rw [show sequence ⟨other, text, true⟩ Literal.maxDepth none none
        (Token.scan markup text).tokens .empty = _ from hg.resolve_right fun h => h.1, ← halike.eq]
      rfl

end Node

/-! ### Compilations -/

/-- The error that nesting goes too deep at a place. -/
def Diagnostic.depth (file : Text) (line column : Nat) : Diagnostic :=
  (Diagnostic.error (Fault.depthMessage Literal.maxDepth)).located ⟨file, line, column⟩

theorem Diagnostic.text_located (d : Diagnostic) (file : Text) (line column : Nat) :
    (d.located ⟨file, line, column⟩).text =
      String.ofList file ++ s!":{line}:{column}: {d.message}" := by
  simp only [located, text, toString, String.append_assoc]

/-- A warning as it is shown behind the name of its file. -/
def Warning.unnamed (w : Warning) : String :=
  s!":{w.place.line}:{w.place.column}: {w.cause.message}"

/-- Compilations of files called `file` and `other` that differ by these names alone, apart
from their maps. -/
structure Compilation.Agree (file other : Text) (x y : Compilation) : Prop where
  code : x.code = y.code
  dependencies : x.dependencies = y.dependencies
  warnings : ∃ messages : List String,
    x.warnings = messages.map (String.ofList file ++ ·) ∧
    y.warnings = messages.map (String.ofList other ++ ·)
  errors : x.errors = [] ∧ y.errors = [] ∨ ∃ line column,
    x.errors = [(Diagnostic.depth file line column).text] ∧
    y.errors = [(Diagnostic.depth other line column).text]

namespace Compiler

def withSourceMaps (on : Bool) (c : Compiler) : Compiler :=
  { c with options := { c.options with sourceMaps := on } }

theorem agree_compile {c d : Compiler} {r s : Request} (hpasses : c.passes = d.passes)
    (htext : r.text = s.text) (hmarkup : c.readsMarkup r.id = d.readsMarkup s.id) :
    Compilation.Agree r.id s.id (c.compile r).1 (d.compile s).1 := by
  by_cases hm : Marker.ofText r.text = []
  · have hm' : Marker.ofText s.text = [] := htext ▸ hm
    rw [c.compile_of_no_markers r hm, d.compile_of_no_markers s hm', ← htext, ← hmarkup]
    exact ⟨rfl, rfl, ⟨[], rfl, rfl⟩, .inl ⟨rfl, rfl⟩⟩
  · have hm' : Marker.ofText s.text ≠ [] := htext ▸ hm
    have hmoved := Node.parse_moved r.id s.id r.text (c.readsMarkup r.id)
    have hends := Node.Parse.parse_ends r.id r.text (c.readsMarkup r.id)
    cases hp : Node.parse r.id r.text (c.readsMarkup r.id) with
    | error fault =>
      rw [hp] at hends hmoved
      rw [htext, hmarkup] at hmoved
      rw [c.compile_of_fault r hm hp, d.compile_of_fault s hm' hmoved]
      obtain ⟨line, column, rfl⟩ := hends
      exact ⟨rfl, rfl, ⟨[], rfl, rfl⟩, .inr ⟨line, column, rfl, rfl⟩⟩
    | ok read =>
      obtain ⟨block, warnings⟩ := read
      obtain ⟨out, hout, _⟩ := Output.renders_of_parse c.passes hp
      rw [hp, htext, hmarkup] at hmoved
      have hout' : Output.emit d.passes s.text block = .ok out := by rw [← hpasses, ← htext, hout]
      rw [c.compile_of_parse r hm hp hout, d.compile_of_parse s hm' hmoved hout', ← hmarkup]
      refine ⟨rfl, rfl, ⟨warnings.map Warning.unnamed, ?_, ?_⟩, .inl ⟨rfl, rfl⟩⟩ <;>
      · rw [List.map_map]
        exact List.map_congr_left fun w _ => Diagnostic.text_located _ _ _ _

theorem compile_withSourceMaps (c : Compiler) (r : Request) (on : Bool) :
    ∃ map, (on = false → map = none) ∧ (c.withSourceMaps on).compile r =
      ({ (c.compile r).1 with map := map }, (c.compile r).2) := by
  by_cases hm : Marker.ofText r.text = []
  · rw [compile_of_no_markers _ r hm, c.compile_of_no_markers r hm]
    exact ⟨none, fun _ => rfl, rfl⟩
  · cases hp : Node.parse r.id r.text (c.readsMarkup r.id) with
    | error fault =>
      rw [(c.withSourceMaps on).compile_of_fault r hm hp, c.compile_of_fault r hm hp]
      exact ⟨none, fun _ => rfl, rfl⟩
    | ok read =>
      obtain ⟨block, warnings⟩ := read
      obtain ⟨out, hout, _⟩ := Output.renders_of_parse c.passes hp
      rw [(c.withSourceMaps on).compile_of_parse r hm hp hout, c.compile_of_parse r hm hp hout]
      refine ⟨if on then some (Mapping.render r.id r.text out.code out.anchors) else none, ?_, rfl⟩
      rintro rfl
      rfl

/-- Only the text, the passes and the reading of markup decide what a compilation comes to:
names and all other options show in the places of its diagnostics and in its map. -/
theorem compile_depends_on_text_passes_markup (c d : Compiler) (r s : Request)
    (hpasses : c.passes = d.passes) (htext : r.text = s.text)
    (hmarkup : c.readsMarkup r.id = d.readsMarkup s.id) :
    Compilation.Agree r.id s.id (c.compile r).1 (d.compile s).1 ∧
    ∀ on, ∃ map, (on = false → map = none) ∧ (c.withSourceMaps on).compile r =
      ({ (c.compile r).1 with map := map }, (c.compile r).2) :=
  ⟨agree_compile hpasses htext hmarkup, compile_withSourceMaps c r⟩

/-- Two names, two sets of options, one warning. -/
theorem compile_depends_on_text_passes_markup_renamed :
    let c : Compiler := ⟨.default, ⟨[], []⟩, .standard⟩
    let d : Compiler := ⟨{ Options.default with
      target := .es5, markupPassthrough := false, development := true }, ⟨[], []⟩, .standard⟩
    let r : Request := ⟨"a.bs".toList, "let y = a |> 1;".toList, true, false⟩
    let s : Request := ⟨"b.bsx".toList, "let y = a |> 1;".toList, false, true⟩
    c.passes = d.passes ∧ r.text = s.text ∧ c.readsMarkup r.id = d.readsMarkup s.id ∧
      (c.compile r).1.warnings = ["a.bs:1:11: `|>` sans étape valide ; laissé tel quel"] ∧
      (d.compile s).1.warnings = ["b.bsx:1:11: `|>` sans étape valide ; laissé tel quel"] ∧
      Compilation.Agree r.id s.id (c.compile r).1 (d.compile s).1 ∧
      ∀ on, ∃ map, (on = false → map = none) ∧ (c.withSourceMaps on).compile r =
        ({ (c.compile r).1 with map := map }, (c.compile r).2) := by
  intro c d r s
  have hmarkup : c.readsMarkup r.id = d.readsMarkup s.id := by decide +kernel
  exact ⟨rfl, rfl, hmarkup, by decide +kernel, by decide +kernel,
    compile_depends_on_text_passes_markup c d r s rfl rfl hmarkup⟩

end Compiler

end Desugar
