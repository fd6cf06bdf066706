import Desugar.Proofs.Compilation

/-! The two ways of a text without markers: it is passed on as it is, or it is read and
written like any other. They agree exactly where no pass replaces a construct of the text.
The constructs that markers miss have their keyword right after a letter, or before
something other than blanks and the start of a name in ASCII. -/
namespace Desugar

open Text Unicode

namespace Marker

/-! ### Keywords without a marker -/

/-- What may stand after a keyword and blanks for the keyword to be a marker. -/
def follows : Keyword → Char → Bool
  | .letWord => fun c => isNameStart c || c == '[' || c == '{'
  | _ => isNameStart

/-- The keyword stands at the offset, inside a longer word or not before blanks and what
may follow. -/
def Hidden (text : Text) (offset : Nat) (word : Keyword) : Prop :=
  ∃ before after, text = before ++ word.text ++ after ∧ width before = offset ∧
    (before.getLast?.any isWord = true ∨ after.head?.any isBlank = false ∨
      (after.dropWhile isBlank).head?.any (follows word) = false)

theorem startsWith_append (word : Text) (starts : Char → Bool) (after : Text) :
    startsWith word starts (word ++ after) =
      (after.head?.any isBlank && (after.dropWhile isBlank).head?.any starts) := by
  have hprefix : word.isPrefixOf (word ++ after) = true :=
    List.isPrefixOf_iff_prefix.mpr (List.prefix_append _ _)
  simp [startsWith, hprefix]

theorem hasWord_eq_false {word : Text} {starts : Char → Bool} {before after : Text}
    {last : Option Char} (hne : word ≠ [])
    (h : hasWord word starts last (before ++ word ++ after) = false) :
    (before.getLast?.or last).any isWord = true ∨
      startsWith word starts (word ++ after) = false := by
  induction before generalizing last with
  | nil =>
    obtain ⟨c, cs, rfl⟩ := List.exists_cons_of_ne_nil hne
    rw [List.nil_append, List.cons_append, hasWord, Bool.or_eq_false_iff,
      Bool.and_eq_false_iff] at h
    exact h.1.imp_left fun hlast => by simpa using hlast
  | cons c before ih =>
    rw [List.cons_append, List.cons_append, hasWord, Bool.or_eq_false_iff] at h
    have hlast : (c :: before).getLast?.or last = before.getLast?.or (some c) := by
      rw [List.getLast?_cons]
      cases before.getLast? <;> rfl
    rw [hlast]
    exact ih h.2

theorem occurs_eq_false {text : Text} (h : ofText text = []) (m : Marker) :
    occurs text m = false := by
  have hm : m ∈ all := by cases m <;> decide
  rw [ofText, List.filter_eq_nil_iff] at h
  simpa using h m hm

theorem hidden_of_opens {text : Text} {span : Span} {word : Keyword}
    (h : hasWord word.text (follows word) none text = false) (ho : Node.Opens text span word) :
    Hidden text span.start word := by
  obtain ⟨before, after, htext, hstart, _⟩ := slice?_eq_some_iff.mp ho.1
  have hne : word.text ≠ [] := by cases word <;> decide
  rw [htext] at h
  have hplace := hasWord_eq_false hne h
  rw [Option.or_none, startsWith_append, Bool.and_eq_false_iff] at hplace
  exact ⟨before, after, htext, hstart, hplace⟩

end Marker

/-- The keyword of the constructs that a pass replaces. -/
def Pass.word? : Pass → Option Keyword
  | .struct => some .structWord
  | .trait => some .traitWord
  | .impl => some .implWord
  | .binding => some .letWord
  | .pipe => none

namespace Node

/-! ### Constructs of a tiling -/

section Members

variable {text : Text}

mutual

theorem fits_of_mem_subnodesOf : ∀ {start stop : Nat} {ns : List Node}, Tiles text start stop ns →
    ∀ n ∈ subnodesOf ns, Fits text n
  | _, _, _, .nil _ => nofun
  | _, _, _, .cons _ _ hfits h => by
    intro n hn
    rw [subnodesOf, List.mem_append] at hn
    rcases hn with hn | hn
    · exact fits_of_mem_subnodes hfits n hn
    · exact fits_of_mem_subnodesOf h n hn

theorem fits_of_mem_subnodes : ∀ {m : Node}, Fits text m → ∀ n ∈ m.subnodes, Fits text n
  | _, .other => by
    intro n hn
    rw [List.mem_singleton.mp hn]
    exact .other
  | _, .binding ho => by
    intro n hn
    rw [List.mem_singleton.mp hn]
    exact .binding ho
  | _, .struct ho => by
    intro n hn
    rw [List.mem_singleton.mp hn]
    exact .struct ho
  | _, .trait ho hin hbody hout => by
    intro n hn
    rcases List.mem_cons.mp hn with rfl | hn
    · exact .trait ho hin hbody hout
    · exact fits_of_mem_subnodesOf hbody n hn
  | _, .impl ho hin hbody hout => by
    intro n hn
    rcases List.mem_cons.mp hn with rfl | hn
    · exact .impl ho hin hbody hout
    · exact fits_of_mem_subnodesOf hbody n hn
  | _, .pipe hin hhead hne hsign hfollows => by
    intro n hn
    rcases List.mem_cons.mp hn with rfl | hn
    · exact .pipe hin hhead hne hsign hfollows
    · rcases List.mem_append.mp hn with hn | hn
      · exact fits_of_mem_subnodesOf hhead n hn
      · exact fits_of_mem_subnodesOfStages hfollows n hn

theorem fits_of_mem_subnodesOfStages : ∀ {start stop : Nat} {stages : List Stage},
    Follows text start stop stages →
    ∀ n ∈ subnodesOfStages stages, Fits text n
  | _, _, _, .nil _ _ _ => nofun
  | _, _, _, .bare h => by
    rw [subnodesOfStages]
    exact fits_of_mem_subnodesOfStages h
  | _, _, _, .call _ _ hargs h => by
    intro n hn
    rcases List.mem_append.mp hn with hn | hn
    · exact fits_of_mem_subnodesOf hargs n hn
    · exact fits_of_mem_subnodesOfStages h n hn
  | _, _, _, .group _ _ hbody h => by
    intro n hn
    rcases List.mem_append.mp hn with hn | hn
    · exact fits_of_mem_subnodesOf hbody n hn
    · exact fits_of_mem_subnodesOfStages h n hn

end

end Members

/-- A construct of a text without markers has its keyword hidden; there is no pipe. -/
theorem hidden_of_fits {text : Text} {n : Node} {p : Pass} (hnone : Marker.ofText text = [])
    (hfits : Fits text n) (hp : Pass.ofNode? n = some p) :
    ∃ word, p.word? = some word ∧ Marker.Hidden text n.span.start word := by
  cases hfits with
  | other => cases hp
  | binding ho =>
    cases hp
    exact ⟨.letWord, rfl, Marker.hidden_of_opens (Marker.occurs_eq_false hnone .binding) ho⟩
  | struct ho =>
    cases hp
    exact ⟨.structWord, rfl, Marker.hidden_of_opens (Marker.occurs_eq_false hnone .struct) ho⟩
  | trait ho _ _ _ =>
    cases hp
    exact ⟨.traitWord, rfl, Marker.hidden_of_opens (Marker.occurs_eq_false hnone .trait) ho⟩
  | impl ho _ _ _ =>
    cases hp
    exact ⟨.implWord, rfl, Marker.hidden_of_opens (Marker.occurs_eq_false hnone .impl) ho⟩
  | pipe _ _ _ hsign _ =>
    obtain ⟨before, after, htext, _⟩ := slice?_eq_some_iff.mp hsign
    have hpipe : Text.occurs ['|', '>'] text = true := occurs_iff.mpr ⟨before, after, htext⟩
    have hmarker := Marker.occurs_eq_false hnone .pipe
    rw [Marker.occurs, hpipe] at hmarker
    cases hmarker

end Node

theorem Passes.touches_eq_false_iff (passes : Passes) (ns : List Node) :
    passes.touches ns = false ↔ ∀ n ∈ ns, passes.replaces n = false := by
  rw [touches, List.any_eq_false]
  simp only [Bool.not_eq_true]

namespace Compiler

/-- Without pipes, touched code is not the text. -/
theorem code_eq_iff_of_renders {text code : Text} {touched : Bool}
    (hpipe : Text.occurs ['|', '>'] text = false)
    (h : Renders text 0 (width text) touched code) : code = text ↔ touched = false := by
  constructor
  · intro hcode
    obtain ⟨piece, hpiece, _, hparts⟩ := h
    obtain rfl : piece = text := Option.some.inj (hpiece.symm.trans (slice?_whole text))
    cases touched with
    | false => rfl
    | true => exact absurd hcode.symm (hparts rfl hpipe).ne
  · rintro rfl
    exact Output.code_eq_of_renders h

theorem code_compile_of_no_markers (c : Compiler) (r : Request)
    (hnone : Marker.ofText r.text = []) : (c.compile r).1.code = r.text := by
  rw [c.compile_of_no_markers r hnone]

/-- A text without markers is passed on as it is. Read and written, it stays the same exactly
if none of its constructs is replaced, and each of them has its keyword where no marker
shows it. -/
theorem full_path_of_no_markers (c : Compiler) (r : Request) {block : Block}
    {warnings : List Warning} (hnone : Marker.ofText r.text = [])
    (hparse : Node.parse r.id r.text (c.readsMarkup r.id) = .ok (block, warnings)) :
    (c.compile r).1.code = r.text ∧
    (∃ out, Output.emit c.passes r.text block = .ok out ∧
      (out.code = r.text ↔ ∀ n ∈ Node.subnodesOf block.nodes, c.passes.replaces n = false)) ∧
    ∀ n ∈ Node.subnodesOf block.nodes, ∀ p, Pass.ofNode? n = some p →
      ∃ word, p.word? = some word ∧ Marker.Hidden r.text n.span.start word := by
  refine ⟨code_compile_of_no_markers c r hnone, ?_, fun n hn p hp => ?_⟩
  · obtain ⟨out, hout, hrenders⟩ := Output.renders_of_parse c.passes hparse
    exact ⟨out, hout, (code_eq_iff_of_renders (Marker.occurs_eq_false hnone .pipe) hrenders).trans
      (c.passes.touches_eq_false_iff _)⟩
  · have hfits := Node.fits_of_mem_subnodesOf (Node.tiles_of_parse hparse) n hn
    exact Node.hidden_of_fits hnone hfits hp

/-- A name that starts outside ASCII hides its `let`. -/
theorem full_path_of_no_markers_accented :
    let c : Compiler := ⟨.default, ⟨[], []⟩, .standard⟩
    let r : Request := ⟨"a.bs".toList, "let é = 1;".toList, false, false⟩
    ∃ block warnings out, Marker.ofText r.text = [] ∧
      Node.parse r.id r.text (c.readsMarkup r.id) = .ok (block, warnings) ∧
      (c.compile r).1.code = r.text ∧
      Output.emit c.passes r.text block = .ok out ∧ out.code = "const é = 1;".toList ∧
      ∃ n ∈ Node.subnodesOf block.nodes, c.passes.replaces n = true := by
  intro c r
  have hnone : Marker.ofText r.text = [] := by decide +kernel
  obtain ⟨⟨block, warnings⟩, hparse, hwritten⟩ :=
    exists_ok_of_map (x := Node.parse r.id r.text (c.readsMarkup r.id))
      (f := fun read => (Output.emit c.passes r.text read.1).toOption.map Output.code)
      (b := some "const é = 1;".toList) (by decide +kernel)
  obtain ⟨hcompile, ⟨out, hout, hsame⟩, _⟩ := full_path_of_no_markers c r hnone hparse
  have hcode : out.code = "const é = 1;".toList := by
    rw [hout] at hwritten
    exact Option.some.inj hwritten
  refine ⟨block, warnings, out, hnone, hparse, hcompile, hout, hcode, ?_⟩
  have hne : out.code ≠ r.text := by
    rw [hcode]
    decide +kernel
  rw [Ne, hsame, ← Passes.touches_eq_false_iff, Bool.not_eq_false] at hne
  exact List.any_eq_true.mp hne

end Compiler

end Desugar
