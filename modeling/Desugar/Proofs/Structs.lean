import Mathlib.Data.List.TakeWhile
import Desugar.Proofs.Atoms
import Desugar.Proofs.Lowering

/-! Compiling a struct. Its body is cut at the semicolons that stand outside all brackets, and every
part that is not blank becomes a line of the type that is written: no field is lost, joined with
another, cut in two or changed, however its brackets nest. -/
namespace Desugar

open Unicode Text Token Node

/-! ### Syntax -/

/-- May the atom stand anywhere in a field, without a say in where the field ends? -/
def Atom.isPlain : Atom → Bool
  | .word _ | .number _ | .gap _ => true
  | .sign .colon | .sign .comma | .sign .query => true
  | _ => false

/-- Is the atom no gap? -/
def Atom.isItem (x : Atom) : Bool := x.kind?.isSome

/-- The brackets that are open behind an atom, the innermost first. None if it may not stand
there: a bracket is closed by one of its kind, and a semicolon stands only inside brackets. -/
def Atom.nest? (opened : List Bracket) (x : Atom) : Option (List Bracket) :=
  match x, opened with
  | .sign (.opening b), _ => some (b :: opened)
  | .sign (.closing b), c :: below => if b = c then some below else none
  | .sign .semicolon, _ :: _ => some opened
  | _, _ => if x.isPlain then some opened else none

/-- A field: words, numbers, signs and groups in brackets, with gaps between them wherever two of
them would run together. -/
structure Field where
  atoms : List Atom
  balanced : atoms.foldlM Atom.nest? [] = some []
  separate : Atom.Separate [] atoms
  starts : atoms.head?.any Atom.isItem = true
  ends : atoms.getLast?.any Atom.isItem = true

/-- What stands between two semicolons of a body: blanks, or a field between blanks. -/
structure Slot where
  before : Gap
  field? : Option Field
  after : Gap

/-- Names of type parameters with a comma and gaps between every two. -/
structure Params where
  first : Word
  others : List (Gap × Gap × Word)

structure Record where
  name : Identifier
  params : Option Params
  first : Slot
  others : List Slot

def Field.text (f : Field) : Text := Atom.written f.atoms

def Slot.text (s : Slot) : Text := s.before.text ++ s.field?.elim [] Field.text ++ s.after.text

def Params.text (p : Params) : Text :=
  p.first.text ++ p.others.flatMap fun o => o.1.text ++ ',' :: o.2.1.text ++ o.2.2.text

namespace Record

/-- The name and the type parameters of a struct, as they are written in both languages. -/
def head (r : Record) : Text :=
  r.name.text ++ r.params.elim [] fun p => '<' :: p.text ++ ['>']

/-- The text of a struct. -/
def text (r : Record) : Text :=
  "struct ".toList ++ r.head ++ " \x7b".toList ++
    (r.first.text ++ r.others.flatMap fun s => ';' :: s.text) ++ ['}']

def fields (r : Record) : List Field := (r.first :: r.others).filterMap Slot.field?

/-- The type that a struct stands for. -/
def lower (r : Record) : Text :=
  "type ".toList ++ r.head ++
    match r.fields with
    | [] => " = \x7b\x7d;".toList
    | fs => " = \x7b\n".toList ++ (fs.flatMap fun f => "  ".toList ++ f.text ++ ";\n".toList) ++
        "\x7d;".toList

end Record

/-! ### Atoms of a struct -/

theorem Atom.written_flatMap {α : Type} (xs : List α) (f : α → List Atom) :
    Atom.written (xs.flatMap f) = xs.flatMap fun x => Atom.written (f x) :=
  List.flatMap_assoc

namespace Field

theorem firm (f : Field) : Firm f.text := by
  obtain ⟨x, hx, hitem⟩ := (Option.any_eq_true _ _).mp f.starts
  obtain ⟨y, hy, hitem'⟩ := (Option.any_eq_true _ _).mp f.ends
  obtain ⟨k, hk⟩ := Option.isSome_iff_exists.mp hitem
  obtain ⟨l, hl⟩ := Option.isSome_iff_exists.mp hitem'
  obtain ⟨xs, hxs⟩ := List.head?_eq_some_iff.mp hx
  obtain ⟨ys, hys⟩ := List.getLast?_eq_some_iff.mp hy
  constructor
  · rw [text, hxs]
    exact (Atom.firm_text hk).1.append _
  · rw [text, hys, Atom.written_append]
    refine EndsFirm.append ?_ _
    rw [Atom.written_cons, Atom.written_nil, List.append_nil]
    exact (Atom.firm_text hl).2

end Field

namespace Slot

def atoms (s : Slot) : List Atom :=
  .gap s.before :: (s.field?.elim [] Field.atoms ++ [.gap s.after])

theorem written_atoms (s : Slot) : Atom.written s.atoms = s.text := by
  cases h : s.field? <;> simp [atoms, text, h, Atom.text, Field.text]

theorem balanced (s : Slot) : s.atoms.foldlM Atom.nest? [] = some [] := by
  show (s.field?.elim [] Field.atoms ++ [Atom.gap s.after]).foldlM Atom.nest? [] = some []
  cases s.field? with
  | none => rfl
  | some f =>
    rw [Option.elim_some, List.foldlM_append, f.balanced]
    rfl

theorem separate (s : Slot) {cs : Text} (h : Atom.Detached cs) : Atom.Separate cs s.atoms := by
  refine ⟨fun _ _ => rfl, Atom.separate_append.mpr ⟨?_, fun _ _ => rfl, trivial⟩⟩
  cases s.field? with
  | none => trivial
  | some f =>
    rw [Atom.written_cons, Atom.written_nil, List.append_nil]
    exact .of_detached (h.gap s.after) f.separate

end Slot

/-- The atoms of a body, with semicolons between the slots. -/
def Slot.body (first : Slot) (others : List Slot) : List Atom :=
  first.atoms ++ others.flatMap fun s => .sign .semicolon :: s.atoms

theorem Slot.written_body (first : Slot) (others : List Slot) :
    Atom.written (Slot.body first others) =
      first.text ++ others.flatMap fun s => ';' :: s.text := by
  have hothers : (others.flatMap fun s => Atom.written (.sign .semicolon :: s.atoms)) =
      others.flatMap fun s => ';' :: s.text :=
    congrArg others.flatMap (funext fun s => congrArg (';' :: ·) s.written_atoms)
  rw [Slot.body, Atom.written_append, first.written_atoms, Atom.written_flatMap, hothers]

theorem Slot.detached_others {cs : Text} (h : Atom.Detached cs) (others : List Slot) :
    Atom.Detached (Atom.written (others.flatMap fun s => .sign .semicolon :: s.atoms) ++ cs) := by
  cases others with
  | nil => exact h
  | cons s others => exact .sign .semicolon _

theorem Slot.separate_body {cs : Text} (h : Atom.Detached cs) (first : Slot) (others : List Slot) :
    Atom.Separate cs (Slot.body first others) := by
  refine Atom.separate_append.mpr ⟨first.separate (detached_others h others), ?_⟩
  induction others with
  | nil => trivial
  | cons s others ih =>
    exact ⟨fun _ _ => rfl, Atom.separate_append.mpr ⟨s.separate (detached_others h others), ih⟩⟩

namespace Params

def atoms (p : Params) : List Atom :=
  .word p.first :: p.others.flatMap fun o => [.gap o.1, .sign .comma, .gap o.2.1, .word o.2.2]

theorem written_atoms (p : Params) : Atom.written p.atoms = p.text := by
  rw [atoms, text, Atom.written_cons, Atom.written_flatMap]
  simp [Atom.text, Sign.char]

theorem isPlain_of_mem (p : Params) {x : Atom} (h : x ∈ p.atoms) : x.isPlain = true := by
  rcases List.mem_cons.mp h with rfl | h
  · rfl
  · obtain ⟨o, -, ho⟩ := List.mem_flatMap.mp h
    simp only [List.mem_cons, List.not_mem_nil, or_false] at ho
    rcases ho with rfl | rfl | rfl | rfl <;> rfl

theorem separate (p : Params) {cs : Text} (h : Atom.Detached cs) : Atom.Separate cs p.atoms := by
  obtain ⟨first, others⟩ := p
  induction others generalizing first with
  | nil => exact ⟨h.bounded _, trivial⟩
  | cons o others ih =>
    have hcomma : Atom.Detached (o.1.text ++ ',' :: (o.2.1.text ++ Atom.written
        (atoms ⟨o.2.2, others⟩) ++ cs)) := .gap (.sign .comma _) o.1
    refine ⟨?_, fun _ _ => rfl, fun _ _ => rfl, fun _ _ => rfl, ih o.2.2⟩
    simpa [atoms, Atom.text, Sign.char] using hcomma.bounded (.word first)

theorem firm (p : Params) : Firm p.text := by
  have hword (w : Word) : Firm w.text := Atom.firm_text (x := .word w) rfl
  refine ⟨(hword p.first).1.append _, ?_⟩
  rw [text]
  rcases List.eq_nil_or_concat p.others with hothers | ⟨others, o, hothers⟩
  · rw [hothers, List.flatMap_nil, List.append_nil]
    exact (hword p.first).2
  · rw [hothers, List.concat_eq_append, List.flatMap_append, List.flatMap_singleton]
    exact (((hword o.2.2).2.append _).append _).append _

end Params

namespace Record

def structWord : Word := ⟨'s', "truct".toList, by decide, by decide⟩

def space : Gap := ⟨[' '], by decide⟩

/-- The name of a struct and its type parameters. -/
def named (r : Record) : List Atom :=
  .word r.name.word :: r.params.elim [] fun p => .sign .less :: p.atoms ++ [.sign .greater]

/-- A struct up to its opening brace. -/
def opening (r : Record) : List Atom :=
  [.word structWord, .gap space] ++ r.named ++ [.gap space, .sign (.opening .brace)]

def atoms (r : Record) : List Atom :=
  r.opening ++ Slot.body r.first r.others ++ [.sign (.closing .brace)]

theorem written_named (r : Record) : Atom.written r.named = r.head := by
  cases hp : r.params with
  | none => simp [named, head, hp, Atom.text, Identifier.word, Word.text, Identifier.text]
  | some p =>
    simp [named, head, hp, Atom.text, Sign.char, p.written_atoms, Identifier.word, Word.text,
      Identifier.text]

theorem written_opening (r : Record) :
    Atom.written r.opening = "struct ".toList ++ r.head ++ " \x7b".toList := by
  rw [opening, Atom.written_append, Atom.written_append, written_named]
  rfl

theorem written_atoms (r : Record) : Atom.written r.atoms = r.text := by
  rw [atoms, Atom.written_append, Atom.written_append, written_opening, Slot.written_body]
  rfl

theorem text_eq (r : Record) :
    r.text = "struct ".toList ++ r.head ++ " \x7b".toList ++
      Atom.written (Slot.body r.first r.others) ++ ['}'] := by
  rw [Slot.written_body]
  rfl

theorem separate_named (r : Record) {cs : Text} (h : Atom.Detached cs) :
    Atom.Separate cs r.named := by
  rw [named]
  cases r.params with
  | none => exact ⟨h.bounded _, trivial⟩
  | some p =>
    refine ⟨(Atom.Detached.sign .less _).bounded _, fun _ _ => rfl, ?_⟩
    exact Atom.separate_append.mpr ⟨p.separate (.sign .greater _), fun _ _ => rfl, trivial⟩

theorem separate (r : Record) : Atom.Separate [] r.atoms := by
  have hblank (cs : Text) : Atom.Detached (' ' :: cs) := .cons rfl (by decide) cs
  have hbody := Slot.separate_body (.sign (.closing .brace) []) r.first r.others
  refine Atom.separate_append.mpr ⟨Atom.separate_append.mpr ⟨?_, hbody⟩, fun _ _ => rfl, trivial⟩
  refine Atom.separate_append.mpr ⟨?_, fun _ _ => rfl, fun _ _ => rfl, trivial⟩
  exact Atom.separate_append.mpr
    ⟨⟨(hblank _).bounded _, fun _ _ => rfl, trivial⟩, r.separate_named (hblank _)⟩

end Record

/-! ### Reading a struct -/

namespace Node.Parse

variable {source : Source} {close : Token} {ts : List Token} {found : List Text} {n : Nat}

/-- Kinds of tokens that mean nothing to the body of a struct and to type parameters. -/
def isIdle : Kind → Bool
  | .ident | .keyword _ | .number | .comma | .punct _ => true
  | _ => false

theorem isIdle_of_isPlain {x : Atom} (h : x.isPlain = true) {k : Kind} (hk : x.kind? = some k) :
    isIdle k = true := by
  cases x with
  | word w =>
    cases hk
    unfold Lexeme.wordKind
    split <;> rfl
  | number d =>
    cases hk
    rfl
  | sign s =>
    cases hk
    cases s with
    | colon | comma | query => rfl
    | _ => cases h
  | gap g => cases hk

section Fields

variable {t : Token} {start depth : Nat}

/-- Reading goes on behind a token that ends no field. -/
theorem fields_more (h : fields source start depth ts = .ok (some (found, close, n))) :
    (do
      let rest ← fields source start depth ts
      pure (rest.map fun r : List Text × Token × Nat => (r.1, r.2.1, r.2.2 + 1))) =
      .ok (some (found, close, n + 1)) := by
  rw [h]
  rfl

theorem fields_of_idle (hk : isIdle t.kind = true)
    (h : fields source start depth ts = .ok (some (found, close, n))) :
    fields source start depth (t :: ts) = .ok (some (found, close, n + 1)) := by
  have hidle {k : Kind} (hkind : t.kind = k) : isIdle k = true := hkind ▸ hk
  rw [fields]
  dsimp only
  split
  next hkind => cases hidle hkind
  next hkind => cases hidle hkind
  next hkind => cases hidle hkind
  next hkind => cases hidle hkind
  next => exact fields_more h

theorem fields_of_opening {bracket : Bracket} (hk : t.kind = .opening bracket)
    (h : fields source start (depth + 1) ts = .ok (some (found, close, n))) :
    fields source start depth (t :: ts) = .ok (some (found, close, n + 1)) := by
  rw [fields]
  simp only [hk]
  exact fields_more h

theorem fields_of_closing {bracket : Bracket} (hk : t.kind = .closing bracket)
    (h : fields source start depth ts = .ok (some (found, close, n))) :
    fields source start (depth + 1) (t :: ts) = .ok (some (found, close, n + 1)) := by
  rw [fields]
  simp only [hk, Nat.add_one_ne_zero, decide_false, Bool.and_false, Bool.false_eq_true, if_false,
    Nat.add_sub_cancel]
  exact fields_more h

theorem fields_of_inner_semicolon (hk : t.kind = .semicolon) (hdepth : 0 < depth)
    (h : fields source start depth ts = .ok (some (found, close, n))) :
    fields source start depth (t :: ts) = .ok (some (found, close, n + 1)) := by
  rw [fields]
  simp only [hk, Nat.ne_of_gt hdepth, if_false]
  exact fields_more h

theorem fields_of_semicolon {first : List Text} (hk : t.kind = .semicolon)
    (hfield : field source start t.start = .ok first)
    (h : fields source t.stop 0 ts = .ok (some (found, close, n))) :
    fields source start 0 (t :: ts) = .ok (some (first ++ found, close, n + 1)) := by
  rw [fields]
  simp only [hk, hfield, h, Bind.bind, Except.bind, if_true]
  rfl

theorem fields_of_close {last : List Text} (hk : close.kind = .closing .brace)
    (hfield : field source start close.start = .ok last) :
    fields source start 0 (close :: ts) = .ok (some (last, close, 1)) := by
  rw [fields]
  simp only [hk, hfield, Bind.bind, Except.bind, decide_true, Bool.and_self, if_true]
  rfl

theorem fields_of_plain {x : Atom} (hx : x.isPlain = true) (front : Text)
    (hts : fields source start depth ts = .ok (some (found, close, n))) :
    fields source start depth (Atom.tokens front [x] ++ ts) =
      .ok (some (found, close, n + (Atom.tokens front [x]).length)) := by
  cases hk : x.kind? with
  | none =>
    have htokens : Atom.tokens front [x] = [] := by simp [Atom.tokens, hk]
    rw [htokens]
    exact hts
  | some k =>
    rw [Atom.tokens_cons hk]
    exact fields_of_idle (isIdle_of_isPlain hx hk) hts

/-- Over one atom, the depth is the number of brackets that are open. -/
theorem fields_of_nest {x : Atom} {opened opened' : List Bracket}
    (h : x.nest? opened = some opened') (front : Text)
    (hts : fields source start opened'.length ts = .ok (some (found, close, n))) :
    fields source start opened.length (Atom.tokens front [x] ++ ts) =
      .ok (some (found, close, n + (Atom.tokens front [x]).length)) := by
  unfold Atom.nest? at h
  split at h
  next b =>
    cases h
    exact fields_of_opening rfl hts
  next b c below =>
    split at h
    next =>
      cases h
      exact fields_of_closing rfl hts
    next => cases h
  next c below =>
    cases h
    exact fields_of_inner_semicolon rfl (Nat.succ_pos _) hts
  next =>
    split at h
    next hx =>
      cases h
      exact fields_of_plain hx front hts
    next => cases h

theorem fields_of_balanced {xs : List Atom} {opened' : List Bracket}
    (hts : fields source start opened'.length ts = .ok (some (found, close, n))) :
    ∀ {opened : List Bracket}, xs.foldlM Atom.nest? opened = some opened' → ∀ front : Text,
    fields source start opened.length (Atom.tokens front xs ++ ts) =
      .ok (some (found, close, n + (Atom.tokens front xs).length)) := by
  induction xs with
  | nil =>
    intro opened h front
    cases h
    exact hts
  | cons x xs ih =>
    intro opened h front
    obtain ⟨between, hx, hxs⟩ := Option.bind_eq_some_iff.mp h
    have hrest := fields_of_nest hx front (ih hxs (front ++ x.text))
    have htokens : Atom.tokens front (x :: xs) =
        Atom.tokens front [x] ++ Atom.tokens (front ++ x.text) xs := by
      simp [Atom.tokens]
    rw [htokens, List.append_assoc, hrest, List.length_append, Nat.add_assoc,
      Nat.add_comm (Atom.tokens _ xs).length]

/-- A slot leaves the depth at zero. -/
theorem fields_of_slot (s : Slot) (front : Text)
    (hts : fields source start 0 ts = .ok (some (found, close, n))) :
    fields source start 0 (Atom.tokens front s.atoms ++ ts) =
      .ok (some (found, close, n + (Atom.tokens front s.atoms).length)) :=
  @fields_of_balanced source close ts found n start s.atoms [] hts [] s.balanced front

end Fields

end Node.Parse

/-! ### Fields between blanks -/

theorem Gap.trimStart_eq (g : Gap) : trimStart g.text = [] :=
  List.dropWhile_eq_nil_iff.mpr (List.all_eq_true.mp g.blank)

theorem Gap.trimEnd_eq (g : Gap) : trimEnd g.text = [] := by
  have hdrop : g.text.reverse.dropWhile isBlank = [] :=
    List.dropWhile_eq_nil_iff.mpr fun c hc => List.all_eq_true.mp g.blank c (List.mem_reverse.mp hc)
  rw [trimEnd, hdrop]
  rfl

theorem Slot.trim_text (s : Slot) : trim s.text = s.field?.elim [] Field.text := by
  obtain ⟨before, field?, after⟩ := s
  cases field? with
  | none =>
    -- the two gaps make one
    let g : Gap := ⟨before.text ++ [] ++ after.text, by simp [before.blank, after.blank]⟩
    have hblank : trimStart (before.text ++ [] ++ after.text) = [] := g.trimStart_eq
    rw [text, trim, Option.elim_none, hblank]
    rfl
  | some f =>
    rw [text, trim, Option.elim_some, List.append_assoc,
      trimStart_append (f.firm.1.append after.text), before.trimStart_eq, List.nil_append,
      trimEnd_append f.firm.2, after.trimEnd_eq, List.append_nil]

namespace Node.Parse

variable {source : Source} {close : Token} {ts : List Token}

/-- The part of a body between two semicolons gives its field. -/
theorem field_of_slot {front : Text} (s : Slot) (h : Stretch source.text front s.text) :
    field source (width front) (width (front ++ s.text)) =
      .ok (s.field?.toList.map Field.text) := by
  have hslice : Text.slice source.text (width front) (width (front ++ s.text)) = .ok s.text := by
    rw [Text.slice, h.slice?]
  rw [field, hslice]
  simp only [Bind.bind, Except.bind, s.trim_text]
  cases s.field? with
  | none => rfl
  | some f =>
    obtain ⟨c, hc, -⟩ := f.firm.1
    obtain ⟨cs, hcs⟩ := List.head?_eq_some_iff.mp hc
    simp only [Option.elim_some, Option.toList_some, List.map_cons, List.map_nil, hcs,
      List.isEmpty_cons, Bool.false_eq_true, if_false]
    rfl

theorem fieldTexts_cons (s : Slot) (slots : List Slot) :
    ((s :: slots).filterMap Slot.field?).map Field.text =
      s.field?.toList.map Field.text ++ (slots.filterMap Slot.field?).map Field.text := by
  cases h : s.field? <;> simp [h]

/-- Reading a body gives the fields of its slots. -/
theorem fields_of_body (others : List Slot) : ∀ (first : Slot) (front : Text),
    Stretch source.text front (Atom.written (Slot.body first others)) →
    close = .behind (front ++ Atom.written (Slot.body first others)) (.closing .brace) ['}'] →
    fields source (width front) 0 (Atom.tokens front (Slot.body first others) ++ close :: ts) =
      .ok (some (((first :: others).filterMap Slot.field?).map Field.text, close,
        (Atom.tokens front (Slot.body first others)).length + 1)) := by
  induction others with
  | nil =>
    intro first front htext hclose
    have hbody : Slot.body first [] = first.atoms := List.append_nil _
    rw [hbody, first.written_atoms] at htext hclose
    have hfield : field source (width front) close.start =
        .ok (([first].filterMap Slot.field?).map Field.text) := by
      rw [hclose, start_behind, field_of_slot first htext, fieldTexts_cons, List.filterMap_nil,
        List.map_nil, List.append_nil]
    rw [hbody, Nat.add_comm]
    exact fields_of_slot first front (fields_of_close (by rw [hclose]; rfl) hfield)
  | cons s others ih =>
    intro first front htext hclose
    have hbody : Slot.body first (s :: others) =
        first.atoms ++ .sign .semicolon :: Slot.body s others := rfl
    rw [hbody, Atom.written_append, first.written_atoms, Atom.written_cons] at htext hclose
    rw [← List.append_assoc, ← List.append_assoc] at hclose
    -- the first field ends where the semicolon starts, the others are read from where it stops
    have hfield := field_of_slot first htext.left
    rw [← start_behind (front ++ first.text) .semicolon [';']] at hfield
    have hrest := ih s (front ++ first.text ++ [';']) htext.right.right hclose
    rw [← stop_behind (front ++ first.text) .semicolon [';']] at hrest
    rw [hbody, Atom.tokens_append, Atom.tokens_cons rfl, first.written_atoms, List.append_assoc,
      List.cons_append, fieldTexts_cons, List.length_append, List.length_cons, Nat.add_assoc,
      Nat.add_comm (Atom.tokens front first.atoms).length]
    exact fields_of_slot first front (fields_of_semicolon rfl hfield hrest)

/-! ### Heads -/

theorem generics_of_idle {t greater : Token} {n : Nat} (hk : isIdle t.kind = true)
    (h : generics 1 ts = some (greater, n)) : generics 1 (t :: ts) = some (greater, n + 1) := by
  have hidle {k : Kind} (hkind : t.kind = k) : isIdle k = true := hkind ▸ hk
  rw [generics]
  split
  next hkind => cases hidle hkind
  next hkind => cases hidle hkind
  next hkind => cases hidle hkind
  next hkind => cases hidle hkind
  next hkind => cases hidle hkind
  next hkind => cases hidle hkind
  next =>
    rw [h]
    rfl

/-- Type parameters end at the first `>` behind plain atoms. -/
theorem generics_of_plain {xs : List Atom} (h : ∀ x ∈ xs, x.isPlain = true) {greater : Token}
    (hk : greater.kind = .greater) : ∀ front : Text,
    generics 1 (Atom.tokens front xs ++ greater :: ts) =
      some (greater, (Atom.tokens front xs).length + 1) := by
  induction xs with
  | nil =>
    intro front
    simp [Atom.tokens, generics, hk]
  | cons x xs ih =>
    intro front
    obtain ⟨hx, hxs⟩ := List.forall_mem_cons.mp h
    cases hkx : x.kind? with
    | none =>
      simp only [Atom.tokens, hkx, Option.map_none, Option.toList_none, List.nil_append]
      exact ih hxs _
    | some k =>
      rw [Atom.tokens_cons hkx]
      exact generics_of_idle (isIdle_of_isPlain hx hkx) (ih hxs _)

/-- What is read of the name of a struct and its type parameters. -/
def headOf (r : Record) : Head := ⟨r.name.text, r.params.map Params.text⟩

theorem head_of_name {name next : Token} (hname : name.kind = .ident) (hnext : next.kind ≠ .less) :
    head source (name :: next :: ts) = .ok (some (⟨name.text, none⟩, 1)) := by
  simp only [head, hname, hnext, if_true, if_false]

theorem head_of_generics {name less greater : Token} {used : Nat} {inside : Text}
    (hname : name.kind = .ident) (hless : less.kind = .less)
    (hgenerics : generics 1 ts = some (greater, used))
    (hinside : slice? source.text less.stop greater.start = some inside) :
    head source (name :: less :: ts) = .ok (some (⟨name.text, some (trim inside)⟩, used + 2)) := by
  simp only [head, hname, hless, hgenerics, Text.slice, hinside, if_true]
  rfl

theorem head_of_named (r : Record) {front : Text} (htext : Stretch source.text front r.head)
    {opener : Token} (hk : opener.kind = .opening .brace) :
    head source (Atom.tokens front r.named ++ opener :: ts) =
      .ok (some (headOf r, (Atom.tokens front r.named).length)) := by
  have hname : (Atom.word r.name.word).kind? = some .ident := by
    show some (Lexeme.wordKind r.name.text) = _
    rw [Lexeme.wordKind, Identifier.text, r.name.plain]
  rw [Record.named, headOf, Atom.tokens_cons hname, List.cons_append]
  rw [Record.head] at htext
  cases hp : r.params with
  | none => exact head_of_name rfl (by rw [hk]; decide)
  | some p =>
    rw [hp] at htext
    let name : Token := .behind front .ident r.name.text
    let less : Token := .behind (front ++ r.name.text) .less ['<']
    let greater : Token := .behind (front ++ r.name.text ++ ['<'] ++ p.text) .greater ['>']
    have htokens : Atom.tokens (front ++ r.name.text) (.sign .less :: p.atoms ++ [.sign .greater]) =
        less :: (Atom.tokens (front ++ r.name.text ++ ['<']) p.atoms ++ [greater]) := by
      rw [List.cons_append, Atom.tokens_cons rfl, Atom.tokens_append, p.written_atoms]
      rfl
    have hinside : slice? source.text less.stop greater.start = some p.text := by
      have hbehind : Stretch source.text (front ++ r.name.text) (['<'] ++ (p.text ++ ['>'])) :=
        htext.right
      rw [stop_behind, start_behind]
      exact hbehind.right.left.slice?
    have hgenerics := @generics_of_plain (opener :: ts) p.atoms (fun x => p.isPlain_of_mem) greater
      rfl (front ++ r.name.text ++ ['<'])
    have hhead := @head_of_generics source _ name less greater _ p.text rfl rfl hgenerics hinside
    rw [p.firm.trim_eq] at hhead
    have hcount (us : List Token) :
        (name :: less :: (us ++ [greater])).length = us.length + 1 + 2 := by
      simp only [List.length_cons, List.length_append, List.length_nil]
    have hword : (Atom.word r.name.word).text = r.name.text := rfl
    rw [Option.elim_some, Option.map_some, hword, htokens, hcount, List.cons_append,
      List.append_assoc, List.singleton_append]
    exact hhead

/-- A struct is read as a single node with all its fields. -/
theorem struct_of_record (r : Record) {front inner : Text} {t opener : Token} {notes : Notes}
    (hhead : Stretch source.text front r.head) (hopener : opener.kind = .opening .brace)
    (hinner : opener.stop = width inner)
    (hbody : Stretch source.text inner (Atom.written (Slot.body r.first r.others)))
    (hclose : close =
      .behind (inner ++ Atom.written (Slot.body r.first r.others)) (.closing .brace) ['}']) :
    let us := Atom.tokens front r.named ++
      opener :: (Atom.tokens inner (Slot.body r.first r.others) ++ [close])
    struct source t (us ++ ts) notes =
      .ok ⟨[.struct ⟨t.start, close.stop⟩ (headOf r) (r.fields.map Field.text)],
        us.length + 1, notes⟩ := by
  intro us
  have hus : us ++ ts = Atom.tokens front r.named ++
      opener :: (Atom.tokens inner (Slot.body r.first r.others) ++ close :: ts) := by
    simp [us]
  have hread := @fields_of_body source close ts r.others r.first inner hbody hclose
  rw [← hinner] at hread
  have hlength : us.length + 1 = (Atom.tokens front r.named).length +
      ((Atom.tokens inner (Slot.body r.first r.others)).length + 1) + 2 := by
    simp only [us, List.length_append, List.length_cons, List.length_nil]
    omega
  rw [hus, struct, head_of_named r hhead hopener, hlength]
  simp only [Bind.bind, Except.bind, List.drop_left, hopener, hread, if_true]
  rfl

end Node.Parse

/-! ### Compiling a struct -/

namespace Record

theorem occurs_struct (r : Record) : Marker.occurs r.text .struct = true := by
  obtain ⟨cs, hcs⟩ : ∃ cs, r.text =
      's' :: 't' :: 'r' :: 'u' :: 'c' :: 't' :: ' ' :: r.name.first :: cs := by
    refine ⟨r.name.rest ++ (r.params.elim [] fun p => '<' :: p.text ++ ['>']) ++ " \x7b".toList ++
      Atom.written (Slot.body r.first r.others) ++ ['}'], ?_⟩
    simp [text_eq, head, Identifier.text]
  have hblank := (class_of_continuesName (continuesName_of_isNameStart r.name.starts)).2.1
  have hdrop : (' ' :: r.name.first :: cs).dropWhile isBlank = r.name.first :: cs := by
    rw [List.dropWhile_cons_of_pos (by decide), List.dropWhile_cons_of_neg (by rw [hblank]; decide)]
  have hspace : isBlank ' ' = true := by decide
  simp [hcs, Marker.occurs, Marker.hasWord, Marker.startsWith, hspace, hdrop, r.name.starts]

theorem structCode_eq_lower (r : Record) :
    Output.structCode (Parse.headOf r) (r.fields.map Field.text) = r.lower := by
  have hhead : r.name.text ++ Output.generics (r.params.map Params.text) = r.head := by
    rw [head]
    cases r.params <;> rfl
  have hlines : ((r.fields.map Field.text).map fun f => "  ".toList ++ f ++ ";\n".toList).flatten =
      r.fields.flatMap fun f => "  ".toList ++ f.text ++ ";\n".toList := by
    rw [List.map_map, ← List.flatMap_def]
    rfl
  unfold Output.structCode lower
  rw [hlines, Parse.headOf, List.append_assoc "type ".toList, hhead]
  cases r.fields with
  | nil => rfl
  | cons f fs =>
    simp only [List.map_cons, List.isEmpty_cons, Bool.false_eq_true, if_false, List.append_assoc]

/-- The first token of a struct. -/
def keyword : Token := .behind [] (.keyword .structWord) "struct".toList

def opener (r : Record) : Token :=
  .behind ("struct ".toList ++ r.head ++ [' ']) (.opening .brace) ['{']

def close (r : Record) : Token :=
  .behind (Atom.written r.opening ++ Atom.written (Slot.body r.first r.others)) (.closing .brace)
    ['}']

/-- All tokens of a struct but the first. -/
def tail (r : Record) : List Token :=
  Atom.tokens "struct ".toList r.named ++
    r.opener :: (Atom.tokens (Atom.written r.opening) (Slot.body r.first r.others) ++ [r.close])

def node (r : Record) : Node :=
  .struct ⟨keyword.start, r.close.stop⟩ (Parse.headOf r) (r.fields.map Field.text)

theorem tokens_atoms (r : Record) : Atom.tokens [] r.atoms = keyword :: r.tail := by
  have hword : Atom.tokens [] [.word structWord, .gap space] = [keyword] := rfl
  have hfront : Atom.written [.word structWord, .gap space] = "struct ".toList := rfl
  have hopening : Atom.tokens [] r.opening =
      keyword :: (Atom.tokens "struct ".toList r.named ++ [r.opener]) := by
    rw [opening, Atom.tokens_append, Atom.tokens_append, hword, Atom.written_append, hfront,
      r.written_named]
    rfl
  rw [atoms, Atom.tokens_append, Atom.tokens_append, hopening, Atom.written_append]
  simp only [tail, List.append_assoc, List.cons_append, List.nil_append]
  rfl

theorem width_close (r : Record) : r.close.stop = width r.text := by
  rw [close, stop_behind, r.written_opening, r.text_eq]

/-- The tokens of a struct are read as a single node. -/
theorem item_text (r : Record) (file : Text) (inner : Parse.Inner) (last : Option Token)
    (ts : List Token) :
    Parse.item ⟨file, r.text, true⟩ inner last keyword (r.tail ++ ts) .empty =
      .ok ⟨[r.node], r.tail.length + 1, .empty⟩ := by
  let source : Parse.Source := ⟨file, r.text, true⟩
  have hhead : Stretch source.text "struct ".toList r.head := by
    refine ⟨" \x7b".toList ++ Atom.written (Slot.body r.first r.others) ++ ['}'], ?_⟩
    simp only [source, text_eq, List.append_assoc]
  have hbody : Stretch source.text (Atom.written r.opening)
      (Atom.written (Slot.body r.first r.others)) := by
    refine ⟨['}'], ?_⟩
    rw [r.written_opening]
    exact r.text_eq
  have hopener : r.opener.stop = width (Atom.written r.opening) := by
    rw [opener, stop_behind, r.written_opening, List.append_assoc _ [' ']]
    rfl
  exact Parse.struct_of_record r hhead rfl hopener hbody rfl

theorem parse_text (r : Record) (file : Text) :
    parse file r.text false = .ok (Block.cover 0 (width r.text) [r.node], []) := by
  have hscan : scan false r.text =
      ⟨keyword :: r.tail ++ [finish (Position.origin.advance r.text)], none⟩ := by
    rw [← r.tokens_atoms, ← r.written_atoms]
    exact Atom.scan_atoms r.separate
  have hsequence : Parse.sequence ⟨file, r.text, true⟩ Literal.maxDepth none none
      (keyword :: r.tail ++ [finish (Position.origin.advance r.text)]) .empty =
      .ok ⟨[r.node], r.tail.length + 1, .empty⟩ :=
    Parse.items_of_item (by decide) (by decide) (r.item_text file _ none _)
      fun last => Parse.items_stop (.inl rfl)
  simp only [parse, parseTokens, hscan, hsequence, Bind.bind, Except.bind]
  rfl

theorem emit_text (r : Record) :
    ∃ out, Output.emit .standard r.text (Block.cover 0 (width r.text) [r.node]) = .ok out ∧
      out.code = r.lower := by
  have hnode : Returns (fun out => out.code = r.lower)
      (Output.emitNode .standard r.text r.node) := r.structCode_eq_lower
  have hstop : Boundary r.text r.node.span.stop := by
    refine ⟨r.text, [], (List.append_nil _).symm, ?_⟩
    exact r.width_close.symm
  rw [← r.width_close]
  exact Ends.exists_ok ((Output.Adds.node hstop hnode).emits (.zero r.text))

/-- Compiling a struct writes each of its fields as it stands on a line of its own. -/
theorem compileText_eq_type (r : Record) (id : Text) (hid : SourceKind.ofId id ≠ .markup) :
    let result := (Compiler.compileText .default id r.text).1
    result.code = r.lower ∧ result.warnings = [] ∧ result.errors = [] := by
  obtain ⟨c, hpasses, hmarkup, hcompile⟩ := Compiler.exists_default
  have hplain : c.readsMarkup id = false := (hmarkup id).trans (decide_eq_false hid)
  have hmarkers : Marker.ofText r.text ≠ [] :=
    List.ne_nil_of_mem (List.mem_filter.mpr ⟨by decide, r.occurs_struct⟩ : Marker.struct ∈ _)
  obtain ⟨out, hout, hcode⟩ := r.emit_text
  have hparse := r.parse_text id
  rw [← hplain] at hparse
  rw [← hpasses] at hout
  intro result
  have hresult : result = _ := congrArg Prod.fst
    ((hcompile id r.text).trans (Compiler.compile_of_parse c _ hmarkers hparse hout))
  rw [hresult]
  exact ⟨hcode, rfl, rfl⟩

theorem compileText_eq_type_nested :
    let a : Word := ⟨'a', [], by decide, rfl⟩
    let bind : Word := ⟨'l', "et".toList, by decide, by decide⟩
    let half : Decimal := ⟨'0', [], "5".toList, by decide⟩
    let empty : Gap := ⟨[], rfl⟩
    let line : Gap := ⟨"\n ".toList, by decide⟩
    let inner : Field := ⟨[.word a, .sign .colon, .gap space, .sign (.opening .brace), .word bind,
      .sign .semicolon, .sign (.opening .square), .number half, .sign (.closing .square),
      .sign (.closing .brace)], by decide, by decide, by decide, by decide⟩
    let outer : Field := ⟨[.word structWord, .gap space, .word a, .sign (.opening .paren),
      .sign .query, .sign .comma, .sign .semicolon, .sign (.closing .paren)], by decide, by decide,
      by decide, by decide⟩
    let r : Record := ⟨⟨'S', [], by decide, by decide, by decide⟩,
      some ⟨a, [(empty, space, bind)]⟩, ⟨line, some inner, space⟩,
      [⟨space, none, empty⟩, ⟨empty, some outer, line⟩, ⟨empty, none, empty⟩]⟩
    let result := (Compiler.compileText .default "a.bs".toList r.text).1
    r.text = "struct S<a, let> \x7b\n a: \x7blet;[0.5]\x7d ; ;struct a(?,;)\n ;\x7d".toList ∧
      SourceKind.ofId "a.bs".toList ≠ .markup ∧
      result.code =
        "type S<a, let> = \x7b\n  a: \x7blet;[0.5]\x7d;\n  struct a(?,;);\n\x7d;".toList ∧
      result.warnings = [] ∧ result.errors = [] := by
  intro a bind half empty line inner outer r result
  obtain ⟨hcode, hclean⟩ := compileText_eq_type r "a.bs".toList (by decide)
  exact ⟨by decide, by decide, hcode.trans (by decide), hclean⟩

end Record

end Desugar
