import Desugar.Output.Emit
import Desugar.Proofs.Stretches

/-! Written code in fragments. Declarations and calls are written with signs of their own around
texts that are copied. A row of fragments is read again one by one, and every sign in it is a token,
unless a text that was cut out of its line ends in a comment: the comment goes on over the sign
behind it. -/
namespace Desugar

open Unicode Text

namespace Output

/-- A fragment of written code: text of the source with its gaps; the inside of type parameters or a
field behind the given sign, without the blanks at its edges; a word, a blank or a sign. -/
inductive Fragment where
  | copied (text : Text)
  | slice (before : Char) (text : Text)
  | word (text : Text)
  | blank (c : Char)
  | sign (c : Char)
deriving DecidableEq, Repr

namespace Fragment

def text : Fragment → Text
  | .copied text | .slice _ text | .word text => text
  | .blank c | .sign c => [c]

def written (ps : List Fragment) : Text := ps.flatMap text

@[simp] theorem written_nil : written [] = [] := rfl

@[simp] theorem written_cons (p : Fragment) (ps : List Fragment) :
    written (p :: ps) = p.text ++ written ps :=
  rfl

@[simp] theorem written_append (ps qs : List Fragment) :
    written (ps ++ qs) = written ps ++ written qs :=
  List.flatMap_append

/-! ### The fragments of nodes -/

def generics : Option Text → List Fragment
  | some inside => [.sign '<', .slice '<' inside, .sign '>']
  | none => []

def field (f : Text) : List Fragment :=
  [.blank ' ', .blank ' ', .slice ';' f, .sign ';', .blank '\n']

def struct (head : Head) (fields : List Text) : List Fragment :=
  [.word "type".toList, .blank ' ', .word head.name] ++ generics head.generics ++
    [.blank ' ', .sign '=', .blank ' ', .sign '{'] ++
    (if fields.isEmpty then [] else .blank '\n' :: fields.flatMap field) ++ [.sign '}', .sign ';']

def trait (head : Head) (body : List Fragment) : List Fragment :=
  [.word "interface".toList, .blank ' ', .word head.name] ++ generics head.generics ++
    [.blank ' ', .sign '{'] ++ body ++ [.sign '}']

def impl (head target : Head) (body : List Fragment) : List Fragment :=
  [.word "class".toList, .blank ' ', .word (target.name ++ head.name ++ "Impl".toList)] ++
    generics head.generics ++
    [.blank ' ', .word "implements".toList, .blank ' ', .word head.name] ++
    generics head.generics ++
    [.blank ' ', .sign '{', .blank '\n', .blank ' ', .blank ' ', .word "constructor".toList,
      .sign '(', .word "private".toList, .blank ' ', .word "data".toList, .sign ':', .blank ' ',
      .word target.name] ++
    generics target.generics ++ [.sign ')', .blank ' ', .sign '{', .sign '}'] ++ body ++ [.sign '}']

/-- Parts without the blanks before the first of them. -/
def trimStart : List Fragment → List Fragment
  | .copied text :: ps =>
    if (Text.trimStart text).isEmpty then ps else .copied (Text.trimStart text) :: ps
  | ps => ps

def call (callee value args : List Fragment) : List Fragment :=
  callee ++ .sign '(' :: value ++
    (if (written args).isEmpty then [] else .sign ',' :: .blank ' ' :: args) ++ [.sign ')']

mutual

/-- The fragments that a node is written with when all passes are enabled. -/
def ofNode (source : Text) : Node → Except Fault (List Fragment)
  | .other span => (verbatim source span.start span.stop).map fun out => [.copied out.code]
  | .binding _ => .ok [.word "const".toList]
  | .struct _ head fields => .ok (struct head fields)
  | .trait _ head _ body => (ofNodes source body).map (trait head)
  | .impl _ head target _ body => (ofNodes source body).map (impl head target)
  | .pipe _ _ head stages => do
    let value ← ofNodes source head
    ofStages source value stages

def ofNodes (source : Text) : List Node → Except Fault (List Fragment)
  | [] => .ok []
  | n :: ns => do
    let first ← ofNode source n
    let rest ← ofNodes source ns
    pure (first ++ rest)

def ofStages (source : Text) (value : List Fragment) : List Stage → Except Fault (List Fragment)
  | [] => .ok value
  | .bare _ path :: stages => ofStages source (call [.copied path] value []) stages
  | .call _ path _ args :: stages => do
    let inside ← ofNodes source args
    ofStages source (call [.copied path] value (trimStart inside)) stages
  | .group _ body :: stages => do
    let callee ← ofNodes source body
    ofStages source (call callee value []) stages

end

theorem written_generics (inside : Option Text) :
    written (generics inside) = Output.generics inside := by
  cases inside <;> simp [generics, Output.generics, text]

theorem written_struct (head : Head) (fields : List Text) :
    written (struct head fields) = structCode head fields := by
  have hfields : written (fields.flatMap field) =
      (fields.map fun f => "  ".toList ++ f ++ ";\n".toList).flatten := by
    induction fields with
    | nil => rfl
    | cons f fields ih => simp [field, text, ih]
  unfold struct structCode
  split
  next => simp [written_generics, text]
  next => simp [written_generics, hfields, text]

theorem written_trait (head : Head) (body : List Fragment) :
    written (trait head body) = traitOpening head ++ written body ++ ['}'] := by
  have hword : "interface ".toList = "interface".toList ++ [' '] := by decide
  have hopen : " \x7b".toList = [' ', '{'] := by decide
  unfold trait traitOpening
  rewrite [hword, hopen]
  simp only [written_append, written_cons, written_nil, written_generics, text, List.append_assoc,
    List.append_nil, List.cons_append, List.nil_append]

theorem written_impl (head target : Head) (body : List Fragment) :
    written (impl head target body) = implOpening head target ++ written body ++ ['}'] := by
  have hclass : "class ".toList = "class".toList ++ [' '] := by decide
  have himplements : " implements ".toList = [' '] ++ ("implements".toList ++ [' ']) := by decide
  have hopen : " \x7b\n  constructor(private data: ".toList = [' ', '{', '\n', ' ', ' '] ++
      ("constructor".toList ++ (['('] ++
        ("private".toList ++ ([' '] ++ ("data".toList ++ [':', ' ']))))) := by
    decide
  have hclose : ") \x7b\x7d".toList = [')', ' ', '{', '}'] := by decide
  unfold impl implOpening
  rewrite [hclass, himplements, hopen, hclose]
  simp only [written_append, written_cons, written_nil, written_generics, text, List.append_assoc,
    List.append_nil, List.cons_append, List.nil_append]

theorem written_call (callee value args : List Fragment) :
    written (call callee value args) =
      written callee ++ '(' :: written value ++
        (if (written args).isEmpty then [] else ", ".toList ++ written args) ++ [')'] := by
  unfold call
  split <;> simp [text]

/-! ### Rows of fragments -/

/-- The sign stands in the code at the offset as a token of its own. -/
def Shown (markup : Bool) (code : Text) (offset : Nat) (c : Char) : Prop :=
  ∃ t ∈ (Token.scan markup code).tokens, t.start = offset ∧ t.text = [c]

end Fragment

end Output

namespace Token

/-- A sign as a token. -/
def ofSign (c : Char) : Token := ⟨Lexeme.signKind c, [c], .origin⟩

/-- A word as a token. -/
def ofWord (s : Text) : Token := ⟨Lexeme.wordKind s, s, .origin⟩

/-- The text is a word by itself. -/
def IsWord (s : Text) : Prop := ∃ w : Word, w.text = s

end Token

namespace Output.Fragment

open Token

/-- Does the fragment end in a comment that only the end of its line closes? -/
def trails (markup : Bool) : Fragment → Bool
  | .slice before text => Token.trails markup (some (.ofSign before)) 0 text
  | _ => false

/-- The fragment is read before `rest` in the stance `σ`, at the start of the text if `first` is
set, and leaves the stance `τ`. A comment at its end goes on over what follows. -/
structure Seen (markup first : Bool) (σ : Stance) (p : Fragment) (rest : Text) (τ : Stance) :
    Prop where
  through : p.trails markup = false → ∀ front : Text, front.isEmpty = first →
    Reached markup σ front (p.text ++ rest) → Reached markup τ (front ++ p.text) rest
  lost : p.trails markup = true → ∀ front : Text, front.isEmpty = first →
    Reached markup σ front (p.text ++ rest) →
      ∃ υ before body, front ++ p.text = before ++ '/' :: '/' :: body ∧ '\n' ∉ body ∧
        Reached markup υ before ('/' :: '/' :: body ++ rest)
  shown : ∀ c, p = .sign c → ∀ front : Text, front.isEmpty = first →
    Reached markup σ front (c :: rest) → Shown markup (front ++ c :: rest) (width front) c

/-- Parts that are seen one after the other. One that ends in a comment stands before a sign. -/
inductive Row (markup : Bool) :
    (first : Bool) → Stance → List Fragment → (rest : Text) → Stance → Prop where
  | nil {first : Bool} {σ : Stance} {rest : Text} : Row markup first σ [] rest σ
  | cons {first : Bool} {σ τ υ : Stance} {p : Fragment} {ps : List Fragment} {rest : Text} :
      Seen markup first σ p (written ps ++ rest) τ →
      (p.trails markup = true → ∃ c qs, ps = .sign c :: qs ∧ c ≠ '\n') →
      Row markup (first && p.text.isEmpty) τ ps rest υ → Row markup first σ (p :: ps) rest υ

namespace Row

variable {markup first : Bool} {σ τ υ : Stance} {ps qs : List Fragment} {rest : Text}

theorem isEmpty_append (us vs : Text) : (us ++ vs).isEmpty = (us.isEmpty && vs.isEmpty) := by
  cases us <;> rfl

theorem append (h : Row markup first σ ps (written qs ++ rest) τ)
    (hq : Row markup (first && (written ps).isEmpty) τ qs rest υ) :
    Row markup first σ (ps ++ qs) rest υ := by
  generalize hall : written qs ++ rest = all at h
  induction h with
  | nil => simpa using hq
  | @cons first σ τ' υ' p ps all hp htrails _ ih =>
    subst hall
    refine .cons (by simpa using hp) (fun ht => ?_) (ih ?_ rfl)
    · obtain ⟨c, qs', rfl, hc⟩ := htrails ht
      exact ⟨c, qs' ++ qs, rfl, hc⟩
    · rwa [Bool.and_assoc, ← isEmpty_append]

/-- All signs of a row are tokens if and only if no fragment of it ends in a comment. -/
theorem shown_iff (h : Row markup first σ ps rest τ) {front : Text} (hfront : front.isEmpty = first)
    (hreached : Reached markup σ front (written ps ++ rest)) :
    (∀ us c vs, ps = us ++ .sign c :: vs →
      Shown markup (front ++ (written ps ++ rest)) (width (front ++ written us)) c) ↔
      ∀ p ∈ ps, p.trails markup = false := by
  induction h generalizing front with
  | nil => simp
  | @cons first σ τ υ p ps rest hp htrails _ ih =>
    rw [List.forall_mem_cons]
    rw [written_cons, List.append_assoc] at hreached ⊢
    cases ht : p.trails markup with
    | true =>
      refine ⟨fun hall => ?_, fun hall => nomatch hall.1⟩
      obtain ⟨c, qs, rfl, hc⟩ := htrails ht
      obtain ⟨υ, before, body, hbefore, hbody, hcomment⟩ := hp.lost ht front hfront hreached
      obtain ⟨t, hmem, hstart, -⟩ := hall [p] c qs rfl
      rw [← List.append_assoc, hbefore, List.append_assoc] at hmem
      rw [written_cons, written_nil, List.append_nil, hbefore] at hstart
      exact absurd hstart (hcomment.start_ne hbody hc t hmem)
    | false =>
      have hnext : (front ++ p.text).isEmpty = (first && p.text.isEmpty) := by
        rw [isEmpty_append, hfront]
      have hrest := ih hnext (hp.through ht front hfront hreached)
      rw [← List.append_assoc, ← hrest, eq_self, true_and]
      constructor
      · intro hall us c vs hps
        have hshown := hall (p :: us) c vs (by rw [hps]; rfl)
        rwa [written_cons, ← List.append_assoc front p.text (written us)] at hshown
      · intro hall us c vs hps
        cases us with
        | nil =>
          obtain ⟨rfl, rfl⟩ := List.cons.inj hps
          have hshown := hp.shown c rfl front hfront hreached
          rw [written_nil, List.append_nil, List.append_assoc]
          exact hshown
        | cons q us =>
          obtain ⟨rfl, htail⟩ := List.cons.inj hps
          rw [written_cons, ← List.append_assoc front p.text (written us)]
          exact hall us c vs htail

end Row

/-! ### Single fragments -/

section Single

variable {markup first : Bool} {σ : Stance} {rest : Text}

theorem seen_of_through {p : Fragment} {τ : Stance} (ht : p.trails markup = false)
    (hp : ∀ c, p ≠ .sign c)
    (h : ∀ front : Text, front.isEmpty = first → Reached markup σ front (p.text ++ rest) →
      Reached markup τ (front ++ p.text) rest) : Seen markup first σ p rest τ where
  through _ := h
  lost hlost := by rw [ht] at hlost; cases hlost
  shown c hc := absurd hc (hp c)

theorem seen_blank {c : Char} (hc : isBlank c = true) :
    Seen markup first σ (.blank c) rest σ := by
  refine seen_of_through rfl nofun fun front _ hreached => ?_
  exact @Reached.gap _ _ _ [] _ _ hreached (by rw [blank?, if_pos hc]; rfl)

theorem seen_word {s : Text} (hs : IsWord s) (hrest : rest.head?.any isWordRest = false) :
    Seen markup first σ (.word s) rest (Token.ofWord s).stance := by
  obtain ⟨w, rfl⟩ := hs
  have hbounded : Atom.Bounded (.word w) rest := Atom.bounded_iff.mp hrest
  obtain ⟨hb, hread⟩ := Atom.read_word hbounded markup
  refine seen_of_through rfl nofun fun front _ hreached => ?_
  exact (hreached.token (hb _) fun y _ => hread y).2

theorem seen_sign {c : Char} (hb : ∀ first, blank? first c rest = none)
    (hread : ∀ y : Context, y.stance = σ →
      Lexeme.read markup y c rest = ⟨Lexeme.signKind c, 0, false⟩) :
    Seen markup first σ (.sign c) rest (Token.ofSign c).stance where
  through _ front _ hreached := (@Reached.token _ _ _ [] _ _ hreached (hb _) _ hread).2
  lost hlost := nomatch hlost
  shown d hd front _ hreached := by
    obtain rfl : c = d := by cases hd; rfl
    have hmem := (@Reached.token _ _ _ [] _ _ hreached (hb _) _ hread).1
    exact ⟨_, hmem, start_behind _ _ _, rfl⟩

/-- Signs that are tokens wherever they stand. -/
def plainSigns : List Char := ['(', ')', '{', '}', ';', ':', ',', '>']

theorem class_of_plain {c : Char} (hc : c ∈ plainSigns) :
    isBlank c = false ∧ isWordRest c = false ∧ isWordStart c = false ∧ c.isDigit = false ∧
      Element.isQuote c = false ∧ c ∉ ['`', '|', '=', '?', '/', '<', '#', '.', '*', '!'] := by
  have hall : plainSigns.all (fun c => !isBlank c && !isWordRest c && !isWordStart c &&
      !c.isDigit && !Element.isQuote c &&
      c ∉ ['`', '|', '=', '?', '/', '<', '#', '.', '*', '!']) = true := by decide +kernel
  simpa [and_assoc] using List.all_eq_true.mp hall c hc

theorem seen_plain {c : Char} (hc : c ∈ plainSigns) :
    Seen markup first σ (.sign c) rest (Token.ofSign c).stance := by
  obtain ⟨hblank, -, hword, hdigit, hquote, hsign⟩ := class_of_plain hc
  refine seen_sign (fun first => ?_) fun y _ => ?_
  · rw [blank?_eq_none_iff]
    exact ⟨hblank, fun hs => absurd hs (by simp_all), fun hs => absurd hs (by simp_all)⟩
  · exact Lexeme.read_single hword hdigit hquote (by simp_all) (fun _ => by simp_all) rest

theorem seen_less (hσ : markup = true → σ.element = some false) :
    Seen markup first σ (.sign '<') rest (Token.ofSign '<').stance := by
  refine seen_sign (fun _ => rfl) fun y hy => ?_
  rw [Lexeme.read_less]
  cases markup with
  | false => rfl
  | true =>
    rw [Context.allowsElement_of_stance (hy ▸ hσ rfl)]
    rfl

theorem seen_equals (hrest : rest.head? ≠ some '>') :
    Seen markup first σ (.sign '=') rest (Token.ofSign '=').stance := by
  refine seen_sign (fun _ => rfl) fun y _ => ?_
  rw [Lexeme.read_equals, if_neg (by simpa using hrest)]
  rfl

theorem seen_copied {front piece back : Text} {ts : List Token} {line : Bool}
    (h : Stretch markup front piece back ts line) (hfits : Fitting markup σ ts)
    (hws : Changes front piece back ts line rest)
    (hfirst : first = front.isEmpty ∨ piece.head? ≠ some '#') :
    Seen markup first σ (.copied piece) rest (σ.after ts) := by
  refine seen_of_through rfl nofun fun place hplace hreached => ?_
  exact h.reached hfits hws (hplace ▸ hfirst) hreached

/-- The inside of type parameters, or a field, before the sign that is written behind it. -/
theorem seen_slice {before d e : Char} {front piece back : Text} {ts : List Token} {line : Bool}
    (h : Stretch markup front piece (d :: back) ts line) (hfront : front ≠ [])
    (hfits : Fitting markup (Token.ofSign before).stance ts) (hd : d.isDigit = false)
    (he : e.isDigit = false) (hbang : e ≠ '!')
    (hclear : ∀ t, ts.getLast? = some t → ∀ c us, t.text = c :: us → Clear c us (e :: rest)) :
    Seen markup false (Token.ofSign before).stance (.slice before (trim piece)) (e :: rest)
      ((Token.ofSign before).stance.after ts) := by
  have hhead {blanks : Text} (hblanks : ∀ c ∈ blanks, isBlank c = true) :
      (blanks ++ d :: back).head?.any Char.isDigit = false := by
    cases blanks with
    | nil => simpa using hd
    | cons c blanks => simpa using isDigit_of_isBlank (hblanks c List.mem_cons_self)
  obtain ⟨front', blanks, hfront', hblanks, ⟨htrails, hstretch⟩ |
      ⟨htrails, inside, body, htrim, hbody, hstretch⟩⟩ :=
    @Stretch.trimmed _ _ _ _ _ _ _ h hfront (some (Token.ofSign before)) hfits hd
  · have hws : Changes front' (trim piece) (blanks ++ d :: back) ts false (e :: rest) :=
      ⟨fun hnil => absurd hnil (by simp), fun _ => by rw [hhead hblanks]; simpa using he,
        fun hb => absurd (Option.some.inj hb) hbang, fun t ht => hclear t ht.1, nofun⟩
    refine ⟨fun _ place hplace hreached => ?_, fun hlost => ?_, nofun⟩
    · exact hstretch.reached hfits hws
        (.inl (by rw [hplace, List.isEmpty_eq_false_iff.mpr hfront'])) hreached
    · rw [show trails markup (.slice before (trim piece)) = false from htrails] at hlost
      cases hlost
  · have hws : Changes front' inside ('/' :: '/' :: body ++ (blanks ++ d :: back)) ts false
        ('/' :: '/' :: body ++ e :: rest) := by
      refine ⟨nofun, fun _ => rfl, nofun, fun t ht c us htext => ?_, nofun⟩
      refine (hstretch.clear ht htext).before fun _ => ?_
      rw [hhead hblanks]
      simpa using he
    refine ⟨fun hthrough => ?_, fun _ place hplace hreached => ?_, nofun⟩
    · rw [show trails markup (.slice before (trim piece)) = true from htrails] at hthrough
      cases hthrough
    · simp only [text, htrim, List.append_assoc] at hreached ⊢
      have hcomment := hstretch.reached hfits hws
        (.inl (by rw [hplace, List.isEmpty_eq_false_iff.mpr hfront'])) hreached
      exact ⟨_, place ++ inside, body, (List.append_assoc _ _ _).symm, hbody, hcomment⟩

end Single

/-! ### Rows with one more fragment -/

namespace Row

variable {markup first : Bool} {σ υ : Stance} {ps : List Fragment} {rest : Text}

theorem of_seen {p : Fragment} {τ : Stance} (hp : Seen markup first σ p (written ps ++ rest) τ)
    (ht : p.trails markup = false) (hne : p.text.isEmpty = false)
    (h : Row markup false τ ps rest υ) : Row markup first σ (p :: ps) rest υ := by
  refine .cons hp (fun htrue => ?_) ?_
  · rw [ht] at htrue
    cases htrue
  · rwa [hne, Bool.and_false]

theorem word {s : Text} (hs : IsWord s) (hrest : (written ps ++ rest).head?.any isWordRest = false)
    (h : Row markup false (Token.ofWord s).stance ps rest υ) :
    Row markup first σ (.word s :: ps) rest υ := by
  refine of_seen (seen_word hs hrest) rfl ?_ h
  obtain ⟨w, rfl⟩ := hs
  rfl

theorem blank {c : Char} (hc : isBlank c = true) (h : Row markup false σ ps rest υ) :
    Row markup first σ (.blank c :: ps) rest υ :=
  of_seen (seen_blank hc) rfl rfl h

theorem plain {c : Char} (hc : c ∈ plainSigns)
    (h : Row markup false (Token.ofSign c).stance ps rest υ) :
    Row markup first σ (.sign c :: ps) rest υ :=
  of_seen (seen_plain hc) rfl rfl h

end Row

end Output.Fragment

end Desugar
