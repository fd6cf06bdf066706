import Desugar.Proofs.Rebinding

/-! Scanning a text again after its bindings were written. The `let` that no dot precedes
become `const`; the tokens of the new text are those of the old one, with a name in the
place of each such `let`. -/
namespace Desugar

open Unicode Text

namespace Token

/-- The `let` among the tokens that no dot precedes; `last` is the token before. -/
def bindings : (last : Option Token) → List Token → List Token
  | _, [] => []
  | last, t :: ts =>
    if t.kind = .keyword .letWord && !last.any (·.kind = .dot) then t :: bindings (some t) ts
    else bindings (some t) ts

/-- The kinds of the tokens once those `let` are names. -/
def rebound : (dotted : Bool) → List Kind → List Kind
  | _, [] => []
  | dotted, k :: ks =>
    (if k = .keyword .letWord && !dotted then .ident else k) :: rebound (k = .dot) ks

/-- The text from `offset` on with `const` in the place of each of the tokens. -/
inductive Rewritten : (offset : Nat) → Text → List Token → Text → Prop where
  | nil {offset : Nat} {rest : Text} : Rewritten offset rest [] rest
  | cons {offset : Nat} {gap rest out : Text} {t : Token} {ts : List Token} :
      t.start = offset + width gap → Rewritten t.stop rest ts out →
      Rewritten offset (gap ++ t.text ++ rest) (t :: ts) (gap ++ "const".toList ++ out)

theorem Rewritten.append {offset : Nat} {us rest out : Text} {ts : List Token}
    (h : Rewritten (offset + width us) rest ts out) :
    Rewritten offset (us ++ rest) ts (us ++ out) := by
  cases h with
  | nil => exact .nil
  | @cons _ gap rest out t ts hstart h =>
    have hall := @Rewritten.cons offset (us ++ gap) rest out t ts
      (by rw [hstart, width_append, Nat.add_assoc]) h
    simpa only [List.append_assoc] using hall

/-! ### One step of the scanner -/

namespace Scan

variable {markup : Bool} {p : Position} {x : Context} {before : Option Char} {c : Char} {cs : Text}

/-- The scan with one more token in front. -/
def behind (t : Token) (s : Scan) : Scan := ⟨t :: s.tokens, s.tooDeep⟩

theorem run_of_blank {more : Nat} (h : blank? (p.offset == 0) c cs = some more) :
    run markup p x before 0 (c :: cs) =
      run markup (p.advance (c :: cs.take more)) x ((cs.take more).getLast?.or (some c)) 0
        (cs.drop more) := by
  rw [run, h]
  exact run_skip markup (p.next c) x (some c) more cs

theorem run_of_token {lexeme : Lexeme} (h : blank? (p.offset == 0) c cs = none)
    (hread : Lexeme.read markup x c cs = lexeme) (hdeep : lexeme.tooDeep = false) :
    run markup p x before 0 (c :: cs) =
      (run markup (p.advance (c :: cs.take lexeme.more))
        (x.push ⟨lexeme.kind, c :: cs.take lexeme.more, p⟩ before cs.head?)
        ((cs.take lexeme.more).getLast?.or (some c)) 0 (cs.drop lexeme.more)).behind
          ⟨lexeme.kind, c :: cs.take lexeme.more, p⟩ := by
  have hskip := run_skip markup (p.next c)
    (x.push ⟨lexeme.kind, c :: cs.take lexeme.more, p⟩ before cs.head?) (some c) lexeme.more cs
  simp only [run, h, hread, hskip, hdeep, Bool.false_eq_true, if_false]
  rfl

theorem tooDeep_read (h : blank? (p.offset == 0) c cs = none)
    (hdeep : (run markup p x before 0 (c :: cs)).tooDeep = none) :
    (Lexeme.read markup x c cs).tooDeep = false := by
  cases hl : (Lexeme.read markup x c cs).tooDeep with
  | false => rfl
  | true => simp [run, h, hl] at hdeep

end Scan

theorem Context.last_push (x : Context) (t : Token) (before after : Option Char) :
    (x.push t before after).last = some t := by
  unfold push
  split
  · split <;> rfl
  all_goals rfl

/-! ### Whole texts -/

theorem le_length_take {cs : Text} {more : Nat} (h : cs.drop more ≠ []) :
    more ≤ (cs.take more).length := by
  rw [Ne, List.drop_eq_nil_iff, Nat.not_le] at h
  exact Nat.le_of_eq (List.length_take_of_le (Nat.le_of_lt h)).symm

/-- What is passed and what follows, when something else follows. -/
theorem take_drop_append {cs ws : Text} {more : Nat} (h : Rebound (cs.drop more) ws) :
    (cs.take more ++ ws).take more = cs.take more ∧ (cs.take more ++ ws).drop more = ws := by
  by_cases hdrop : cs.drop more = []
  · rw [hdrop] at h
    have hle := List.drop_eq_nil_iff.mp hdrop
    rw [h.eq_nil, List.append_nil, List.take_of_length_le hle]
    exact ⟨List.take_of_length_le hle, hdrop⟩
  · have hlen : (cs.take more).length = more :=
      Nat.le_antisymm (List.length_take_le _ _) (le_length_take hdrop)
    exact ⟨List.take_left' hlen, List.drop_left' hlen⟩

theorem Context.push_congr (x : Context) (t : Token) (before : Option Char)
    {after after' : Option Char} (h : (after' == some '?') = (after == some '?')) :
    x.push t before after' = x.push t before after := by
  simp only [push, h]

theorem seen_place (kind : Kind) (text : Text) (p q : Position) :
    seen ⟨kind, text, p⟩ = seen ⟨kind, text, q⟩ := rfl

/-- A text whose rest is rebound. -/
theorem rebound_of_drop {cs ws : Text} {more : Nat} (h : Rebound (cs.drop more) ws) :
    Rebound cs (cs.take more ++ ws) := by
  have hall := h.append (cs.take more)
  rwa [List.take_append_drop] at hall

/-- The scan of a text, and of the text in which its bindings are written. -/
def Rescans (markup : Bool) (p q : Position) (x y : Context) (before before' : Option Char)
    (rest : Text) : Prop :=
  ∃ out, Rewritten p.offset rest (bindings x.last (Scan.run markup p x before 0 rest).tokens) out ∧
    Rebound rest out ∧ (Scan.run markup q y before' 0 out).tooDeep = none ∧
    (Scan.run markup q y before' 0 out).tokens.map kind =
      rebound (x.last.any (·.kind = .dot)) ((Scan.run markup p x before 0 rest).tokens.map kind)

/-- A binding is the word `let`, and no more of a word follows. -/
theorem read_binding {markup : Bool} {x : Context} {c : Char} {cs : Text} {lexeme : Lexeme}
    (hc : isBlank c = false) (hread : Lexeme.read markup x c cs = lexeme)
    (hk : lexeme.kind = .keyword .letWord) :
    c = 'l' ∧ cs.take lexeme.more = ['e', 't'] ∧ lexeme.tooDeep = false ∧
      (cs.drop lexeme.more).head?.any isWordRest = false := by
  have htext := (Lexeme.sound_read markup x hc .origin).keyword .letWord (by rw [hread, hk])
  rw [hread] at htext
  obtain ⟨rfl, htake⟩ : c = 'l' ∧ cs.take lexeme.more = ['e', 't'] := List.cons.inj htext
  have hword : Lexeme.read markup x 'l' cs = Lexeme.word 'l' cs := by
    rw [Lexeme.read, if_pos (by decide)]
  rw [hword] at hread
  subst hread
  refine ⟨rfl, htake, rfl, ?_⟩
  have hdrop : cs.drop (Lexeme.word 'l' cs).more = cs.dropWhile isWordRest :=
    drop_length_takeWhile isWordRest cs
  rw [hdrop]
  have hnot := List.head?_dropWhile_not isWordRest cs
  cases hh : (cs.dropWhile isWordRest).head? with
  | none => rfl
  | some d => simpa [hh] using hnot

theorem read_const {markup : Bool} {x : Context} {ws : Text}
    (h : ws.head?.any isWordRest = false) :
    Lexeme.read markup x 'c' (['o', 'n', 's', 't'] ++ ws) = ⟨.ident, 4, false⟩ := by
  have hrest : (['o', 'n', 's', 't'] ++ ws).takeWhile isWordRest = ['o', 'n', 's', 't'] := by
    rw [List.takeWhile_append_of_pos (List.all_eq_true.mp (by decide)),
      Rebound.takeWhile_eq_nil_iff.mpr h, List.append_nil]
  rw [Lexeme.read, if_pos (by decide), Lexeme.word, hrest]
  rfl

section Steps

variable {markup : Bool} {p q : Position} {x y : Context} {before before' : Option Char} {c : Char}
  {cs : Text}

/-- A binding becomes a name. -/
theorem Rescans.binding {lexeme : Lexeme} (hb : blank? (p.offset == 0) c cs = none)
    (hread : Lexeme.read markup x c cs = lexeme) (hk : lexeme.kind = .keyword .letWord)
    (hdot : x.last.any (·.kind = .dot) = false)
    (h : Rescans markup (p.advance (c :: cs.take lexeme.more)) (q.advance "const".toList)
      (x.push ⟨lexeme.kind, c :: cs.take lexeme.more, p⟩ before cs.head?)
      (y.push ⟨.ident, "const".toList, q⟩ before' (some 'o'))
      ((cs.take lexeme.more).getLast?.or (some c)) (some 't')
      (cs.drop lexeme.more)) :
    Rescans markup p q x y before before' (c :: cs) := by
  obtain ⟨ws, hwritten, hre, hdeep', hkinds⟩ := h
  obtain ⟨rfl, htake, hdeep, hend⟩ := read_binding (isBlank_of_blank?_eq_none hb) hread hk
  have hread' := @read_const markup y ws (by rw [hre.head?_any (by decide), hend])
  rw [Context.last_push] at hwritten hkinds
  have hrun := @Scan.run_of_token markup p x before 'l' cs lexeme hb hread hdeep
  have hrun' : Scan.run markup q y before' 0 ("const".toList ++ ws) =
      (Scan.run markup (q.advance "const".toList)
        (y.push ⟨.ident, "const".toList, q⟩ before' (some 'o')) (some 't') 0 ws).behind
          ⟨.ident, "const".toList, q⟩ :=
    Scan.run_of_token rfl hread' rfl
  refine ⟨"const".toList ++ ws, ?_, ?_, ?_, ?_⟩
  · rw [hrun, Scan.behind, bindings, hk, hdot]
    rw [hk, Position.offset_advance] at hwritten
    have hall := @Rewritten.cons p.offset [] _ ws
      ⟨.keyword .letWord, 'l' :: cs.take lexeme.more, p⟩ _ rfl hwritten
    rwa [List.nil_append, List.nil_append, List.cons_append, List.take_append_drop] at hall
  · have hcs : cs = ['e', 't'] ++ cs.drop lexeme.more := by
      rw [← htake, List.take_append_drop]
    rw [hcs]
    exact .word hre
  · rw [hrun']
    exact hdeep'
  · rw [hrun', hrun, Scan.behind, Scan.behind, List.map_cons, List.map_cons, hkinds, rebound, hk,
      hdot]
    rfl

variable (hstart : (q.offset == 0) = (p.offset == 0))

include hstart

theorem Rescans.blank {more : Nat} (hb : blank? (p.offset == 0) c cs = some more)
    (h : Rescans markup (p.advance (c :: cs.take more)) (q.advance (c :: cs.take more)) x y
      ((cs.take more).getLast?.or (some c)) ((cs.take more).getLast?.or (some c)) (cs.drop more)) :
    Rescans markup p q x y before before' (c :: cs) := by
  obtain ⟨ws, hwritten, hre, hdeep, hkinds⟩ := h
  obtain ⟨htake, hdrop⟩ := take_drop_append hre
  have hsplit : c :: cs = (c :: cs.take more) ++ cs.drop more := by
    rw [List.cons_append, List.take_append_drop]
  have hblank : blank? (q.offset == 0) c (cs.take more ++ ws) = some more := by
    rw [hstart]
    exact hre.blank?_append (by rwa [List.take_append_drop]) le_length_take
  refine ⟨c :: (cs.take more ++ ws), ?_, ?_, ?_, ?_⟩
  · rw [Scan.run_of_blank hb]
    rw [Position.offset_advance] at hwritten
    rw [hsplit]
    exact hwritten.append
  · rw [hsplit]
    exact hre.append (c :: cs.take more)
  · rw [Scan.run_of_blank hblank, htake, hdrop]
    exact hdeep
  · rw [Scan.run_of_blank hblank, Scan.run_of_blank hb, htake, hdrop]
    exact hkinds

variable (hxy : x.Alike y)

include hxy

/-- A token that is no binding stays as it is. -/
theorem Rescans.token {lexeme : Lexeme} (hb : blank? (p.offset == 0) c cs = none)
    (hread : Lexeme.read markup x c cs = lexeme) (hdeep : lexeme.tooDeep = false)
    (hkeep : (decide (lexeme.kind = .keyword .letWord) && !x.last.any (·.kind = .dot)) = false)
    (h : Rescans markup (p.advance (c :: cs.take lexeme.more))
      (q.advance (c :: cs.take lexeme.more))
      (x.push ⟨lexeme.kind, c :: cs.take lexeme.more, p⟩ before cs.head?)
      (y.push ⟨lexeme.kind, c :: cs.take lexeme.more, q⟩ before' cs.head?)
      ((cs.take lexeme.more).getLast?.or (some c)) ((cs.take lexeme.more).getLast?.or (some c))
      (cs.drop lexeme.more)) :
    Rescans markup p q x y before before' (c :: cs) := by
  obtain ⟨ws, hwritten, hre, hdeep', hkinds⟩ := h
  obtain ⟨htake, hdrop⟩ := take_drop_append hre
  rw [Context.last_push] at hwritten hkinds
  have hall := rebound_of_drop hre
  have hblank : blank? (q.offset == 0) c (cs.take lexeme.more ++ ws) = none := by
    rw [hstart]
    exact hall.blank?_eq_none hb
  have hread' : Lexeme.read markup y c (cs.take lexeme.more ++ ws) = lexeme := by
    have hsame := @Lexeme.read_append (cs.take lexeme.more) (cs.drop lexeme.more) ws hre x y hxy
      markup c
    rw [List.take_append_drop, hread] at hsame
    exact hsame hdeep le_length_take
  have hrun := @Scan.run_of_token markup p x before c cs lexeme hb hread hdeep
  have hrun' := @Scan.run_of_token markup q y before' c _ lexeme hblank hread' hdeep
  have hmark := hall.head?_beq (c := '?') (by decide) (by decide)
  rw [htake, hdrop, Context.push_congr y _ before' hmark] at hrun'
  refine ⟨c :: (cs.take lexeme.more ++ ws), ?_, hall.cons c, ?_, ?_⟩
  · rw [hrun, Scan.behind, bindings, hkeep]
    rw [Position.offset_advance] at hwritten
    have happend := hwritten.append
    rwa [List.cons_append, List.take_append_drop] at happend
  · rw [hrun']
    exact hdeep'
  · rw [hrun', hrun, Scan.behind, Scan.behind, List.map_cons, List.map_cons, hkinds, rebound, hkeep]
    rfl

end Steps

/-- The scanner cuts the text in which the bindings are written at the same places. -/
theorem rescans (markup : Bool) (rest : Text) {p q : Position} {x y : Context}
    {before before' : Option Char} (hstart : (q.offset == 0) = (p.offset == 0)) (hxy : x.Alike y)
    (hbefore : (before' == some '?') = (before == some '?'))
    (hdeep : (Scan.run markup p x before 0 rest).tooDeep = none) :
    Rescans markup p q x y before before' rest := by
  match rest with
  | [] => exact ⟨[], .nil, .nil, rfl, rfl⟩
  | c :: cs =>
    have hpos (r : Position) (us : Text) : ((r.advance (c :: us)).offset == 0) = false := by
      have hc := c.utf8Size_pos
      rw [Position.offset_advance, width_cons, beq_eq_false_iff_ne]
      omega
    cases hb : blank? (p.offset == 0) c cs with
    | some more =>
      rw [Scan.run_of_blank hb] at hdeep
      exact .blank hstart hb (rescans markup _ (by rw [hpos, hpos]) hxy rfl hdeep)
    | none =>
      have hread := Scan.tooDeep_read hb hdeep
      rw [Scan.run_of_token hb rfl hread] at hdeep
      cases hk : decide ((Lexeme.read markup x c cs).kind = .keyword .letWord) &&
        !x.last.any (·.kind = .dot) with
      | false =>
        exact .token hstart hxy hb rfl hread hk
          (rescans markup _ (by rw [hpos, hpos]) (hxy.push (seen_place _ _ p q) hbefore rfl) rfl
            hdeep)
      | true =>
        obtain ⟨hkind, hdot⟩ : (Lexeme.read markup x c cs).kind = .keyword .letWord ∧
            x.last.any (·.kind = .dot) = false := by simpa using hk
        obtain ⟨rfl, htake, _⟩ := read_binding (isBlank_of_blank?_eq_none hb) rfl hkind
        have hhead : cs.head? = some 'e' := by
          rw [← List.take_append_drop (Lexeme.read markup x 'l' cs).more cs, htake]
          rfl
        have hseen : seen ⟨(Lexeme.read markup x 'l' cs).kind,
            'l' :: cs.take (Lexeme.read markup x 'l' cs).more, p⟩ =
            seen ⟨.ident, "const".toList, q⟩ := if_pos hkind
        have hq : ((q.advance "const".toList).offset == 0) = false := by
          rw [Position.offset_advance]
          rfl
        refine .binding hb rfl hkind hdot
          (rescans markup _ (by rw [hpos, hq]) (hxy.push hseen hbefore ?_) ?_ hdeep)
        · rw [hhead]
          rfl
        · rw [htake]
          rfl
termination_by rest.length

/-- The tokens of a text in which the bindings are written. -/
theorem scan_rewritten {markup : Bool} {text : Text} (h : (scan markup text).tooDeep = none) :
    ∃ out, Rewritten 0 text (bindings none (scan markup text).tokens) out ∧
      (scan markup out).tooDeep = none ∧
      (scan markup out).tokens.map kind =
        rebound false ((scan markup text).tokens.map kind) := by
  obtain ⟨out, hwritten, _, hdeep, hkinds⟩ := @rescans markup text .origin .origin .empty .empty
    none none rfl ⟨rfl, rfl, rfl⟩ rfl h
  exact ⟨out, hwritten, hdeep, hkinds⟩

end Token

end Desugar
