import Desugar.Proofs.Atoms
import Desugar.Proofs.Junctions

/-! Stretches of a text that begin and end between tokens. A stretch of tokens that do not hang on
those before them is read again as the same tokens wherever it is copied to. If the blanks at its
edges are cut off, it is still read again, unless its last gap was a comment that only the end of
the line closed. -/
namespace Desugar

open Unicode Text

namespace Text.EndsFirm

theorem of_append {us vs : Text} (h : EndsFirm (us ++ vs)) (hvs : vs ≠ []) :
    EndsFirm vs := by
  obtain ⟨c, hc, hb⟩ := h
  rw [List.getLast?_append_of_ne_nil us hvs] at hc
  exact ⟨c, hc, hb⟩

theorem ne_nil {us : Text} (h : EndsFirm us) : us ≠ [] := by
  obtain ⟨c, hc, -⟩ := h
  rintro rfl
  cases hc

theorem not_blank {us : Text} (h : EndsFirm us) (hus : ∀ c ∈ us, isBlank c = true) : False := by
  obtain ⟨c, hc, hb⟩ := h
  rw [hus c (List.mem_of_getLast? hc)] at hb
  cases hb

end Text.EndsFirm

/-- Blanks are cut off at both edges, and what is left does not end with one. -/
theorem Text.exists_trim (s : Text) :
    ∃ before after, s = before ++ (trim s ++ after) ∧ (∀ c ∈ before, isBlank c = true) ∧
      (∀ c ∈ after, isBlank c = true) ∧ (trim s = [] ∨ EndsFirm (trim s)) := by
  refine ⟨s.takeWhile isBlank, ((trimStart s).reverse.takeWhile isBlank).reverse, ?_, ?_, ?_, ?_⟩
  · rw [trim, trimEnd, ← List.reverse_append, List.takeWhile_append_dropWhile, List.reverse_reverse,
      trimStart, List.takeWhile_append_dropWhile]
  · exact List.all_eq_true.mp List.all_takeWhile
  · intro c hc
    exact List.all_eq_true.mp List.all_takeWhile c (List.mem_reverse.mp hc)
  · cases hlast : (trim s).getLast? with
    | none => exact .inl (List.getLast?_eq_none_iff.mp hlast)
    | some c =>
      refine .inr ⟨c, hlast, ?_⟩
      rw [trim, trimEnd, List.getLast?_reverse] at hlast
      have hnot := List.head?_dropWhile_not isBlank (trimStart s).reverse
      rw [hlast] at hnot
      simpa using hnot

theorem isDigit_of_isBlank {c : Char} (h : isBlank c = true) : c.isDigit = false := by
  cases hdigit : c.isDigit with
  | false => rfl
  | true =>
    rw [isBlank_eq_false_of_alphanumeric (by simp [isAsciiAlphanumeric, hdigit])] at h
    cases h

/-- Two ways to cut one text. -/
theorem append_cases {us vs ws xs : Text} (h : us ++ vs = ws ++ xs) :
    (∃ l, ws = us ++ l ∧ vs = l ++ xs) ∨ ∃ l, l ≠ [] ∧ us = ws ++ l ∧ xs = l ++ vs := by
  rcases List.append_eq_append_iff.mp h with h | ⟨l, hus, hxs⟩
  · exact .inl h
  · by_cases hl : l = []
    · subst hl
      exact .inl ⟨[], by simpa using hus.symm, by simpa using hxs.symm⟩
    · exact .inr ⟨l, hl, hus, hxs⟩

theorem le_of_map_succ {x : Option Nat} {n : Nat} {cs : Text} (ih : ∀ k, x = some k → k ≤ cs.length)
    (h : x.map (· + 1) = some n) : n ≤ cs.length + 1 := by
  obtain ⟨k, hk, rfl⟩ := Option.map_eq_some_iff.mp h
  exact Nat.succ_le_succ (ih k hk)

namespace Literal

theorem number_le (cs : Text) : number cs ≤ cs.length := by
  fun_induction number cs with
  | case1 => exact Nat.le_refl _
  | case2 c cs _ ih => exact Nat.succ_le_succ ih
  | case3 c cs _ _ ih => exact Nat.succ_le_succ ih
  | case4 => exact Nat.zero_le _

theorem quoted_le (quote : Char) (cs : Text) : quoted quote cs ≤ cs.length := by
  fun_induction quoted quote cs with
  | case1 => exact Nat.le_refl _
  | case2 => exact Nat.le_refl _
  | case3 => exact Nat.succ_le_succ (Nat.zero_le _)
  | case4 c _ d ds _ ih => exact Nat.add_le_add_right ih 2
  | case5 => exact Nat.zero_le _
  | case6 => exact Nat.succ_le_succ (Nat.zero_le _)
  | case7 c cs _ _ _ ih => exact Nat.succ_le_succ ih

theorem isBlank_of_number {us vs : Text} (h : number (us ++ vs) = us.length) :
    ∀ d ∈ us, isBlank d = false := by
  induction us with
  | nil => exact nofun
  | cons d us ih =>
    rw [List.cons_append, number, List.length_cons] at h
    refine List.forall_mem_cons.mpr ?_
    split at h
    next hd =>
      refine ⟨?_, ih (Nat.succ.inj h)⟩
      rw [Bool.or_eq_true, beq_iff_eq] at hd
      rcases hd with hd | rfl
      · exact isBlank_eq_false_of_alphanumeric hd
      · decide
    next =>
      split at h
      next hpoint =>
        obtain rfl := beq_iff_eq.mp (Bool.and_eq_true_iff.mp hpoint).1
        exact ⟨by decide, ih (Nat.succ.inj h)⟩
      next => cases h

theorem throughComment_le (cs : Text) : throughComment cs ≤ cs.length := by
  fun_induction throughComment cs with
  | case1 => exact Nat.le_refl _
  | case2 => exact Nat.le_refl _
  | case3 c d ds _ => simp
  | case4 c d ds _ ih => exact Nat.succ_le_succ ih

theorem through_le (c : Char) (cs : Text) : through c cs ≤ cs.length := by
  fun_induction through c cs <;> simp_all

theorem regex?_le {inClass : Bool} {n : Nat} {cs : Text} (h : regex? inClass cs = some n) :
    n ≤ cs.length := by
  fun_induction regex? inClass cs generalizing n with
  | case1 | case2 | case3 => cases h
  | case4 inClass c _ _ d cs ih =>
    obtain ⟨m, hm, rfl⟩ := Option.map_eq_some_iff.mp h
    exact Nat.add_le_add_right (ih hm) 2
  | case7 =>
    cases h
    exact Nat.succ_le_succ (List.takeWhile_prefix _).length_le
  | case5 _ _ _ _ _ _ ih | case6 _ _ _ _ _ _ _ ih | case8 _ _ _ _ _ _ _ _ ih =>
    exact le_of_map_succ (fun k => ih) h

theorem template?_le {stack : List Nat} {skip n : Nat} {cs : Text}
    (h : template? stack skip cs = some n) : n ≤ cs.length := by
  fun_induction template? stack skip cs generalizing n with
  | case1 | case3 =>
    cases h
    exact Nat.zero_le _
  | case5 =>
    cases h
    exact Nat.succ_le_succ (Nat.zero_le _)
  | case7 | case13 => cases h
  | case2 _ _ _ _ ih | case4 _ _ _ _ ih | case6 _ _ _ _ _ _ ih | case8 _ _ _ _ _ _ _ ih
  | case9 _ _ _ _ _ _ ih | case10 _ _ _ _ _ ih | case11 _ _ _ _ _ ih | case12 _ _ _ _ _ _ _ ih
  | case14 _ _ _ _ _ _ _ _ ih | case15 _ _ _ _ _ _ _ _ ih | case16 _ _ _ _ _ _ _ _ ih =>
    exact le_of_map_succ (fun k => ih) h

end Literal

namespace Element

theorem openTag?_le {container? : Text → Option Nat} {skip n : Nat} {closes : Bool} {cs : Text}
    (h : openTag? container? skip cs = some (n, closes)) : n ≤ cs.length := by
  have hsucc {x : Option (Nat × Bool)} {m : Nat} {ds : Text}
      (ih : ∀ k, x = some (k, closes) → k ≤ ds.length)
      (hx : (x.map fun r => (r.1 + 1, r.2)) = some (m, closes)) : m ≤ ds.length + 1 := by
    obtain ⟨⟨k, b⟩, hk, heq⟩ := Option.map_eq_some_iff.mp hx
    cases heq
    exact Nat.succ_le_succ (ih k hk)
  fun_induction openTag? container? skip cs generalizing n with
  | case1 =>
    cases h
    exact Nat.zero_le _
  | case4 => cases h
  | case6 c cs _ _ hc =>
    cases h
    obtain ⟨ds, rfl⟩ := List.head?_eq_some_iff.mp (beq_iff_eq.mp (Bool.and_eq_true_iff.mp hc).2)
    exact Nat.succ_le_succ (Nat.succ_le_succ (Nat.zero_le _))
  | case7 =>
    cases h
    exact Nat.succ_le_succ (Nat.zero_le _)
  | case2 _ _ _ ih | case3 _ _ _ ih | case5 _ _ _ _ _ _ ih | case8 _ _ _ _ _ _ ih =>
    exact hsucc (fun k => ih) h

theorem tags?_le {container? : Text → Option Nat} {depth skip n : Nat} {cs : Text}
    (h : tags? container? depth skip cs = some n) : n ≤ cs.length := by
  fun_induction tags? container? depth skip cs generalizing n with
  | case1 =>
    cases h
    exact Nat.zero_le _
  | case3 depth c cs _ hc _ =>
    cases h
    cases cs with
    | nil => cases hc
    | cons d cs => exact Nat.succ_le_succ (Nat.succ_le_succ (Literal.through_le '>' cs))
  | case6 c cs _ _ k hk =>
    cases h
    exact Nat.succ_le_succ (openTag?_le hk)
  | case9 =>
    cases h
    exact Nat.zero_le _
  | case5 | case10 => cases h
  | case4 =>
    rename_i ih
    exact le_of_map_succ (fun k => ih) h
  | case2 _ _ _ _ ih | case7 _ _ _ _ _ _ _ _ ih | case8 _ _ _ _ _ _ _ ih
  | case11 _ _ _ _ _ _ _ _ ih | case12 _ _ _ _ _ _ ih => exact le_of_map_succ (fun k => ih) h

theorem length?_le {n : Nat} {cs : Text} (h : length? cs = some n) : n ≤ cs.length := by
  unfold length? Literal.maxDepth at h
  simp only [element?] at h
  exact tags?_le h
end Element

namespace Token

theorem le_of_blank? {first : Bool} {c : Char} {cs : Text} {more : Nat}
    (h : blank? first c cs = some more) : more ≤ cs.length := by
  have hline : restOfLine cs ≤ cs.length := (List.takeWhile_prefix _).length_le
  have hcomment := Literal.throughComment_le (cs.drop 1)
  have hdrop : (cs.drop 1).length = cs.length - 1 := List.length_drop
  have hpos (d : Char) (hd : cs.head? = some d) : 0 < cs.length := by
    obtain ⟨ds, rfl⟩ := List.head?_eq_some_iff.mp hd
    exact Nat.succ_pos _
  unfold blank? at h
  grind

theorem Lexeme.more_le (markup : Bool) (x : Context) (c : Char) (cs : Text) :
    (read markup x c cs).more ≤ cs.length := by
  have hword : (word c cs).more ≤ cs.length := (List.takeWhile_prefix _).length_le
  have htemplate : (template cs).more ≤ cs.length := by
    unfold template
    split
    next n hn => exact Literal.template?_le hn
    next => exact Nat.le_refl _
  have helement : (element cs).more ≤ cs.length := by
    unfold element
    split
    next n hn =>
      have hle := Element.length?_le hn
      rw [List.length_cons] at hle
      split
      · exact Nat.sub_le_of_le_add hle
      · exact Nat.zero_le _
    next => exact Nat.le_refl _
  have hregex : (regex cs).more ≤ cs.length := by
    unfold regex
    split
    next n hn => exact Literal.regex?_le hn
    next => exact Nat.zero_le _
  have hnumber := Literal.number_le cs
  have hquoted := Literal.quoted_le c cs
  have hpos (d : Char) (hd : cs.head? = some d) : 1 ≤ cs.length := by
    obtain ⟨ds, rfl⟩ := List.head?_eq_some_iff.mp hd
    exact Nat.succ_le_succ (Nat.zero_le _)
  have hsingle : (single (signKind c)).more ≤ cs.length := Nat.zero_le _
  dsimp only [read]
  grind

theorem Lexeme.endsFirm_pair {c d : Char} {us vs : Text} {k double simple : Kind} {next : Bool}
    (hb : isBlank c = false)
    (h : (if next then (⟨double, 1, false⟩ : Lexeme) else single simple) = ⟨k, us.length, false⟩)
    (hnext : next = true → (us ++ vs).head? = some d) (hd : isBlank d = false) :
    EndsFirm (c :: us) := by
  split at h
  next hn =>
    obtain ⟨e, rfl⟩ := List.length_eq_one_iff.mp (congrArg Lexeme.more h).symm
    obtain rfl : e = d := Option.some.inj (hnext hn)
    exact (EndsFirm.singleton hd).cons c
  next =>
    rw [List.length_eq_zero_iff.mp (congrArg Lexeme.more h).symm]
    exact .singleton hb

/-- A gap is a blank, a comment that the end of its line closes, or ends with a slash. -/
theorem gap_cases {c : Char} {us vs : Text} (h : blank? false c (us ++ vs) = some us.length)
    (hvs : vs ≠ []) :
    isBlank c = true ∧ us = [] ∨ (∃ body, c = '/' ∧ us = '/' :: body ∧ '\n' ∉ body) ∨
      isLine c us = false ∧ (c :: us).getLast? = some '/' := by
  unfold blank? at h
  split at h
  next hb => exact .inl ⟨hb, List.length_eq_zero_iff.mp (Option.some.inj h).symm⟩
  split at h
  next hc =>
    obtain ⟨hslash, hhead⟩ := Bool.and_eq_true_iff.mp hc
    have hbody := (restOfLine_spec (us ++ vs)).1
    rw [Option.some.inj h, List.take_left] at hbody
    have hus : us ≠ [] := by
      rintro rfl
      exact restOfLine_ne_zero (by decide) (beq_iff_eq.mp hhead) (Option.some.inj h)
    obtain ⟨d, body, rfl⟩ := List.exists_cons_of_ne_nil hus
    obtain rfl : d = '/' := by simpa using hhead
    exact .inr (.inl ⟨body, beq_iff_eq.mp hslash, rfl,
      fun hmem => hbody (List.mem_cons_of_mem _ hmem)⟩)
  next =>
    simp only [Bool.and_false, Bool.false_eq_true, if_false] at h
    split at h
    next hc =>
      -- a comment that something stands behind has its closing sign
      obtain ⟨-, hhead⟩ := Bool.and_eq_true_iff.mp hc
      cases us with
      | nil => cases h
      | cons d us =>
        obtain rfl : d = '*' := by simpa using hhead
        have hlen : Literal.throughComment (us ++ vs) = us.length :=
          Nat.succ.inj (Option.some.inj h)
        refine .inr (.inr ⟨by simp_all [isLine], ?_⟩)
        rcases Literal.throughComment_cases (us ++ vs) with ⟨body, rest, heq, hclose, -⟩ | ⟨hall, -⟩
        · have hsplit : us ++ vs = (body ++ ['*', '/']) ++ rest := by simpa using heq
          rw [(List.append_inj hsplit (by simp [← hlen, hclose])).1, ← List.cons_append,
            ← List.cons_append, List.getLast?_append]
          rfl
        · rw [hlen, List.length_append, Nat.left_eq_add, List.length_eq_zero_iff] at hall
          exact absurd hall hvs
    next => cases h

/-- A token before other text has no blank at its end. -/
theorem Lexeme.endsFirm_read {markup : Bool} {x : Context} {c : Char} {us vs : Text} {k : Kind}
    (hb : isBlank c = false) (h : read markup x c (us ++ vs) = ⟨k, us.length, false⟩)
    (hclosed : k = .string → Literal.isClosed c us = true) (hvs : vs ≠ []) :
    EndsFirm (c :: us) := by
  have hliteral (hk : isLiteral ⟨k, c :: us, .origin⟩ = true) : EndsFirm (c :: us) := by
    have hsound := (sound_read markup x hb : Sound c (us ++ vs) _) .origin
    rw [h, List.take_left, List.drop_left] at hsound
    exact (hsound.literal hk).resolve_left hvs
  by_cases hword : isWordStart c = true
  · rw [read, if_pos hword] at h
    refine .of_forall (List.forall_mem_cons.mpr ⟨hb, fun d hd => ?_⟩) (List.cons_ne_nil _ _)
    exact isBlank_of_isWordRest ((takeWhile_before (congrArg Lexeme.more h)).1 d hd)
  by_cases hdigit : c.isDigit = true
  · rw [read, if_neg hword, if_pos hdigit] at h
    refine .of_forall (List.forall_mem_cons.mpr ⟨hb, ?_⟩) (List.cons_ne_nil _ _)
    exact Literal.isBlank_of_number (congrArg Lexeme.more h)
  by_cases hquote : Element.isQuote c = true
  · rw [read, if_neg hword, if_neg hdigit, if_pos hquote] at h
    exact (Literal.endsFirm_of_isClosed hb (hclosed (congrArg Lexeme.kind h).symm)).cons c
  by_cases htick : (c == '`') = true
  · rw [read, if_neg hword, if_neg hdigit, if_neg hquote, if_pos htick, template] at h
    split at h
    next n hn =>
      obtain rfl : .template = k := congrArg Lexeme.kind h
      exact hliteral rfl
    next => cases (congrArg Lexeme.tooDeep h : true = false)
  rw [Bool.not_eq_true] at hword hdigit hquote
  have hsingle (hus : us.length = 0) : EndsFirm (c :: us) := by
    rw [List.length_eq_zero_iff.mp hus]
    exact .singleton hb
  by_cases hbar : c = '|'
  · subst hbar
    rw [read_bar] at h
    exact endsFirm_pair hb h (fun hnext => beq_iff_eq.mp hnext) (by decide)
  by_cases hequals : c = '='
  · subst hequals
    rw [read_equals] at h
    exact endsFirm_pair hb h (fun hnext => beq_iff_eq.mp hnext) (by decide)
  by_cases hquery : c = '?'
  · subst hquery
    rw [read_query] at h
    exact endsFirm_pair hb h (fun hnext => beq_iff_eq.mp (Bool.and_eq_true_iff.mp hnext).1)
      (by decide)
  by_cases hslash : c = '/'
  · subst hslash
    rw [read_slash] at h
    split at h
    next =>
      unfold regex at h
      split at h
      next =>
        obtain rfl : .regex = k := congrArg Lexeme.kind h
        exact hliteral rfl
      next => exact hsingle (congrArg Lexeme.more h).symm
    next => exact hsingle (congrArg Lexeme.more h).symm
  by_cases hless : c = '<'
  · subst hless
    rw [read_less] at h
    split at h
    next =>
      rcases element_cases h with ⟨-, hus⟩ | ⟨rfl, -⟩
      · exact hsingle hus
      · exact hliteral rfl
    next => exact hsingle (congrArg Lexeme.more h).symm
  have hsign : c ∉ ['`', '|', '=', '?', '/'] := by
    simp_all
  rw [read_single hword hdigit hquote hsign fun _ => hless] at h
  exact hsingle (congrArg Lexeme.more h).symm

/-! ### Stretches -/

/-- What stands between `front` and `back` is read as the tokens `ts` and the gaps between them.
`line` says whether it ends in a comment that only the end of its line closes. -/
inductive Stretch (markup : Bool) :
    (front piece back : Text) → List Token → (line : Bool) → Prop where
  | nil {front back : Text} : Stretch markup front [] back [] false
  | gap {front piece back us : Text} {c : Char} {ts : List Token} {line : Bool} :
      blank? front.isEmpty c (us ++ (piece ++ back)) = some us.length →
      Stretch markup (front ++ c :: us) piece back ts line →
      Stretch markup front (c :: us ++ piece) back ts (line || piece.isEmpty && isLine c us)
  | token {front piece back us : Text} {x : Context} {c : Char} {k : Kind} {ts : List Token}
      {line : Bool} :
      blank? front.isEmpty c (us ++ (piece ++ back)) = none →
      Lexeme.read markup x c (us ++ (piece ++ back)) = ⟨k, us.length, false⟩ →
      Stretch markup (front ++ c :: us) piece back ts line →
      Stretch markup front (c :: us ++ piece) back (.behind front k (c :: us) :: ts) line

theorem Position.advance_cons_append (front us : Text) (c : Char) :
    (Position.origin.advance front).advance (c :: us) =
      Position.origin.advance (front ++ c :: us) :=
  (Position.advance_append _ _ _).symm

/-- A text that is not nested too deep is one stretch. -/
theorem stretch_run (markup : Bool) (rest : Text) {front : Text} {x : Context}
    {before : Option Char}
    (hdeep : (Scan.run markup (Position.origin.advance front) x before 0 rest).tooDeep = none) :
    ∃ us line, (Scan.run markup (Position.origin.advance front) x before 0 rest).tokens =
        us ++ [finish (Position.origin.advance (front ++ rest))] ∧
      Stretch markup front rest [] us line := by
  match rest with
  | [] => exact ⟨[], false, by rw [List.append_nil]; rfl, .nil⟩
  | c :: cs =>
    have hfirst := offset_beq_zero front
    cases hb : blank? ((Position.origin.advance front).offset == 0) c cs with
    | some more =>
      have hlen : (cs.take more).length = more := List.length_take_of_le (le_of_blank? hb)
      rw [Scan.run_of_blank hb, Position.advance_cons_append] at hdeep ⊢
      obtain ⟨us, line, htokens, hstretch⟩ := stretch_run markup (cs.drop more) hdeep
      rw [List.append_assoc, List.cons_append, List.take_append_drop] at htokens
      have hgap := @Stretch.gap markup front (cs.drop more) [] (cs.take more) c us line
        (by rw [List.append_nil, List.take_append_drop, hlen, ← hfirst, hb]) hstretch
      rw [List.cons_append, List.take_append_drop] at hgap
      exact ⟨us, _, htokens, hgap⟩
    | none =>
      have hread := Scan.tooDeep_read hb hdeep
      rw [Scan.run_of_token hb rfl hread, Position.advance_cons_append] at hdeep ⊢
      have hlen := List.length_take_of_le (Lexeme.more_le markup x c cs)
      obtain ⟨us, line, htokens, hstretch⟩ := stretch_run markup (cs.drop _) hdeep
      rw [List.append_assoc, List.cons_append, List.take_append_drop] at htokens
      have htoken := @Stretch.token markup front (cs.drop (Lexeme.read markup x c cs).more) []
        (cs.take (Lexeme.read markup x c cs).more) x c (Lexeme.read markup x c cs).kind us line
        (by rw [List.append_nil, List.take_append_drop, ← hfirst, hb])
        (by rw [List.append_nil, List.take_append_drop, hlen, ← hread]) hstretch
      rw [List.cons_append, List.take_append_drop] at htoken
      exact ⟨_ :: us, line, congrArg (_ :: ·) htokens, htoken⟩
termination_by rest.length

theorem stretch_scan {markup : Bool} {text : Text} (hdeep : (scan markup text).tooDeep = none) :
    ∃ us line, (scan markup text).tokens = us ++ [finish (Position.origin.advance text)] ∧
      Stretch markup [] text [] us line :=
  @stretch_run markup text [] .empty none hdeep

/-! ### Places between tokens -/

theorem Scan.offset_le_start (markup : Bool) (p : Position) (x : Context) (before : Option Char)
    (skip : Nat) (cs : Text) :
    ∀ t ∈ (run markup p x before skip cs).tokens, p.offset ≤ t.start := by
  induction cs generalizing p x before skip with
  | nil => exact List.forall_mem_singleton.mpr (Nat.le_refl _)
  | cons c cs ih =>
    have hnext (y : Context) (n : Nat) :
        ∀ t ∈ (run markup (p.next c) y (some c) n cs).tokens, p.offset ≤ t.start := by
      intro t ht
      have hle := ih (p.next c) y (some c) n t ht
      rw [Position.offset_next] at hle
      omega
    cases skip with
    | succ skip => exact hnext x skip
    | zero =>
      rw [run]
      split
      next more _ => exact hnext x more
      next => exact List.forall_mem_cons.mpr ⟨Nat.le_refl _, hnext _ _⟩

/-- Scanning the text `front ++ rest` comes to the place between the two in the given stance, with
no token over it. -/
def Reached (markup : Bool) (σ : Stance) (front rest : Text) : Prop :=
  ∃ x before ts, x.stance = σ ∧
    (scan markup (front ++ rest)).tokens =
      ts ++ (Scan.run markup (Position.origin.advance front) x before 0 rest).tokens ∧
    ∀ t ∈ ts, t.stop ≤ width front

namespace Reached

variable {markup : Bool} {σ : Stance} {front us rest : Text} {c : Char}

theorem start (text : Text) : Reached markup Context.empty.stance [] text :=
  ⟨.empty, none, [], rfl, rfl, nofun⟩

theorem gap (h : Reached markup σ front (c :: us ++ rest))
    (hb : blank? front.isEmpty c (us ++ rest) = some us.length) :
    Reached markup σ (front ++ c :: us) rest := by
  obtain ⟨x, before, ts, hx, htokens, hts⟩ := h
  rw [List.cons_append, Scan.run_of_blank (by rw [offset_beq_zero]; exact hb), List.take_left,
    List.drop_left, Position.advance_cons_append] at htokens
  refine ⟨x, _, ts, hx, by rw [List.append_assoc]; exact htokens, fun t ht => ?_⟩
  rw [width_append]
  exact Nat.le_trans (hts t ht) (Nat.le_add_right _ _)

/-- A token is read at a place between tokens, and the next such place is behind it. -/
theorem token (h : Reached markup σ front (c :: us ++ rest))
    (hb : blank? front.isEmpty c (us ++ rest) = none) {k : Kind}
    (hread : ∀ y : Context, y.stance = σ →
      Lexeme.read markup y c (us ++ rest) = ⟨k, us.length, false⟩) :
    Token.behind front k (c :: us) ∈ (scan markup (front ++ (c :: us ++ rest))).tokens ∧
      Reached markup (Token.behind front k (c :: us)).stance (front ++ c :: us) rest := by
  obtain ⟨x, before, ts, hx, htokens, hts⟩ := h
  obtain ⟨y, after, hy, hrun⟩ : ∃ y after, y.stance = (Token.behind front k (c :: us)).stance ∧
      (Scan.run markup (Position.origin.advance front) x before 0 (c :: us ++ rest)).tokens =
        .behind front k (c :: us) ::
          (Scan.run markup (Position.origin.advance (front ++ c :: us)) y after 0 rest).tokens := by
    rw [List.cons_append, Scan.run_of_token (by rw [offset_beq_zero]; exact hb) (hread x hx) rfl,
      List.take_left, List.drop_left, Position.advance_cons_append]
    exact ⟨_, _, Context.stance_push _ _ _ _, rfl⟩
  rw [hrun] at htokens
  refine ⟨by rw [htokens]; simp, y, after, ts ++ [.behind front k (c :: us)], hy, ?_, ?_⟩
  · rw [List.append_assoc front, htokens, List.append_assoc ts]
    rfl
  · refine List.forall_mem_append.mpr ⟨fun t ht => ?_, List.forall_mem_singleton.mpr ?_⟩
    · rw [width_append]
      exact Nat.le_trans (hts t ht) (Nat.le_add_right _ _)
    · rw [stop_behind]

/-- No token starts inside a comment that runs to the end of its line. -/
theorem start_ne {body : Text} {d : Char}
    (h : Reached markup σ front ('/' :: '/' :: body ++ d :: rest))
    (hbody : '\n' ∉ body) (hd : d ≠ '\n') :
    ∀ t ∈ (scan markup (front ++ ('/' :: '/' :: body ++ d :: rest))).tokens,
      t.start ≠ width (front ++ '/' :: '/' :: body) := by
  have hline : body.length + 2 ≤ restOfLine ('/' :: body ++ d :: rest) := by
    have hall : ∀ e ∈ '/' :: body ++ [d], (e != '\n') = true := by
      simp only [List.cons_append, List.forall_mem_cons, List.forall_mem_append, bne_iff_ne]
      refine ⟨by decide, fun e he => ?_, hd, nofun⟩
      rintro rfl
      exact hbody he
    rw [List.append_cons, restOfLine, List.takeWhile_append_of_pos hall, List.length_append]
    simp
  obtain ⟨x, before, ts, -, htokens, hts⟩ := h
  have hblank : blank? ((Position.origin.advance front).offset == 0) '/'
      ('/' :: body ++ d :: rest) = some (restOfLine ('/' :: body ++ d :: rest)) := rfl
  rw [List.cons_append, Scan.run_of_blank hblank, Position.advance_cons_append] at htokens
  intro t ht
  rw [List.cons_append, htokens] at ht
  rw [width_append, width_cons, width_cons]
  have hslash := Char.utf8Size_pos '/'
  rcases List.mem_append.mp ht with ht | ht
  · have hle := hts t ht
    have hstart : t.start ≤ t.stop := Nat.le_add_right _ _
    omega
  · have hle := Scan.offset_le_start _ _ _ _ _ _ t ht
    have hpos := d.utf8Size_pos
    rw [List.append_cons ('/' :: body)] at hline hle
    have hlen : ('/' :: body ++ [d]).length ≤ restOfLine ('/' :: body ++ [d] ++ rest) := by
      rw [List.length_append, List.length_cons, List.length_singleton]
      exact hline
    rw [List.take_append, List.take_of_length_le hlen, offset_origin_advance] at hle
    simp only [width_append, width_cons, width_nil, List.cons_append] at hle
    omega

end Reached

theorem isEmpty_append_cons (us vs : Text) (c : Char) : (us ++ c :: vs).isEmpty = false := by
  cases us <;> rfl

theorem AtLineEnd.of_append {us vs ws : Text} (h : AtLineEnd (us ++ vs)) (hus : us ≠ []) :
    AtLineEnd (us ++ ws) := by
  obtain ⟨c, us, rfl⟩ := List.exists_cons_of_ne_nil hus
  exact h

/-- The stance behind tokens. -/
def Stance.after (σ : Stance) (ts : List Token) : Stance := ts.foldl (fun _ t => t.stance) σ

@[simp] theorem Stance.after_nil (σ : Stance) : σ.after [] = σ := rfl

@[simp] theorem Stance.after_cons (σ : Stance) (t : Token) (ts : List Token) :
    σ.after (t :: ts) = t.stance.after ts := rfl

@[simp] theorem Stance.after_append (σ : Stance) (us ts : List Token) :
    σ.after (us ++ ts) = (σ.after us).after ts := List.foldl_append

theorem fitting_cons {markup : Bool} {σ : Stance} {t : Token} {ts : List Token} :
    Fitting markup σ (t :: ts) ↔ Fits markup σ t ∧ Fitting markup t.stance ts := by
  simp [Fitting, List.isChain_cons]

theorem Fitting.append_left {markup : Bool} {σ : Stance} {us vs : List Token}
    (h : Fitting markup σ (us ++ vs)) : Fitting markup σ us := by
  refine ⟨fun t ht => h.1 t ?_, (List.isChain_append.mp h.2).1⟩
  rw [List.head?_append, Option.mem_def.mp ht]
  rfl

theorem Fits.isClosed {markup : Bool} {σ : Stance} {front us : Text} {c : Char} {k : Kind}
    (h : Fits markup σ (.behind front k (c :: us))) (hk : k = .string) :
    Literal.isClosed c us = true := by
  have hliteral := h.closed hk
  simp only [isLiteral, behind, hk] at hliteral
  exact hliteral

/-- Only a `#` is read in another way at the start of the text. -/
theorem blank?_place {place front us : Text} {c : Char}
    (h : place.isEmpty = front.isEmpty ∨ (c :: us).head? ≠ some '#') (cs : Text) :
    blank? place.isEmpty c cs = blank? front.isEmpty c cs := by
  rcases h with h | h
  · rw [h]
  · have hc : c ≠ '#' := fun hc => h (congrArg some hc)
    simp [blank?, hc]

/-- The token was read before `rest` in some context. -/
def ReadBefore (markup : Bool) (t : Token) (rest : Text) : Prop :=
  ∃ first x c us, t.text = c :: us ∧ blank? first c (us ++ rest) = none ∧
    Lexeme.read markup x c (us ++ rest) = ⟨t.kind, us.length, false⟩

/-- The token stands at the end of the text before it. -/
def Touches (front : Text) (ts : List Token) (t : Token) : Prop :=
  ts.getLast? = some t ∧ t.stop = width front

/-- The tokens of `piece` and the gaps between them may stand before `ws` as they do before
`back`. -/
structure Changes (front piece back : Text) (ts : List Token) (line : Bool) (ws : Text) : Prop where
  nil : back = [] →
    ws = [] ∨ ∃ t, Touches (front ++ piece) ts t ∧ t.kind ≠ .template ∧ t.kind ≠ .markup
  digit : piece.getLast? = some '.' → ws.head?.any Char.isDigit = back.head?.any Char.isDigit
  bang : ws.head? = some '!' → back.head? = some '!'
  clear : ∀ t, Touches (front ++ piece) ts t → ∀ c us, t.text = c :: us → Clear c us ws
  line : line = true → AtLineEnd ws

namespace Changes

variable {front piece back ws us : Text} {c : Char} {k : Kind} {ts : List Token} {line more : Bool}

theorem gap (h : Changes front (c :: us ++ piece) back ts (line || more) ws) :
    Changes (front ++ c :: us) piece back ts line ws where
  nil := by simpa only [List.append_assoc] using h.nil
  digit hdot := h.digit (by rw [List.getLast?_append, hdot]; rfl)
  bang := h.bang
  clear := by simpa only [List.append_assoc] using h.clear
  line hline := h.line (by rw [hline]; rfl)

/-- What was read before does not matter if something stands behind it. -/
theorem drop {pre : Text} {before : List Token}
    (h : Changes front (pre ++ piece) back (before ++ ts) line ws) (hpiece : piece ≠ [])
    (hbefore : ∀ t ∈ before.getLast?, t.stop ≤ width (front ++ pre)) :
    Changes (front ++ pre) piece back ts line ws := by
  have hmore {t : Token} : Touches (front ++ (pre ++ piece)) (before ++ ts) t ↔
      Touches (front ++ pre ++ piece) ts t := by
    rw [Touches, Touches, List.append_assoc, List.getLast?_append]
    cases hlast : ts.getLast? with
    | some u => rfl
    | none =>
      refine ⟨fun ⟨ht, hstop⟩ => ?_, fun ⟨ht, _⟩ => by cases ht⟩
      have hle := hbefore t ht
      have hpos := width_pos hpiece
      rw [← List.append_assoc, width_append _ piece] at hstop
      omega
  refine ⟨fun hback => ?_, fun hdot => h.digit ?_, h.bang, fun t ht => h.clear t (hmore.mpr ht),
    h.line⟩
  · exact (h.nil hback).imp_right fun ⟨t, ht, hk⟩ => ⟨t, hmore.mp ht, hk⟩
  · rw [List.getLast?_append, hdot]
    rfl

theorem token (h : Changes front (c :: us ++ piece) back (.behind front k (c :: us) :: ts) line ws)
    (hpiece : piece ≠ []) : Changes (front ++ c :: us) piece back ts line ws := by
  refine @drop _ _ _ _ _ _ _ [.behind front k (c :: us)] h hpiece fun t ht => ?_
  obtain rfl : Token.behind front k (c :: us) = t := Option.some.inj ht
  rw [stop_behind]

end Changes

namespace Stretch

variable {markup : Bool} {σ : Stance} {front piece back ws : Text} {ts : List Token} {line : Bool}

theorem tokens_eq_nil (h : Stretch markup front [] back ts line) : ts = [] := by
  cases h
  rfl

/-- A stretch is read again before other text, at a place that its first token fits. -/
theorem reached (h : Stretch markup front piece back ts line) (hfits : Fitting markup σ ts)
    (hws : Changes front piece back ts line ws) {place : Text}
    (hfirst : place.isEmpty = front.isEmpty ∨ piece.head? ≠ some '#')
    (hreached : Reached markup σ place (piece ++ ws)) :
    Reached markup (σ.after ts) (place ++ piece) ws := by
  induction h generalizing place σ with
  | nil => simpa using hreached
  | @gap front piece back us c ts line hb hrest ih =>
    rw [List.append_assoc (c :: us)] at hreached
    have hgap : blank? place.isEmpty c (us ++ (piece ++ ws)) = some us.length := by
      rw [blank?_place hfirst]
      refine blank?_before hb (fun hnil => ?_) fun hc => ?_
      · obtain ⟨rfl, rfl⟩ := List.append_eq_nil_iff.mp hnil
        rcases hws.nil rfl with rfl | ⟨t, ⟨ht, -⟩, -⟩
        · rfl
        · rw [hrest.tokens_eq_nil] at ht
          cases ht
      · by_cases hpiece : piece = []
        · subst hpiece
          exact hws.line (by simp [hc])
        · exact (atLineEnd_of_blank? hb hc).of_append hpiece
    have hempty : (place ++ c :: us).isEmpty = (front ++ c :: us).isEmpty := by
      rw [isEmpty_append_cons, isEmpty_append_cons]
    have hbehind := ih hfits hws.gap (.inl hempty) (hreached.gap hgap)
    rwa [List.append_assoc] at hbehind
  | @token front piece back us x c k ts line hb hread hrest ih =>
    rw [List.append_assoc (c :: us)] at hreached
    obtain ⟨ht, hts⟩ := fitting_cons.mp hfits
    have hend : Clear c us (piece ++ ws) := by
      cases piece with
      | nil =>
        obtain rfl := hrest.tokens_eq_nil
        refine hws.clear (.behind front k (c :: us)) ⟨rfl, ?_⟩ c us rfl
        rw [stop_behind, List.append_nil]
      | cons d piece =>
        refine (Lexeme.clear_of_read hb hread).before fun hd => hws.digit ?_
        rw [List.getLast?_append, hd]
        rfl
    have hnone : blank? place.isEmpty c (us ++ (piece ++ ws)) = none := by
      rw [blank?_place hfirst]
      refine blank?_eq_none_before hb hend fun hbang => ?_
      cases piece with
      | nil => exact hws.bang hbang
      | cons => exact hbang
    have hnil : piece ++ back = [] → piece ++ ws = [] ∨ k ≠ .template ∧ k ≠ .markup := by
      intro hnil
      obtain ⟨rfl, rfl⟩ := List.append_eq_nil_iff.mp hnil
      obtain rfl := hrest.tokens_eq_nil
      refine (hws.nil rfl).imp_right fun ⟨t, ⟨hlast, _⟩, hk⟩ => ?_
      obtain rfl := Option.some.inj hlast
      exact hk
    have hread' (y : Context) (hy : y.stance = σ) :
        Lexeme.read markup y c (us ++ (piece ++ ws)) = ⟨k, us.length, false⟩ :=
      Lexeme.read_before hread (hy ▸ ht) hnil hend
    have hbehind := (hreached.token hnone hread').2
    cases piece with
    | nil =>
      obtain rfl := hrest.tokens_eq_nil
      rw [List.append_nil]
      exact hbehind
    | cons d piece =>
      have hempty : (place ++ c :: us).isEmpty = (front ++ c :: us).isEmpty := by
        rw [isEmpty_append_cons, isEmpty_append_cons]
      have hlast := ih hts (hws.token (List.cons_ne_nil d piece)) (.inl hempty) hbehind
      rwa [List.append_assoc] at hlast

/-! ### Parts of a stretch -/

theorem line_eq_false {d : Char} (h : Stretch markup front piece (d :: back) ts line)
    (hd : d ≠ '\n') : line = false := by
  generalize hrest : d :: back = rest at h
  induction h with
  | nil => rfl
  | @gap front piece back us c ts line hb _ ih =>
    subst hrest
    rw [ih rfl, Bool.false_or, Bool.and_eq_false_iff]
    by_cases hc : isLine c us = true
    · refine .inl ?_
      cases piece with
      | nil => exact absurd (atLineEnd_of_blank? hb hc d rfl) hd
      | cons => rfl
    · exact .inr (Bool.not_eq_true _ ▸ hc)
  | token _ _ _ ih => exact ih hrest

/-- A stretch is cut before and behind each of its tokens. -/
theorem split {us : List Token} {t : Token}
    (h : Stretch markup front piece back (us ++ t :: ts) line) :
    ∃ before after, piece = before ++ (t.text ++ after) ∧
      t.place = Position.origin.advance (front ++ before) ∧
      (∃ c cs, t.text = c :: cs ∧ isBlank c = false) ∧
      Stretch markup front before (t.text ++ (after ++ back)) us false ∧
      Stretch markup (front ++ before) t.text (after ++ back) [t] false ∧
      Stretch markup (front ++ before ++ t.text) after back ts line := by
  generalize hall : us ++ t :: ts = all at h
  induction h generalizing us with
  | nil => simp at hall
  | @gap front piece back gs c all line hb _ ih =>
    obtain ⟨before, after, rfl, hplace, hfirm, hbefore, htoken, hafter⟩ := ih hall
    have hgap : Stretch markup front (c :: gs ++ before) (t.text ++ (after ++ back)) us _ :=
      .gap (by simpa using hb) hbefore
    obtain ⟨d, ds, hd, hdb⟩ := hfirm
    -- a token does not stand at the end of a line
    have hline := (hd ▸ hgap).line_eq_false (by rintro rfl; exact absurd hdb (by decide))
    rw [hline] at hgap
    have hmore : (before ++ (t.text ++ after)).isEmpty = false := by
      rw [hd]
      exact isEmpty_append_cons _ _ _
    rw [hmore, Bool.false_and, Bool.or_false]
    refine ⟨c :: gs ++ before, after, by simp, by simpa using hplace, ⟨d, ds, hd, hdb⟩, hgap, ?_,
      ?_⟩
    · simpa using htoken
    · simpa using hafter
  | @token front piece back gs x c k all line hb hread hrest ih =>
    cases us with
    | nil =>
      obtain ⟨rfl, rfl⟩ := List.cons.inj hall
      have htoken : Stretch markup front (c :: gs ++ []) (piece ++ back)
          [.behind front k (c :: gs)] false :=
        .token hb hread .nil
      rw [List.append_nil] at htoken
      refine ⟨[], piece, rfl, by rw [List.append_nil]; rfl,
        ⟨c, gs, rfl, isBlank_of_blank?_eq_none hb⟩, .nil, ?_, ?_⟩
      · rwa [List.append_nil]
      · rwa [List.append_nil]
    | cons u us =>
      obtain ⟨rfl, rfl⟩ := List.cons.inj hall
      obtain ⟨before, after, rfl, hplace, hfirm, hbefore, htoken, hafter⟩ := ih rfl
      refine ⟨c :: gs ++ before, after, by simp, by simpa using hplace, hfirm,
        .token (by simpa using hb) (by simpa using hread) hbefore, ?_, ?_⟩
      · simpa using htoken
      · simpa using hafter

/-- How a token was read. -/
theorem read_of_mem (h : Stretch markup front piece back ts line) {t : Token} (ht : t ∈ ts) :
    ∃ rest, ReadBefore markup t rest ∧ (t.stop = width (front ++ piece) → rest = back) := by
  induction h with
  | nil => cases ht
  | gap _ _ ih => simpa only [List.append_assoc] using ih ht
  | @token front piece back us x c k ts line hb hread _ ih =>
    rcases List.mem_cons.mp ht with rfl | ht
    · refine ⟨piece ++ back, ⟨_, x, c, us, rfl, hb, hread⟩, fun hstop => ?_⟩
      rw [stop_behind, ← List.append_assoc, width_append _ piece] at hstop
      have hnil : piece = [] := eq_nil_of_width_eq_zero (by omega)
      rw [hnil, List.nil_append]
    · simpa only [List.append_assoc] using ih ht

/-- The last token does not go on into what stands right behind it. -/
theorem clear (h : Stretch markup front piece back ts line) {t : Token}
    (ht : Touches (front ++ piece) ts t) {c : Char} {us : Text} (htext : t.text = c :: us) :
    Clear c us back := by
  obtain ⟨rest, ⟨first, x, d, ds, htext', hb, hread⟩, hrest⟩ :=
    h.read_of_mem (List.mem_of_getLast? ht.1)
  obtain ⟨rfl, rfl⟩ := List.cons.inj (htext.symm.trans htext')
  rw [← hrest ht.2]
  exact Lexeme.clear_of_read hb hread

theorem append {rest : Text} {us vs : List Token} {more : Bool}
    (h : Stretch markup front piece (rest ++ back) us more)
    (hrest : Stretch markup (front ++ piece) rest back vs line) :
    Stretch markup front (piece ++ rest) back (us ++ vs) (line || rest.isEmpty && more) := by
  generalize hall : rest ++ back = all at h
  induction h with
  | nil => simpa using hrest
  | @gap front piece all gs c us more hb _ ih =>
    subst hall
    have hgap := @Stretch.gap markup front (piece ++ rest) back gs c (us ++ vs) _
      (by simpa using hb) (ih (by simpa using hrest) rfl)
    rw [List.append_assoc]
    convert hgap using 1
    cases rest <;> cases piece <;> simp [Bool.or_assoc]
  | @token front piece all gs x c k us more hb hread _ ih =>
    subst hall
    have htoken := @Stretch.token markup front (piece ++ rest) back gs x c k (us ++ vs) _
      (by simpa using hb) (by simpa using hread) (ih (by simpa using hrest) rfl)
    rwa [← List.append_assoc] at htoken

/-- The tokens of a run from its first to its last one, with what stands before and behind them. -/
theorem take {us cs vs : List Token} {first last : Token}
    (h : Stretch markup front piece back (us ++ (cs ++ vs)) line) (hfirst : cs.head? = some first)
    (hlast : cs.getLast? = some last) :
    ∃ before inside after, piece = before ++ (inside ++ after) ∧
      first.start = width (front ++ before) ∧ last.stop = width (front ++ before ++ inside) ∧
      (∃ rest, inside = first.text ++ rest) ∧ (∃ rest, inside = rest ++ last.text) ∧
      Stretch markup front before (inside ++ (after ++ back)) us false ∧
      Stretch markup (front ++ before) inside (after ++ back) cs false ∧
      Stretch markup (front ++ before ++ inside) after back vs line := by
  obtain ⟨cs, rfl⟩ := List.head?_eq_some_iff.mp hfirst
  obtain ⟨before, after, rfl, hplace, -, hbefore, htoken, hafter⟩ := h.split
  have hstart := start_eq_width hplace
  rcases List.eq_nil_or_concat cs with rfl | ⟨ds, t, rfl⟩
  · obtain rfl := Option.some.inj hlast
    refine ⟨before, first.text, after, rfl, hstart, ?_, ⟨[], by simp⟩, ⟨[], rfl⟩, hbefore, htoken,
      hafter⟩
    rw [stop, width_append (front ++ before), ← hstart]
    rfl
  · rw [List.concat_eq_append] at hlast hafter ⊢
    rw [← List.cons_append, List.getLast?_concat] at hlast
    obtain rfl := Option.some.inj hlast
    replace hafter :
        Stretch markup (front ++ before ++ first.text) after back (ds ++ t :: vs) line := by
      rw [List.append_cons]
      exact hafter
    obtain ⟨between, after, rfl, hplace', -, hbetween, htoken', hafter⟩ := hafter.split
    have hstart' := start_eq_width hplace'
    refine ⟨before, first.text ++ (between ++ t.text), after, by simp, hstart, ?_, ⟨_, rfl⟩,
      ⟨first.text ++ between, by simp⟩, by simpa using hbefore, ?_, by simpa using hafter⟩
    · rw [← List.append_assoc first.text, ← List.append_assoc, ← List.append_assoc,
        width_append _ t.text, ← hstart']
      rfl
    · have hrest := hbetween.append htoken'
      have hall := Stretch.append (by simpa using htoken) hrest
      simpa using hall

/-! ### Stretches without their blanks -/

theorem after_blank {c : Char} (hc : isBlank c = true)
    (h : Stretch markup front (c :: piece) back ts line) :
    Stretch markup (front ++ [c]) piece back ts line := by
  generalize hall : c :: piece = all at h
  cases h with
  | nil => cases hall
  | @gap front rest back us d ts line hb hrest =>
    obtain ⟨rfl, hpiece⟩ := List.cons.inj hall
    rw [blank?, if_pos hc] at hb
    obtain rfl := List.length_eq_zero_iff.mp (Option.some.inj hb).symm
    obtain rfl : piece = rest := hpiece
    have hslash : (c == '/') = false := by
      rw [beq_eq_false_iff_ne]
      rintro rfl
      exact absurd hc (by decide)
    have hsharp : (c == '#') = false := by
      rw [beq_eq_false_iff_ne]
      rintro rfl
      exact absurd hc (by decide)
    simpa [isLine, hslash, hsharp] using hrest
  | token hb =>
    obtain ⟨rfl, -⟩ := List.cons.inj hall
    rw [isBlank_of_blank?_eq_none hb] at hc
    cases hc

theorem after_blanks {blanks : Text} (hblanks : ∀ c ∈ blanks, isBlank c = true)
    (h : Stretch markup front (blanks ++ piece) back ts line) :
    Stretch markup (front ++ blanks) piece back ts line := by
  induction blanks generalizing front with
  | nil => rwa [List.append_nil]
  | cons c blanks ih =>
    obtain ⟨hc, hblanks⟩ := List.forall_mem_cons.mp hblanks
    have hrest := ih hblanks (after_blank hc h)
    rwa [List.append_assoc] at hrest

/-- Between blanks there are no tokens. -/
theorem tokens_of_blanks {blanks : Text} (hblanks : ∀ c ∈ blanks, isBlank c = true)
    (h : Stretch markup front blanks back ts line) : ts = [] := by
  rw [← List.append_nil blanks] at h
  exact (h.after_blanks hblanks).tokens_eq_nil

theorem endsFirm (h : Stretch markup front piece back ts line) (hback : back ≠ [])
    (hfits : Fitting markup σ ts) : ∀ t ∈ ts, EndsFirm t.text := by
  induction h generalizing σ with
  | nil => exact nofun
  | gap _ _ ih => exact ih hback hfits
  | @token front piece back us x c k ts line hb hread _ ih =>
    obtain ⟨ht, hts⟩ := fitting_cons.mp hfits
    refine List.forall_mem_cons.mpr ⟨?_, ih hback hts⟩
    exact Lexeme.endsFirm_read (isBlank_of_blank?_eq_none hb) hread ht.isClosed (by simp [hback])

/-- Without the blanks behind it, a stretch that does not end in a comment without its own end is
still one; and what stands before such a comment is one in any case. -/
theorem cut {blanks : Text} (h : Stretch markup front (piece ++ blanks) back ts line)
    (hfront : front ≠ []) (hback : back ≠ []) (hblanks : ∀ c ∈ blanks, isBlank c = true)
    (hfirm : ∀ t ∈ ts, EndsFirm t.text) (hpiece : piece = [] ∨ EndsFirm piece) :
    Stretch markup front piece (blanks ++ back) ts false ∨
      ∃ before body, piece = before ++ '/' :: '/' :: body ∧ '\n' ∉ body ∧
        Stretch markup front before ('/' :: '/' :: body ++ (blanks ++ back)) ts false := by
  rcases hpiece with rfl | hpiece
  · rw [List.nil_append] at h
    rw [h.tokens_of_blanks hblanks]
    exact .inl .nil
  generalize hall : piece ++ blanks = all at h
  induction h generalizing piece with
  | nil =>
    obtain ⟨rfl, rfl⟩ := List.append_eq_nil_iff.mp hall
    exact .inl .nil
  | @gap front rest back us c ts line hb hrest ih =>
    have hlast := gap_cases (List.isEmpty_eq_false_iff.mpr hfront ▸ hb) (by simp [hback])
    rcases append_cases hall with ⟨l, hgap, rfl⟩ | ⟨l, hl, rfl, rfl⟩
    · -- the piece ends with this gap, or within it
      obtain ⟨hlblank, hblanks⟩ := List.forall_mem_append.mp hblanks
      obtain rfl := hrest.tokens_of_blanks hblanks
      rcases hlast with ⟨hc, rfl⟩ | ⟨body, rfl, rfl, hbody⟩ | ⟨hline, hend⟩
      · refine absurd hpiece fun hpiece => hpiece.not_blank fun d hd => ?_
        obtain rfl : d = c := List.mem_singleton.mp (hgap ▸ List.mem_append_left l hd)
        exact hc
      · obtain ⟨d, piece, rfl⟩ := List.exists_cons_of_ne_nil hpiece.ne_nil
        obtain ⟨rfl, hslash⟩ := List.cons.inj hgap
        cases piece with
        | nil =>
          rw [← show '/' :: body = l from hslash] at hlblank
          exact absurd (hlblank '/' List.mem_cons_self) (by decide)
        | cons e body' =>
          obtain ⟨rfl, rfl⟩ := List.cons.inj hslash
          exact .inr ⟨[], body', rfl, fun hmem => hbody (List.mem_append_left l hmem), .nil⟩
      · obtain rfl : l = [] := by
          by_contra hne
          rw [hgap] at hend
          exact (EndsFirm.of_append ⟨'/', hend, by decide⟩ hne).not_blank hlblank
        rw [List.append_nil] at hgap
        subst hgap
        have hleft : Stretch markup front (c :: us ++ []) (rest ++ back) [] _ := .gap hb .nil
        rw [hline, List.append_nil] at hleft
        exact .inl hleft
    · have hempty : l.isEmpty = false := List.isEmpty_eq_false_iff.mpr hl
      rcases ih (by simp) hback hfirm (hpiece.of_append hl) rfl with
        hleft | ⟨before, body, rfl, hbody, hright⟩
      · have hall : Stretch markup front (c :: us ++ l) (blanks ++ back) ts _ :=
          .gap (by simpa using hb) hleft
        rw [hempty] at hall
        exact .inl hall
      · have hall : Stretch markup front (c :: us ++ before)
            ('/' :: '/' :: body ++ (blanks ++ back)) ts _ := .gap (by simpa using hb) hright
        rw [hall.line_eq_false (by decide)] at hall
        exact .inr ⟨c :: us ++ before, body, by simp, hbody, hall⟩
  | @token front rest back us x c k ts line hb hread hrest ih =>
    obtain ⟨ht, hts⟩ := List.forall_mem_cons.mp hfirm
    rcases append_cases hall with ⟨l, htoken, rfl⟩ | ⟨l, hl, rfl, rfl⟩
    · obtain ⟨hl, hblanks⟩ := List.forall_mem_append.mp hblanks
      obtain rfl : l = [] := by
        by_contra hne
        rw [behind, htoken] at ht
        exact (EndsFirm.of_append ht hne).not_blank hl
      rw [List.append_nil] at htoken
      subst htoken
      obtain rfl := hrest.tokens_of_blanks hblanks
      have hleft : Stretch markup front (c :: us ++ []) (rest ++ back) _ false :=
        .token hb hread .nil
      rw [List.append_nil] at hleft
      exact .inl hleft
    · rcases ih (by simp) hback hts (hpiece.of_append hl) rfl with
        hleft | ⟨before, body, rfl, hbody, hright⟩
      · exact .inl (.token (by simpa using hb) (by simpa using hread) hleft)
      · exact .inr ⟨c :: us ++ before, body, by simp, hbody,
          .token (by simpa using hb) (by simpa using hread) hright⟩

end Stretch

/-! ### Comments at the end -/

/-- Does a text that stands behind others end in a comment that only the end of its line closes?
`last` is the token before it, and `skip` characters of it are passed. -/
def trails (markup : Bool) : (last : Option Token) → (skip : Nat) → Text → Bool
  | _, _, [] => false
  | last, skip + 1, _ :: cs => trails markup last skip cs
  | last, 0, c :: cs =>
    match blank? false c cs with
    | some more => trails markup last more cs || (cs.drop more).isEmpty && isLine c (cs.take more)
    | none =>
      let lexeme := Lexeme.read markup ⟨last, 0, false⟩ c cs
      trails markup (some ⟨lexeme.kind, c :: cs.take lexeme.more, .origin⟩) lexeme.more cs

theorem trails_append (markup : Bool) (last : Option Token) (us vs : Text) :
    trails markup last us.length (us ++ vs) = trails markup last 0 vs := by
  induction us with
  | nil => rfl
  | cons c us ih => exact ih

theorem trails_comment {markup : Bool} {body : Text} (h : '\n' ∉ body) (last : Option Token) :
    trails markup last 0 ('/' :: '/' :: body) = true := by
  have hline : restOfLine ('/' :: body) = ('/' :: body).length := by
    have hall : ∀ c ∈ '/' :: body, (c != '\n') = true := by
      refine List.forall_mem_cons.mpr ⟨by decide, fun c hc => ?_⟩
      rw [bne_iff_ne]
      rintro rfl
      exact h hc
    have htake := @Piece.takeWhile_of_bounded _ [] _ hall nofun
    rw [List.append_nil] at htake
    rw [restOfLine, htake]
  have hblank : blank? false '/' ('/' :: body) = some ('/' :: body).length := congrArg some hline
  simp only [trails, hblank, List.drop_length, List.take_length]
  simp [isLine]

/-- The stance behind a token that is named alone. -/
def Stance.behind (last : Option Token) : Stance := Context.stance ⟨last, 0, false⟩

namespace Stretch

variable {markup : Bool} {front piece rest back : Text} {ts : List Token} {line : Bool}

/-- Whether a text ends in such a comment is seen from its last stretch. -/
theorem trails_eq (h : Stretch markup front piece (rest ++ back) ts line) (hfront : front ≠ [])
    {last : Option Token} (hfits : Fitting markup (.behind last) ts)
    (hback : back.head?.any Char.isDigit = false) :
    ∃ last', trails markup last 0 (piece ++ rest) =
      (trails markup last' 0 rest || rest.isEmpty && line) := by
  generalize hall : rest ++ back = all at h
  induction h generalizing last with
  | nil => exact ⟨last, by simp⟩
  | @gap front piece all us c ts line hb _ ih =>
    subst hall
    have hgap : blank? false c (us ++ (piece ++ rest)) = some us.length := by
      rw [List.isEmpty_eq_false_iff.mpr hfront, ← List.append_assoc piece] at hb
      refine blank?_before hb (fun hnil => (List.append_eq_nil_iff.mp hnil).1) fun hc => ?_
      by_cases hrest : piece ++ rest = []
      · rw [hrest]
        exact nofun
      · have hend := @AtLineEnd.of_append _ _ [] (atLineEnd_of_blank? hb hc) hrest
        rwa [List.append_nil] at hend
    obtain ⟨last', hrest⟩ := ih (by simp) hfits rfl
    refine ⟨last', ?_⟩
    rw [List.append_assoc, List.cons_append, trails, hgap]
    simp only [trails_append, List.drop_left, List.take_left, hrest]
    cases rest <;> cases piece <;> simp [Bool.or_assoc]
  | @token front piece all us x c k ts line hb hread _ ih =>
    subst hall
    obtain ⟨ht, hts⟩ := fitting_cons.mp hfits
    rw [← List.append_assoc piece] at hread hb
    have hend : Clear c us (piece ++ rest) := by
      cases hpiece : piece ++ rest with
      | nil => exact .nil c us
      | cons d ds =>
        have hclear := Lexeme.clear_of_read hb hread
        rw [hpiece] at hclear
        have hbefore := @Clear.before _ _ _ _ _ [] hclear fun _ => hback.symm
        rwa [List.append_nil] at hbefore
    have hnone : blank? false c (us ++ (piece ++ rest)) = none := by
      rw [List.isEmpty_eq_false_iff.mpr hfront] at hb
      refine blank?_eq_none_before hb hend fun hbang => ?_
      rw [List.head?_append, hbang]
      rfl
    have hagain : Lexeme.read markup ⟨last, 0, false⟩ c (us ++ (piece ++ rest)) =
        ⟨k, us.length, false⟩ :=
      Lexeme.read_before hread ht (fun hnil => .inl (List.append_eq_nil_iff.mp hnil).1) hend
    have hts' : Fitting markup (.behind (some ⟨k, c :: us, .origin⟩)) ts := hts
    obtain ⟨last', hrest⟩ := ih (by simp) hts' rfl
    refine ⟨last', ?_⟩
    rw [List.append_assoc, List.cons_append, trails, hnone]
    simp only [hagain, trails_append, List.take_left]
    exact hrest

/-- A stretch between other tokens, without the blanks at its edges. If it ends in a comment that
the end of its line closed, what stands before the comment is still read again. -/
theorem trimmed {d : Char} (h : Stretch markup front piece (d :: back) ts line)
    (hfront : front ≠ []) {last : Option Token} (hfits : Fitting markup (.behind last) ts)
    (hd : d.isDigit = false) :
    ∃ front' blanks, front' ≠ [] ∧ (∀ c ∈ blanks, isBlank c = true) ∧
      (trails markup last 0 (trim piece) = false ∧
          Stretch markup front' (trim piece) (blanks ++ d :: back) ts false ∨
        trails markup last 0 (trim piece) = true ∧
          ∃ before body, trim piece = before ++ '/' :: '/' :: body ∧ '\n' ∉ body ∧
            Stretch markup front' before ('/' :: '/' :: body ++ (blanks ++ d :: back)) ts
              false) := by
  obtain ⟨before, after, hpiece, hbefore, hafter, hfirm⟩ := exists_trim piece
  have htokens := h.endsFirm (List.cons_ne_nil d back) hfits
  rw [hpiece] at h
  have hfront' : front ++ before ≠ [] := by simp [hfront]
  have hdigit : (after ++ d :: back).head?.any Char.isDigit = false := by
    cases after with
    | nil => simpa using hd
    | cons c after => simpa using isDigit_of_isBlank (hafter c List.mem_cons_self)
  refine ⟨front ++ before, after, hfront', hafter, ?_⟩
  rcases (h.after_blanks hbefore).cut hfront' (List.cons_ne_nil d back) hafter htokens hfirm with
    hcut | ⟨inside, body, htrim, hbody, hcut⟩
  · obtain ⟨last', htrails⟩ :=
      @trails_eq markup _ _ [] _ ts false hcut hfront' last hfits hdigit
    rw [List.append_nil] at htrails
    exact .inl ⟨htrails, hcut⟩
  · obtain ⟨last', htrails⟩ := hcut.trails_eq hfront' hfits hdigit
    rw [← htrim, trails_comment hbody] at htrails
    exact .inr ⟨htrails, inside, body, htrim, hbody, hcut⟩

end Stretch

end Token

end Desugar
