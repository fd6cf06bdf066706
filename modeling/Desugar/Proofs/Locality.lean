import Desugar.Proofs.Extent

/-! How far scanners look. A literal that ends with a sign of its own ends there whatever
follows, so its length does not change with the text behind it. -/
namespace Desugar

open Unicode Text

theorem exists_append_of_le {us : Text} {n : Nat} (h : n ≤ us.length) :
    ∃ front back, us = front ++ back ∧ front.length = n :=
  ⟨us.take n, us.drop n, (List.take_append_drop n us).symm, List.length_take_of_le h⟩

/-- A scanner that ends before more text ends at the same place before any other text. -/
def Local (scan : Text → Option Nat) : Prop :=
  ∀ us vs ws : Text, us ≠ [] → vs ≠ [] → scan (us ++ vs) = some us.length →
    scan (us ++ ws) = some us.length

/-- The same for a scanner whose first character was read before. -/
theorem Local.cons_append {scan : Text → Option Nat} (h : Local scan) {c : Char}
    {us vs : Text} {n : Nat} (hn : n ≠ 0) (hle : n - 1 ≤ us.length) (hvs : vs ≠ [])
    (hscan : scan (c :: (us ++ vs)) = some n) (ws : Text) : scan (c :: (us ++ ws)) = some n := by
  obtain ⟨m, rfl⟩ := Nat.exists_eq_succ_of_ne_zero hn
  obtain ⟨front, back, rfl, rfl⟩ := exists_append_of_le hle
  rw [List.append_assoc] at hscan ⊢
  exact h (c :: front) (back ++ vs) (back ++ ws) (List.cons_ne_nil _ _) (by simp [hvs]) hscan

/-- A scanner that passes `skip` characters unread and stops before more text has passed
them all. -/
theorem skip_le {σ : Type} {scan : σ → Nat → Text → Option Nat}
    (hscan : ∀ s skip c cs, ∃ s', scan s (skip + 1) (c :: cs) = (scan s' skip cs).map (· + 1))
    {us vs : Text} (hvs : vs ≠ []) {s : σ} {skip : Nat}
    (h : scan s skip (us ++ vs) = some us.length) : skip ≤ us.length := by
  induction us generalizing s skip with
  | nil =>
    obtain ⟨c, cs, rfl⟩ := List.exists_cons_of_ne_nil hvs
    cases skip with
    | zero => exact Nat.le_refl _
    | succ skip =>
      obtain ⟨s', hs⟩ := hscan s skip c cs
      rw [List.nil_append, hs, Option.map_eq_some_iff] at h
      obtain ⟨n, _, hn⟩ := h
      cases hn
  | cons c us ih =>
    cases skip with
    | zero => exact Nat.zero_le _
    | succ skip =>
      obtain ⟨s', hs⟩ := hscan s skip c (us ++ vs)
      rw [List.cons_append, hs, Option.map_eq_some_iff] at h
      obtain ⟨n, hn, hlen⟩ := h
      cases hlen
      exact Nat.succ_le_succ (ih hn)

theorem of_map_succ {x : Option Nat} {n : Nat} (h : x.map (· + 1) = some (n + 1)) : x = some n := by
  obtain ⟨m, hm, heq⟩ := Option.map_eq_some_iff.mp h
  rw [hm, Nat.succ.inj heq]

theorem map_succ_ne_zero (x : Option Nat) : x.map (· + 1) ≠ some 0 := by
  cases x <;> simp

/-! ### Up to a sign -/

namespace Literal

theorem through_pos (c d : Char) (ds : Text) : 0 < through c (d :: ds) := by
  rw [through]
  split <;> exact Nat.succ_pos _

theorem throughComment_pos (c : Char) (cs : Text) : 0 < throughComment (c :: cs) := by
  cases cs with
  | nil => exact Nat.succ_pos _
  | cons d cs =>
    rw [throughComment]
    split <;> exact Nat.succ_pos _

/-- Characters through the first one of `stops`, with every character after a backslash
passed over. -/
def escaped (stops : Char → Bool) : Text → Nat
  | [] => 0
  | c :: cs =>
    if stops c then 1
    else if c == '\\' then
      match cs with
      | [] => 1
      | _ :: ds => escaped stops ds + 2
    else escaped stops cs + 1

theorem escaped_stop {stops : Char → Bool} {c : Char} (h : stops c = true) (cs : Text) :
    escaped stops (c :: cs) = 1 := by
  rw [escaped.eq_def]
  simp only [h, if_true]

theorem escaped_pass {stops : Char → Bool} {c : Char} (h : stops c = false) (hc : c ≠ '\\')
    (cs : Text) : escaped stops (c :: cs) = escaped stops cs + 1 := by
  rw [escaped.eq_def]
  simp only [h, Bool.false_eq_true, if_false, beq_iff_eq, hc]

theorem escaped_pos (stops : Char → Bool) (c : Char) (cs : Text) : 0 < escaped stops (c :: cs) := by
  rw [escaped.eq_def]
  dsimp only
  split
  · exact Nat.one_pos
  · split
    · split <;> exact Nat.succ_pos _
    · exact Nat.succ_pos _

theorem quotedInside_eq (quote : Char) (cs : Text) :
    quotedInside quote cs = escaped (fun c => c == quote || c == '\n') cs := by
  fun_induction quotedInside quote cs with
  | case1 => rfl
  | case2 c cs h => exact (escaped_stop h cs).symm
  | case3 c h hs => simp [escaped, h, hs]
  | case4 c h hs d ds ih => simp [escaped, h, hs, ih]
  | case5 c cs h hs ih => rw [ih, escaped_pass (by simpa using h) (by simpa using hs)]

section Signs

variable {vs : Text} (hvs : vs ≠ []) (ws : Text)

include hvs

theorem through_append {c : Char} {us : Text} (h : through c (us ++ vs) ≤ us.length) :
    through c (us ++ ws) = through c (us ++ vs) := by
  induction us with
  | nil =>
    obtain ⟨d, vs, rfl⟩ := List.exists_cons_of_ne_nil hvs
    exact absurd h (Nat.not_le.mpr (through_pos c d vs))
  | cons d us ih =>
    rw [List.cons_append, through] at h
    rw [List.cons_append, List.cons_append, through, through]
    split at h
    next hd => rw [if_pos hd, if_pos hd]
    next hd => rw [if_neg hd, if_neg hd, ih (Nat.le_of_succ_le_succ h)]

theorem throughComment_append : ∀ {us : Text}, throughComment (us ++ vs) ≤ us.length →
    throughComment (us ++ ws) = throughComment (us ++ vs)
  | [], h => by
    obtain ⟨v, vs, rfl⟩ := List.exists_cons_of_ne_nil hvs
    exact absurd h (Nat.not_le.mpr (throughComment_pos v vs))
  | [c], h => by
    obtain ⟨v, vs, rfl⟩ := List.exists_cons_of_ne_nil hvs
    have hpos := throughComment_pos v vs
    rw [List.singleton_append, throughComment, List.length_singleton] at h
    split at h <;> omega
  | c :: d :: us, h => by
    simp only [List.cons_append, throughComment] at h ⊢
    split
    next => rfl
    next hcd =>
      rw [if_neg hcd] at h
      rw [← List.cons_append, ← List.cons_append,
        throughComment_append (Nat.le_of_succ_le_succ h)]

theorem escaped_append {stops : Char → Bool} : ∀ {us : Text},
    escaped stops (us ++ vs) ≤ us.length → escaped stops (us ++ ws) = escaped stops (us ++ vs)
  | [], h => by
    obtain ⟨v, vs, rfl⟩ := List.exists_cons_of_ne_nil hvs
    exact absurd h (Nat.not_le.mpr (escaped_pos stops v vs))
  | [c], h => by
    obtain ⟨v, vs, rfl⟩ := List.exists_cons_of_ne_nil hvs
    have hpos := escaped_pos stops v vs
    rw [List.singleton_append, List.singleton_append]
    rw [List.singleton_append, List.length_singleton] at h
    cases hc : stops c with
    | true => rw [escaped_stop hc, escaped_stop hc]
    | false =>
      simp only [escaped, hc, Bool.false_eq_true, if_false] at h
      split at h <;> omega
  | c :: d :: us, h => by
    simp only [List.cons_append, escaped] at h ⊢
    split
    next => rfl
    next hc =>
      rw [if_neg hc] at h
      split
      next hs =>
        rw [if_pos hs] at h
        rw [escaped_append (Nat.le_of_add_le_add_right h)]
      next hs =>
        rw [if_neg hs] at h
        rw [← List.cons_append, ← List.cons_append, escaped_append (Nat.le_of_succ_le_succ h)]

end Signs

/-! ### Templates -/

theorem template?_ne_zero {stack : List Nat} (hs : Rooted stack) (skip : Nat) (c : Char)
    (cs : Text) : template? stack skip (c :: cs) ≠ some 0 := by
  intro h
  match stack, skip, hs with
  | _, skip + 1, _ =>
    rw [template?] at h
    exact map_succ_ne_zero _ h
  | 0 :: below, 0, _ | (braces + 1) :: below, 0, _ =>
    rw [template?] at h
    repeat' split at h
    all_goals first | exact map_succ_ne_zero _ h | cases h

/-- Only the backtick that closes the first template is its last character. -/
theorem eq_of_template?_one {stack : List Nat} (hs : Rooted stack) {c : Char} {cs : Text}
    (hcs : cs ≠ []) (h : template? stack 0 (c :: cs) = some 1) : stack = [0] ∧ c = '`' := by
  obtain ⟨d, ds, rfl⟩ := List.exists_cons_of_ne_nil hcs
  have hrest {stack : List Nat} (hs : Rooted stack) (skip : Nat) :
      (template? stack skip (d :: ds)).map (· + 1) ≠ some 1 := fun h =>
    template?_ne_zero hs skip d ds (of_map_succ h)
  match stack, hs with
  | 0 :: below, hs =>
    have hpush := hs.push 1
    have hpop : below ≠ [] → Rooted below := fun hne => hs.pop (.inl hne)
    rw [template?] at h
    grind
  | (braces + 1) :: below, hs =>
    have hpop : Rooted below := hs.pop (.inr (Nat.succ_ne_zero _))
    have hpush := hs.push 0
    have hmore (k : Nat) := hpop.push k
    rw [template?] at h
    grind

theorem template?_append {vs : Text} (hvs : vs ≠ []) (ws : Text) {us : Text} {stack : List Nat}
    {skip : Nat} (hs : Rooted stack) (h : template? stack skip (us ++ vs) = some us.length) :
    template? stack skip (us ++ ws) = some us.length := by
  induction us generalizing stack skip with
  | nil =>
    obtain ⟨v, vs, rfl⟩ := List.exists_cons_of_ne_nil hvs
    exact absurd h (template?_ne_zero hs skip v vs)
  | cons c us ih =>
    have hnext {stack : List Nat} {skip : Nat} (hs : Rooted stack)
        (h : (template? stack skip (us ++ vs)).map (· + 1) = some (c :: us).length) :
        skip ≤ us.length ∧
          (template? stack skip (us ++ ws)).map (· + 1) = some (c :: us).length := by
      have hrest := of_map_succ h
      refine ⟨skip_le (fun s k c cs => ⟨s, by rw [template?]⟩) hvs hrest, ?_⟩
      rw [ih hs hrest]
      rfl
    rw [List.cons_append] at h ⊢
    match stack, skip, us, hs with
    | _, skip + 1, us, hs =>
      rw [template?] at h ⊢
      exact (hnext hs h).2
    | stack, 0, [], hs =>
      obtain ⟨rfl, rfl⟩ := eq_of_template?_one hs hvs h
      rfl
    | 0 :: below, 0, d :: us, hs =>
      have hpush := hs.push 1
      have hpop : below ≠ [] → Rooted below := fun hne => hs.pop (.inl hne)
      rw [template?] at h ⊢
      clear ih
      simp only [List.cons_append, List.head?_cons] at h hnext ⊢
      grind
    | (braces + 1) :: below, 0, d :: us, hs =>
      have hpop : Rooted below := hs.pop (.inr (Nat.succ_ne_zero _))
      have hpush := hs.push 0
      have hmore (k : Nat) := hpop.push k
      have hquote : quotedInside c (d :: us ++ vs) ≤ (d :: us).length →
          quotedInside c (d :: us ++ ws) = quotedInside c (d :: us ++ vs) := by
        rw [quotedInside_eq, quotedInside_eq]
        exact escaped_append hvs ws
      rw [template?] at h ⊢
      clear ih
      grind

end Literal

/-! ### Elements -/

namespace Element

open Literal

theorem throughQuote_eq {quote : Char} (hq : quote ≠ '\\') (cs : Text) :
    throughQuote quote cs = escaped (· == quote) cs := by
  have hne {c : Char} (hs : (c == '\\') = true) : (c == quote) = false := by
    rw [beq_iff_eq] at hs
    rw [hs, beq_eq_false_iff_ne]
    exact hq.symm
  fun_induction throughQuote quote cs with
  | case1 => rfl
  | case2 c hs => simp [escaped, hne hs, hs]
  | case3 c hs d ds ih => simp [escaped, hne hs, hs, ih]
  | case4 c cs hs h => exact (@escaped_stop (· == quote) c h cs).symm
  | case5 c cs hs h ih => rw [ih, escaped_pass (by simpa using h) (by simpa using hs)]

theorem throughQuote_append {vs : Text} (hvs : vs ≠ []) (ws : Text) {c : Char}
    (hc : (isQuote c || c == '`') = true) {us : Text} (h : throughQuote c (us ++ vs) ≤ us.length) :
    throughQuote c (us ++ ws) = throughQuote c (us ++ vs) := by
  have hne : c ≠ '\\' := by
    rintro rfl
    cases hc
  rw [throughQuote_eq hne] at h ⊢
  rw [throughQuote_eq hne]
  exact escaped_append hvs ws h

theorem isTagStart_append {c d : Char} (us vs ws : Text) :
    isTagStart (c :: (d :: us ++ ws)) = isTagStart (c :: (d :: us ++ vs)) := by
  unfold isTagStart
  split <;> simp_all

theorem of_map_fst_succ {x : Option (Nat × Bool)} {n : Nat} {closes : Bool}
    (h : (x.map fun r => (r.1 + 1, r.2)) = some (n + 1, closes)) : x = some (n, closes) := by
  obtain ⟨⟨m, b⟩, hm, heq⟩ := Option.map_eq_some_iff.mp h
  cases heq
  exact hm

theorem map_fst_succ_ne_zero (x : Option (Nat × Bool)) (closes : Bool) :
    (x.map fun r => (r.1 + 1, r.2)) ≠ some (0, closes) := by
  cases x <;> simp

section Ends

variable {vs : Text} (hvs : vs ≠ [])

include hvs

theorem openTag?_ne_zero (container? : Text → Option Nat) (skip : Nat) (closes : Bool) :
    openTag? container? skip vs ≠ some (0, closes) := by
  intro h
  obtain ⟨v, vs, rfl⟩ := List.exists_cons_of_ne_nil hvs
  cases skip <;> rw [openTag?] at h
  · repeat' split at h
    all_goals first | exact map_fst_succ_ne_zero _ _ h | cases h
  · exact map_fst_succ_ne_zero _ _ h

theorem eq_of_openTag?_one {container? : Text → Option Nat} {closes : Bool} {c : Char}
    (h : openTag? container? 0 (c :: vs) = some (1, closes)) : c = '>' ∧ closes = false := by
  have hrest (skip : Nat) :
      ((openTag? container? skip vs).map fun r => (r.1 + 1, r.2)) ≠ some (1, closes) := fun h =>
    openTag?_ne_zero hvs container? skip closes (of_map_fst_succ h)
  rw [openTag?] at h
  grind

theorem tags?_ne_zero (container? : Text → Option Nat) {depth : Nat} (hd : 0 < depth) (skip : Nat) :
    tags? container? depth skip vs ≠ some 0 := by
  intro h
  obtain ⟨v, vs, rfl⟩ := List.exists_cons_of_ne_nil hvs
  cases skip <;> rw [tags?] at h
  · repeat' split at h
    all_goals first | exact map_succ_ne_zero _ h | omega | cases h
  · exact map_succ_ne_zero _ h

theorem tags?_ne_one (container? : Text → Option Nat) (depth : Nat) (c : Char) :
    tags? container? depth 0 (c :: vs) ≠ some 1 := by
  intro h
  have hrest {depth : Nat} (hd : 0 < depth) (skip : Nat) :
      (tags? container? depth skip vs).map (· + 1) ≠ some 1 := fun h =>
    tags?_ne_zero hvs container? hd skip (of_map_succ h)
  have hopen := openTag?_ne_zero hvs container? 0 true
  rw [tags?] at h
  grind

theorem braces?_ne_zero (element? : Text → Option Nat) (depth : Nat) (last : Option Char)
    (skip : Nat) : braces? element? depth last skip vs ≠ some 0 := by
  intro h
  obtain ⟨v, vs, rfl⟩ := List.exists_cons_of_ne_nil hvs
  cases skip <;> rw [braces?] at h
  · repeat' split at h
    all_goals first | exact map_succ_ne_zero _ h | cases h
  · exact map_succ_ne_zero _ h

/-- Only the brace that closes the container is its last character. -/
theorem eq_of_braces?_one {element? : Text → Option Nat} {depth : Nat} {last : Option Char}
    {c : Char} (h : braces? element? depth last 0 (c :: vs) = some 1) : c = '}' ∧ depth ≤ 1 := by
  have hrest (depth : Nat) (last : Option Char) (skip : Nat) :
      (braces? element? depth last skip vs).map (· + 1) ≠ some 1 := fun h =>
    braces?_ne_zero hvs element? depth last skip (of_map_succ h)
  rw [braces?] at h
  grind

end Ends

theorem container?_ne_zero (room : Nat) (c : Char) (cs : Text) :
    container? room (c :: cs) ≠ some 0 := by
  cases room with
  | zero => nofun
  | succ room =>
    rw [container?]
    exact braces?_ne_zero (List.cons_ne_nil c cs) _ _ _ _

theorem element?_ne_zero (room : Nat) (cs : Text) (h : isTagStart cs = true) :
    element? room cs ≠ some 0 := by
  cases room with
  | zero => nofun
  | succ room =>
    cases cs with
    | nil => cases h
    | cons c cs =>
      rw [element?, tags?, if_pos h]
      grind [map_succ_ne_zero]

section Oracles

variable {vs : Text} (hvs : vs ≠ []) (ws : Text)

include hvs

theorem openTag?_append {container? : Text → Option Nat} (hcontainer : Local container?)
    (hpos : ∀ c cs, container? (c :: cs) ≠ some 0) {us : Text} {skip : Nat} {closes : Bool}
    (h : openTag? container? skip (us ++ vs) = some (us.length, closes)) :
    openTag? container? skip (us ++ ws) = some (us.length, closes) := by
  induction us generalizing skip with
  | nil => exact absurd h (openTag?_ne_zero hvs container? skip closes)
  | cons c us ih =>
    have hnext {skip : Nat}
        (h : ((openTag? container? skip (us ++ vs)).map fun r => (r.1 + 1, r.2)) =
          some ((c :: us).length, closes)) :
        skip ≤ us.length ∧ ((openTag? container? skip (us ++ ws)).map fun r => (r.1 + 1, r.2)) =
          some ((c :: us).length, closes) := by
      have hrest := of_map_fst_succ h
      refine ⟨?_, by rw [ih hrest]; rfl⟩
      refine @skip_le Unit (fun _ k cs => (openTag? container? k cs).map Prod.fst)
        (fun s k c cs => ⟨s, ?_⟩) us vs hvs () skip (by rw [hrest]; rfl)
      rw [openTag?, Option.map_map, Option.map_map]
      rfl
    rw [List.cons_append] at h ⊢
    cases skip with
    | succ skip =>
      rw [openTag?] at h ⊢
      exact (hnext h).2
    | zero =>
      cases us with
      | nil =>
        obtain ⟨rfl, rfl⟩ := eq_of_openTag?_one hvs h
        rfl
      | cons d us =>
        -- the scanners inside see the same characters as far as they go
        have hquote (hc : isQuote c = true) :=
          @throughQuote_append vs hvs ws c (by rw [hc]; rfl) (d :: us)
        have hinside (n : Nat) (hn : container? (c :: (d :: us ++ vs)) = some n)
            (hle : n - 1 ≤ (d :: us).length) : container? (c :: (d :: us ++ ws)) = some n :=
          hcontainer.cons_append (fun h0 => hpos _ _ (h0 ▸ hn)) hle hvs hn ws
        rw [openTag?] at h ⊢
        clear ih
        simp only [List.cons_append, List.head?_cons] at h hnext hquote hinside ⊢
        grind

theorem openTag?_of_le {container? : Text → Option Nat} (hcontainer : Local container?)
    (hpos : ∀ c cs, container? (c :: cs) ≠ some 0) {us : Text} {n : Nat} {closes : Bool}
    (h : openTag? container? 0 (us ++ vs) = some (n, closes)) (hle : n ≤ us.length) :
    openTag? container? 0 (us ++ ws) = some (n, closes) := by
  obtain ⟨front, back, rfl, rfl⟩ := exists_append_of_le hle
  rw [List.append_assoc] at h ⊢
  exact openTag?_append (by simp [hvs]) (back ++ ws) hcontainer hpos h

theorem tags?_append {container? : Text → Option Nat} (hcontainer : Local container?)
    (hpos : ∀ c cs, container? (c :: cs) ≠ some 0) {us : Text} {depth skip : Nat}
    (hd : 0 < depth ∨ skip = 0 ∧ us ≠ [])
    (h : tags? container? depth skip (us ++ vs) = some us.length) :
    tags? container? depth skip (us ++ ws) = some us.length := by
  induction us generalizing depth skip with
  | nil =>
    have hdepth : 0 < depth := hd.resolve_right fun hz => hz.2 rfl
    exact absurd h (tags?_ne_zero hvs container? hdepth skip)
  | cons c us ih =>
    have hnext {depth skip : Nat} (hdepth : 0 < depth)
        (h : (tags? container? depth skip (us ++ vs)).map (· + 1) = some (c :: us).length) :
        skip ≤ us.length ∧
          (tags? container? depth skip (us ++ ws)).map (· + 1) = some (c :: us).length := by
      have hrest := of_map_succ h
      refine ⟨skip_le (fun s k c cs => ⟨s, by rw [tags?]⟩) hvs hrest, ?_⟩
      rw [ih (.inl hdepth) hrest]
      rfl
    rw [List.cons_append] at h ⊢
    cases skip with
    | succ skip =>
      have hdepth : 0 < depth := hd.resolve_right fun hz => absurd hz.1 (Nat.succ_ne_zero _)
      rw [tags?] at h ⊢
      exact (hnext hdepth h).2
    | zero =>
      cases us with
      | nil => exact absurd h (tags?_ne_one hvs container? depth c)
      | cons d us =>
        have hclose := @through_append vs hvs ws '>' us
        have hopen (n : Nat) (closes : Bool) :=
          @openTag?_of_le vs hvs ws container? hcontainer hpos (d :: us) n closes
        have hinside (n : Nat) (hn : container? (c :: (d :: us ++ vs)) = some n)
            (hle : n - 1 ≤ (d :: us).length) : container? (c :: (d :: us ++ ws)) = some n :=
          hcontainer.cons_append (fun h0 => hpos _ _ (h0 ▸ hn)) hle hvs hn ws
        rw [tags?] at h ⊢
        rw [isTagStart_append us vs ws]
        clear ih
        simp only [List.cons_append, List.head?_cons, List.drop_succ_cons, List.drop_zero,
          List.length_cons] at h hnext hopen hinside ⊢
        grind

theorem braces?_append {element? : Text → Option Nat} (helement : Local element?)
    (hpos : ∀ cs, isTagStart cs = true → element? cs ≠ some 0) {us : Text} {depth skip : Nat}
    {last : Option Char} (h : braces? element? depth last skip (us ++ vs) = some us.length) :
    braces? element? depth last skip (us ++ ws) = some us.length := by
  induction us generalizing depth last skip with
  | nil => exact absurd h (braces?_ne_zero hvs element? depth last skip)
  | cons c us ih =>
    have hnext {depth skip : Nat} {last : Option Char}
        (h : (braces? element? depth last skip (us ++ vs)).map (· + 1) = some (c :: us).length) :
        skip ≤ us.length ∧
          (braces? element? depth last skip (us ++ ws)).map (· + 1) = some (c :: us).length := by
      have hrest := of_map_succ h
      refine ⟨@skip_le (Option Char) (fun last k cs => braces? element? depth last k cs)
        (fun s k c cs => ⟨_, by rw [braces?]⟩) us vs hvs last skip hrest, ?_⟩
      rw [ih hrest]
      rfl
    rw [List.cons_append] at h ⊢
    cases skip with
    | succ skip =>
      rw [braces?] at h ⊢
      exact (hnext h).2
    | zero =>
      cases us with
      | nil =>
        obtain ⟨rfl, hlow⟩ := eq_of_braces?_one hvs h
        simp [braces?, hlow]
      | cons d us =>
        have hquote (hc : (isQuote c || c == '`') = true) :=
          @throughQuote_append vs hvs ws c hc (d :: us)
        have hline := @through_append vs hvs ws '\n' (d :: us)
        have hcomment := @throughComment_append vs hvs ws us
        have hinside (n : Nat) (ht : isTagStart (c :: (d :: us ++ vs)) = true)
            (hn : element? (c :: (d :: us ++ vs)) = some n) (hle : n - 1 ≤ (d :: us).length) :
            element? (c :: (d :: us ++ ws)) = some n :=
          helement.cons_append (fun h0 => hpos _ ht (h0 ▸ hn)) hle hvs hn ws
        rw [braces?] at h ⊢
        rw [isTagStart_append us vs ws]
        clear ih
        simp only [List.cons_append, List.head?_cons, List.drop_succ_cons, List.drop_zero,
          List.length_cons] at h hnext hquote hline hinside ⊢
        grind

end Oracles

mutual

theorem element?_local : ∀ room, Local (element? room)
  | 0 => fun _ _ _ _ _ h => by cases h
  | room + 1 => fun _ _ ws hus hvs h =>
    tags?_append hvs ws (container?_local room) (container?_ne_zero room) (.inr ⟨rfl, hus⟩) h

theorem container?_local : ∀ room, Local (container? room)
  | 0 => fun _ _ _ _ _ h => by cases h
  | room + 1 => fun _ _ ws _ hvs h =>
    braces?_append hvs ws (element?_local room) (element?_ne_zero room) h

end

end Element

end Desugar
