import Mathlib.Data.List.Sort
import Desugar.Import
import Desugar.Proofs.Gaps

/-! Which strings a text imports, said of the tokens by their indices. The search goes through
the tokens once, looks ahead from every `import` and `export` and then goes on behind what it
found. No keyword is among the tokens it jumps over, so every keyword has its turn; and what a
keyword names stands before the next keyword, so the strings come in their order. -/
namespace Desugar.Import

/-! ### Strings by their indices -/

/-- The kind of the token at an index. -/
def kindAt (ts : List Token) (i : Nat) : Option Kind := ts[i]?.map Token.kind

/-- The text named by the string at an index, unless it was not closed. -/
def textAt (ts : List Token) (j : Nat) : Option Text := ts[j]?.bind fun t => unquote? t.text

/-- The keyword `word` stands at the index `k`, and not as the name of a member. -/
def Opens (ts : List Token) (word : Keyword) (k : Nat) : Prop :=
  kindAt ts k = some (.keyword word) ∧ (k = 0 ∨ kindAt ts (k - 1) ≠ some .dot)

/-- The string at `j` comes right after the `import` at `k`. -/
def Plain (ts : List Token) (k j : Nat) : Prop := Opens ts .importWord k ∧ j = k + 1

/-- The string at `j` is the argument of the `import` at `k`. -/
def Called (ts : List Token) (k j : Nat) : Prop :=
  Opens ts .importWord k ∧ j = k + 2 ∧ kindAt ts (k + 1) = some (.opening .paren) ∧
    kindAt ts (j + 1) = some (.closing .paren)

/-- The string at `j` comes right after a `from`, which is the only one since the last `import`
or `export` before it. That keyword stands at `k` in the same statement, and what comes after
it can begin a clause. -/
def Sourced (ts : List Token) (k j : Nat) : Prop :=
  kindAt ts (j - 1) = some (.keyword .fromWord) ∧ k < j ∧
    (∀ m < j, k < m → kindAt ts m ∉
      [some (.keyword .importWord), some (.keyword .exportWord), some .semicolon]) ∧
    (∀ m < j - 1, k < m → kindAt ts m ≠ some (.keyword .fromWord)) ∧
    (Opens ts .importWord k ∧
        kindAt ts (k + 1) ∉ [some .string, some (.opening .paren), some .dot] ∨
      Opens ts .exportWord k ∧ kindAt ts (k + 1) ∈ [some .star, some (.opening .brace)])

/-- The keyword at `k` names the string at `j`. -/
def Names (ts : List Token) (k j : Nat) : Prop :=
  kindAt ts j = some .string ∧ (Plain ts k j ∨ Called ts k j ∨ Sourced ts k j)

/-- Some keyword names the string at `j`. -/
def IsTarget (ts : List Token) (j : Nat) : Prop := ∃ k < j, Names ts k j

section Decidable

variable (ts : List Token) (k j : Nat)

instance (word : Keyword) : Decidable (Opens ts word k) := inferInstanceAs (Decidable (_ ∧ _))

instance : Decidable (Plain ts k j) := inferInstanceAs (Decidable (_ ∧ _))

instance : Decidable (Called ts k j) := inferInstanceAs (Decidable (_ ∧ _))

instance : Decidable (Sourced ts k j) := inferInstanceAs (Decidable (_ ∧ _))

instance : Decidable (Names ts k j) := inferInstanceAs (Decidable (_ ∧ _))

instance : Decidable (IsTarget ts j) := inferInstanceAs (Decidable (∃ k < j, Names ts k j))

end Decidable

@[simp] theorem kindAt_nil (i : Nat) : kindAt [] i = none := rfl

@[simp] theorem kindAt_cons_zero (t : Token) (ts : List Token) :
    kindAt (t :: ts) 0 = some t.kind := rfl

@[simp] theorem kindAt_cons_succ (t : Token) (ts : List Token) (i : Nat) :
    kindAt (t :: ts) (i + 1) = kindAt ts i := rfl

theorem kindAt_drop (ts : List Token) (n i : Nat) : kindAt (ts.drop n) i = kindAt ts (n + i) := by
  rw [kindAt, kindAt, List.getElem?_drop]

theorem lt_of_kindAt {ts : List Token} {i : Nat} {k : Kind} (h : kindAt ts i = some k) :
    i < ts.length := by
  obtain ⟨t, ht, _⟩ := Option.map_eq_some_iff.mp h
  exact (List.getElem?_eq_some_iff.mp ht).1

/-! ### The search for `from` -/

/-- The kinds of tokens at which the search for `from` comes to its end. -/
def endsSearch : Kind → Bool
  | .keyword .fromWord | .semicolon | .eof | .keyword .importWord | .keyword .exportWord => true
  | _ => false

theorem fromClause?_step {t : Token} (h : endsSearch t.kind = false) (ts : List Token) :
    fromClause? (t :: ts) = (fromClause? ts).map fun r => (r.1, r.2 + 1) := by
  conv_lhs => unfold fromClause?
  split <;> simp_all [endsSearch]

theorem fromClause?_stop {t : Token} (h : endsSearch t.kind = true)
    (hk : t.kind ≠ .keyword .fromWord) (ts : List Token) : fromClause? (t :: ts) = none := by
  unfold fromClause?
  split <;> simp_all [endsSearch]

theorem fromClause?_from {t : Token} (hk : t.kind = .keyword .fromWord) (ts : List Token) :
    fromClause? (t :: ts) =
      ts.head?.bind fun s => if s.kind = .string then some (s, 1) else none := by
  unfold fromClause?
  rw [hk]
  cases ts <;> rfl

/-- The search finds the string after the first `from`, if nothing ends it before. -/
theorem fromClause?_eq_some_iff {ts : List Token} {s : Token} {i : Nat} :
    fromClause? ts = some (s, i) ↔ ∃ m, i = m + 1 ∧ kindAt ts m = some (.keyword .fromWord) ∧
      ts[m + 1]? = some s ∧ s.kind = .string ∧
      ∀ n < m, ∀ k, kindAt ts n = some k → endsSearch k = false := by
  induction ts generalizing i with
  | nil => simp [fromClause?]
  | cons t ts ih =>
    by_cases hfrom : t.kind = .keyword .fromWord
    · rw [fromClause?_from hfrom]
      constructor
      · intro h
        obtain ⟨u, hu, hif⟩ := Option.bind_eq_some_iff.mp h
        rw [Option.ite_none_right_eq_some, Option.some.injEq, Prod.mk.injEq] at hif
        obtain ⟨hk, rfl, rfl⟩ := hif
        refine ⟨0, rfl, by rw [kindAt_cons_zero, hfrom], ?_, hk, fun n hn => absurd hn (by omega)⟩
        rw [List.getElem?_cons_succ, ← List.head?_eq_getElem?, hu]
      · rintro ⟨m, rfl, hm, hs, hk, hfree⟩
        cases m with
        | zero =>
          rw [List.getElem?_cons_succ, ← List.head?_eq_getElem?] at hs
          rw [hs, Option.bind_some, if_pos hk]
        | succ m =>
          have hends := hfree 0 (by omega) _ (kindAt_cons_zero t ts)
          rw [hfrom] at hends
          cases hends
    · cases hends : endsSearch t.kind with
      | true =>
        rw [fromClause?_stop hends hfrom]
        refine iff_of_false nofun ?_
        rintro ⟨m, -, hm, -, -, hfree⟩
        cases m with
        | zero => exact hfrom (Option.some.inj hm)
        | succ m =>
          have hno := hfree 0 (by omega) _ (kindAt_cons_zero t ts)
          rw [hends] at hno
          cases hno
      | false =>
        rw [fromClause?_step hends]
        constructor
        · intro h
          obtain ⟨⟨u, i'⟩, hr, heq⟩ := Option.map_eq_some_iff.mp h
          cases heq
          obtain ⟨m, rfl, hm, hs, hk, hfree⟩ := ih.mp hr
          refine ⟨m + 1, rfl, hm, hs, hk, fun n hn k hkind => ?_⟩
          cases n with
          | zero => exact Option.some.inj hkind ▸ hends
          | succ n => exact hfree n (by omega) k hkind
        · rintro ⟨m, rfl, hm, hs, hk, hfree⟩
          cases m with
          | zero => exact absurd (Option.some.inj hm) hfrom
          | succ m =>
            have hr : fromClause? ts = some (s, m + 1) :=
              ih.mpr ⟨m, rfl, hm, hs, hk, fun n hn => hfree (n + 1) (by omega)⟩
            rw [hr, Option.map_some]

/-! ### What a keyword names -/

/-- What comes next after `word` can begin a clause. -/
def TakesClause (word : Keyword) (next : Option Kind) : Prop :=
  word = .importWord ∧ next ∉ [some .string, some (.opening .paren), some .dot] ∨
    word = .exportWord ∧ next ∈ [some .star, some (.opening .brace)]

instance (word : Keyword) (next : Option Kind) : Decidable (TakesClause word next) :=
  inferInstanceAs (Decidable (_ ∨ _))

/-- The index, among the tokens after the keyword `word`, of the string that it names. -/
def found? (word : Keyword) (ts : List Token) : Option Nat :=
  if TakesClause word (kindAt ts 0) then (fromClause? ts).map Prod.snd
  else if word = .importWord ∧ kindAt ts 0 = some .string then some 0
  else if word = .importWord ∧ kindAt ts 0 = some (.opening .paren) ∧
      kindAt ts 1 = some .string ∧ kindAt ts 2 = some (.closing .paren) then some 1
  else none

theorem kindAt_zero (ts : List Token) : ts.head?.map Token.kind = kindAt ts 0 := by
  rw [kindAt, List.head?_eq_getElem?]

theorem clause_of_takesClause {word : Keyword} {ts : List Token}
    (h : TakesClause word (kindAt ts 0)) :
    clause word ts = (fromClause? ts).elim ([], 0) fun r => (target r.1, r.2 + 1) := by
  unfold clause
  rw [kindAt_zero]
  rcases h with ⟨rfl, hnext⟩ | ⟨rfl, hnext⟩
  · simp only [List.mem_cons, List.not_mem_nil, or_false, not_or] at hnext
    obtain ⟨hstring, hparen, hdot⟩ := hnext
    cases fromClause? ts <;> dsimp only <;> split <;> first | rfl | contradiction
  · simp only [List.mem_cons, List.not_mem_nil, or_false] at hnext
    rcases hnext with hnext | hnext <;> rw [hnext] <;> cases fromClause? ts <;> rfl

theorem clause_of_not_takesClause {word : Keyword} {ts : List Token}
    (h : ¬ TakesClause word (kindAt ts 0)) :
    clause word ts = (((found? word ts).bind (textAt ts)).toList, 0) := by
  rw [found?, if_neg h]
  by_cases hword : word = .importWord
  · subst hword
    have hnext : kindAt ts 0 ∈ [some .string, some (.opening .paren), some .dot] := by
      by_contra hno
      exact h (.inl ⟨rfl, hno⟩)
    cases ts with
    | nil => simp at hnext
    | cons t ts =>
      simp only [kindAt_cons_zero, List.mem_cons, Option.some.injEq, List.not_mem_nil,
        or_false] at hnext
      rcases hnext with hk | hk | hk
      · simp [clause, hk, textAt, target]
      · cases ts with
        | nil => simp [clause, hk]
        | cons s ts =>
          cases ts with
          | nil => simp [clause, hk]
          | cons close ts =>
            by_cases hclose : s.kind = .string ∧ close.kind = .closing .paren
            · simp [clause, hk, hclose, textAt, target]
            · simp [clause, hk, hclose]
      · simp [clause, hk]
  · rw [if_neg fun hw => hword hw.1, if_neg fun hw => hword hw.1]
    unfold clause
    rw [kindAt_zero]
    cases fromClause? ts <;> dsimp only <;> split <;>
      first | rfl | contradiction | simp_all [TakesClause]

theorem clause_fst (word : Keyword) (ts : List Token) :
    (clause word ts).1 = ((found? word ts).bind (textAt ts)).toList := by
  by_cases h : TakesClause word (kindAt ts 0)
  · rw [clause_of_takesClause h, found?, if_pos h]
    cases hr : fromClause? ts with
    | none => rfl
    | some r =>
      obtain ⟨m, hi, -, hs, -⟩ :=
        fromClause?_eq_some_iff.mp (show fromClause? ts = some (r.1, r.2) from hr)
      simp [textAt, target, hi, hs]
  · rw [clause_of_not_takesClause h]

/-- No keyword is among the tokens that need no further look. -/
theorem clause_skips {word : Keyword} {ts : List Token} {m : Nat} (hm : m < (clause word ts).2) :
    kindAt ts m ∉ [some (.keyword .importWord), some (.keyword .exportWord)] := by
  by_cases h : TakesClause word (kindAt ts 0)
  · rw [clause_of_takesClause h] at hm
    cases hr : fromClause? ts with
    | none => simp [hr] at hm
    | some r =>
      obtain ⟨n, hi, hfrom, hs, hstring, hfree⟩ :=
        fromClause?_eq_some_iff.mp (show fromClause? ts = some (r.1, r.2) from hr)
      simp only [hr, Option.elim_some, hi] at hm
      rcases Nat.lt_trichotomy m n with hlt | rfl | hgt
      · intro hmem
        simp only [List.mem_cons, List.not_mem_nil, or_false] at hmem
        rcases hmem with hk | hk
        · exact absurd (hfree m hlt _ hk) (by decide)
        · exact absurd (hfree m hlt _ hk) (by decide)
      · simp [hfrom]
      · have hlast : m = n + 1 := by omega
        have hkind : kindAt ts m = some .string := by
          rw [kindAt, hlast, hs, Option.map_some, hstring]
        simp [hkind]
  · rw [clause_of_not_takesClause h] at hm
    exact absurd hm (Nat.not_lt_zero m)

/-- The index of the string that the keyword at `k` names. -/
def named? (ts : List Token) (k : Nat) : Option Nat :=
  match kindAt ts k with
  | some (.keyword word) =>
    if Opens ts word k then (found? word (ts.drop (k + 1))).map (k + 1 + ·) else none
  | _ => none

theorem named?_of_opens {ts : List Token} {word : Keyword} {k : Nat} (h : Opens ts word k) :
    named? ts k = (found? word (ts.drop (k + 1))).map (k + 1 + ·) := by
  unfold named?
  rw [h.1]
  exact if_pos h

theorem found?_eq_none {word : Keyword} (himport : word ≠ .importWord)
    (hexport : word ≠ .exportWord) (ts : List Token) : found? word ts = none := by
  simp [found?, TakesClause, himport, hexport]

theorem named?_eq_none {ts : List Token} {k : Nat}
    (h : ∀ word, Opens ts word k → word ≠ .importWord ∧ word ≠ .exportWord) :
    named? ts k = none := by
  unfold named?
  split
  next word _ =>
    split
    next hopens => rw [found?_eq_none (h word hopens).1 (h word hopens).2, Option.map_none]
    next => rfl
  next => rfl

/-! ### The loop -/

theorem opens_append {front ts : List Token} {t : Token} {word : Keyword} :
    Opens (front ++ t :: ts) word front.length ↔
      t.kind = .keyword word ∧ front.getLast?.map Token.kind ≠ some .dot := by
  have hkind : kindAt (front ++ t :: ts) front.length = some t.kind := by simp [kindAt]
  rw [Opens, hkind, Option.some.injEq]
  refine and_congr_right fun _ => ?_
  rcases List.eq_nil_or_concat front with rfl | ⟨init, d, rfl⟩
  · simp
  · simp [kindAt]

theorem textAt_drop (ts : List Token) (n i : Nat) : textAt (ts.drop n) i = textAt ts (n + i) := by
  rw [textAt, textAt, List.getElem?_drop]

/-- By induction on the tokens that are left: every keyword among them has its turn. -/
theorem targets_eq_filterMap (front rest : List Token) (skip : Nat)
    (hskip : ∀ m < skip, kindAt rest m ∉
      [some (.keyword .importWord), some (.keyword .exportWord)]) :
    targets (front.getLast?.map Token.kind) skip rest =
      ((List.range' front.length rest.length).filterMap (named? (front ++ rest))).filterMap
        (textAt (front ++ rest)) := by
  induction rest generalizing front skip with
  | nil => cases skip <;> rfl
  | cons t ts ih =>
    have hnext (skip : Nat) (hskip : ∀ m < skip, kindAt ts m ∉
        [some (.keyword .importWord), some (.keyword .exportWord)]) :
        targets (some t.kind) skip ts =
          ((List.range' (front.length + 1) ts.length).filterMap
            (named? (front ++ t :: ts))).filterMap (textAt (front ++ t :: ts)) := by
      have h := ih (front ++ [t]) skip hskip
      simpa using h
    rw [List.length_cons, List.range'_succ, List.filterMap_cons]
    cases skip with
    | succ skip =>
      have hnone : named? (front ++ t :: ts) front.length = none := by
        refine named?_eq_none fun word hopens => ?_
        have hkind := hskip 0 (by omega)
        rw [kindAt_cons_zero, (opens_append.mp hopens).1] at hkind
        constructor <;> rintro rfl <;> simp at hkind
      rw [targets, hnone]
      exact hnext skip fun m hm => hskip (m + 1) (by omega)
    | zero =>
      have hzero := hnext 0 fun m hm => absurd hm (Nat.not_lt_zero m)
      unfold targets
      split
      next word hk =>
        split
        next hdot =>
          have hnone : named? (front ++ t :: ts) front.length = none :=
            named?_eq_none fun _ hopens => absurd hdot (opens_append.mp hopens).2
          rw [hnone]
          exact hzero
        next hdot =>
          have hopens : Opens (front ++ t :: ts) word front.length := opens_append.mpr ⟨hk, hdot⟩
          have hdrop : (front ++ t :: ts).drop (front.length + 1) = ts := by simp
          dsimp only
          rw [named?_of_opens hopens, hdrop, clause_fst, hnext _ fun m hm => clause_skips hm]
          cases found? word ts with
          | none => rfl
          | some i =>
            have htext : textAt ts i = textAt (front ++ t :: ts) (front.length + 1 + i) := by
              rw [← textAt_drop, hdrop]
            rw [Option.bind_some, htext, Option.map_some, List.filterMap_cons]
            cases textAt (front ++ t :: ts) (front.length + 1 + i) <;> rfl
      next hk =>
        have hnone : named? (front ++ t :: ts) front.length = none :=
          named?_eq_none fun word hopens => absurd (opens_append.mp hopens).1 (hk word)
        rw [hnone]
        exact hzero

/-! ### Indices -/

theorem endsSearch_eq_false {k : Kind} (heof : k ≠ .eof) (hfrom : k ≠ .keyword .fromWord)
    (hk : some k ∉ [some (.keyword .importWord), some (.keyword .exportWord), some .semicolon]) :
    endsSearch k = false := by
  simp only [List.mem_cons, Option.some.injEq, List.not_mem_nil, or_false, not_or] at hk
  unfold endsSearch
  split <;> simp_all

theorem not_mem_of_endsSearch {k : Kind} (h : endsSearch k = false) :
    some k ∉ [some (.keyword .importWord), some (.keyword .exportWord), some .semicolon] ∧
      k ≠ .keyword .fromWord := by
  refine ⟨?_, ?_⟩
  · rintro hk
    simp only [List.mem_cons, Option.some.injEq, List.not_mem_nil, or_false] at hk
    rcases hk with rfl | rfl | rfl <;> cases h
  · rintro rfl
    cases h

theorem found?_eq_some_iff {word : Keyword} {ts : List Token} {i : Nat} :
    found? word ts = some i ↔
      word = .importWord ∧ kindAt ts 0 = some .string ∧ i = 0 ∨
      word = .importWord ∧ kindAt ts 0 = some (.opening .paren) ∧ kindAt ts 1 = some .string ∧
        kindAt ts 2 = some (.closing .paren) ∧ i = 1 ∨
      TakesClause word (kindAt ts 0) ∧ ∃ s, fromClause? ts = some (s, i) := by
  unfold found?
  by_cases h : TakesClause word (kindAt ts 0)
  · have hstring : ¬ (word = .importWord ∧ kindAt ts 0 = some .string) := by
      rintro ⟨rfl, hk⟩
      simp [TakesClause, hk] at h
    have hparen : ¬ (word = .importWord ∧ kindAt ts 0 = some (.opening .paren)) := by
      rintro ⟨rfl, hk⟩
      simp [TakesClause, hk] at h
    rw [if_pos h, Option.map_eq_some_iff, Prod.exists]
    constructor
    · rintro ⟨s, i', hs, rfl⟩
      exact .inr (.inr ⟨h, s, hs⟩)
    · rintro (⟨hw, hk, -⟩ | ⟨hw, hk, -⟩ | ⟨-, s, hs⟩)
      · exact absurd ⟨hw, hk⟩ hstring
      · exact absurd ⟨hw, hk⟩ hparen
      · exact ⟨s, i, hs, rfl⟩
  · rw [if_neg h]
    constructor
    · intro hfound
      split at hfound
      next hk =>
        cases hfound
        exact .inl ⟨hk.1, hk.2, rfl⟩
      next =>
        split at hfound
        next hk =>
          cases hfound
          exact .inr (.inl ⟨hk.1, hk.2.1, hk.2.2.1, hk.2.2.2, rfl⟩)
        next => cases hfound
    · rintro (⟨hw, hk, rfl⟩ | ⟨hw, hk, hs, hc, rfl⟩ | ⟨htakes, -⟩)
      · rw [if_pos ⟨hw, hk⟩]
      · rw [if_neg (by simp [hk]), if_pos ⟨hw, hk, hs, hc⟩]
      · exact absurd htakes h

section Indices

variable {ts : List Token} {k j : Nat}

theorem exists_takesClause_iff :
    (∃ word, Opens ts word k ∧ TakesClause word (kindAt ts (k + 1))) ↔
      Opens ts .importWord k ∧
          kindAt ts (k + 1) ∉ [some .string, some (.opening .paren), some .dot] ∨
        Opens ts .exportWord k ∧ kindAt ts (k + 1) ∈ [some .star, some (.opening .brace)] := by
  constructor
  · rintro ⟨_, hopens, ⟨rfl, hnext⟩ | ⟨rfl, hnext⟩⟩
    · exact .inl ⟨hopens, hnext⟩
    · exact .inr ⟨hopens, hnext⟩
  · rintro (⟨hopens, hnext⟩ | ⟨hopens, hnext⟩)
    · exact ⟨_, hopens, .inl ⟨rfl, hnext⟩⟩
    · exact ⟨_, hopens, .inr ⟨rfl, hnext⟩⟩

/-- A search that starts behind the keyword at `k` finds the string behind the first `from`,
unless another keyword or a semicolon comes before it. -/
theorem fromClause?_drop_iff (heof : ∀ i, kindAt ts i = some .eof → ts.length ≤ i + 1) {i : Nat} :
    (∃ s, fromClause? (ts.drop (k + 1)) = some (s, i)) ↔
      ∃ m, i = m + 1 ∧ kindAt ts (k + 1 + m) = some (.keyword .fromWord) ∧
        kindAt ts (k + 1 + i) = some .string ∧
        (∀ n, k < n → n ≤ k + 1 + m → kindAt ts n ∉
          [some (.keyword .importWord), some (.keyword .exportWord), some .semicolon]) ∧
        ∀ n, k < n → n < k + 1 + m → kindAt ts n ≠ some (.keyword .fromWord) := by
  constructor
  · rintro ⟨s, hs⟩
    obtain ⟨m, rfl, hfrom, hstring, hk, hfree⟩ := fromClause?_eq_some_iff.mp hs
    rw [kindAt_drop] at hfrom
    have hbefore (n : Nat) (hlo : k < n) (hhi : n < k + 1 + m) {kind : Kind}
        (hkind : kindAt ts n = some kind) : endsSearch kind = false := by
      refine hfree (n - (k + 1)) (by omega) kind ?_
      rw [kindAt_drop, ← hkind]
      congr 1
      omega
    refine ⟨m, rfl, hfrom, ?_, fun n hlo hhi => ?_, fun n hlo hhi hn => ?_⟩
    · rw [← kindAt_drop, kindAt, hstring, Option.map_some, hk]
    · rcases Nat.lt_or_eq_of_le hhi with hlt | rfl
      · intro hmem
        cases hkind : kindAt ts n with
        | none => simp [hkind] at hmem
        | some kind => exact (not_mem_of_endsSearch (hbefore n hlo hlt hkind)).1 (hkind ▸ hmem)
      · simp [hfrom]
    · exact (not_mem_of_endsSearch (hbefore n hlo hhi hn)).2 rfl
  · rintro ⟨m, rfl, hfrom, hstring, hstop, honly⟩
    obtain ⟨s, hs, hk⟩ := Option.map_eq_some_iff.mp hstring
    refine ⟨s, fromClause?_eq_some_iff.mpr ⟨m, rfl, ?_, ?_, hk, fun n hn kind hkind => ?_⟩⟩
    · rw [kindAt_drop, hfrom]
    · rw [List.getElem?_drop, hs]
    · rw [kindAt_drop] at hkind
      refine endsSearch_eq_false ?_ ?_ (hkind ▸ hstop (k + 1 + n) (by omega) (by omega))
      · rintro rfl
        have hend := heof _ hkind
        have hlt := lt_of_kindAt hstring
        omega
      · rintro rfl
        exact honly (k + 1 + n) (by omega) (by omega) hkind

theorem sourced_iff (heof : ∀ i, kindAt ts i = some .eof → ts.length ≤ i + 1) :
    kindAt ts j = some .string ∧ Sourced ts k j ↔
      (∃ word, Opens ts word k ∧ TakesClause word (kindAt ts (k + 1))) ∧
        ∃ i s, j = k + 1 + i ∧ fromClause? (ts.drop (k + 1)) = some (s, i) := by
  rw [exists_takesClause_iff]
  constructor
  · rintro ⟨hstring, hfrom, hlt, hstop, honly, hopens⟩
    have hkeyword : kindAt ts k = some (.keyword .importWord) ∨
        kindAt ts k = some (.keyword .exportWord) := hopens.imp (·.1.1) (·.1.1)
    have hne : k ≠ j - 1 := by
      rintro rfl
      rw [hfrom] at hkeyword
      simp at hkeyword
    have hlast : k + 1 + (j - k - 2) = j - 1 := by omega
    have hindex : j = k + 1 + (j - k - 2 + 1) := by omega
    obtain ⟨s, hs⟩ := (fromClause?_drop_iff heof (k := k) (i := j - k - 2 + 1)).mpr
      ⟨j - k - 2, rfl, by rw [hlast, hfrom], by rw [← hindex, hstring],
        fun n hlo hhi => hstop n (by omega) hlo, fun n hlo hhi => honly n (by omega) hlo⟩
    exact ⟨hopens, _, s, hindex, hs⟩
  · rintro ⟨hopens, i, s, rfl, hs⟩
    obtain ⟨m, rfl, hfrom, hstring, hstop, honly⟩ := (fromClause?_drop_iff heof).mp ⟨s, hs⟩
    exact ⟨hstring, hfrom, by omega, fun n hn hlo => hstop n hlo (by omega),
      fun n hn hlo => honly n hlo (by omega), hopens⟩

/-- What the search finds from a keyword is what the keyword names. -/
theorem named?_eq_some_iff (heof : ∀ i, kindAt ts i = some .eof → ts.length ≤ i + 1) :
    named? ts k = some j ↔ Names ts k j := by
  have hfound {word : Keyword} (hopens : Opens ts word k) {i : Nat}
      (h : found? word (ts.drop (k + 1)) = some i) : named? ts k = some (k + 1 + i) := by
    rw [named?_of_opens hopens, h, Option.map_some]
  constructor
  · intro h
    obtain ⟨word, i, hopens, hi, rfl⟩ : ∃ word i, Opens ts word k ∧
        found? word (ts.drop (k + 1)) = some i ∧ k + 1 + i = j := by
      by_cases hopens : ∃ word, Opens ts word k
      · obtain ⟨word, hopens⟩ := hopens
        rw [named?_of_opens hopens, Option.map_eq_some_iff] at h
        obtain ⟨i, hi, hj⟩ := h
        exact ⟨word, i, hopens, hi, hj⟩
      · rw [named?_eq_none fun word hword => absurd ⟨word, hword⟩ hopens] at h
        cases h
    simp only [found?_eq_some_iff, kindAt_drop] at hi
    rcases hi with ⟨rfl, hstring, rfl⟩ | ⟨rfl, hparen, hstring, hclose, rfl⟩ | ⟨htakes, s, hs⟩
    · exact ⟨hstring, .inl ⟨hopens, rfl⟩⟩
    · exact ⟨hstring, .inr (.inl ⟨hopens, rfl, hparen, hclose⟩)⟩
    · have hsourced := (sourced_iff heof).mpr ⟨⟨word, hopens, htakes⟩, i, s, rfl, hs⟩
      exact ⟨hsourced.1, .inr (.inr hsourced.2)⟩
  · rintro ⟨hstring, ⟨hopens, rfl⟩ | ⟨hopens, rfl, hparen, hclose⟩ | hsourced⟩
    · refine hfound hopens (found?_eq_some_iff.mpr (.inl ⟨rfl, ?_, rfl⟩))
      rw [kindAt_drop]
      exact hstring
    · refine hfound hopens (found?_eq_some_iff.mpr (.inr (.inl ⟨rfl, ?_, ?_, ?_, rfl⟩)))
      · rw [kindAt_drop]; exact hparen
      · rw [kindAt_drop]; exact hstring
      · rw [kindAt_drop]; exact hclose
    · obtain ⟨⟨word, hopens, htakes⟩, i, s, rfl, hs⟩ := (sourced_iff heof).mp ⟨hstring, hsourced⟩
      refine hfound hopens (found?_eq_some_iff.mpr (.inr (.inr ⟨?_, s, hs⟩)))
      rw [kindAt_drop]
      exact htakes

/-! ### Order -/

/-- A keyword that names a string is `import` or `export`, and the string is behind it. -/
theorem Names.keyword (h : Names ts k j) :
    k < j ∧ kindAt ts k ∈ [some (.keyword .importWord), some (.keyword .exportWord)] := by
  rcases h.2 with ⟨hopens, rfl⟩ | ⟨hopens, rfl, -⟩ | ⟨-, hlt, -, -, hopens | hopens⟩
  · simp [hopens.1]
  · simp [hopens.1]
  · simp [hopens.1.1, hlt]
  · simp [hopens.1.1, hlt]

/-- The string that a keyword names comes before the next keyword. -/
theorem Names.lt_keyword (h : Names ts k j) {k' : Nat} (hlt : k < k')
    (hk : kindAt ts k' ∈ [some (.keyword .importWord), some (.keyword .exportWord)]) : j < k' := by
  have hne {i : Nat} {kind : Kind} (hi : kindAt ts i = some kind)
      (hkind : some kind ∉ [some (.keyword .importWord), some (.keyword .exportWord)]) :
      i ≠ k' := by
    rintro rfl
    exact hkind (hi ▸ hk)
  have hstring := hne h.1 (by decide)
  rcases h.2 with ⟨-, rfl⟩ | ⟨-, rfl, hparen, -⟩ | ⟨-, -, hstop, -⟩
  · omega
  · have hopener := hne hparen (by decide)
    omega
  · by_contra hge
    refine hstop k' (by omega) hlt ?_
    simp only [List.mem_cons, List.not_mem_nil, or_false] at hk ⊢
    exact hk.imp_right .inl

/-- The indices in the order of their keywords are those of all targets in their own order. -/
theorem filterMap_named? (heof : ∀ i, kindAt ts i = some .eof → ts.length ≤ i + 1) :
    (List.range ts.length).filterMap (named? ts) =
      (List.range ts.length).filter (IsTarget ts ·) := by
  have hsorted : ((List.range ts.length).filterMap (named? ts)).Pairwise (· < ·) := by
    refine List.pairwise_lt_range.filterMap _ fun k k' hlt j hj j' hj' => ?_
    have hnames := (named?_eq_some_iff heof).mp hj
    have hnames' := (named?_eq_some_iff heof).mp hj'
    have hbefore := hnames.lt_keyword hlt hnames'.keyword.2
    have hafter := hnames'.keyword.1
    omega
  refine hsorted.eq_of_mem_iff (List.pairwise_lt_range.filter _) fun j => ?_
  simp only [List.mem_filterMap, List.mem_filter, List.mem_range, decide_eq_true_eq,
    named?_eq_some_iff heof]
  constructor
  · rintro ⟨k, -, hnames⟩
    exact ⟨lt_of_kindAt hnames.1, k, hnames.keyword.1, hnames⟩
  · rintro ⟨hj, k, hlt, hnames⟩
    exact ⟨k, by omega, hnames⟩

end Indices

/-- Only the last token of a text is its end. -/
theorem kindAt_eof (markup : Bool) (text : Text) (i : Nat)
    (h : kindAt (Token.scan markup text).tokens i = some .eof) :
    (Token.scan markup text).tokens.length ≤ i + 1 := by
  obtain ⟨us, htokens, hkinds⟩ := (Token.lexed_scan markup text).exists_finish
  rw [htokens] at h ⊢
  by_contra hlt
  rw [List.length_append, List.length_singleton] at hlt
  have hi : i < us.length := by omega
  rw [kindAt, List.getElem?_append_left hi, List.getElem?_eq_getElem hi] at h
  exact hkinds us[i] (List.getElem_mem hi) (Option.some.inj h)

/-- The import targets of a text are the texts of the strings that follow `import`, are the only
argument of a call of `import`, or follow the first `from` after an `import` or `export`: in
their order, each once. -/
theorem ofText_eq_filter (markup : Bool) (text : Text) :
    let ts := (Token.scan markup text).tokens
    ofText markup text = ((List.range ts.length).filter (IsTarget ts ·)).filterMap (textAt ts) := by
  intro ts
  have hloop := targets_eq_filterMap [] ts 0 fun m hm => absurd hm (Nat.not_lt_zero m)
  rw [List.nil_append, List.length_nil, ← List.range_eq_range',
    filterMap_named? (kindAt_eof markup text)] at hloop
  exact hloop

end Desugar.Import
