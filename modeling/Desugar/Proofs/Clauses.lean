import Desugar.Proofs.Imports

/-! What a declaration adds to the targets of a text. Its clause lists names; the search for
`from` that starts at its keyword passes them all, but for a name `from`, which it takes for
the end of the clause. A declaration that has such a name is missed, and every other one adds
its string, whatever stands before and behind it. -/
namespace Desugar.Import

/-! ### Declarations -/

/-- What a clause may list: words, of which only `import` and `export` are taken. -/
def IsName (t : Token) : Prop :=
  t.kind.isWord = true ∧ t.kind ≠ .keyword .importWord ∧ t.kind ≠ .keyword .exportWord

/-- The given word, which is no keyword. -/
def IsWord (word : Text) (t : Token) : Prop := t.kind = .ident ∧ t.text = word

/-- A name in braces, with or without another name for it. -/
inductive IsEntry : List Token → Prop where
  | name {t : Token} : IsName t → IsEntry [t]
  | renamed {t word u : Token} : IsName t → IsWord "as".toList word → IsName u →
      IsEntry [t, word, u]

/-- Entries with commas between them, and perhaps one at the end. -/
inductive IsEntries : List Token → Prop where
  | nil : IsEntries []
  | last {us : List Token} : IsEntry us → IsEntries us
  | more {us vs : List Token} {comma : Token} : IsEntry us → comma.kind = .comma → IsEntries vs →
      IsEntries (us ++ comma :: vs)

/-- Entries in braces. -/
inductive IsList : List Token → Prop where
  | mk {opener close : Token} {us : List Token} : opener.kind = .opening .brace → IsEntries us →
      close.kind = .closing .brace → IsList (opener :: us ++ [close])

/-- All that a module has under one name, or a list of it. -/
inductive IsBundle : List Token → Prop where
  | all {star word t : Token} : star.kind = .star → IsWord "as".toList word → IsName t →
      IsBundle [star, word, t]
  | list {us : List Token} : IsList us → IsBundle us

/-- A default name, a bundle, or both. -/
inductive IsClause : List Token → Prop where
  | name {t : Token} : IsName t → IsClause [t]
  | bundle {us : List Token} : IsBundle us → IsClause us
  | both {t comma : Token} {us : List Token} : IsName t → comma.kind = .comma → IsBundle us →
      IsClause (t :: comma :: us)

/-- A declaration up to its `from`: the keyword and the tokens behind it. -/
inductive IsDeclaration : Keyword → List Token → Prop where
  | values {us : List Token} : IsClause us → IsDeclaration .importWord us
  | types {word : Token} {us : List Token} : IsWord "type".toList word → IsClause us →
      IsDeclaration .importWord (word :: us)
  | all {star : Token} : star.kind = .star → IsDeclaration .exportWord [star]
  | list {us : List Token} : IsList us → IsDeclaration .exportWord us

/-- A string with its closing quote. -/
def IsQuoted (content : Text) (t : Token) : Prop :=
  t.kind = .string ∧ ∃ quote, Element.isQuote quote = true ∧ t.text = quote :: content ++ [quote]

theorem target_of_isQuoted {content : Text} {t : Token} (h : IsQuoted content t) :
    target t = [content] := by
  obtain ⟨-, quote, hquote, htext⟩ := h
  rw [target, htext, List.cons_append, unquote?, hquote]
  simp

/-- The kinds of the tokens in clauses. -/
def isListed : Kind → Bool
  | .keyword word => word != .importWord && word != .exportWord
  | .ident | .comma | .star | .opening .brace | .closing .brace => true
  | _ => false

theorem isListed_of_isName {t : Token} (h : IsName t) : isListed t.kind = true := by
  obtain ⟨hword, himport, hexport⟩ := h
  cases hk : t.kind with
  | ident => rfl
  | keyword word => simp_all [isListed]
  | _ => simp [hk, Kind.isWord] at hword

theorem isListed_of_isWord {word : Text} {t : Token} (h : IsWord word t) :
    isListed t.kind = true := by
  rw [h.1]
  rfl

theorem IsEntry.listed {us : List Token} (h : IsEntry us) : ∀ t ∈ us, isListed t.kind = true := by
  cases h with
  | name ht => simpa using isListed_of_isName ht
  | renamed ht hword hu =>
    simpa using ⟨isListed_of_isName ht, isListed_of_isWord hword, isListed_of_isName hu⟩

theorem IsEntries.listed {us : List Token} (h : IsEntries us) :
    ∀ t ∈ us, isListed t.kind = true := by
  induction h with
  | nil => simp
  | last hentry => exact hentry.listed
  | more hentry hcomma _ ih =>
    rw [List.forall_mem_append, List.forall_mem_cons, hcomma]
    exact ⟨hentry.listed, rfl, ih⟩

theorem IsList.listed {us : List Token} (h : IsList us) : ∀ t ∈ us, isListed t.kind = true := by
  obtain ⟨hopener, hentries, hclose⟩ := h
  rw [List.forall_mem_append, List.forall_mem_cons, List.forall_mem_singleton, hopener, hclose]
  exact ⟨⟨rfl, hentries.listed⟩, rfl⟩

theorem IsBundle.listed {us : List Token} (h : IsBundle us) : ∀ t ∈ us, isListed t.kind = true := by
  cases h with
  | all hstar hword ht =>
    simpa [hstar, isListed] using ⟨isListed_of_isWord hword, isListed_of_isName ht⟩
  | list hlist => exact hlist.listed

theorem IsClause.listed {us : List Token} (h : IsClause us) : ∀ t ∈ us, isListed t.kind = true := by
  cases h with
  | name ht => simpa using isListed_of_isName ht
  | bundle hbundle => exact hbundle.listed
  | both ht hcomma hbundle =>
    rw [List.forall_mem_cons, List.forall_mem_cons, hcomma]
    exact ⟨isListed_of_isName ht, rfl, hbundle.listed⟩

theorem IsDeclaration.listed {word : Keyword} {us : List Token} (h : IsDeclaration word us) :
    ∀ t ∈ us, isListed t.kind = true := by
  cases h with
  | values hclause => exact hclause.listed
  | types hword hclause =>
    exact List.forall_mem_cons.mpr ⟨isListed_of_isWord hword, hclause.listed⟩
  | all hstar => simp [hstar, isListed]
  | list hlist => exact hlist.listed

/-! ### The search in a declaration -/

theorem fromClause?_append {us : List Token} (h : ∀ t ∈ us, endsSearch t.kind = false)
    (ts : List Token) :
    fromClause? (us ++ ts) = (fromClause? ts).map fun r => (r.1, r.2 + us.length) := by
  induction us with
  | nil => simp
  | cons t us ih =>
    obtain ⟨ht, hus⟩ := List.forall_mem_cons.mp h
    rw [List.cons_append, fromClause?_step ht, ih hus, Option.map_map]
    simp [Function.comp_def, Nat.add_assoc]

theorem endsSearch_of_isListed {k : Kind} (h : isListed k = true)
    (hfrom : k ≠ .keyword .fromWord) : endsSearch k = false := by
  unfold endsSearch
  split <;> simp_all [isListed]

/-- The search passes a clause without a name `from`. -/
theorem fromClause?_listed {us rest : List Token} {word str : Token}
    (hus : ∀ t ∈ us, isListed t.kind = true) (hno : ∀ t ∈ us, t.kind ≠ .keyword .fromWord)
    (hword : word.kind = .keyword .fromWord) (hstr : str.kind = .string) :
    fromClause? (us ++ word :: str :: rest) = some (str, us.length + 1) := by
  rw [fromClause?_append fun t ht => endsSearch_of_isListed (hus t ht) (hno t ht),
    fromClause?_from hword]
  simp [hstr, Nat.add_comm]

/-- A name `from` is no end of a clause, but the search ends there. -/
theorem fromClause?_listed_from {us rest : List Token} {word str : Token}
    (hus : ∀ t ∈ us, isListed t.kind = true) (hfrom : ∃ t ∈ us, t.kind = .keyword .fromWord)
    (hword : word.kind = .keyword .fromWord) :
    fromClause? (us ++ word :: str :: rest) = none := by
  induction us with
  | nil => simp at hfrom
  | cons t us ih =>
    obtain ⟨ht, hus⟩ := List.forall_mem_cons.mp hus
    by_cases hk : t.kind = .keyword .fromWord
    · -- what comes next is part of the clause, or the `from` behind it
      rw [List.cons_append, fromClause?_from hk]
      cases us with
      | nil => simp [hword]
      | cons u us =>
        have hu : u.kind ≠ .string := by
          rintro hstring
          have hlisted := hus u List.mem_cons_self
          rw [hstring] at hlisted
          cases hlisted
        simp [hu]
    · have hlater : ∃ t ∈ us, t.kind = .keyword .fromWord := by simpa [hk] using hfrom
      rw [List.cons_append, fromClause?_step (endsSearch_of_isListed ht hk), ih hus hlater,
        Option.map_none]

/-- A keyword like `import` or `export` ends what is found from keywords before it. -/
def IsOpening (t : Token) : Prop :=
  t.kind = .keyword .importWord ∨ t.kind = .keyword .exportWord

theorem not_isOpening {t : Token} (h : isListed t.kind = true) : ¬ IsOpening t := by
  rintro (hk | hk) <;> rw [hk] at h <;> cases h

theorem fromClause?_append_opening {t : Token} (ht : IsOpening t) (us ts : List Token) :
    fromClause? (us ++ t :: ts) = fromClause? us := by
  have hstop : endsSearch t.kind = true := by rcases ht with h | h <;> rw [h] <;> rfl
  have hfrom : t.kind ≠ .keyword .fromWord := by rcases ht with h | h <;> rw [h] <;> nofun
  have hstring : t.kind ≠ .string := by rcases ht with h | h <;> rw [h] <;> nofun
  induction us with
  | nil => exact fromClause?_stop hstop hfrom ts
  | cons u us ih =>
    rw [List.cons_append]
    by_cases hu : u.kind = .keyword .fromWord
    · rw [fromClause?_from hu, fromClause?_from hu]
      cases us <;> simp [hstring]
    · cases hends : endsSearch u.kind with
      | true => rw [fromClause?_stop hends hu, fromClause?_stop hends hu]
      | false => rw [fromClause?_step hends, fromClause?_step hends, ih]

theorem clause_append_opening (word : Keyword) {t : Token} (ht : IsOpening t)
    (us ts : List Token) : clause word (us ++ t :: ts) = clause word us := by
  have hstring : t.kind ≠ .string := by rcases ht with h | h <;> rw [h] <;> nofun
  have hclose : t.kind ≠ .closing .paren := by rcases ht with h | h <;> rw [h] <;> nofun
  unfold clause
  rw [fromClause?_append_opening ht]
  match us with
  | [] =>
    have hnone : fromClause? [] = none := rfl
    rw [hnone]
    rcases ht with h | h <;> cases word <;> simp [h]
  | [a] => cases ts <;> simp [hstring]
  | [a, b] => simp [hclose]
  | a :: b :: c :: us => rfl

theorem clause_other {word : Keyword} (himport : word ≠ .importWord) (hexport : word ≠ .exportWord)
    (ts : List Token) : clause word ts = ([], 0) := by
  rw [clause_of_not_takesClause (by simp [TakesClause, himport, hexport]),
    found?_eq_none himport hexport]
  rfl

theorem clause_snd_le (word : Keyword) (ts : List Token) : (clause word ts).2 ≤ ts.length := by
  by_cases h : TakesClause word (kindAt ts 0)
  · rw [clause_of_takesClause h]
    cases hr : fromClause? ts with
    | none => simp
    | some r =>
      obtain ⟨m, hi, -, hs, -⟩ :=
        fromClause?_eq_some_iff.mp (show fromClause? ts = some (r.1, r.2) from hr)
      have hlt := (List.getElem?_eq_some_iff.mp hs).1
      rw [Option.elim_some]
      omega
  · rw [clause_of_not_takesClause h]
    exact Nat.zero_le _

/-! ### The loop -/

/-- The kind of the last of the tokens, or else the one before them. -/
def lastKind (last : Option Kind) (us : List Token) : Option Kind :=
  (us.getLast?.map Token.kind).or last

theorem lastKind_cons (last : Option Kind) (t : Token) (us : List Token) :
    lastKind last (t :: us) = lastKind (some t.kind) us := by
  rw [lastKind, lastKind, List.getLast?_cons]
  cases us.getLast? <;> rfl

theorem targets_passing (last : Option Kind) (us ts : List Token) :
    targets last us.length (us ++ ts) = targets (lastKind last us) 0 ts := by
  induction us generalizing last with
  | nil => rfl
  | cons t us ih => rw [List.length_cons, List.cons_append, targets, ih, lastKind_cons]

theorem targets_step {t : Token} (ht : ¬ IsOpening t) (last : Option Kind) (ts : List Token) :
    targets last 0 (t :: ts) = targets (some t.kind) 0 ts := by
  rw [targets]
  split
  next word hk =>
    split
    next => rfl
    next =>
      have hclause : clause word ts = ([], 0) := by
        refine clause_other ?_ ?_ ts
        · rintro rfl
          exact ht (.inl hk)
        · rintro rfl
          exact ht (.inr hk)
      rw [hclause]
      rfl
  next => rfl

/-- Tokens without a keyword like `import` add nothing. -/
theorem targets_idle {us : List Token} (hus : ∀ t ∈ us, ¬ IsOpening t) (last : Option Kind)
    (ts : List Token) : targets last 0 (us ++ ts) = targets (lastKind last us) 0 ts := by
  induction us generalizing last with
  | nil => rfl
  | cons t us ih =>
    obtain ⟨ht, hus⟩ := List.forall_mem_cons.mp hus
    rw [List.cons_append, targets_step ht, ih hus, lastKind_cons]

/-- What stands before `import` or `export` adds what it adds alone. -/
theorem targets_append_opening {t : Token} (ht : IsOpening t) (last : Option Kind) {skip : Nat}
    {us : List Token} (hskip : skip ≤ us.length) (ts : List Token) :
    targets last skip (us ++ t :: ts) =
      targets last skip us ++ targets (lastKind last us) 0 (t :: ts) := by
  induction us generalizing last skip with
  | nil =>
    obtain rfl : skip = 0 := by simpa using hskip
    rfl
  | cons u us ih =>
    rw [List.cons_append, lastKind_cons]
    cases skip with
    | succ skip =>
      rw [targets, targets]
      exact ih (some u.kind) (by simpa using hskip)
    | zero =>
      have hzero := ih (some u.kind) (Nat.zero_le us.length)
      conv_lhs => unfold targets
      conv_rhs => enter [1]; unfold targets
      split
      next word hk =>
        split
        next => exact hzero
        next =>
          dsimp only
          rw [clause_append_opening word ht, ih (some u.kind) (clause_snd_le word us),
            List.append_assoc]
      next => exact hzero

theorem targets_opening {t : Token} {word : Keyword} (hk : t.kind = .keyword word)
    {last : Option Kind} (hdot : last ≠ some .dot) (ts : List Token) :
    targets last 0 (t :: ts) =
      (clause word ts).1 ++ targets (some t.kind) (clause word ts).2 ts := by
  conv_lhs => unfold targets
  rw [hk]
  exact if_neg hdot

/-! ### Declarations in a text -/

/-- The clause of a declaration can begin where it does, also if its first token is `from`. -/
theorem IsDeclaration.takesClause {word : Keyword} {us ts : List Token} {t : Token}
    (h : IsDeclaration word us) (ht : isListed t.kind = true) :
    TakesClause word (kindAt (us ++ t :: ts) 0) := by
  have hlisted {k : Kind} (hk : isListed k = true) :
      some k ∉ [some .string, some (.opening .paren), some .dot] := by
    intro hmem
    simp only [List.mem_cons, Option.some.injEq, List.not_mem_nil, or_false] at hmem
    rcases hmem with rfl | rfl | rfl <;> cases hk
  have hfirst : ∃ k, kindAt (us ++ t :: ts) 0 = some k ∧ isListed k = true := by
    cases us with
    | nil => exact ⟨t.kind, rfl, ht⟩
    | cons u us => exact ⟨u.kind, rfl, h.listed u List.mem_cons_self⟩
  obtain ⟨k, hk, hklisted⟩ := hfirst
  cases h with
  | values | types => exact .inl ⟨rfl, hk ▸ hlisted hklisted⟩
  | all hstar => exact .inr ⟨rfl, by simp [hstar]⟩
  | list hlist =>
    obtain ⟨hopener, -, -⟩ := hlist
    exact .inr ⟨rfl, by simp [hopener]⟩

/-- A declaration without a name `from` adds the content of its string to what the tokens before
and behind it add. One that has such a name adds nothing. -/
theorem ofText_declaration {markup : Bool} {text content : Text} {word : Keyword}
    {front us rest : List Token} {opener source str : Token}
    (htokens : (Token.scan markup text).tokens = front ++ opener :: us ++ source :: str :: rest)
    (hdot : front.getLast?.map Token.kind ≠ some .dot) (hopener : opener.kind = .keyword word)
    (hus : IsDeclaration word us) (hsource : source.kind = .keyword .fromWord)
    (hstr : IsQuoted content str) :
    ((∀ t ∈ us, t.kind ≠ .keyword .fromWord) →
      ofText markup text = targets none 0 front ++ content :: targets (some .string) 0 rest) ∧
    ((∃ t ∈ us, t.kind = .keyword .fromWord) →
      ofText markup text = targets none 0 front ++ targets (some .string) 0 rest) := by
  have hopening : IsOpening opener := by
    cases hus with
    | values | types => exact .inl hopener
    | all | list => exact .inr hopener
  have htakes : TakesClause word (kindAt (us ++ source :: str :: rest) 0) :=
    hus.takesClause (by rw [hsource]; rfl)
  have hlast : lastKind (some opener.kind) (us ++ [source, str]) = some .string := by
    simp [lastKind, hstr.1]
  have hsplit : us ++ source :: str :: rest = us ++ [source, str] ++ rest := by simp
  have htargets : ofText markup text = targets none 0 front ++
      ((clause word (us ++ source :: str :: rest)).1 ++
        targets (some opener.kind) (clause word (us ++ source :: str :: rest)).2
          (us ++ source :: str :: rest)) := by
    have hfront : lastKind none front ≠ some .dot := by rwa [lastKind, Option.or_none]
    rw [ofText, htokens, List.append_assoc, List.cons_append,
      targets_append_opening hopening none (Nat.zero_le _), targets_opening hopener hfront]
  rw [htargets, clause_of_takesClause htakes]
  constructor
  · intro hno
    have hlength : us.length + 1 + 1 = (us ++ [source, str]).length := by simp
    rw [fromClause?_listed hus.listed hno hsource hstr.1, Option.elim_some, target_of_isQuoted hstr,
      hlength, hsplit, targets_passing, hlast, List.singleton_append]
  · intro hname
    have hidle : ∀ t ∈ us ++ [source, str], ¬ IsOpening t := by
      simp only [List.forall_mem_append, List.forall_mem_cons, List.not_mem_nil, false_implies,
        implies_true, and_true]
      exact ⟨fun t ht => not_isOpening (hus.listed t ht), not_isOpening (by rw [hsource]; rfl),
        by simp [IsOpening, hstr.1]⟩
    rw [fromClause?_listed_from hus.listed hname hsource, Option.elim_none, hsplit,
      targets_idle hidle, hlast, List.nil_append]

/-- The second of two declarations lists a name `from`, and its module is missing. -/
theorem ofText_declaration_missed :
    let text := "import a from 'm';import \x7b from \x7d from 'rxjs';".toList
    ∃ (front us rest : List Token) (opener source str : Token),
      (Token.scan false text).tokens = front ++ opener :: us ++ source :: str :: rest ∧
      front.getLast?.map Token.kind = some .semicolon ∧ opener.kind = .keyword .importWord ∧
      IsDeclaration .importWord us ∧ source.kind = .keyword .fromWord ∧
      IsQuoted "rxjs".toList str ∧
      ofText false text = targets none 0 front ++ targets (some .string) 0 rest ∧
      ofText false text = ["m".toList] := by
  intro text
  have htokens : (Token.scan false text).tokens =
      [⟨.keyword .importWord, "import".toList, ⟨0, 1, 1⟩⟩, ⟨.ident, "a".toList, ⟨7, 1, 8⟩⟩,
        ⟨.keyword .fromWord, "from".toList, ⟨9, 1, 10⟩⟩, ⟨.string, "'m'".toList, ⟨14, 1, 15⟩⟩,
        ⟨.semicolon, ";".toList, ⟨17, 1, 18⟩⟩] ++
      ⟨.keyword .importWord, "import".toList, ⟨18, 1, 19⟩⟩ ::
      [⟨.opening .brace, "\x7b".toList, ⟨25, 1, 26⟩⟩,
        ⟨.keyword .fromWord, "from".toList, ⟨27, 1, 28⟩⟩,
        ⟨.closing .brace, "\x7d".toList, ⟨32, 1, 33⟩⟩] ++
      ⟨.keyword .fromWord, "from".toList, ⟨34, 1, 35⟩⟩ ::
      ⟨.string, "'rxjs'".toList, ⟨39, 1, 40⟩⟩ ::
      [⟨.semicolon, ";".toList, ⟨45, 1, 46⟩⟩, ⟨.eof, [], ⟨46, 1, 47⟩⟩] := by
    decide +kernel
  have hlist : IsDeclaration .importWord
      [⟨.opening .brace, "\x7b".toList, ⟨25, 1, 26⟩⟩,
        ⟨.keyword .fromWord, "from".toList, ⟨27, 1, 28⟩⟩,
        ⟨.closing .brace, "\x7d".toList, ⟨32, 1, 33⟩⟩] :=
    .values (.bundle (.list (.mk rfl (.last (.name ⟨rfl, by decide, by decide⟩)) rfl)))
  have hstr : IsQuoted "rxjs".toList ⟨.string, "'rxjs'".toList, ⟨39, 1, 40⟩⟩ :=
    ⟨rfl, '\'', rfl, by decide⟩
  have hmissed := (ofText_declaration htokens (by decide) rfl hlist rfl hstr).2
    ⟨⟨.keyword .fromWord, "from".toList, ⟨27, 1, 28⟩⟩, by simp, rfl⟩
  exact ⟨_, _, _, _, _, _, htokens, by decide, rfl, hlist, rfl, hstr, hmissed,
    hmissed.trans (by decide +kernel)⟩

end Desugar.Import
