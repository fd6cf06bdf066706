import Desugar.Proofs.Elements

/-! Where well-formed templates end. A template holds characters and substitutions, and a
substitution holds braces, strings and templates again. The rules give each of them its depth, the
number of templates and substitutions that are open at once in it. Scanning passes over what the
rules describe with its stack as it was, and stops behind the template if at most `maxDepth` of
them are open at once; it gives up on every deeper one. -/
namespace Desugar.Literal

open Element (isQuote capped capped_zero capped_max capped_succ map_capped map_add_map_add)

/-! ### Rules -/

/-- The inside of a string on one line, where a backslash takes the next character with it. -/
inductive IsLine (quote : Char) : Text → Prop where
  | nil : IsLine quote []
  | escape {c : Char} {cs : Text} : IsLine quote cs → IsLine quote ('\\' :: c :: cs)
  | char {c : Char} {cs : Text} :
      c ≠ '\\' → c ≠ quote → c ≠ '\n' → IsLine quote cs → IsLine quote (c :: cs)

/-- What the scanner is in. -/
inductive Part where
  | characters
  | substitution
deriving DecidableEq, Repr

/-- The inside of a template or of a substitution, with the number of templates and substitutions
that are open at once in it. -/
inductive IsInside : Part → (depth : Nat) → Text → Prop where
  | nil {part : Part} : IsInside part 0 []
  | escape {depth : Nat} {c : Char} {cs : Text} :
      IsInside .characters depth cs → IsInside .characters depth ('\\' :: c :: cs)
  | char {depth : Nat} {c : Char} {cs : Text} :
      c ≠ '\\' → c ≠ '`' → (c = '$' → cs.head? ≠ some '{') → IsInside .characters depth cs →
      IsInside .characters depth (c :: cs)
  | substitution {inner outer : Nat} {us cs : Text} :
      IsInside .substitution inner us → IsInside .characters outer cs →
      IsInside .characters (max (inner + 1) outer) ('$' :: '{' :: us ++ '}' :: cs)
  | braces {inner outer : Nat} {us cs : Text} :
      IsInside .substitution inner us → IsInside .substitution outer cs →
      IsInside .substitution (max inner outer) ('{' :: us ++ '}' :: cs)
  | string {depth : Nat} {quote : Char} {us cs : Text} :
      isQuote quote = true → IsLine quote us → IsInside .substitution depth cs →
      IsInside .substitution depth (quote :: us ++ quote :: cs)
  | template {inner outer : Nat} {us cs : Text} :
      IsInside .characters inner us → IsInside .substitution outer cs →
      IsInside .substitution (max (inner + 1) outer) ('`' :: us ++ '`' :: cs)
  | other {depth : Nat} {c : Char} {cs : Text} :
      isQuote c = false → c ≠ '`' → c ≠ '{' → c ≠ '}' → IsInside .substitution depth cs →
      IsInside .substitution depth (c :: cs)

/-- A template with its backticks. The outermost template counts as open. -/
inductive IsTemplate : (depth : Nat) → Text → Prop where
  | mk {depth : Nat} {cs : Text} :
      IsInside .characters depth cs → IsTemplate (depth + 1) ('`' :: cs ++ ['`'])

/-! ### Steps -/

theorem template?_pass (stack : List Nat) (us rest : Text) :
    template? stack us.length (us ++ rest) = (template? stack 0 rest).map (· + us.length) := by
  induction us with
  | nil => exact Option.map_id'.symm
  | cons c us ih => rw [List.length_cons, List.cons_append, template?, ih, map_add_map_add]

theorem quotedInside_line {quote : Char} (hquote : isQuote quote = true) {us : Text}
    (h : IsLine quote us) (rest : Text) :
    quotedInside quote (us ++ quote :: rest) = us.length + 1 := by
  have hslash : '\\' ≠ quote := by
    rintro rfl
    cases hquote
  induction h with
  | nil =>
    rw [List.nil_append, quotedInside.eq_def]
    simp
  | @escape c us _ ih =>
    rw [List.cons_append, List.cons_append, quotedInside.eq_def]
    simp [hslash, ih]
  | @char c us hc hne hline _ ih =>
    rw [List.cons_append, quotedInside.eq_def]
    simp [hc, hne, hline, ih]

section Characters

variable (below : List Nat) (cs : Text)

theorem template?_escape (c : Char) :
    template? (0 :: below) 0 ('\\' :: c :: cs) = (template? (0 :: below) 0 cs).map (· + 2) := by
  rw [template?, if_pos (by rfl), template?, map_add_map_add]

theorem template?_char {c : Char} (hslash : c ≠ '\\') (htick : c ≠ '`')
    (hopen : c = '$' → cs.head? ≠ some '{') :
    template? (0 :: below) 0 (c :: cs) = (template? (0 :: below) 0 cs).map (· + 1) := by
  have hdollar : (c == '$' && cs.head? == some '{') = false := by
    rw [Bool.and_eq_false_imp]
    intro hc
    exact beq_eq_false_iff_ne.mpr (hopen (beq_iff_eq.mp hc))
  rw [template?, hdollar]
  simp [hslash, htick]

theorem template?_tick (entry : Nat) :
    template? (0 :: entry :: below) 0 ('`' :: cs) =
      (template? (entry :: below) 0 cs).map (· + 1) := rfl

theorem template?_open (hroom : below.length + 2 ≤ maxDepth) :
    template? (0 :: below) 0 ('$' :: '{' :: cs) =
      (template? (1 :: 0 :: below) 0 cs).map (· + 2) := by
  rw [template?, if_neg (by decide), if_neg (by decide), if_pos (by rfl),
    if_neg (Nat.not_lt.mpr hroom), template?, map_add_map_add]

/-- There is no room for another substitution. -/
theorem template?_open_full (hfull : below.length + 1 = maxDepth) :
    template? (0 :: below) 0 ('$' :: '{' :: cs) = none := by
  rw [template?, if_neg (by decide), if_neg (by decide), if_pos (by rfl), if_pos (by omega)]

end Characters

section Substitutions

variable (n : Nat) (below : List Nat) (cs : Text)

theorem template?_brace :
    template? ((n + 1) :: below) 0 ('{' :: cs) =
      (template? ((n + 2) :: below) 0 cs).map (· + 1) := rfl

theorem template?_closeBrace :
    template? ((n + 2) :: below) 0 ('}' :: cs) =
      (template? ((n + 1) :: below) 0 cs).map (· + 1) := rfl

theorem template?_close :
    template? (1 :: below) 0 ('}' :: cs) = (template? below 0 cs).map (· + 1) := rfl

theorem template?_string {quote : Char} (hquote : isQuote quote = true) {us : Text}
    (h : IsLine quote us) :
    template? ((n + 1) :: below) 0 (quote :: (us ++ quote :: cs)) =
      (template? ((n + 1) :: below) 0 cs).map (· + (us.length + 2)) := by
  have hpass := template?_pass ((n + 1) :: below) (us ++ [quote]) cs
  rw [List.append_assoc, List.singleton_append, List.length_append, List.length_singleton] at hpass
  have hscan : template? ((n + 1) :: below) 0 (quote :: (us ++ quote :: cs)) =
      (template? ((n + 1) :: below) (quotedInside quote (us ++ quote :: cs))
        (us ++ quote :: cs)).map (· + 1) := by
    obtain rfl | rfl : quote = '"' ∨ quote = '\'' := by simpa [isQuote] using hquote
    all_goals rfl
  rw [hscan, quotedInside_line hquote h, hpass, map_add_map_add]

theorem template?_nested (hroom : below.length + 2 ≤ maxDepth) :
    template? ((n + 1) :: below) 0 ('`' :: cs) =
      (template? (0 :: (n + 1) :: below) 0 cs).map (· + 1) := by
  rw [template?, if_neg (by decide), if_neg (by decide), if_pos (by rfl),
    if_neg (Nat.not_lt.mpr hroom)]

/-- There is no room for another template. -/
theorem template?_nested_full (hfull : below.length + 1 = maxDepth) :
    template? ((n + 1) :: below) 0 ('`' :: cs) = none := by
  rw [template?, if_neg (by decide), if_neg (by decide), if_pos (by rfl), if_pos (by omega)]

theorem template?_other {c : Char} (hquote : isQuote c = false) (htick : c ≠ '`') (hopen : c ≠ '{')
    (hclose : c ≠ '}') :
    template? ((n + 1) :: below) 0 (c :: cs) =
      (template? ((n + 1) :: below) 0 cs).map (· + 1) := by
  rw [isQuote] at hquote
  rw [template?, hquote]
  simp [htick, hopen, hclose]

end Substitutions

/-! ### Runs -/

/-- The entry of the stack says what the scanner is in. -/
def Part.Holds : Part → (entry : Nat) → Prop
  | .characters, entry => entry = 0
  | .substitution, entry => 0 < entry

/-- Scanning passes over the inside of a template or substitution with the stack as it was, if
there is room for what is opened in it. The induction is on the rules, for all stacks. -/
theorem template?_inside {part : Part} {depth : Nat} {cs : Text} (h : IsInside part depth cs)
    {entry room : Nat} {below : List Nat} {rest : Text} (hentry : part.Holds entry)
    (hroom : below.length + 1 + room = maxDepth) (hrest : rest.head? ≠ some '{') :
    template? (entry :: below) 0 (cs ++ rest) =
      capped depth room ((template? (entry :: below) 0 rest).map (· + cs.length)) := by
  induction h generalizing entry room below rest with
  | nil => rw [capped_zero, List.nil_append]; exact Option.map_id'.symm
  | @escape _ c cs _ ih =>
    obtain rfl := hentry
    rw [List.cons_append, List.cons_append, template?_escape, ih rfl hroom hrest, map_capped,
      map_add_map_add]
    rfl
  | @char _ c cs hslash htick hopen _ ih =>
    obtain rfl := hentry
    have hopen' : c = '$' → (cs ++ rest).head? ≠ some '{' := by
      cases cs with
      | nil => exact fun _ => hrest
      | cons d cs => exact hopen
    rw [List.cons_append, template?_char _ _ hslash htick hopen', ih rfl hroom hrest, map_capped,
      map_add_map_add]
    rfl
  | @substitution inner outer us cs _ _ ihinner ihouter =>
    obtain rfl := hentry
    have hlength : ('$' :: '{' :: us ++ '}' :: cs).length = cs.length + 1 + us.length + 2 := by
      simp only [List.length_append, List.length_cons]
      omega
    rw [List.append_assoc, List.cons_append, List.cons_append, List.cons_append]
    cases room with
    | zero =>
      rw [template?_open_full _ _ hroom, capped_max]
      rfl
    | succ room =>
      have hdeeper : (0 :: below).length + 1 + room = maxDepth := by
        rw [List.length_cons]
        omega
      rw [template?_open _ _ (by omega), ihinner Nat.one_pos hdeeper (by simp), template?_close,
        ihouter rfl hroom hrest, capped_max, capped_succ]
      simp only [map_capped, map_add_map_add, hlength, Nat.add_assoc]
  | @braces inner outer us cs _ _ ihinner ihouter =>
    obtain ⟨n, rfl⟩ := Nat.exists_eq_add_of_lt hentry
    have hlength : ('{' :: us ++ '}' :: cs).length = cs.length + 1 + us.length + 1 := by
      simp only [List.length_append, List.length_cons]
      omega
    rw [Nat.zero_add, List.append_assoc, List.cons_append, List.cons_append, template?_brace,
      ihinner (Nat.succ_pos _) hroom (by simp), template?_closeBrace,
      ihouter (Nat.succ_pos _) hroom hrest, capped_max]
    simp only [map_capped, map_add_map_add, hlength, Nat.add_assoc]
  | @string _ quote us cs hquote hline _ ih =>
    obtain ⟨n, rfl⟩ := Nat.exists_eq_add_of_lt hentry
    have hlength : (quote :: us ++ quote :: cs).length = cs.length + (us.length + 2) := by
      simp only [List.length_append, List.length_cons]
      omega
    rw [Nat.zero_add, List.append_assoc, List.cons_append, List.cons_append,
      template?_string _ _ _ hquote hline, ih (Nat.succ_pos _) hroom hrest, map_capped,
      map_add_map_add, hlength]
  | @template inner outer us cs _ _ ihinner ihouter =>
    obtain ⟨n, rfl⟩ := Nat.exists_eq_add_of_lt hentry
    have hlength : ('`' :: us ++ '`' :: cs).length = cs.length + 1 + us.length + 1 := by
      simp only [List.length_append, List.length_cons]
      omega
    rw [Nat.zero_add, List.append_assoc, List.cons_append, List.cons_append]
    cases room with
    | zero =>
      rw [template?_nested_full _ _ _ hroom, capped_max]
      rfl
    | succ room =>
      have hdeeper : ((n + 1) :: below).length + 1 + room = maxDepth := by
        rw [List.length_cons]
        omega
      rw [template?_nested _ _ _ (by omega), ihinner rfl hdeeper (by simp), template?_tick,
        ihouter (Nat.succ_pos _) hroom hrest, capped_max, capped_succ]
      simp only [map_capped, map_add_map_add, hlength, Nat.add_assoc]
  | @other _ c cs hquote htick hopen hclose _ ih =>
    obtain ⟨n, rfl⟩ := Nat.exists_eq_add_of_lt hentry
    rw [Nat.zero_add, List.cons_append, template?_other _ _ _ hquote htick hopen hclose,
      ih (Nat.succ_pos _) hroom hrest, map_capped, map_add_map_add]
    rfl

/-- The offset behind the template that starts at the given offset, unless too many templates and
substitutions are open at once in it. -/
def templateStop? (text : Text) (offset : Nat) : Option Nat :=
  (Text.dropBytes? offset text).bind fun cs =>
    (template? [0] 0 cs.tail).map fun n => offset + Text.width (cs.take (n + 1))

/-- The end of a well-formed template is found exactly, wherever it stands and whatever follows, if
at most 256 templates and substitutions are open at once in it; no end is found for a deeper one. -/
theorem templateStop?_template {depth : Nat} {t : Text} (h : IsTemplate depth t)
    (before after : Text) :
    templateStop? (before ++ t ++ after) (Text.width before) =
      if depth ≤ 256 then some (Text.width (before ++ t)) else none := by
  obtain @⟨depth, cs, hcs⟩ := h
  have hscan : template? [0] 0 (cs ++ '`' :: after) = capped depth 255 (some (cs.length + 1)) := by
    rw [@template?_inside _ _ _ hcs 0 255 [] ('`' :: after) rfl rfl (by simp)]
    exact congrArg (capped depth 255) (congrArg some (Nat.add_comm _ _))
  have htake : ('`' :: (cs ++ '`' :: after)).take (cs.length + 1 + 1) = '`' :: cs ++ ['`'] := by
    rw [List.append_cons, ← List.cons_append]
    exact List.take_left' (by simp)
  have hdrop : before ++ ('`' :: cs ++ ['`']) ++ after = before ++ '`' :: (cs ++ '`' :: after) := by
    simp
  rw [templateStop?, hdrop, Text.dropBytes?_width, Option.bind_some, List.tail_cons, hscan,
    map_capped, Option.map_some, htake, ← Text.width_append, ← capped_succ]
  rfl

/-- The template `t` inside `n` others. -/
def nested (t : Text) : Nat → Text
  | 0 => t
  | n + 1 =>
    ['`', '\\', '`', '$', '$', '{', '{', '\'', '}', '\'', '}'] ++ nested t n ++ ['}', '$', '`']

theorem isTemplate_nested {depth : Nat} {t : Text} (h : IsTemplate depth t) (n : Nat) :
    IsTemplate (depth + 2 * n) (nested t n) := by
  induction n with
  | zero => exact h
  | succ n ih =>
    obtain ⟨d, cs, hd, ht, hcs⟩ : ∃ d cs, depth + 2 * n = d + 1 ∧
        nested t n = '`' :: cs ++ ['`'] ∧ IsInside .characters d cs := by
      generalize depth + 2 * n = d at ih
      generalize nested t n = u at ih
      obtain @⟨d, cs, hcs⟩ := ih
      exact ⟨d, cs, rfl, rfl, hcs⟩
    have hstring : IsInside .substitution 0 ['\'', '}', '\''] :=
      .string rfl (.char (by decide) (by decide) (by decide) .nil) .nil
    have hinner : IsInside .substitution (d + 1) (['{', '\'', '}', '\'', '}'] ++ nested t n) := by
      have h := IsInside.braces hstring (.template hcs .nil)
      rwa [Nat.zero_max, Nat.max_zero, ← ht] at h
    have hdollar : IsInside .characters 0 ['$'] := .char (by decide) (by decide) (by simp) .nil
    have hbody := IsInside.substitution hinner hdollar
    rw [Nat.max_zero] at hbody
    have hcharacters : IsInside .characters (d + 1 + 1)
        (['\\', '`', '$', '$', '{', '{', '\'', '}', '\'', '}'] ++ nested t n ++ ['}', '$']) :=
      .escape (.char (by decide) (by decide) (by simp) hbody)
    have hdepth : depth + 2 * (n + 1) = d + 1 + 1 + 1 := by omega
    rw [hdepth, nested]
    simpa using IsTemplate.mk hcharacters

theorem templateStop?_template_limit :
    let two := ['`', '$', '{', '1', '}', '`']
    let one := ['`', '1', '`']
    IsTemplate 256 (nested two 127) ∧ IsTemplate 257 (nested one 128) ∧
      templateStop? (['é', '`'] ++ nested two 127 ++ ['}', '`']) 3 =
        some (Text.width (['é', '`'] ++ nested two 127)) ∧
      templateStop? (['é', '`'] ++ nested one 128 ++ ['}', '`']) 3 = none := by
  intro two one
  have hchar {part : Part} : IsInside part 0 ['1'] := by
    cases part with
    | characters => exact .char (by decide) (by decide) (by simp) .nil
    | substitution => exact .other rfl (by decide) (by decide) (by decide) .nil
  have htwo : IsTemplate 256 (nested two 127) :=
    isTemplate_nested (.mk (.substitution hchar .nil)) 127
  have hone : IsTemplate 257 (nested one 128) := isTemplate_nested (.mk hchar) 128
  exact ⟨htwo, hone, templateStop?_template htwo _ _, templateStop?_template hone _ _⟩

end Desugar.Literal
