import Desugar.Element

/-! Where literals end. A template that stops before the end of its text stops after a
backtick, and an element after a `>`; a regular expression ends with its slash or with
a flag. Whatever is copied as one literal therefore has no blank at its edges, unless
it runs to the end of the text. -/
namespace Desugar

open Unicode

namespace Text

/-- The first `n` characters are the whole text, or `c` is the last of them. -/
def Reaches (c : Char) (n : Nat) (cs : Text) : Prop := cs.length ≤ n ∨ (cs.take n).getLast? = some c

namespace Reaches

variable {c d : Char} {n : Nat} {cs : Text}

theorem succ (h : Reaches c n cs) : Reaches c (n + 1) (d :: cs) := by
  rcases h with h | h
  · exact .inl (Nat.succ_le_succ h)
  · refine .inr ?_
    rw [List.take_succ_cons, List.getLast?_cons, h]
    rfl

theorem of_map {x : Option Nat} (ih : ∀ m, x = some m → Reaches c m cs)
    (h : x.map (· + 1) = some n) :
    Reaches c n (d :: cs) := by
  obtain ⟨m, hm, rfl⟩ := Option.map_eq_some_iff.mp h
  exact (ih m hm).succ

theorem one : Reaches c 1 (c :: cs) := .inr (by simp)

theorem nil : Reaches c n [] := .inl (Nat.zero_le _)

end Reaches

/-- The first character is there and not blank. -/
def StartsFirm (s : Text) : Prop := ∃ c, s.head? = some c ∧ isBlank c = false

/-- The last character is there and not blank. -/
def EndsFirm (s : Text) : Prop := ∃ c, s.getLast? = some c ∧ isBlank c = false

/-- A text with no blank at its edges. -/
def Firm (s : Text) : Prop := StartsFirm s ∧ EndsFirm s

theorem StartsFirm.cons {c : Char} (h : isBlank c = false) (s : Text) :
    StartsFirm (c :: s) :=
  ⟨c, rfl, h⟩

theorem EndsFirm.cons {s : Text} (h : EndsFirm s) (c : Char) : EndsFirm (c :: s) := by
  obtain ⟨d, hd, hb⟩ := h
  exact ⟨d, by rw [List.getLast?_cons, hd]; rfl, hb⟩

theorem EndsFirm.singleton {c : Char} (h : isBlank c = false) : EndsFirm [c] := ⟨c, rfl, h⟩

theorem EndsFirm.of_forall {s : Text} (h : ∀ c ∈ s, isBlank c = false) (hs : s ≠ []) : EndsFirm s :=
  ⟨s.getLast hs, List.getLast?_eq_some_getLast hs, h _ (List.getLast_mem hs)⟩

/-- What a scan reaches ends firmly if the character it looks for is not blank. -/
theorem Reaches.endsFirm {c : Char} {n : Nat} {cs : Text} (h : Reaches c n cs)
    (hc : isBlank c = false) :
    cs.drop n = [] ∨ EndsFirm (cs.take n) := by
  rcases h with h | h
  · exact .inl (List.drop_eq_nil_of_le h)
  · exact .inr ⟨c, h, hc⟩

end Text

open Text

theorem toNat_of_alphanumeric {c : Char} (h : isAsciiAlphanumeric c = true) :
    48 ≤ c.toNat ∧ c.toNat < 128 := by
  change ((decide (c.val ≥ 65 ∧ c.val ≤ 90) || decide (c.val ≥ 97) && decide (c.val ≤ 122)) ||
    decide (c.val ≥ 48) && decide (c.val ≤ 57)) = true at h
  simp only [Bool.or_eq_true, Bool.and_eq_true, decide_eq_true_eq, UInt32.le_iff_toNat_le,
    ge_iff_le] at h
  change ((65 ≤ c.toNat ∧ c.toNat ≤ 90) ∨ (97 ≤ c.toNat ∧ c.toNat ≤ 122)) ∨
    (48 ≤ c.toNat ∧ c.toNat ≤ 57) at h
  omega

theorem isBlank_eq_false_of_alphanumeric {c : Char} (h : isAsciiAlphanumeric c = true) :
    isBlank c = false := by
  have hn := toNat_of_alphanumeric h
  have hs : (c == ' ') = false := by
    rw [beq_eq_false_iff_ne]
    rintro rfl
    simp at hn
  simp only [isBlank, hs, isAscii, Bool.or_eq_false_iff, Bool.and_eq_false_iff,
    decide_eq_false_iff_not, Bool.false_or,
    Bool.not_eq_false', decide_eq_true_eq]
  omega

namespace Literal

theorem reaches_through (c : Char) (cs : Text) : Reaches c (through c cs) cs := by
  induction cs with
  | nil => exact .nil
  | cons d cs ih =>
    unfold through
    split
    next h =>
      rw [beq_iff_eq] at h
      subst h
      exact .one
    next => exact ih.succ

/-- At the bottom of the stack lies the template that was begun first. -/
def Rooted (stack : List Nat) : Prop := stack.getLast? = some 0

theorem Rooted.push {stack : List Nat} (h : Rooted stack) (k : Nat) : Rooted (k :: stack) := by
  unfold Rooted at *
  rw [List.getLast?_cons, h]
  rfl

theorem Rooted.pop {k : Nat} {stack : List Nat} (h : Rooted (k :: stack))
    (hk : stack ≠ [] ∨ k ≠ 0) :
    Rooted stack := by
  unfold Rooted at *
  cases stack with
  | nil => simp_all
  | cons j stack => simpa using h

/-- Only the backtick that closes the first template ends the scan early. -/
theorem reaches_template {stack : List Nat} {skip n : Nat} {cs : Text} (hs : Rooted stack)
    (h : template? stack skip cs = some n) : Reaches '`' n cs := by
  fun_induction template? stack skip cs generalizing n with
  | case1 => exact .nil
  | case2 stack skip c cs ih => exact .of_map (fun m => ih hs) h
  | case3 => cases hs
  | case4 below c cs _ ih => exact .of_map (fun m => ih hs) h
  | case5 below c cs _ hc hb =>
    rw [beq_iff_eq] at hc
    subst hc
    cases h
    exact .one
  | case6 below c cs _ _ hb ih =>
    rw [List.isEmpty_iff] at hb
    exact .of_map (fun m => ih (hs.pop (.inl hb))) h
  | case7 => cases h
  | case8 below c cs _ _ _ _ ih => exact .of_map (fun m => ih (hs.push 1)) h
  | case9 below c cs _ _ _ ih => exact .of_map (fun m => ih hs) h
  | case10 braces below c cs _ ih =>
    exact .of_map (fun m => ih ((hs.pop (.inr (Nat.succ_ne_zero _))).push _)) h
  | case11 below c cs _ _ ih => exact .of_map (fun m => ih (hs.pop (.inr (Nat.succ_ne_zero _)))) h
  | case12 braces below c cs _ _ _ ih =>
    exact .of_map (fun m => ih ((hs.pop (.inr (Nat.succ_ne_zero _))).push _)) h
  | case13 => cases h
  | case14 braces below c cs _ _ _ _ ih => exact .of_map (fun m => ih (hs.push 0)) h
  | case15 braces below c cs _ _ _ _ ih => exact .of_map (fun m => ih hs) h
  | case16 braces below c cs _ _ _ _ ih => exact .of_map (fun m => ih hs) h

theorem take_flags (cs : Text) :
    cs.take (flags cs) = cs.takeWhile fun c => isAsciiAlphanumeric c || c == '_' :=
  (List.prefix_iff_eq_take.mp (List.takeWhile_prefix _)).symm

theorem isBlank_of_mem_flags {cs : Text} {c : Char} (h : c ∈ cs.take (flags cs)) :
    isBlank c = false := by
  rw [take_flags] at h
  have hc := List.all_eq_true.mp List.all_takeWhile c h
  rw [Bool.or_eq_true, beq_iff_eq] at hc
  rcases hc with hc | rfl
  · exact isBlank_eq_false_of_alphanumeric hc
  · decide

/-- A regular expression ends with its slash or a flag. -/
theorem endsFirm_regex {inClass : Bool} {n : Nat} {cs : Text} (h : regex? inClass cs = some n) :
    EndsFirm (cs.take n) := by
  fun_induction regex? inClass cs generalizing n with
  | case1 => cases h
  | case2 => cases h
  | case3 => cases h
  | case4 inClass c _ _ d cs ih =>
    obtain ⟨m, hm, rfl⟩ := Option.map_eq_some_iff.mp h
    exact ((ih hm).cons d).cons c
  | case5 inClass c cs _ _ _ ih =>
    obtain ⟨m, hm, rfl⟩ := Option.map_eq_some_iff.mp h
    exact (ih hm).cons c
  | case6 inClass c cs _ _ _ _ ih =>
    obtain ⟨m, hm, rfl⟩ := Option.map_eq_some_iff.mp h
    exact (ih hm).cons c
  | case7 inClass c cs _ _ _ _ hc =>
    cases h
    simp only [Bool.and_eq_true, beq_iff_eq] at hc
    rw [hc.1, List.take_succ_cons]
    refine EndsFirm.of_forall (fun d hd => ?_) (List.cons_ne_nil _ _)
    rcases List.mem_cons.mp hd with rfl | hd
    · decide
    · exact isBlank_of_mem_flags hd
  | case8 inClass c cs _ _ _ _ _ ih =>
    obtain ⟨m, hm, rfl⟩ := Option.map_eq_some_iff.mp h
    exact (ih hm).cons c

/-- Is this the rest of a quoted string after its opening quote, up to a closing quote
that no backslash hides? -/
def isClosed (quote : Char) : Text → Bool
  | [] => false
  | c :: cs =>
    if c == '\\' then
      match cs with
      | [] => false
      | d :: ds => d != '\n' && isClosed quote ds
    else if c == '\n' then false
    else if c == quote then cs.isEmpty
    else isClosed quote cs

theorem endsFirm_of_isClosed {quote : Char} {cs : Text} (hq : isBlank quote = false)
    (h : isClosed quote cs = true) : EndsFirm cs := by
  fun_induction isClosed quote cs with
  | case1 => cases h
  | case2 => cases h
  | case3 c _ d cs ih =>
    rw [Bool.and_eq_true] at h
    exact ((ih h.2).cons d).cons c
  | case4 => cases h
  | case5 c cs _ _ hc =>
    rw [beq_iff_eq] at hc
    rw [List.isEmpty_iff] at h
    rw [h, hc]
    exact .singleton hq
  | case6 c cs _ _ _ ih => exact (ih h).cons c

end Literal

namespace Element

variable {container? : Text → Option Nat}

theorem reaches_openTag {skip n : Nat} {closes : Bool} {cs : Text}
    (h : openTag? container? skip cs = some (n, closes)) : Reaches '>' n cs := by
  fun_induction openTag? container? skip cs generalizing n closes with
  | case1 => exact .nil
  | case2 skip c cs ih =>
    obtain ⟨⟨m, b⟩, hm, he⟩ := Option.map_eq_some_iff.mp h
    cases he
    exact (ih hm).succ
  | case3 c cs _ ih =>
    obtain ⟨⟨m, b⟩, hm, he⟩ := Option.map_eq_some_iff.mp h
    cases he
    exact (ih hm).succ
  | case4 => cases h
  | case5 c cs _ _ k _ ih =>
    obtain ⟨⟨m, b⟩, hm, he⟩ := Option.map_eq_some_iff.mp h
    cases he
    exact (ih hm).succ
  | case6 c cs _ _ hc =>
    cases h
    simp only [Bool.and_eq_true, beq_iff_eq] at hc
    cases cs with
    | nil => cases hc.2
    | cons d cs =>
      cases hc.2
      exact Reaches.one.succ
  | case7 c cs _ _ _ hc =>
    cases h
    rw [beq_iff_eq] at hc
    subst hc
    exact .one
  | case8 c cs _ _ _ _ ih =>
    obtain ⟨⟨m, b⟩, hm, he⟩ := Option.map_eq_some_iff.mp h
    cases he
    exact (ih hm).succ

/-- Inside a tag, or at the start of one, the run of tags ends with a `>`. -/
theorem reaches_tags {depth skip n : Nat} {cs : Text}
    (hd : 0 < depth ∨ skip = 0 ∧ isTagStart cs = true)
    (h : tags? container? depth skip cs = some n) : Reaches '>' n cs := by
  fun_induction tags? container? depth skip cs generalizing n with
  | case1 => exact .nil
  | case2 depth skip c cs ih =>
    have hp : 0 < depth := hd.resolve_right fun hz => absurd hz.1 (Nat.succ_ne_zero _)
    exact .of_map (fun m => ih (.inl hp)) h
  | case3 depth c cs _ hc _ =>
    cases cs with
    | nil => cases hc
    | cons d cs =>
      cases h
      exact (Literal.reaches_through '>' cs).succ.succ
  | case4 depth c cs _ _ k hk =>
    rename_i ih
    exact .of_map (fun m => ih (.inl (by omega))) h
  | case5 => cases h
  | case6 c cs _ _ k hk =>
    cases h
    exact (reaches_openTag hk).succ
  | case7 depth c cs _ _ k _ hp ih => exact .of_map (fun m => ih (.inl (Nat.pos_of_ne_zero hp))) h
  | case8 depth c cs _ _ k _ ih => exact .of_map (fun m => ih (.inl (Nat.succ_pos _))) h
  | case9 c cs hs => simp [hs] at hd
  | case10 => cases h
  | case11 depth c cs _ hp _ k _ ih => exact .of_map (fun m => ih (.inl (Nat.pos_of_ne_zero hp))) h
  | case12 depth c cs _ hp _ ih => exact .of_map (fun m => ih (.inl (Nat.pos_of_ne_zero hp))) h

/-- An element that is not cut off ends with a `>`. -/
theorem reaches_length {n : Nat} {cs : Text} (hs : isTagStart cs = true) (h : length? cs = some n) :
    Reaches '>' n cs := by
  unfold length? Literal.maxDepth at h
  simp only [element?] at h
  exact reaches_tags (.inr ⟨rfl, hs⟩) h

end Element

end Desugar
