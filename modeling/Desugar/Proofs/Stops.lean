import Desugar.Proofs.Cursors
import Desugar.Proofs.Junctions
import Desugar.Proofs.Lines
import Desugar.Proofs.Slice

/-! Where a scan of an element stops. The cursor over bytes and the scanner over characters stop
at the same place, so the cursor never reads beyond the end, never closes a brace that is not
open and is never stuck; the number of bytes bounds the rounds of all its loops. Each loop gets
three lemmas before that: what it does at a high byte, at a character and at the end. The stop
is one that a tokenizer can go on from, and every element in a list of tokens ends there. -/
namespace Desugar

open Text

namespace Element.Cursor

open Unicode Literal

/-! ### Strings and comments -/

section Quotes

variable {text : Text} {quote : Char}

theorem pastQuote_high (hq : quote.toNat < 128) (rounds i : Nat) (b : UInt8)
    (hat : (bytes text)[i]? = some b) (hb : 128 ≤ b.toNat) :
    pastQuote (bytes text) quote.toUInt8 (rounds + 1) i =
      pastQuote (bytes text) quote.toUInt8 rounds (i + 1) := by
  have hlt := (List.getElem?_eq_some_iff.mp hat).1
  rw [pastQuote, if_pos hlt, byteAt, hat]
  exact (if_neg (ne_of_high (by decide) hb)).trans (if_neg (ne_of_high hq hb))

theorem pastQuote_at (hq : quote.toNat < 128) {front cs : Text} {c : Char}
    (htext : text = front ++ c :: cs) (rounds : Nat) :
    pastQuote (bytes text) quote.toUInt8 (rounds + 1) (width front) =
      if c = '\\' then pastQuote (bytes text) quote.toUInt8 rounds (width front + 2)
      else if c = quote then .ok (width front + 1)
      else pastQuote (bytes text) quote.toUInt8 rounds (width front + 1) := by
  obtain ⟨b, hb, hat, hlt⟩ := byteAt_eq htext
  have hslash := mem_encode_eq_iff hb (show '\\'.toNat < 128 by decide)
  have hquote := mem_encode_eq_iff hb hq
  rw [pastQuote, if_pos hlt, hat]
  simp only [← hslash, ← hquote]
  rfl

theorem pastQuote_end (b : UInt8) {rounds i : Nat} (hrounds : 0 < rounds) (hi : width text ≤ i) :
    pastQuote (bytes text) b rounds i = .ok (width text) := by
  obtain ⟨r, rfl⟩ := Nat.exists_eq_add_one.mpr hrounds
  rw [pastQuote, if_neg (by rw [length_bytes]; omega), length_bytes]
  rfl

theorem pastQuote_eq (hq : quote.toNat < 128) (rest : Text) {front : Text} {rounds : Nat}
    (htext : text = front ++ rest) (hrounds : width rest < rounds) :
    pastQuote (bytes text) quote.toUInt8 rounds (width front) =
      .ok (width front + width (rest.take (throughQuote quote rest))) := by
  fun_induction throughQuote quote rest generalizing front rounds with
  | case1 =>
    rw [List.append_nil] at htext
    rw [htext, pastQuote_end _ hrounds (Nat.le_refl _)]
    rfl
  | case2 c hc =>
    obtain ⟨r, rfl⟩ := Nat.exists_eq_add_one.mpr (Nat.zero_lt_of_lt hrounds)
    cases beq_iff_eq.mp hc
    have hwidth : width text = width front + 1 := by rw [htext, width_append]; rfl
    have hone : width ['\\'] = 1 := rfl
    rw [pastQuote_at hq htext, if_pos rfl, pastQuote_end _ (by omega) (by omega), hwidth]
    rfl
  | case3 c hc d ds ih =>
    obtain ⟨r, rfl⟩ := Nat.exists_eq_add_one.mpr (Nat.zero_lt_of_lt hrounds)
    cases beq_iff_eq.mp hc
    have hone : width (front ++ ['\\']) = width front + 1 := width_append front ['\\']
    rw [List.append_cons] at htext
    have hlater : width (d :: ds) ≤ r := by
      rw [width_cons] at hrounds
      omega
    obtain ⟨k, hk, heq⟩ := exists_rounds (pastQuote _ _) (pastQuote_high hq) htext hlater
    rw [hone] at heq
    rw [pastQuote_at hq (htext.trans (List.append_cons ..).symm), if_pos rfl, heq,
      ih (htext.trans (List.append_cons ..)) hk]
    simp [Nat.add_assoc]
  | case4 c cs hc heq =>
    obtain ⟨r, rfl⟩ := Nat.exists_eq_add_one.mpr (Nat.zero_lt_of_lt hrounds)
    cases beq_iff_eq.mp heq
    rw [pastQuote_at hq htext, if_neg (by simpa using hc), if_pos rfl, List.take_succ_cons,
      List.take_zero, width_cons, utf8Size_eq_one_iff.mpr hq]
    rfl
  | case5 c cs hc hne ih =>
    obtain ⟨r, rfl⟩ := Nat.exists_eq_add_one.mpr (Nat.zero_lt_of_lt hrounds)
    obtain ⟨k, hk, heq⟩ := exists_rounds (pastQuote _ _) (pastQuote_high hq) htext
      (Nat.le_of_lt_succ hrounds)
    rw [pastQuote_at hq htext, if_neg (by simpa using hc), if_neg (by simpa using hne), heq,
      ih (htext.trans (List.append_cons ..)) hk]
    simp [Nat.add_assoc]

end Quotes

theorem pastString_eq {text front cs : Text} {limit : Nat} {c : Char}
    (htext : text = front ++ c :: cs) (hc : c.toNat < 128) (hlimit : width text < limit) :
    pastString (bytes text) limit (width front) =
      .ok (width (front ++ c :: cs.take (throughQuote c cs))) := by
  obtain ⟨b, hb, hat, hlt⟩ := byteAt_eq htext
  have hsize := utf8Size_eq_one_iff.mpr hc
  have hwidth : width text = width front + (c.utf8Size + width cs) := by
    rw [htext, width_append, width_cons]
  have hquote := pastQuote_eq hc cs (htext.trans (List.append_cons ..))
    (Nat.lt_of_le_of_lt (by omega) hlimit)
  rw [width_append, width_cons, width_nil, hsize, ← (mem_encode_eq_iff hb hc).mpr rfl] at hquote
  rw [pastString, hat, width_append, width_cons, hsize, ← Nat.add_assoc]
  exact hquote

theorem idxOf?_bytes {d : Char} (hd : d.toNat < 128) (rest : Text) :
    ((bytes rest).idxOf? d.toUInt8).elim (width rest) (· + 1) =
      width (rest.take (through d rest)) := by
  induction rest with
  | nil => rfl
  | cons c cs ih =>
    rw [through]
    by_cases hc : c = d
    · subst hc
      rw [bytes_cons, encode_ascii hd, if_pos (beq_self_eq_true c), List.take_succ_cons,
        List.take_zero, width_cons, width_cons, utf8Size_eq_one_iff.mpr hd, List.singleton_append,
        List.idxOf?, List.findIdx?_cons, beq_self_eq_true]
      rfl
    · have hnone : (String.utf8EncodeChar c).findIdx? (· == d.toUInt8) = none := by
        rw [List.findIdx?_eq_none_iff]
        intro b hb
        exact beq_eq_false_iff_ne.mpr fun h => hc ((mem_encode_eq_iff hb hd).mp h)
      rw [if_neg (by simpa using hc), List.take_succ_cons, width_cons, width_cons, ← ih, bytes_cons,
        List.idxOf?, List.findIdx?_append, hnone, Option.none_or, String.length_utf8EncodeChar]
      change _ = c.utf8Size + ((bytes cs).findIdx? (· == d.toUInt8)).elim _ _
      cases (bytes cs).findIdx? (· == d.toUInt8) with
      | none => rfl
      | some n => simp only [Option.map_some, Option.elim_some]; omega

theorem past_eq {text front rest : Text} {d : Char} (htext : text = front ++ rest)
    (hd : d.toNat < 128) :
    past (bytes text) d.toUInt8 (width front) = width (front ++ rest.take (through d rest)) := by
  rw [past, htext, drop_bytes, length_bytes, width_append, width_append, ← idxOf?_bytes hd]
  cases (bytes rest).idxOf? d.toUInt8 with
  | none => rfl
  | some n => exact Nat.add_assoc ..

theorem commentEnd?_pass {bs : List UInt8} (h : '*'.toUInt8 ∉ bs) (rest : List UInt8) :
    commentEnd? (bs ++ rest) = (commentEnd? rest).map (· + bs.length) := by
  induction bs with
  | nil => exact Option.map_id'.symm
  | cons b bs ih =>
    rw [List.mem_cons, not_or] at h
    rw [List.cons_append, commentEnd?, if_neg fun hb => h.1 hb.1.symm, ih h.2, map_add_map_add]
    rfl

theorem commentEnd?_bytes_cons (c : Char) (cs : Text) :
    commentEnd? (bytes (c :: cs)) =
      if c = '*' ∧ cs.head? = some '/' then some 0
      else (commentEnd? (bytes cs)).map (· + c.utf8Size) := by
  rw [bytes_cons]
  by_cases hc : c = '*'
  · subst hc
    have hnext := head?_bytes_eq_iff cs (show '/'.toNat < 128 by decide)
    rw [encode_ascii (by decide), List.singleton_append, commentEnd?]
    simp only [hnext, true_and]
    rfl
  · have hstar : '*'.toUInt8 ∉ String.utf8EncodeChar c := fun hmem =>
      hc ((mem_encode_eq_iff hmem (by decide)).mp rfl)
    rw [commentEnd?_pass hstar, String.length_utf8EncodeChar, if_neg fun h => hc h.1]

theorem commentEnd?_bytes (rest : Text) :
    (commentEnd? (bytes rest)).elim (width rest) (· + 2) =
      width (rest.take (throughComment rest)) := by
  fun_induction throughComment rest with
  | case1 => rfl
  | case2 c =>
    rw [commentEnd?_bytes_cons, if_neg (by simp)]
    rfl
  | case3 c d ds h =>
    obtain ⟨rfl, rfl⟩ : c = '*' ∧ d = '/' := by simpa using h
    rfl
  | case4 c d ds h ih =>
    rw [commentEnd?_bytes_cons, if_neg (by simpa using h), List.take_succ_cons, width_cons,
      width_cons c, ← ih]
    cases commentEnd? (bytes (d :: ds)) with
    | none => rfl
    | some n => simp only [Option.map_some, Option.elim_some]; omega

theorem pastComment_eq {text front rest : Text} (htext : text = front ++ rest) :
    pastComment (bytes text) (width front) =
      .ok (width (front ++ rest.take (throughComment rest))) := by
  have hle : width front ≤ (bytes text).length := by
    rw [length_bytes, htext, width_append]
    omega
  rw [pastComment, behind, if_pos hle, htext, drop_bytes, length_bytes, width_append, width_append,
    ← commentEnd?_bytes]
  change Except.ok _ = _
  cases commentEnd? (bytes rest) with
  | none => rfl
  | some n => exact congrArg Except.ok (Nat.add_assoc ..)

/-! ### Outcomes as offsets -/

/-- The outcome of scanning `rest` behind `front`, as an offset. -/
def stopped (front rest : Text) (x : Option Nat) : Except Halt Nat :=
  orHalt .tooDeep (x.map fun n => width (front ++ rest.take n))

/-- The same for a tag. -/
def tagged (front rest : Text) (x : Option (Nat × Bool)) : Except Halt (Nat × Bool) :=
  orHalt .tooDeep (x.map fun r => (width (front ++ rest.take r.1), r.2))

section Outcomes

variable (front : Text) (c : Char) (cs : Text) (n : Nat)

theorem take_skipped (m : Nat) :
    front ++ (c :: cs).take (m + (cs.take n).length + 1) =
      front ++ c :: cs.take n ++ (cs.drop n).take m := by
  have hcs : (cs.take n ++ cs.drop n).take ((cs.take n).length + m) =
      cs.take n ++ (cs.drop n).take m := List.take_length_add_append m
  rw [List.take_append_drop, Nat.add_comm] at hcs
  rw [List.take_succ_cons, hcs, List.append_assoc, List.cons_append]

theorem stopped_skip (x : Option Nat) :
    stopped front (c :: cs) ((x.map (· + (cs.take n).length)).map (· + 1)) =
      stopped (front ++ c :: cs.take n) (cs.drop n) x := by
  cases x with
  | none => rfl
  | some m => exact congrArg (Except.ok ∘ width) (take_skipped front c cs n m)

theorem tagged_skip (x : Option (Nat × Bool)) :
    tagged front (c :: cs) ((x.map (ahead (cs.take n).length)).map (ahead 1)) =
      tagged (front ++ c :: cs.take n) (cs.drop n) x := by
  cases x with
  | none => rfl
  | some r =>
    exact congrArg (fun s => Except.ok (width s, r.2)) (take_skipped front c cs n r.1)

theorem stopped_step (x : Option Nat) :
    stopped front (c :: cs) (x.map (· + 1)) = stopped (front ++ [c]) cs x := by
  simpa using stopped_skip front c cs 0 x

theorem tagged_step (x : Option (Nat × Bool)) :
    tagged front (c :: cs) (x.map (ahead 1)) = tagged (front ++ [c]) cs x := by
  have hskip := tagged_skip front c cs 0 x
  rwa [List.take_zero, List.drop_zero, map_ahead_map_ahead] at hskip

end Outcomes

section Skips

variable (scan : Text → Option Nat) (n : Nat) (cs : Text)

theorem openTag?_skip :
    openTag? scan n cs = (openTag? scan 0 (cs.drop n)).map (ahead (cs.take n).length) := by
  induction cs generalizing n with
  | nil => cases n <;> rfl
  | cons c cs ih =>
    cases n with
    | zero => exact Option.map_id'.symm
    | succ n =>
      rw [openTag?, ih, List.drop_succ_cons, List.take_succ_cons, List.length_cons]
      exact map_ahead_map_ahead _ _ 1

theorem tags?_skip (depth : Nat) :
    tags? scan depth n cs = (tags? scan depth 0 (cs.drop n)).map (· + (cs.take n).length) := by
  induction cs generalizing n with
  | nil => cases n <;> rfl
  | cons c cs ih =>
    cases n with
    | zero => exact Option.map_id'.symm
    | succ n =>
      rw [tags?, ih, List.drop_succ_cons, List.take_succ_cons, List.length_cons, map_add_map_add]

theorem braces?_skip (depth : Nat) (last : Char) :
    braces? scan depth (some last) n cs =
      (braces? scan depth (some (lastVisible last (cs.take n))) 0 (cs.drop n)).map
        (· + (cs.take n).length) := by
  induction cs generalizing n last with
  | nil => cases n <;> rfl
  | cons c cs ih =>
    cases n with
    | zero => exact Option.map_id'.symm
    | succ n =>
      rw [braces?, ← apply_ite some, ih, List.drop_succ_cons, List.take_succ_cons,
        List.length_cons, map_add_map_add, lastVisible]

end Skips

/-- The cursor goes where a scan of characters says, from every place at which `P` holds. -/
structure Follows (text : Text) (P : Text → Prop) (scan : Nat → Except Halt Nat)
    (scan? : Text → Option Nat) : Prop where
  eq_stopped : ∀ front rest, text = front ++ rest → P rest →
    scan (width front) = stopped front rest (scan? rest)
  ne_zero : ∀ rest, P rest → scan? rest ≠ some 0

/-- Both fail, or both go behind the first character at least. -/
theorem Follows.fails_or_moves {text front cs : Text} {c : Char} {P : Text → Prop}
    {scan : Nat → Except Halt Nat} {scan? : Text → Option Nat} (h : Follows text P scan scan?)
    (htext : text = front ++ c :: cs) (hP : P (c :: cs)) :
    scan? (c :: cs) = none ∧ scan (width front) = .error .tooDeep ∨
      ∃ n, scan? (c :: cs) = some (n + 1) ∧
        scan (width front) = .ok (width (front ++ c :: cs.take n)) := by
  rw [h.eq_stopped front _ htext hP]
  cases hscan : scan? (c :: cs) with
  | none => exact .inl ⟨rfl, rfl⟩
  | some n =>
    obtain ⟨m, rfl⟩ := Nat.exists_eq_succ_of_ne_zero fun h0 => h.ne_zero _ hP (h0 ▸ hscan)
    exact .inr ⟨m, rfl, rfl⟩

/-! ### Opening tags -/

theorem isQuote_eq (c : Char) : isQuote c = ['"', '\''].contains c := by
  simp only [isQuote, List.contains_cons, List.contains_nil, Bool.or_false]

theorem pair_iff {text front cs : Text} {c x y : Char} {b : UInt8}
    (htext : text = front ++ c :: cs) (hb : b ∈ String.utf8EncodeChar c) (hx : x.toNat < 128)
    (hy : y.toNat < 128) :
    b = x.toUInt8 ∧ (bytes text)[width front + 1]? = some y.toUInt8 ↔
      c = x ∧ cs.head? = some y := by
  rw [mem_encode_eq_iff hb hx]
  refine and_congr_right ?_
  rintro rfl
  exact getElem?_succ_eq_iff htext hx hy

theorem among_high {signs : Text} (hsigns : signs.all fun d => d.toNat < 128) {b : UInt8}
    (hb : 128 ≤ b.toNat) : among signs b = false := by
  rw [among, List.any_eq_false]
  intro d hd
  rw [beq_iff_eq]
  exact ne_of_high (by simpa using List.all_eq_true.mp hsigns d hd) hb

section Rest

variable {text front cs : Text} {c : Char} (n : Nat)

theorem split_skip (htext : text = front ++ c :: cs) :
    text = front ++ c :: cs.take n ++ cs.drop n := by
  rw [htext, List.append_assoc, List.cons_append, List.take_append_drop]

theorem length_skip_lt : (cs.drop n).length < (c :: cs).length := by
  rw [List.length_drop, List.length_cons]
  omega

theorem width_skip_lt {rounds : Nat} (hrounds : width (c :: cs) < rounds + 1) :
    width (cs.drop n) < rounds := by
  have hpos := c.utf8Size_pos
  have hsplit := width_append (cs.take n) (cs.drop n)
  rw [List.take_append_drop] at hsplit
  rw [width_cons] at hrounds
  omega

end Rest

section OpenTag

variable {text : Text} {limit : Nat} {container : Nat → Except Halt Nat}

theorem openTag_high (rounds i : Nat) (b : UInt8) (hat : (bytes text)[i]? = some b)
    (hb : 128 ≤ b.toNat) :
    openTag (bytes text) limit container (rounds + 1) i =
      openTag (bytes text) limit container rounds (i + 1) := by
  have hlt := (List.getElem?_eq_some_iff.mp hat).1
  have hquote : ¬ among ['"', '\''] b = true := by
    rw [among_high (by decide) hb]
    exact Bool.false_ne_true
  rw [openTag, if_pos hlt, byteAt, hat]
  exact (if_neg hquote).trans <| (if_neg (ne_of_high (by decide) hb)).trans <|
    (if_neg fun h => ne_of_high (by decide) hb h.1).trans (if_neg (ne_of_high (by decide) hb))

theorem openTag_at {front cs : Text} {c : Char} (htext : text = front ++ c :: cs) (rounds : Nat) :
    openTag (bytes text) limit container (rounds + 1) (width front) =
      if isQuote c then
        pastString (bytes text) limit (width front) >>= openTag (bytes text) limit container rounds
      else if c = '{' then
        container (width front) >>= openTag (bytes text) limit container rounds
      else if c = '/' ∧ cs.head? = some '>' then .ok (width front + 2, true)
      else if c = '>' then .ok (width front + 1, false)
      else openTag (bytes text) limit container rounds (width front + 1) := by
  obtain ⟨b, hb, hat, hlt⟩ := byteAt_eq htext
  have hbrace := mem_encode_eq_iff hb (show '{'.toNat < 128 by decide)
  have hend := mem_encode_eq_iff hb (show '>'.toNat < 128 by decide)
  have hself := pair_iff htext hb (show '/'.toNat < 128 by decide) (show '>'.toNat < 128 by decide)
  rw [openTag, if_pos hlt, hat, isQuote_eq, ← among_eq (by decide) hb]
  simp only [← hbrace, ← hend, ← hself]
  rfl

theorem openTag_end {rounds i : Nat} (hrounds : 0 < rounds) (hi : width text ≤ i) :
    openTag (bytes text) limit container rounds i = .ok (width text, false) := by
  obtain ⟨r, rfl⟩ := Nat.exists_eq_add_one.mpr hrounds
  rw [openTag, if_neg (by rw [length_bytes]; omega), length_bytes]
  rfl

variable {container? : Text → Option Nat}

theorem openTag_eq (hcontainer : Follows text (·.head? = some '{') container container?)
    (hlimit : width text < limit) (rest : Text) {front : Text} {rounds : Nat}
    (htext : text = front ++ rest) (hrounds : width rest < rounds) :
    openTag (bytes text) limit container rounds (width front) =
      tagged front rest (openTag? container? 0 rest) := by
  induction h : rest.length using Nat.strongRecOn generalizing rest front rounds with
  | ind size ih =>
    subst h
    obtain ⟨r, rfl⟩ := Nat.exists_eq_add_one.mpr (Nat.zero_lt_of_lt hrounds)
    cases rest with
    | nil =>
      rw [List.append_nil] at htext
      subst htext
      rw [openTag_end r.succ_pos (Nat.le_refl _)]
      simp [tagged, openTag?, orHalt]
    | cons c cs =>
      -- behind a part of the tag the scan goes on
      have hjump (n : Nat) :
          openTag (bytes text) limit container r (width (front ++ c :: cs.take n)) =
            tagged front (c :: cs) ((openTag? container? n cs).map (ahead 1)) := by
        rw [openTag?_skip, tagged_skip]
        exact ih _ (length_skip_lt n) _ (split_skip n htext) (width_skip_lt n hrounds) rfl
      rw [openTag_at htext, openTag?]
      simp only [beq_iff_eq, Bool.and_eq_true]
      by_cases hquote : isQuote c = true
      · have hascii := ascii_of_contains (by decide) ((isQuote_eq c).symm.trans hquote)
        rw [if_pos hquote, if_pos hquote, pastString_eq htext hascii hlimit]
        exact hjump _
      by_cases hbrace : c = '{'
      · subst hbrace
        rw [if_neg hquote, if_neg hquote, if_pos rfl, if_pos rfl]
        obtain ⟨hscan, hstop⟩ | ⟨n, hscan, hstop⟩ := hcontainer.fails_or_moves htext rfl
        · rw [hscan, hstop]
          rfl
        · rw [hscan, hstop]
          exact hjump n
      rw [if_neg hquote, if_neg hquote, if_neg hbrace, if_neg hbrace]
      by_cases hself : c = '/' ∧ cs.head? = some '>'
      · obtain ⟨rfl, hnext⟩ := hself
        obtain ⟨ds, rfl⟩ := List.head?_eq_some_iff.mp hnext
        rw [if_pos ⟨rfl, rfl⟩, if_pos ⟨rfl, rfl⟩]
        exact congrArg (fun n => Except.ok (n, true)) (width_append front ['/', '>']).symm
      rw [if_neg hself, if_neg hself]
      by_cases hend : c = '>'
      · subst hend
        rw [if_pos rfl, if_pos rfl]
        exact congrArg (fun n => Except.ok (n, false)) (width_append front ['>']).symm
      · obtain ⟨k, hk, heq⟩ := exists_rounds (openTag _ _ _) openTag_high htext
          (Nat.le_of_lt_succ hrounds)
        rw [if_neg hend, if_neg hend, heq,
          ih cs.length (Nat.lt_succ_self _) cs (htext.trans (List.append_cons ..)) hk rfl]
        exact (tagged_step front c cs _).symm

end OpenTag

/-! ### Tags and what stands between them -/

theorem exists_of_isTagStart {rest : Text} (h : Element.isTagStart rest = true) :
    ∃ d ds, rest = '<' :: d :: ds := by
  unfold Element.isTagStart at h
  split at h
  next d ds => exact ⟨d, ds, rfl⟩
  next => cases h

theorem isTagStart_high {bytes : List UInt8} {i : Nat} {b : UInt8} (hat : bytes[i]? = some b)
    (hb : 128 ≤ b.toNat) : isTagStart bytes i = false := by
  have hne : bytes[i]? ≠ some '<'.toUInt8 := by
    rw [hat]
    exact fun h => ne_of_high (by decide) hb (Option.some.inj h)
  rw [isTagStart, beq_eq_false_iff_ne.mpr hne, Bool.false_and]

section Tags

variable {text : Text} {limit : Nat} {container : Nat → Except Halt Nat}

theorem tags_high {depth : Nat} (hdepth : depth ≠ 0) (rounds i : Nat) (b : UInt8)
    (hat : (bytes text)[i]? = some b) (hb : 128 ≤ b.toNat) :
    tags (bytes text) limit container (rounds + 1) depth i =
      tags (bytes text) limit container rounds depth (i + 1) := by
  have hlt := (List.getElem?_eq_some_iff.mp hat).1
  have hstart : ¬ isTagStart (bytes text) i = true := by
    rw [isTagStart_high hat hb]
    exact Bool.false_ne_true
  rw [tags, if_pos hlt, if_neg hstart, if_neg hdepth, byteAt, hat]
  exact if_neg (ne_of_high (by decide) hb)

theorem tags_at {front cs : Text} {c : Char} (htext : text = front ++ c :: cs)
    (rounds depth : Nat) :
    tags (bytes text) limit container (rounds + 1) depth (width front) =
      if Element.isTagStart (c :: cs) then
        if cs.head? = some '/' then
          if depth - 1 = 0 then .ok (past (bytes text) '>'.toUInt8 (width front + 2))
          else tags (bytes text) limit container rounds (depth - 1)
            (past (bytes text) '>'.toUInt8 (width front + 2))
        else
          openTag (bytes text) limit container limit (width front + 1) >>= fun tag =>
            if tag.2 = false then tags (bytes text) limit container rounds (depth + 1) tag.1
            else if depth = 0 then .ok tag.1
            else tags (bytes text) limit container rounds depth tag.1
      else if depth = 0 then .ok (width front)
      else if c = '{' then
        container (width front) >>= tags (bytes text) limit container rounds depth
      else tags (bytes text) limit container rounds depth (width front + 1) := by
  obtain ⟨b, hb, hat, hlt⟩ := byteAt_eq htext
  have hstart := isTagStart_eq front (c :: cs)
  rw [← htext] at hstart
  rw [tags, if_pos hlt, hstart]
  by_cases htag : Element.isTagStart (c :: cs) = true
  · obtain ⟨d, ds, hcs⟩ := exists_of_isTagStart htag
    obtain ⟨rfl, rfl⟩ := List.cons.inj hcs
    obtain ⟨b', hb', hat', -⟩ := byteAt_eq (htext.trans (List.append_cons ..))
    have hone : width (front ++ ['<']) = width front + 1 := width_append front ['<']
    rw [hone] at hat'
    have hslash := mem_encode_eq_iff hb' (show '/'.toNat < 128 by decide)
    rw [if_pos htag, if_pos htag, hat', List.head?_cons]
    simp only [Option.some_inj, ← hslash]
    rfl
  · have hbrace := mem_encode_eq_iff hb (show '{'.toNat < 128 by decide)
    rw [if_neg htag, if_neg htag, hat]
    simp only [← hbrace]
    rfl

theorem tags_end {rounds depth i : Nat} (hrounds : 0 < rounds) (hi : width text ≤ i) :
    tags (bytes text) limit container rounds depth i = .ok (width text) := by
  obtain ⟨r, rfl⟩ := Nat.exists_eq_add_one.mpr hrounds
  rw [tags, if_neg (by rw [length_bytes]; omega), length_bytes]
  rfl

variable {container? : Text → Option Nat}

theorem tags_eq (hcontainer : Follows text (·.head? = some '{') container container?)
    (hlimit : width text < limit) (rest : Text) {front : Text} {rounds depth : Nat}
    (htext : text = front ++ rest) (hrounds : width rest < rounds) :
    tags (bytes text) limit container rounds depth (width front) =
      stopped front rest (tags? container? depth 0 rest) := by
  induction h : rest.length using Nat.strongRecOn generalizing rest front rounds depth with
  | ind size ih =>
    subst h
    obtain ⟨r, rfl⟩ := Nat.exists_eq_add_one.mpr (Nat.zero_lt_of_lt hrounds)
    cases rest with
    | nil =>
      rw [List.append_nil] at htext
      subst htext
      rw [tags_end r.succ_pos (Nat.le_refl _)]
      simp [stopped, tags?, orHalt]
    | cons c cs =>
      have hjump (depth n : Nat) :
          tags (bytes text) limit container r depth (width (front ++ c :: cs.take n)) =
            stopped front (c :: cs) ((tags? container? depth n cs).map (· + 1)) := by
        rw [tags?_skip, stopped_skip]
        exact ih _ (length_skip_lt n) _ (split_skip n htext) (width_skip_lt n hrounds) rfl
      rw [tags_at htext, tags?]
      simp only [beq_iff_eq]
      by_cases htag : Element.isTagStart (c :: cs) = true
      · obtain ⟨d, ds, hcs⟩ := exists_of_isTagStart htag
        obtain ⟨rfl, rfl⟩ := List.cons.inj hcs
        have htwo : width (front ++ ['<', '/']) = width front + 2 := width_append front ['<', '/']
        have hone : width (front ++ ['<']) = width front + 1 := width_append front ['<']
        rw [if_pos htag, if_pos htag, List.head?_cons]
        by_cases hslash : some d = some '/'
        · -- a closing tag may be the last one
          cases hslash
          have hend : front ++ ['<', '/'] ++ ds.take (through '>' ds) =
              front ++ '<' :: ('/' :: ds).take (through '>' ds + 1) := by simp
          rw [if_pos rfl, if_pos rfl, ← htwo, past_eq (by simpa using htext) (by decide), hend]
          simp only [List.drop_succ_cons, List.drop_zero, ← Nat.sub_eq_zero_iff_le]
          by_cases hlast : depth - 1 = 0
          · rw [if_pos hlast, if_pos hlast]
            rfl
          · rw [if_neg hlast, if_neg hlast]
            exact hjump _ _
        · -- an opening tag that closes itself leaves the depth as it is
          have hless : width (d :: ds) < limit := by
            rw [htext, width_append, width_cons] at hlimit
            omega
          rw [if_neg hslash, if_neg hslash, ← hone,
            openTag_eq hcontainer hlimit _ (htext.trans (List.append_cons ..)) hless]
          have hend (n : Nat) : front ++ ['<'] ++ (d :: ds).take n =
              front ++ '<' :: (d :: ds).take n := (List.append_cons ..).symm
          cases hopen : openTag? container? 0 (d :: ds) with
          | none => rfl
          | some tag =>
            obtain ⟨n, closes⟩ := tag
            simp only [tagged, orHalt, Option.map_some, Option.elim_some, hend, bind, Except.bind]
            cases closes with
            | false => exact hjump (depth + 1) n
            | true =>
              dsimp only
              rw [if_neg Bool.noConfusion]
              by_cases hdepth : depth = 0
              · rw [if_pos hdepth, if_pos hdepth]
                rfl
              · rw [if_neg hdepth, if_neg hdepth]
                exact hjump depth n
      rw [if_neg htag, if_neg htag]
      by_cases hdepth : depth = 0
      · rw [if_pos hdepth, if_pos hdepth]
        simp [stopped, orHalt]
      rw [if_neg hdepth, if_neg hdepth]
      by_cases hbrace : c = '{'
      · subst hbrace
        rw [if_pos rfl, if_pos rfl]
        obtain ⟨hscan, hstop⟩ | ⟨n, hscan, hstop⟩ := hcontainer.fails_or_moves htext rfl
        · rw [hscan, hstop]
          rfl
        · rw [hscan, hstop]
          exact hjump depth n
      · obtain ⟨k, hk, heq⟩ := exists_rounds
          (fun rounds => tags (bytes text) limit container rounds depth) (tags_high hdepth) htext
          (Nat.le_of_lt_succ hrounds)
        rw [if_neg hbrace, if_neg hbrace, heq,
          ih cs.length (Nat.lt_succ_self _) cs (htext.trans (List.append_cons ..)) hk rfl]
        exact (stopped_step front c cs _).symm

end Tags

/-! ### Containers -/

theorem isString_eq (c : Char) : (isQuote c || c == '`') = ['"', '\'', '`'].contains c := by
  simp only [isQuote, List.contains_cons, List.contains_nil, Bool.or_false, Bool.or_assoc]

section Braces

variable {text : Text} {limit : Nat} {element : Nat → Except Halt Nat}

theorem braces_high {depth : Nat} (rounds i : Nat) (b : UInt8)
    (hat : (bytes text)[i]? = some b) (hb : 128 ≤ b.toNat) :
    braces (bytes text) limit element (rounds + 1) depth i =
      braces (bytes text) limit element rounds depth (i + 1) := by
  have hlt := (List.getElem?_eq_some_iff.mp hat).1
  have hstart : ¬ isTagStart (bytes text) i = true := by
    rw [isTagStart_high hat hb]
    exact Bool.false_ne_true
  have hquote : ¬ among ['"', '\'', '`'] b = true := by
    rw [among_high (by decide) hb]
    exact Bool.false_ne_true
  have hsign {d : Char} (hd : d.toNat < 128) : ¬ b = d.toUInt8 := ne_of_high hd hb
  rw [braces, if_pos hlt, byteAt, hat]
  exact (if_neg (hsign (by decide))).trans <| (if_neg (hsign (by decide))).trans <|
    (if_neg hquote).trans <| (if_neg fun h => hsign (by decide) h.1).trans <|
    (if_neg fun h => hsign (by decide) h.1).trans (if_neg hstart)

theorem braces_at {front cs : Text} {c : Char} (htext : text = front ++ c :: cs)
    (rounds depth : Nat) :
    braces (bytes text) limit element (rounds + 1) depth (width front) =
      if c = '{' then braces (bytes text) limit element rounds (depth + 1) (width front + 1)
      else if c = '}' then
        if depth = 0 then .error .unopened
        else if depth - 1 = 0 then .ok (width front + 1)
        else braces (bytes text) limit element rounds (depth - 1) (width front + 1)
      else if isQuote c || c == '`' then
        pastString (bytes text) limit (width front) >>=
          braces (bytes text) limit element rounds depth
      else if c = '/' ∧ cs.head? = some '/' then
        braces (bytes text) limit element rounds depth
          (past (bytes text) '\n'.toUInt8 (width front))
      else if c = '/' ∧ cs.head? = some '*' then
        pastComment (bytes text) (width front + 2) >>=
          braces (bytes text) limit element rounds depth
      else if Element.isTagStart (c :: cs) then
        if opens (bytes front) then
          element (width front) >>= braces (bytes text) limit element rounds depth
        else braces (bytes text) limit element rounds depth (width front + 1)
      else braces (bytes text) limit element rounds depth (width front + 1) := by
  obtain ⟨b, hb, hat, hlt⟩ := byteAt_eq htext
  have hopen := mem_encode_eq_iff hb (show '{'.toNat < 128 by decide)
  have hclose := mem_encode_eq_iff hb (show '}'.toNat < 128 by decide)
  have hline := pair_iff htext hb (show '/'.toNat < 128 by decide) (show '/'.toNat < 128 by decide)
  have hblock := pair_iff htext hb (show '/'.toNat < 128 by decide)
    (show '*'.toNat < 128 by decide)
  have hstart := isTagStart_eq front (c :: cs)
  have hbefore : before (bytes text) (width front) = .ok (bytes front) := by
    rw [before, if_pos (Nat.le_of_lt hlt), htext, take_bytes]
  rw [← htext] at hstart
  rw [braces, if_pos hlt, hat, isString_eq, ← among_eq (by decide) hb, hstart, hbefore]
  simp only [← hopen, ← hclose, ← hline, ← hblock]
  rfl

theorem braces_end {rounds depth i : Nat} (hrounds : 0 < rounds) (hi : width text ≤ i) :
    braces (bytes text) limit element rounds depth i = .ok (width text) := by
  obtain ⟨r, rfl⟩ := Nat.exists_eq_add_one.mpr hrounds
  rw [braces, if_neg (by rw [length_bytes]; omega), length_bytes]
  rfl

variable {element? : Text → Option Nat}

/-- Inside a container at least one brace is open, and the last visible character is known. -/
theorem braces_eq (helement : Follows text (Element.isTagStart · = true) element element?)
    (hlimit : width text < limit) (rest : Text) {front : Text} {rounds depth : Nat} {last : Char}
    (htext : text = front ++ rest) (hrounds : width rest < rounds) (hdepth : depth ≠ 0)
    (hlast : opens (bytes front) = opensExpression last) :
    braces (bytes text) limit element rounds depth (width front) =
      stopped front rest (braces? element? depth (some last) 0 rest) := by
  induction h : rest.length using Nat.strongRecOn generalizing rest front rounds depth last with
  | ind size ih =>
    subst h
    obtain ⟨r, rfl⟩ := Nat.exists_eq_add_one.mpr (Nat.zero_lt_of_lt hrounds)
    cases rest with
    | nil =>
      rw [List.append_nil] at htext
      subst htext
      rw [braces_end r.succ_pos (Nat.le_refl _)]
      simp [stopped, braces?, orHalt]
    | cons c cs =>
      -- `next` is the last visible character behind `c`
      obtain ⟨next, hnext⟩ : ∃ next, next = if isAsciiBlank c then last else c := ⟨_, rfl⟩
      have hvisible : (if isAsciiBlank c then some last else some c) = some next := by
        rw [hnext, apply_ite some]
      have hjump {depth : Nat} (hdepth : depth ≠ 0) (n : Nat) :
          braces (bytes text) limit element r depth (width (front ++ c :: cs.take n)) =
            stopped front (c :: cs) ((braces? element? depth (some next) n cs).map (· + 1)) := by
        have hlater := opens_lastVisible hlast (c :: cs.take n)
        rw [lastVisible, ← hnext] at hlater
        rw [braces?_skip, stopped_skip]
        exact ih _ (length_skip_lt n) _ (split_skip n htext) (width_skip_lt n hrounds) hdepth
          hlater rfl
      have hstep {depth : Nat} (hdepth : depth ≠ 0) :
          braces (bytes text) limit element r depth (width front + 1) =
            stopped front (c :: cs) ((braces? element? depth (some next) 0 cs).map (· + 1)) := by
        have hlater := opens_lastVisible hlast [c]
        rw [lastVisible, lastVisible, ← hnext] at hlater
        obtain ⟨k, hk, heq⟩ := exists_rounds
          (fun rounds => braces (bytes text) limit element rounds depth) braces_high htext
          (Nat.le_of_lt_succ hrounds)
        rw [heq, stopped_step]
        exact ih _ (Nat.lt_succ_self _) cs (htext.trans (List.append_cons ..)) hk hdepth hlater rfl
      rw [braces_at htext, braces?]
      simp only [beq_iff_eq, Bool.and_eq_true, hvisible]
      by_cases hopen : c = '{'
      · rw [if_pos hopen, if_pos hopen]
        exact hstep (Nat.succ_ne_zero depth)
      rw [if_neg hopen, if_neg hopen]
      by_cases hclose : c = '}'
      · rw [if_pos hclose, if_pos hclose, if_neg hdepth]
        by_cases hend : depth - 1 = 0
        · subst hclose
          rw [if_pos hend, if_pos (Nat.sub_eq_zero_iff_le.mp hend)]
          exact congrArg Except.ok (width_append front ['}']).symm
        · rw [if_neg hend, if_neg (fun h => hend (Nat.sub_eq_zero_iff_le.mpr h))]
          exact hstep hend
      rw [if_neg hclose, if_neg hclose]
      by_cases hquote : (isQuote c || c == '`') = true
      · have hascii := ascii_of_contains (by decide) ((isString_eq c).symm.trans hquote)
        rw [if_pos hquote, if_pos hquote, pastString_eq htext hascii hlimit]
        exact hjump hdepth _
      rw [if_neg hquote, if_neg hquote]
      by_cases hline : c = '/' ∧ cs.head? = some '/'
      · rw [if_pos hline, if_pos hline, past_eq htext (by decide), through,
          if_neg (by simp [hline.1])]
        exact hjump hdepth _
      rw [if_neg hline, if_neg hline]
      by_cases hblock : c = '/' ∧ cs.head? = some '*'
      · rw [if_pos hblock, if_pos hblock]
        obtain ⟨rfl, hstar⟩ := hblock
        obtain ⟨ds, rfl⟩ := List.head?_eq_some_iff.mp hstar
        have htwo : width (front ++ ['/', '*']) = width front + 2 := width_append front ['/', '*']
        have hend : front ++ ['/', '*'] ++ ds.take (throughComment ds) =
            front ++ '/' :: ('*' :: ds).take (throughComment ds + 1) := by simp
        rw [← htwo, pastComment_eq (by simpa using htext), hend]
        exact hjump hdepth _
      rw [if_neg hblock, if_neg hblock]
      by_cases htag : Element.isTagStart (c :: cs) = true
      · rw [if_pos htag, hlast]
        by_cases hexpr : opensExpression last = true
        · rw [if_pos hexpr, if_pos ⟨htag, hexpr⟩]
          obtain ⟨hscan, hstop⟩ | ⟨n, hscan, hstop⟩ := helement.fails_or_moves htext htag
          · rw [hscan, hstop]
            rfl
          · rw [hscan, hstop]
            exact hjump hdepth n
        · rw [if_neg hexpr, if_neg fun h => hexpr h.2]
          exact hstep hdepth
      · rw [if_neg htag, if_neg fun h => htag h.1]
        exact hstep hdepth

end Braces

/-! ### Whole elements -/

theorem follows_container {text : Text} {limit room : Nat} (hlimit : width text < limit)
    (helement : Follows text (Element.isTagStart · = true) (element (bytes text) limit room)
      (element? room)) :
    Follows text (·.head? = some '{') (container (bytes text) limit (room + 1))
      (container? (room + 1)) where
  eq_stopped front rest htext hhead := by
    obtain ⟨cs, rfl⟩ := List.head?_eq_some_iff.mp hhead
    obtain ⟨r, rfl⟩ := Nat.exists_eq_add_one.mpr (Nat.zero_lt_of_lt hlimit)
    have hone : width (front ++ ['{']) = width front + 1 := width_append front ['{']
    have hopens : opens (bytes (front ++ ['{'])) = opensExpression '{' := opens_append front '{'
    have hrest : width cs < r := by
      have hpos := Char.utf8Size_pos '{'
      rw [htext, width_append, width_cons] at hlimit
      omega
    rw [container, container?, braces_at htext, if_pos rfl, braces?_open, stopped_step, ← hone]
    exact braces_eq helement hlimit cs (htext.trans (List.append_cons ..)) hrest
      (Nat.succ_ne_zero 0) hopens
  ne_zero rest hhead := by
    obtain ⟨cs, rfl⟩ := List.head?_eq_some_iff.mp hhead
    exact container?_ne_zero (room + 1) '{' cs

theorem follows_element {text : Text} {limit room : Nat} (hlimit : width text < limit)
    (hcontainer : Follows text (·.head? = some '{') (container (bytes text) limit room)
      (container? room)) :
    Follows text (Element.isTagStart · = true) (element (bytes text) limit (room + 1))
      (element? (room + 1)) where
  eq_stopped front rest htext _ := by
    have hrest : width rest < limit := by
      rw [htext, width_append] at hlimit
      omega
    rw [element, element?]
    exact tags_eq hcontainer hlimit rest htext hrest
  ne_zero rest hstart := element?_ne_zero (room + 1) rest hstart

/-- At every level the cursor goes where the characters say. -/
theorem follows_levels {text : Text} {limit : Nat} (hlimit : width text < limit) (room : Nat) :
    Follows text (Element.isTagStart · = true) (element (bytes text) limit room) (element? room) ∧
      Follows text (·.head? = some '{') (container (bytes text) limit room) (container? room) := by
  induction room with
  | zero => exact ⟨⟨fun _ _ _ _ => rfl, nofun⟩, ⟨fun _ _ _ _ => rfl, nofun⟩⟩
  | succ room ih => exact ⟨follows_element hlimit ih.2, follows_container hlimit ih.1⟩

end Element.Cursor

/-! ### Stops -/

namespace Element

theorem exists_of_isTagStartAt {text : Text} {offset : Nat} (h : isTagStartAt text offset = true) :
    ∃ front rest, text = front ++ rest ∧ width front = offset ∧ isTagStart rest = true := by
  obtain ⟨rest, hrest, hstart⟩ := (Option.any_eq_true _ _).mp h
  obtain ⟨front, htext, hwidth⟩ := dropBytes?_eq_some hrest
  exact ⟨front, rest, htext, hwidth, hstart⟩

theorem isTagStartAt_append (front rest : Text) :
    isTagStartAt (front ++ rest) (width front) = isTagStart rest := by
  rw [isTagStartAt, dropBytes?_width, Option.any_some]

/-- A byte of ASCII stands between two characters. -/
theorem boundary_of_low {text : Text} {offset : Nat} {b : UInt8} (hb : b.toNat < 128)
    (hat : (bytes text)[offset]? = some b) : Boundary text offset := by
  induction text generalizing offset with
  | nil => cases hat
  | cons c cs ih =>
    rw [bytes_cons] at hat
    by_cases hlt : offset < c.utf8Size
    · rw [List.getElem?_append_left (by rwa [String.length_utf8EncodeChar])] at hat
      have hc : c.toNat < 128 := Nat.lt_of_not_le fun hle =>
        Nat.not_le.mpr hb (le_of_mem_encode hle (List.mem_of_getElem? hat))
      obtain rfl : offset = 0 := by
        rw [utf8Size_eq_one_iff.mpr hc] at hlt
        omega
      exact .zero _
    · rw [List.getElem?_append_right (by rw [String.length_utf8EncodeChar]; omega),
        String.length_utf8EncodeChar] at hat
      obtain ⟨front, rest, rfl, hwidth⟩ := ih hat
      exact ⟨c :: front, rest, rfl, by rw [width_cons]; omega⟩

/-- Whether a tag starts at an offset can be told from its bytes. -/
theorem isTagStartAt_eq (text : Text) (offset : Nat) :
    isTagStartAt text offset = Cursor.isTagStart (bytes text) offset := by
  rw [Bool.eq_iff_iff]
  constructor
  · intro h
    obtain ⟨front, rest, rfl, rfl, hrest⟩ := exists_of_isTagStartAt h
    rwa [Cursor.isTagStart_eq]
  · intro h
    have hless : (bytes text)[offset]? = some '<'.toUInt8 := by
      rw [Cursor.isTagStart, Bool.and_eq_true, beq_iff_eq] at h
      exact h.1
    obtain ⟨front, rest, rfl, rfl⟩ := boundary_of_low (by decide) hless
    rwa [isTagStartAt_append, ← Cursor.isTagStart_eq]

variable {front rest : Text}

theorem stopAt?_append (front : Text) (hstart : isTagStart rest = true) :
    stopAt? (front ++ rest) (width front) =
      (length? rest).map fun n => width (front ++ rest.take n) := by
  have hpos : width rest ≠ 0 := fun h0 => by
    rw [eq_nil_of_width_eq_zero h0] at hstart
    cases hstart
  rw [stopAt?, if_neg (by rw [width_append]; omega), dropBytes?_width]
  simp only [width_append]

theorem two_le_length {n : Nat} (hstart : isTagStart rest = true) (hn : length? rest = some n) :
    2 ≤ n := by
  have hzero : n ≠ 0 := fun h0 => element?_ne_zero _ rest hstart (h0 ▸ hn)
  have hone : n ≠ 1 := by
    rintro rfl
    obtain ⟨d, ds, rfl⟩ := Cursor.exists_of_isTagStart hstart
    rw [length?, element?] at hn
    exact tags?_ne_one (List.cons_ne_nil d ds) _ 0 '<' hn
  omega

/-- An offset that a tokenizer can go on from behind an element at `start`: beyond the `<`,
between two characters, and behind a `>` unless the element was cut off. -/
structure Usable (text : Text) (start stop : Nat) : Prop where
  start_add_two_le : start + 2 ≤ stop
  le_width : stop ≤ width text
  boundary : Boundary text stop
  closed : stop = width text ∨ (bytes text)[stop - 1]? = some '>'.toUInt8

theorem usable_append {n : Nat} (front : Text) (hstart : isTagStart rest = true)
    (hn : length? rest = some n) :
    Usable (front ++ rest) (width front) (width (front ++ rest.take n)) where
  start_add_two_le := by
    obtain ⟨m, rfl⟩ := Nat.exists_eq_add_of_le' (two_le_length hstart hn)
    obtain ⟨d, ds, rfl⟩ := Cursor.exists_of_isTagStart hstart
    have hless := Char.utf8Size_pos '<'
    have hd := d.utf8Size_pos
    rw [List.take_succ_cons, List.take_succ_cons, width_append, width_cons, width_cons]
    omega
  le_width := by
    have hsplit := width_append (front ++ rest.take n) (rest.drop n)
    rw [List.append_assoc, List.take_append_drop] at hsplit
    omega
  boundary := ⟨front ++ rest.take n, rest.drop n, by simp, rfl⟩
  closed := by
    rcases reaches_length hstart hn with hall | hlast
    · exact .inl (by rw [List.take_of_length_le hall])
    · obtain ⟨body, hbody⟩ := List.getLast?_eq_some_iff.mp hlast
      have hwidth : width (front ++ rest.take n) = width (front ++ body) + 1 := by
        rw [hbody, ← List.append_assoc, width_append]
        rfl
      have hsplit : front ++ rest = front ++ body ++ '>' :: rest.drop n := by
        rw [List.append_cons, List.append_assoc front, ← hbody, List.append_assoc,
          List.take_append_drop]
      rw [hwidth, Nat.add_sub_cancel, hsplit, Cursor.getElem?_bytes]
      exact .inr ((Cursor.head?_bytes_eq_iff _ (by decide)).mpr rfl)

/-- The cursor stops where the characters say, if its loops are given more rounds than the text
has bytes. -/
theorem Cursor.stop_eq {text : Text} {offset limit : Nat} (hstart : isTagStartAt text offset = true)
    (hlimit : width text < limit) :
    Cursor.stop (bytes text) limit offset = Cursor.orHalt .tooDeep (stopAt? text offset) := by
  obtain ⟨front, rest, rfl, rfl, hrest⟩ := exists_of_isTagStartAt hstart
  rw [stopAt?_append front hrest]
  exact (Cursor.follows_levels hlimit _).1.eq_stopped front rest rfl hrest

end Element

namespace Token

namespace Lexeme

/-- Where a tag starts, an element is read up to its end. -/
theorem element_of_isTagStart {cs : Text} (hstart : Element.isTagStart ('<' :: cs) = true) :
    (element cs).kind = .markup ∧
      ∀ front, width (front ++ '<' :: cs.take (element cs).more) =
        (Element.stopAt? (front ++ '<' :: cs) (width front)).getD (width (front ++ '<' :: cs)) := by
  unfold element
  split
  next n hn =>
    have htwo := Element.two_le_length hstart hn
    obtain ⟨m, rfl⟩ := Nat.exists_eq_add_of_le' htwo
    rw [if_pos (Nat.lt_of_succ_le htwo)]
    refine ⟨rfl, fun front => ?_⟩
    rw [Element.stopAt?_append front hstart, hn]
    rfl
  next hn =>
    refine ⟨rfl, fun front => ?_⟩
    rw [Element.stopAt?_append front hstart, hn, List.take_length]
    rfl

/-- A `<` is a sign of its own exactly where no element may start. -/
theorem kind_read_less_iff (markup : Bool) (context : Context) (cs : Text) :
    (read markup context '<' cs).kind = .less ↔
      (markup && context.allowsElement && Element.isTagStart ('<' :: cs) &&
        !Element.isTypeParameters cs) = false := by
  rw [read_less]
  split
  next h =>
    simp only [Bool.and_eq_true] at h
    rw [(element_of_isTagStart h.1.2).1]
    simp [h]
  next h => exact iff_of_true rfl (Bool.eq_false_iff.mpr h)

end Lexeme

theorem stop_of_mem_scan {markup : Bool} {text : Text} {t : Token}
    (ht : t ∈ (scan markup text).tokens) (hk : t.kind = .markup) :
    Element.isTagStartAt text t.start = true ∧
      t.stop = (Element.stopAt? text t.start).getD (width text) := by
  obtain ⟨front, c, cs, lexeme, rfl, hform, rfl⟩ :=
    exists_form_of_mem_scan ht (by rw [hk]; nofun)
  obtain ⟨rfl, hstart, rfl⟩ := hform.of_markup hk
  rw [start, stop, offset_origin_advance, Element.isTagStartAt_append, ← width_append]
  exact ⟨hstart, (Lexeme.element_of_isTagStart hstart).2 front⟩

end Token

namespace Element

/-- Elements start where the bytes say so. The cursor that scans one comes to an end without
reading outside the text or closing a brace that is not open, and what it finds is usable. So a
`<` where an element may start is never a sign of its own, and an element in a list of tokens
ends where the scan stopped; one that nests too deep takes the rest of the text. -/
theorem stop_usable (text : Text) :
    (∀ offset, isTagStartAt text offset = Cursor.isTagStart (bytes text) offset) ∧
    (∀ offset, isTagStartAt text offset = true →
      (∀ limit, width text < limit →
        Cursor.stop (bytes text) limit offset = Cursor.orHalt .tooDeep (stopAt? text offset)) ∧
      ∀ stop, stopAt? text offset = some stop → Usable text offset stop) ∧
    (∀ markup context cs, (Token.Lexeme.read markup context '<' cs).kind = .less ↔
      (markup && context.allowsElement && isTagStart ('<' :: cs) && !isTypeParameters cs) =
        false) ∧
    ∀ markup, ∀ t ∈ (Token.scan markup text).tokens, t.kind = .markup →
      isTagStartAt text t.start = true ∧ t.stop = (stopAt? text t.start).getD (width text) := by
  refine ⟨isTagStartAt_eq text,
    fun offset hstart => ⟨fun limit => Cursor.stop_eq hstart, fun stop hstop => ?_⟩,
    Token.Lexeme.kind_read_less_iff, fun markup t => Token.stop_of_mem_scan⟩
  obtain ⟨front, rest, rfl, rfl, hrest⟩ := exists_of_isTagStartAt hstart
  rw [stopAt?_append front hrest] at hstop
  obtain ⟨n, hn, rfl⟩ := Option.map_eq_some_iff.mp hstop
  exact usable_append front hrest hn

/-- An element with a string and a container behind a character of two bytes. -/
theorem stop_usable_nested :
    isTagStartAt "é(<a b='\\é>'>\x7b<c/>\x7d</a>;".toList 3 = true ∧
      Cursor.stop (bytes "é(<a b='\\é>'>\x7b<c/>\x7d</a>;".toList) 40 3 = .ok 25 ∧
      Usable "é(<a b='\\é>'>\x7b<c/>\x7d</a>;".toList 3 25 := by
  have hstart : isTagStartAt "é(<a b='\\é>'>\x7b<c/>\x7d</a>;".toList 3 = true := by
    decide +kernel
  have hstop : stopAt? "é(<a b='\\é>'>\x7b<c/>\x7d</a>;".toList 3 = some 25 := by decide +kernel
  have hlimit : width "é(<a b='\\é>'>\x7b<c/>\x7d</a>;".toList < 40 := by decide +kernel
  obtain ⟨hcursor, husable⟩ := (stop_usable _).2.1 3 hstart
  refine ⟨hstart, ?_, husable 25 hstop⟩
  rw [hcursor 40 hlimit, hstop]
  rfl

end Element

end Desugar
