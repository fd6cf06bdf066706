import Desugar.Proofs.Gaps
import Desugar.Proofs.Reading

/-! The limit of nesting. A text whose brackets are well nested is read group by group, so the
levels that reading has left are those that the open brackets leave. Reading fails at the first
bracket that opens too many, at the token behind it, and nowhere else: a pipe, a stage or a
stage that is given up costs no level. -/
namespace Desugar

namespace Kind

/-- What a token adds to the number of open brackets. -/
def weight : Kind → Int
  | .opening _ => 1
  | .closing _ => -1
  | _ => 0

theorem weight_of_isNeutral {k : Kind} (h : k.isNeutral = true) : k.weight = 0 := by
  cases k <;> first | rfl | cases h

end Kind

namespace Token

/-! ### Brackets -/

/-- How many brackets the tokens leave open. -/
def opened : List Token → Int
  | [] => 0
  | t :: ts => t.kind.weight + opened ts

/-- The tokens close the brackets of `stack`, the innermost first, and all that they open. -/
def closes : (stack : List Bracket) → List Token → Bool
  | stack, [] => stack.isEmpty
  | stack, t :: ts =>
    match t.kind, stack with
    | .opening bracket, stack => closes (bracket :: stack) ts
    | .closing _, [] => false
    | .closing bracket, innermost :: stack => bracket = innermost && closes stack ts
    | _, stack => closes stack ts

/-- Every bracket is closed by one of its own kind, and inner ones before outer ones. -/
def WellNested (ts : List Token) : Prop := closes [] ts = true

instance (ts : List Token) : Decidable (WellNested ts) :=
  inferInstanceAs (Decidable (closes [] ts = true))

/-- The brackets open behind a token, the innermost first. -/
def turn (stack : List Bracket) (t : Token) : List Bracket :=
  match t.kind with
  | .opening bracket => bracket :: stack
  | .closing _ => stack.tail
  | _ => stack

def stackAfter (ts : List Token) : List Bracket := ts.foldl turn []

@[simp] theorem opened_nil : opened [] = 0 := rfl

@[simp] theorem opened_cons (t : Token) (ts : List Token) :
    opened (t :: ts) = t.kind.weight + opened ts := rfl

@[simp] theorem opened_append (ts us : List Token) : opened (ts ++ us) = opened ts + opened us := by
  induction ts with
  | nil => simp
  | cons t ts ih => rw [List.cons_append, opened_cons, opened_cons, ih, Int.add_assoc]

theorem opened_concat (ts : List Token) (t : Token) :
    opened (ts ++ [t]) = opened ts + t.kind.weight := by
  simp

theorem stackAfter_concat (ts : List Token) (t : Token) :
    stackAfter (ts ++ [t]) = turn (stackAfter ts) t := by
  rw [stackAfter, List.foldl_concat]
  rfl

theorem turn_of_isNeutral {t : Token} (h : t.kind.isNeutral = true) (stack : List Bracket) :
    turn stack t = stack := by
  unfold turn
  cases hk : t.kind with
  | opening | closing => rw [hk] at h; cases h
  | _ => rfl

theorem closes_foldl {stack : List Bracket} {front rest : List Token}
    (h : closes stack (front ++ rest) = true) : closes (front.foldl turn stack) rest = true := by
  induction front generalizing stack with
  | nil => exact h
  | cons t front ih =>
    refine ih ?_
    rw [List.cons_append] at h
    unfold closes at h
    unfold turn
    split at h
    next hk => rwa [hk]
    next => cases h
    next hk =>
      rw [hk]
      exact (Bool.and_eq_true_iff.mp h).2
    next ho hc hc' =>
      cases hk : t.kind with
      | opening => exact absurd hk (ho _)
      | closing =>
        obtain ⟨_, _, hs⟩ := List.exists_cons_of_ne_nil (hc _ hk)
        exact (hc' _ _ _ hk hs).elim
      | _ => exact h

/-- What follows in a well nested text closes the brackets that are open. -/
theorem WellNested.closes_behind {front rest : List Token} (h : WellNested (front ++ rest)) :
    closes (stackAfter front) rest = true :=
  closes_foldl h

/-! ### Levels -/

/-- Nowhere in the tokens are as many brackets open as there are levels. -/
def Shallow (ts : List Token) : Prop := ∀ front, front <+: ts → opened front < Literal.maxDepth

/-- The tokens up to the first place at which as many brackets are open as there are levels. -/
def Fills (ts : List Token) : Prop :=
  opened ts = Literal.maxDepth ∧
    ∀ front, front <+: ts → front ≠ ts → opened front < Literal.maxDepth

theorem shallow_nil : Shallow [] := by
  intro front hfront
  rw [List.prefix_nil.mp hfront]
  decide

theorem shallow_concat {ts : List Token} {t : Token} :
    Shallow (ts ++ [t]) ↔ Shallow ts ∧ opened (ts ++ [t]) < Literal.maxDepth := by
  constructor
  · intro h
    exact ⟨fun front hfront => h front (hfront.trans (List.prefix_append ts [t])),
      h _ List.prefix_rfl⟩
  · rintro ⟨hts, ht⟩ front hfront
    rcases List.prefix_concat_iff.mp hfront with rfl | hfront
    · exact ht
    · exact hts front hfront

theorem fills_concat {ts : List Token} {t : Token} :
    Fills (ts ++ [t]) ↔ opened (ts ++ [t]) = Literal.maxDepth ∧ Shallow ts := by
  refine and_congr_right fun ht => ⟨fun h front hfront => ?_, fun h front hfront hne => ?_⟩
  · refine h front (hfront.trans (List.prefix_append ts [t])) ?_
    rintro rfl
    exact absurd hfront.length_le (by simp)
  · exact h front ((List.prefix_concat_iff.mp hfront).resolve_left hne)

/-- With `n` brackets open before the tokens, the levels are full at none of them. -/
def staysBelow : (n : Int) → List Token → Bool
  | n, [] => n < Literal.maxDepth
  | n, t :: ts => n < Literal.maxDepth && staysBelow (n + t.kind.weight) ts

theorem staysBelow_iff {n : Int} {ts : List Token} :
    staysBelow n ts = true ↔ ∀ front, front <+: ts → n + opened front < Literal.maxDepth := by
  induction ts generalizing n with
  | nil => simp [staysBelow]
  | cons t ts ih =>
    simp only [staysBelow, Bool.and_eq_true, decide_eq_true_iff, ih, List.prefix_cons_iff]
    constructor
    · rintro ⟨hn, hts⟩ front (rfl | ⟨us, rfl, hus⟩)
      · simpa using hn
      · rw [opened_cons, ← Int.add_assoc]
        exact hts us hus
    · intro h
      refine ⟨by simpa using h [] (.inl rfl), fun us hus => ?_⟩
      have hcons := h (t :: us) (.inr ⟨us, rfl, hus⟩)
      rwa [opened_cons, ← Int.add_assoc] at hcons

instance (ts : List Token) : Decidable (Shallow ts) :=
  decidable_of_iff (staysBelow 0 ts = true) (by simp [staysBelow_iff, Shallow])

/-- Levels are full for the first time at one place only. -/
theorem Fills.eq {ts us all : List Token} (hts : Fills ts) (hus : Fills us) (h : ts <+: all)
    (h' : us <+: all) : ts = us := by
  by_contra hne
  rcases List.prefix_or_prefix_of_prefix h h' with hle | hle
  · exact absurd hts.1 (Int.ne_of_lt (hus.2 ts hle hne))
  · exact absurd hus.1 (Int.ne_of_lt (hts.2 us hle (Ne.symm hne)))

/-- Behind `front` the brackets of `stack` are open, no level too many was used up to there, and
`room` are left. -/
structure Leaves (room : Nat) (stack : List Bracket) (front : List Token) : Prop where
  shallow : Shallow front
  levels : opened front + room = Literal.maxDepth
  stack_eq : stackAfter front = stack

section Leaves

variable {room : Nat} {stack : List Bracket} {front : List Token} {t : Token} {bracket : Bracket}

theorem Leaves.neutral (h : Leaves room stack front) (ht : t.kind.isNeutral = true) :
    Leaves room stack (front ++ [t]) := by
  have hopened : opened (front ++ [t]) = opened front := by
    rw [opened_concat, Kind.weight_of_isNeutral ht, Int.add_zero]
  refine ⟨shallow_concat.mpr ⟨h.shallow, ?_⟩, by rw [hopened, h.levels], ?_⟩
  · rw [hopened]
    exact h.shallow front List.prefix_rfl
  · rw [stackAfter_concat, turn_of_isNeutral ht, h.stack_eq]

theorem Leaves.opening (h : Leaves (room + 2) stack front) (ht : t.kind = .opening bracket) :
    Leaves (room + 1) (bracket :: stack) (front ++ [t]) := by
  have hopened : opened (front ++ [t]) = opened front + 1 := by rw [opened_concat, ht]; rfl
  have hlevels := h.levels
  refine ⟨shallow_concat.mpr ⟨h.shallow, by omega⟩, by omega, ?_⟩
  rw [stackAfter_concat, turn, ht, h.stack_eq]

theorem Leaves.closing (h : Leaves room (bracket :: stack) front)
    (ht : t.kind = .closing bracket) : Leaves (room + 1) stack (front ++ [t]) := by
  have hopened : opened (front ++ [t]) = opened front - 1 := by rw [opened_concat, ht]; rfl
  have hlevels := h.levels
  have hbelow := h.shallow front List.prefix_rfl
  refine ⟨shallow_concat.mpr ⟨h.shallow, by omega⟩, by omega, ?_⟩
  rw [stackAfter_concat, turn, ht, h.stack_eq]
  rfl

/-- The bracket that takes the last level. -/
theorem Leaves.fills (h : Leaves 1 stack front) (ht : t.kind = .opening bracket) :
    Fills (front ++ [t]) := by
  have hopened : opened (front ++ [t]) = opened front + 1 := by rw [opened_concat, ht]; rfl
  have hlevels := h.levels
  exact fills_concat.mpr ⟨by omega, h.shallow⟩

end Leaves

/-- The tokens of a well nested text without declarations. -/
structure Regular (all : List Token) : Prop where
  undeclared : ∀ t ∈ all, t.kind.isUndeclared = true
  nested : WellNested all
  last {front rest : List Token} {t : Token} : all = front ++ t :: rest → t.kind = .eof → rest = []

section Regular

variable {all front rest : List Token} {stack : List Bracket} {room : Nat} {t : Token}
  {bracket : Bracket}

theorem Regular.closes (hall : Regular all) (h : all = front ++ rest)
    (hat : Leaves room stack front) : Token.closes stack rest = true := by
  have hnested := hall.nested
  rw [h] at hnested
  exact hat.stack_eq ▸ hnested.closes_behind

/-- Only the innermost bracket is ever closed. -/
theorem Regular.head?_stack (hall : Regular all) (h : all = front ++ t :: rest)
    (hk : t.kind = .closing bracket) (hat : Leaves room stack front) :
    stack.head? = some bracket := by
  have hcloses := hall.closes h hat
  cases stack with
  | nil => simp [Token.closes, hk] at hcloses
  | cons innermost stack =>
    simp only [Token.closes, hk, Bool.and_eq_true, decide_eq_true_iff] at hcloses
    rw [hcloses.1]
    rfl

/-- Behind an open bracket the text does not end. -/
theorem Regular.headKind_ne (hall : Regular all) (h : all = front ++ rest)
    (hat : Leaves room (bracket :: stack) front) : Node.Parse.headKind rest ≠ .eof := by
  intro hk
  have hcloses := hall.closes h hat
  cases rest with
  | nil => cases hcloses
  | cons t rest =>
    have hk : t.kind = .eof := hk
    rw [hall.last h hk] at hcloses
    simp [Token.closes, hk] at hcloses

end Regular

end Token

namespace Node.Parse

open Text Token Phrase

section Readers

variable {source : Source} {all : List Token} {inner : Inner} {room : Nat} {stack : List Bracket}

/-- The fault at the token behind the first bracket that fills all levels. -/
def Overfull (source : Source) (all : List Token) (fault : Fault) : Prop :=
  ∃ front t rest, all = front ++ t :: rest ∧ Fills front ∧
    fault = .tooDeep ⟨source.file, t.place.line, t.place.column⟩ Literal.maxDepth

/-- Tokens between brackets, read with `room` levels left: as many are left behind them, and the
same brackets are open. -/
def Nests (all : List Token) (room : Nat) : Inside := fun _ us rest _ =>
  0 < room ∧ ∀ {front stack}, all = front ++ us ++ rest → Leaves room stack front →
    Leaves room stack (front ++ us)

theorem leaves_of_isGroup (hall : Regular all) {bracket : Bracket} {front us rest : List Token}
    {ns : List Node} (hg : IsGroup (Nests all room) bracket us rest ns)
    (h : all = front ++ us ++ rest) (hat : Leaves (room + 1) stack front) :
    Leaves (room + 1) stack (front ++ us) := by
  cases hg with
  | @closed opener close us _ _ ho hin hc =>
    obtain ⟨room, rfl⟩ := Nat.exists_eq_succ_of_ne_zero (Nat.ne_of_gt hin.1)
    have hinside := hin.2 (by simpa using h) (hat.opening ho)
    simpa using hinside.closing hc
  | @unclosed opener us _ _ ho hin hend =>
    obtain ⟨room, rfl⟩ := Nat.exists_eq_succ_of_ne_zero (Nat.ne_of_gt hin.1)
    have hinside := hin.2 (by simpa using h) (hat.opening ho)
    exact absurd hend (hall.headKind_ne (by simpa using h) hinside)

/-- Readers stand at places that leave as many levels, if they do at brackets. -/
theorem soundAt_leaves (hall : Regular all)
    (hopened : ∀ {front tokens opener bracket} (notes : Notes), all = front ++ opener :: tokens →
      opener.kind = .opening bracket → Leaves (room + 1) stack front →
      Ends (Overfull source all) (Found.Covers (fun us rest ns =>
        Nests all room (some (.closing bracket)) us rest ns ∧
        Stops (some (.closing bracket)) rest) tokens)
        (inner (some (.closing bracket)) (some opener) tokens notes)) :
    inner.SoundAt (Overfull source all) all (Nests all room) (Leaves (room + 1) stack) where
  opened := hopened
  group h hg hat := leaves_of_isGroup hall hg h hat
  neutral _ hk hat := hat.neutral hk
  declared {_ _ _ t} h hk := by
    rw [hall.undeclared t (by simp [h])] at hk
    cases hk

/-- Items go on up to the bracket that closes the innermost open one. -/
theorem items_nests (hlayout : Layout source.text all) (hall : Regular all)
    (hinner : inner.SoundAt (Overfull source all) all (Nests all room) (Leaves (room + 1) stack))
    (front tokens : List Token) (notes : Notes) (h : all = front ++ tokens)
    (hat : Leaves (room + 1) stack front) :
    Ends (Overfull source all)
      (Found.Covers (fun us rest _ => Stops (stack.head?.map .closing) rest ∧
        Leaves (room + 1) stack (front ++ us)) tokens)
      (items source inner (stack.head?.map .closing) front.getLast? 0 tokens notes) := by
  refine (items_ends hlayout hinner _ ?_ front tokens notes h hat).mono ?_
  · intro front t rest bracket h hk hstop hat
    refine absurd (.inr ?_) hstop
    rw [hall.head?_stack h hk hat]
    exact congrArg some hk
  · rintro f ⟨us, rest, htokens, hused, ⟨_, hstop⟩, hleaves⟩
    exact ⟨us, rest, htokens, hused, hstop, hleaves⟩

/-- By induction on the room. -/
theorem sequence_nests (hlayout : Layout source.text all) (hall : Regular all) (room : Nat)
    (stack : List Bracket) :
    (sequence source room).SoundAt (Overfull source all) all (Nests all room)
      (Leaves (room + 1) stack) := by
  induction room generalizing stack with
  | zero =>
    refine soundAt_leaves hall ?_
    intro front tokens opener bracket notes h ho hat
    cases tokens with
    | nil =>
      have hcloses := hall.closes h hat
      simp [closes, ho] at hcloses
    | cons t tokens =>
      -- the bracket that was read last takes the last level
      exact ⟨front ++ [opener], t, tokens, by simp [h], hat.fills ho, rfl⟩
  | succ room ih =>
    refine soundAt_leaves hall ?_
    intro front tokens opener bracket notes h ho hat
    have hitems := items_nests hlayout hall (ih (bracket :: stack)) (front ++ [opener]) tokens notes
      (by simp [h]) (hat.opening ho)
    rw [List.getLast?_concat] at hitems
    refine hitems.mono ?_
    rintro f ⟨us, rest, rfl, hused, hstop, hleaves⟩
    refine ⟨us, rest, rfl, hused, ⟨Nat.succ_pos room, fun {front' stack'} h' hat' => ?_⟩, hstop⟩
    -- what follows fixes the place, and the place fixes the open brackets
    obtain rfl : front' = front ++ [opener] := by
      have hfront : front' ++ (us ++ rest) = (front ++ [opener]) ++ (us ++ rest) := by
        rw [← List.append_assoc, ← h', h]
        simp
      exact List.append_cancel_right hfront
    obtain rfl : bracket :: stack = stack' := (hat.opening ho).stack_eq.symm.trans hat'.stack_eq
    exact hleaves

end Readers

/-- A well nested text without declarations is read to its end, or its levels are full. -/
theorem parse_nests {file text : Text} {markup : Bool} (hscan : (scan markup text).tooDeep = none)
    (hplain : ∀ t ∈ (scan markup text).tokens, t.kind.isUndeclared = true)
    (hnested : WellNested (scan markup text).tokens) :
    Ends (Overfull ⟨file, text, true⟩ (scan markup text).tokens)
      (fun _ => Shallow (scan markup text).tokens) (parse file text markup) := by
  obtain ⟨body, htokens, hkinds⟩ := (lexed_scan markup text).exists_finish
  have hall : Regular (scan markup text).tokens := by
    refine ⟨hplain, hnested, fun {front rest t} h hk => ?_⟩
    rcases List.eq_nil_or_concat' rest with rfl | ⟨rest, last, rfl⟩
    · rfl
    · rw [htokens, ← List.cons_append, ← List.append_assoc] at h
      exact absurd hk (hkinds t (by simp [(List.append_inj' h rfl).1]))
  have hlayout := layout_scan markup text
  have hitems := @items_nests ⟨file, text, true⟩ _ _ 255 [] hlayout hall
    (sequence_nests hlayout hall 255 []) [] (scan markup text).tokens .empty rfl
    ⟨shallow_nil, rfl, rfl⟩
  unfold parse parseTokens
  rw [hscan]
  refine hitems.bind ?_
  rintro f ⟨us, rest, hsplit, _, hstop, hleaves⟩
  have hend : headKind rest = .eof := hstop.resolve_right nofun
  change Shallow (scan markup text).tokens
  rw [hsplit]
  cases rest with
  | nil => simpa using hleaves.shallow
  | cons t rest =>
    have ht : t.kind = .eof := hend
    rw [hall.last hsplit ht]
    refine shallow_concat.mpr ⟨hleaves.shallow, ?_⟩
    rw [Token.opened_concat, ht, show Kind.eof.weight = 0 from rfl, Int.add_zero]
    exact hleaves.shallow us List.prefix_rfl

/-- A well nested text without declarations fails exactly when its levels are full somewhere,
at the token behind the first such place. -/
theorem parse_eq_error_iff_fills {file text : Text} {markup : Bool}
    (hscan : (scan markup text).tooDeep = none)
    (hplain : ∀ t ∈ (scan markup text).tokens, t.kind.isUndeclared = true)
    (hnested : WellNested (scan markup text).tokens) :
    ((∃ location limit, parse file text markup = .error (.tooDeep location limit)) ↔
      ∃ front, front <+: (scan markup text).tokens ∧ opened front = 256) ∧
    ∀ fault, parse file text markup = .error fault ↔
      ∃ front t rest, (scan markup text).tokens = front ++ t :: rest ∧ Fills front ∧
        fault = .tooDeep ⟨file, t.place.line, t.place.column⟩ 256 := by
  have hparse := @parse_nests file text markup hscan hplain hnested
  cases hresult : parse file text markup with
  | ok r =>
    rw [hresult] at hparse
    have hlow (front : List Token) (hfront : front <+: (scan markup text).tokens) :
        opened front ≠ 256 :=
      Int.ne_of_lt (hparse front hfront)
    refine ⟨⟨nofun, ?_⟩, fun fault => ⟨nofun, ?_⟩⟩
    · rintro ⟨front, hfront, hopened⟩
      exact absurd hopened (hlow front hfront)
    · rintro ⟨front, t, rest, htokens, hfills, _⟩
      exact absurd hfills.1 (hlow front ⟨t :: rest, htokens.symm⟩)
  | error fault =>
    rw [hresult] at hparse
    obtain ⟨front, t, rest, htokens, hfills, rfl⟩ := hparse
    have hfront : front <+: (scan markup text).tokens := ⟨t :: rest, htokens.symm⟩
    refine ⟨⟨fun _ => ⟨front, hfront, hfills.1⟩, fun _ => ⟨_, _, rfl⟩⟩, fun fault => ⟨?_, ?_⟩⟩
    · rintro ⟨⟩
      exact ⟨front, t, rest, htokens, hfills, rfl⟩
    · rintro ⟨front', t', rest', htokens', hfills', rfl⟩
      obtain rfl := hfills.eq hfills' hfront ⟨t' :: rest', htokens'.symm⟩
      rw [htokens, List.append_cancel_left_eq, List.cons.injEq] at htokens'
      rw [htokens'.1]
      rfl

/-- A pipe without a stage and the call of a stage take no level of their own. -/
theorem parse_eq_error_iff_fills_chain :
    let text := "a |> 1; b |> f".toList ++ List.replicate 255 '(' ++ "[c]".toList ++
      List.replicate 255 ')' ++ " |> g".toList
    parse [] text false = .error (.tooDeep ⟨[], 1, 271⟩ 256) := by
  intro text
  refine ((parse_eq_error_iff_fills ?_ ?_ ?_).2 _).mpr
    ⟨(scan false text).tokens.take 262 ++ [⟨.opening .square, ['['], ⟨269, 1, 270⟩⟩],
      ⟨.ident, ['c'], ⟨270, 1, 271⟩⟩, (scan false text).tokens.drop 264, ?_,
      fills_concat.mpr ⟨?_, ?_⟩, rfl⟩
  all_goals decide +kernel

end Node.Parse

end Desugar
