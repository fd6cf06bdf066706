import Mathlib.Data.List.TakeWhile
import Desugar.Pass
import Desugar.Proofs.Stretches

/-! Sets of passes. A set keeps its passes in a list, and two sets are compared by their lists.
The lists stand in the standard order without repetition, whatever names a set is made from and
whatever passes are enabled and disabled in it later, so that a set is determined by the passes
that it enables. -/
namespace Desugar

open Unicode

/-! ### Names up to case and blanks -/

namespace Text

/-- `text` is `body` with blanks around it. -/
def Padded (body text : Text) : Prop :=
  ∃ before after, text = before ++ (body ++ after) ∧ (∀ c ∈ before, isBlank c = true) ∧
    ∀ c ∈ after, isBlank c = true

/-- Texts that differ only in the case of ASCII letters and in the blanks around them. -/
def Alike (s t : Text) : Prop := ∃ u v, Padded u s ∧ Padded v t ∧ lower u = lower v

theorem Alike.symm {s t : Text} (h : Alike s t) : Alike t s := by
  obtain ⟨u, v, hu, hv, huv⟩ := h
  exact ⟨v, u, hv, hu, huv.symm⟩

theorem padded_trim (s : Text) : Padded (trim s) s := by
  obtain ⟨before, after, hs, hbefore, hafter, -⟩ := exists_trim s
  exact ⟨before, after, hs, hbefore, hafter⟩

theorem trimEnd_append_blanks (s : Text) {after : Text} (h : ∀ c ∈ after, isBlank c = true) :
    trimEnd (s ++ after) = trimEnd s := by
  rw [trimEnd, List.reverse_append,
    List.dropWhile_append_of_pos fun c hc => h c (List.mem_reverse.mp hc), trimEnd]

theorem trim_append_blanks (s : Text) {after : Text} (h : ∀ c ∈ after, isBlank c = true) :
    trim (s ++ after) = trim s := by
  rw [trim, trim, trimStart, trimStart, List.dropWhile_append]
  split
  next hnil =>
    -- a blank text goes on into the blanks behind it
    rw [List.isEmpty_iff.mp hnil, List.dropWhile_eq_nil_iff.mpr h]
  next => exact trimEnd_append_blanks _ h

theorem Padded.trim_eq {body text : Text} (h : Padded body text) : trim text = trim body := by
  obtain ⟨before, after, rfl, hbefore, hafter⟩ := h
  rw [trim, trimStart, List.dropWhile_append_of_pos hbefore]
  exact trim_append_blanks body hafter

/-- The ASCII blanks stand before the letters. -/
theorem isBlank_eq_false_of_toNat {c : Char} (hle : 65 ≤ c.toNat) (hlt : c.toNat < 128) :
    isBlank c = false := by
  have hspace : (c == ' ') = false := by
    rw [beq_eq_false_iff_ne]
    rintro rfl
    exact absurd hle (by decide)
  have htab : ¬ c.toNat ≤ 13 := by omega
  simp [isBlank, isAscii, hspace, htab, hlt]

theorem isBlank_toLower (c : Char) : isBlank c.toLower = isBlank c := by
  unfold Char.toLower
  split
  next hc =>
    have hle : 65 ≤ c.toNat := UInt32.le_iff_toNat_le.mp hc.1
    have hge : c.toNat ≤ 90 := UInt32.le_iff_toNat_le.mp hc.2
    have hadd : (c.val + ('a'.val - 'A'.val)).toNat = c.toNat + 32 := by
      rw [UInt32.toNat_add]
      exact Nat.mod_eq_of_lt (by change c.toNat + 32 < 4294967296; omega)
    rw [isBlank_eq_false_of_toNat hle (by omega)]
    exact isBlank_eq_false_of_toNat (Nat.le_trans (by omega) hadd.ge)
      (Nat.lt_of_le_of_lt hadd.le (by omega))
  next => rfl

theorem lower_trim (s : Text) : lower (trim s) = trim (lower s) := by
  have hblank : isBlank ∘ Char.toLower = isBlank := funext isBlank_toLower
  simp only [trim, trimEnd, trimStart, lower, List.dropWhile_map, ← List.map_reverse, hblank]

theorem alike_iff {s t : Text} : Alike s t ↔ lower (trim s) = lower (trim t) := by
  constructor
  · rintro ⟨u, v, hu, hv, huv⟩
    rw [hu.trim_eq, hv.trim_eq, lower_trim, lower_trim, huv]
  · exact fun h => ⟨trim s, trim t, padded_trim s, padded_trim t, h⟩

end Text

/-! ### The standard order -/

namespace Pass

variable {p q r : Pass} {ps qs : List Pass}

/-- `p` comes before `q` in the standard order. -/
def Before (p q : Pass) : Prop := all.idxOf p < all.idxOf q

theorem mem_all (p : Pass) : p ∈ all := by cases p <;> decide

theorem rank_eq_idxOf (p : Pass) : p.rank = all.idxOf p := by cases p <;> rfl

theorem Before.trans (h : p.Before q) (h' : q.Before r) : p.Before r := Nat.lt_trans h h'

theorem Before.ne (h : p.Before q) : p ≠ q := by
  rintro rfl
  exact Nat.lt_irrefl _ h

theorem before_of_ne (hne : p ≠ q) (h : ¬ p.Before q) : q.Before p := by
  have hidx : all.idxOf p ≠ all.idxOf q := fun heq => hne ((List.idxOf_inj (mem_all p)).mp heq)
  unfold Before at h ⊢
  omega

theorem mem_insert : q ∈ p.insert ps ↔ q = p ∨ q ∈ ps := by
  induction ps with
  | nil => rw [insert, List.mem_singleton, or_iff_left List.not_mem_nil]
  | cons r ps ih =>
    rw [insert]
    split
    next => grind
    next =>
      split
      next => exact List.mem_cons
      next => grind

theorem pairwise_insert (p : Pass) (h : ps.Pairwise Before) : (p.insert ps).Pairwise Before := by
  induction ps with
  | nil => exact List.pairwise_singleton Before p
  | cons q ps ih =>
    obtain ⟨hq, hps⟩ := List.pairwise_cons.mp h
    rw [insert, rank_eq_idxOf, rank_eq_idxOf]
    split
    next => exact h
    next hne =>
      split
      next hlt =>
        refine List.pairwise_cons.mpr ⟨fun r hr => ?_, h⟩
        rcases List.mem_cons.mp hr with rfl | hr
        · exact hlt
        · exact Before.trans hlt (hq r hr)
      next hlt =>
        refine List.pairwise_cons.mpr ⟨fun r hr => ?_, ih hps⟩
        rcases mem_insert.mp hr with rfl | hr
        · exact before_of_ne hne hlt
        · exact hq r hr

/-- Passes have one list in standard order. -/
theorem eq_of_pairwise (hps : ps.Pairwise Before) (hqs : qs.Pairwise Before)
    (h : ∀ p, p ∈ ps ↔ p ∈ qs) : ps = qs := by
  have hperm : ps.Perm qs :=
    (List.perm_ext_iff_of_nodup (hps.imp Before.ne) (hqs.imp Before.ne)).mpr h
  exact hperm.eq_of_pairwise (fun p q _ _ hpq hqp => absurd rfl (hpq.trans hqp).ne) hps hqs

/-- A new pass gets the place that sorting would give it, were it added at the end. -/
theorem insert_eq_mergeSort (h : ps.Pairwise Before) (hp : p ∉ ps) :
    p.insert ps = (ps ++ [p]).mergeSort (fun q r => q.rank ≤ r.rank) := by
  have htrans (q r s : Pass) (hqr : decide (q.rank ≤ r.rank) = true)
      (hrs : decide (r.rank ≤ s.rank) = true) : decide (q.rank ≤ s.rank) = true :=
    decide_eq_true (Nat.le_trans (of_decide_eq_true hqr) (of_decide_eq_true hrs))
  have htotal (q r : Pass) : (decide (q.rank ≤ r.rank) || decide (r.rank ≤ q.rank)) = true := by
    simp only [Bool.or_eq_true, decide_eq_true_eq]
    exact Nat.le_total q.rank r.rank
  have hsorted := List.pairwise_mergeSort htrans htotal (ps ++ [p])
  have hperm : ((ps ++ [p]).mergeSort (fun q r => q.rank ≤ r.rank)).Perm (p :: ps) :=
    (List.mergeSort_perm _ _).trans (List.perm_append_singleton p ps)
  have hnodup : (p :: ps).Nodup := List.nodup_cons.mpr ⟨hp, h.imp Before.ne⟩
  refine eq_of_pairwise (pairwise_insert p h) ?_ fun q => ?_
  · -- sorting leaves equal passes beside each other, but there are none
    refine (hsorted.and (hperm.nodup_iff.mpr hnodup)).imp fun {q r} hqr => ?_
    have hle : q.rank ≤ r.rank := of_decide_eq_true hqr.1
    rw [rank_eq_idxOf, rank_eq_idxOf] at hle
    exact Nat.lt_of_le_of_ne hle fun heq => hqr.2 ((List.idxOf_inj (mem_all q)).mp heq)
  · rw [hperm.mem_iff, mem_insert, List.mem_cons]

/-! ### Names of passes -/

theorem lower_trim_name (p : Pass) : Text.lower (Text.trim p.name) = p.name := by
  cases p <;> decide +kernel

theorem ofName?_eq_some_iff {name : Text} : ofName? name = some p ↔ Text.Alike name p.name := by
  rw [Text.alike_iff, lower_trim_name]
  constructor
  · intro h
    have hname := List.find?_some h
    exact (eq_of_beq hname).symm
  · intro h
    rw [ofName?, h]
    cases p <;> rfl

theorem ofName?_congr {name other : Text} (h : Text.Alike name other) :
    ofName? name = ofName? other := by
  rw [ofName?, ofName?, Text.alike_iff.mp h]

/-- `name` is the first of the names that is not the name of a pass. -/
def FirstUnknown (names : List Text) (name : Text) : Prop :=
  ∃ before after, names = before ++ name :: after ∧
    (∀ known ∈ before, (ofName? known).isSome = true) ∧ ofName? name = none

theorem exists_firstUnknown {names : List Text}
    (h : ¬ ∀ name ∈ names, (ofName? name).isSome = true) : ∃ name, FirstUnknown names name := by
  cases hfind : names.find? fun name => (ofName? name).isNone with
  | none =>
    refine absurd (fun name hname => ?_) h
    simpa [← Option.isSome_iff_ne_none] using List.find?_eq_none.mp hfind name hname
  | some name =>
    obtain ⟨hname, before, after, hnames, hbefore⟩ := List.find?_eq_some_iff_append.mp hfind
    refine ⟨name, before, after, hnames, fun known hknown => ?_, Option.isNone_iff_eq_none.mp hname⟩
    simpa using hbefore known hknown

/-- Lists with the same names up to case and blanks, in any order and any number. -/
def SameNames (names others : List Text) : Prop :=
  (∀ name ∈ names, ∃ other ∈ others, Text.Alike name other) ∧
    ∀ other ∈ others, ∃ name ∈ names, Text.Alike name other

namespace SameNames

variable {names others : List Text}

theorem symm (h : SameNames names others) : SameNames others names := by
  constructor
  · intro other hother
    obtain ⟨name, hname, halike⟩ := h.2 other hother
    exact ⟨name, hname, halike.symm⟩
  · intro name hname
    obtain ⟨other, hother, halike⟩ := h.1 name hname
    exact ⟨other, hother, halike.symm⟩

theorem eq_nil (h : SameNames names others) (hnames : names = []) : others = [] := by
  refine List.eq_nil_iff_forall_not_mem.mpr fun other hother => ?_
  obtain ⟨name, hname, -⟩ := h.2 other hother
  rw [hnames] at hname
  exact List.not_mem_nil hname

theorem exists_ofName? (h : SameNames names others)
    (hp : ∃ name ∈ names, ofName? name = some p) : ∃ other ∈ others, ofName? other = some p := by
  obtain ⟨name, hname, hp⟩ := hp
  obtain ⟨other, hother, halike⟩ := h.1 name hname
  exact ⟨other, hother, ofName?_congr halike ▸ hp⟩

end SameNames

end Pass

namespace Passes

variable {passes others : Passes} {p q : Pass}

/-! ### Switching passes on and off -/

/-- The enabled passes stand in their standard order, each of them once. -/
def Increasing (passes : Passes) : Prop := passes.order.Pairwise Pass.Before

theorem increasing_standard : standard.Increasing := by
  unfold Increasing standard Pass.Before
  decide

theorem increasing_none : none.Increasing := List.Pairwise.nil

theorem enabled_iff_mem : passes.enabled p = true ↔ p ∈ passes.order := List.contains_iff_mem

/-- Increasing orders are as good as sets. -/
theorem Increasing.eq_iff (h : passes.Increasing) (h' : others.Increasing) :
    passes = others ↔ ∀ p, passes.enabled p = others.enabled p := by
  constructor
  · rintro rfl p
    rfl
  · intro henabled
    have horder : passes.order = others.order := by
      refine Pass.eq_of_pairwise h h' fun p => ?_
      rw [← enabled_iff_mem, ← enabled_iff_mem, henabled p]
    cases passes
    cases others
    exact congrArg mk horder

theorem enabled_enable :
    (passes.enable p).enabled q = if p = q then true else passes.enabled q := by
  rw [Bool.eq_iff_iff, enabled_iff_mem, enable, Pass.mem_insert]
  split
  next heq => simp [heq]
  next hne => rw [or_iff_right (Ne.symm hne), enabled_iff_mem]

theorem enabled_disable :
    (passes.disable p).enabled q = if p = q then false else passes.enabled q := by
  rw [Bool.eq_iff_iff, enabled_iff_mem, disable, List.mem_filter]
  split
  next heq => simp [heq]
  next hne => simp [enabled_iff_mem, Ne.symm hne]

/-- A pass that is enabled, or else disabled. -/
structure Switch where
  pass : Pass
  on : Bool
deriving DecidableEq, Repr

namespace Switch

variable (s : Switch)

def run (passes : Passes) : Passes :=
  if s.on then passes.enable s.pass else passes.disable s.pass

theorem increasing_run (h : passes.Increasing) : (s.run passes).Increasing := by
  unfold run
  split
  next => exact Pass.pairwise_insert s.pass h
  next => exact h.filter _

theorem enabled_run : (s.run passes).enabled p = if s.pass = p then s.on else passes.enabled p := by
  unfold run
  split
  next hon => rw [enabled_enable, hon]
  next hoff => rw [enabled_disable, eq_false_of_ne_true hoff]

end Switch

/-- The set after some switches, one after the other. -/
def run (passes : Passes) (switches : List Switch) : Passes :=
  switches.foldl (fun passes s => s.run passes) passes

theorem run_cons (passes : Passes) (s : Switch) (switches : List Switch) :
    passes.run (s :: switches) = (s.run passes).run switches := rfl

theorem Increasing.run (h : passes.Increasing) (switches : List Switch) :
    (passes.run switches).Increasing := by
  induction switches generalizing passes with
  | nil => exact h
  | cons s switches ih => exact ih (s.increasing_run h)

/-- The last switch of a pass decides. -/
theorem enabled_run (passes : Passes) (switches : List Switch) (p : Pass) :
    (passes.run switches).enabled p =
      (switches.filter (·.pass == p)).getLast?.elim (passes.enabled p) Switch.on := by
  induction switches generalizing passes with
  | nil => rfl
  | cons s switches ih =>
    rw [run_cons, ih, s.enabled_run, List.filter_cons]
    by_cases hp : s.pass = p
    · -- `s` decides where no later switch is of the same pass
      rw [if_pos hp, if_pos (beq_iff_eq.mpr hp), List.getLast?_cons]
      cases (switches.filter (·.pass == p)).getLast? <;> rfl
    · rw [if_neg hp, if_neg (mt beq_iff_eq.mp hp)]

/-! ### Sets from names -/

/-- The switches that enable the passes of the names. -/
def switchesOf (names : List Text) : List Switch := (names.filterMap Pass.ofName?).map (⟨·, true⟩)

theorem enabled_run_switchesOf (names : List Text) :
    (none.run (switchesOf names)).enabled p = true ↔
      ∃ name ∈ names, Pass.ofName? name = some p := by
  have hfilter : (switchesOf names).filter (·.pass == p) =
      List.replicate ((names.filterMap Pass.ofName?).count p) ⟨p, true⟩ :=
    calc (switchesOf names).filter (·.pass == p)
      _ = ((names.filterMap Pass.ofName?).filter (· == p)).map (⟨·, true⟩) := List.filter_map
      _ = _ := by rw [List.filter_beq, List.map_replicate]
  rw [enabled_run, hfilter, List.getLast?_replicate, ← List.mem_filterMap, ← List.count_pos_iff]
  split
  next hzero => simp [hzero, none, enabled]
  next hpos => simp [Nat.pos_of_ne_zero hpos]

/-- Names of passes enable them before what follows is read. -/
theorem enableNames_append (passes : Passes) {before : List Text}
    (h : ∀ name ∈ before, (Pass.ofName? name).isSome = true) (after : List Text) :
    passes.enableNames (before ++ after) = (passes.run (switchesOf before)).enableNames after := by
  induction before generalizing passes with
  | nil => rfl
  | cons name before ih =>
    obtain ⟨p, hp⟩ := Option.isSome_iff_exists.mp (h name List.mem_cons_self)
    rw [List.cons_append, enableNames, hp, switchesOf, List.filterMap_cons_some hp, List.map_cons,
      run_cons]
    exact ih (passes.enable p) fun other hother => h other (List.mem_cons_of_mem name hother)

theorem ofNames_eq_enableNames {names : List Text} (h : names ≠ []) :
    ofNames names = none.enableNames names := by
  rw [ofNames, if_neg (by simpa using h)]

theorem ofNames_of_known {names : List Text} (hne : names ≠ [])
    (h : ∀ name ∈ names, (Pass.ofName? name).isSome = true) :
    ofNames names = .ok (none.run (switchesOf names)) := by
  have happend := none.enableNames_append h []
  rw [List.append_nil] at happend
  rw [ofNames_eq_enableNames hne, happend]
  rfl

theorem ofNames_of_firstUnknown {names : List Text} {name : Text}
    (h : Pass.FirstUnknown names name) :
    ofNames names = .error (.config (.unknownPass name)) := by
  obtain ⟨before, after, rfl, hbefore, hname⟩ := h
  rw [ofNames_eq_enableNames (by simp), enableNames_append none hbefore, enableNames, hname]

theorem exists_ofNames {names : List Text}
    (h : ∀ name ∈ names, (Pass.ofName? name).isSome = true) :
    ∃ passes, ofNames names = .ok passes ∧ passes.Increasing ∧
      ∀ p, passes.enabled p = true ↔ names = [] ∨ ∃ name ∈ names, Pass.ofName? name = some p := by
  by_cases hne : names = []
  · refine ⟨standard, by rw [hne]; rfl, increasing_standard, fun p => ?_⟩
    exact iff_of_true (enabled_standard p) (.inl hne)
  · refine ⟨_, ofNames_of_known hne h, increasing_none.run (switchesOf names), fun p => ?_⟩
    rw [enabled_run_switchesOf, or_iff_right hne]

/-- The set of some names is the only one in standard order that enables their passes. -/
theorem ofNames_eq_ok_iff {names : List Text} :
    ofNames names = .ok passes ↔
      (∀ name ∈ names, (Pass.ofName? name).isSome = true) ∧ passes.Increasing ∧
        ∀ p, passes.enabled p = true ↔
          names = [] ∨ ∃ name ∈ names, Pass.ofName? name = some p := by
  by_cases hknown : ∀ name ∈ names, (Pass.ofName? name).isSome = true
  · obtain ⟨chosen, hchosen, hincreasing, henabled⟩ := exists_ofNames hknown
    rw [hchosen, Except.ok.injEq]
    constructor
    · rintro rfl
      exact ⟨hknown, hincreasing, henabled⟩
    · rintro ⟨-, hincreasing', henabled'⟩
      refine (hincreasing.eq_iff hincreasing').mpr fun p => ?_
      rw [Bool.eq_iff_iff, henabled, henabled']
  · obtain ⟨name, hname⟩ := Pass.exists_firstUnknown hknown
    rw [ofNames_of_firstUnknown hname]
    exact iff_of_false (by rintro ⟨⟩) fun h => hknown h.1

theorem ofNames_eq_error_iff {names : List Text} {fault : Fault} :
    ofNames names = .error fault ↔
      ∃ name, Pass.FirstUnknown names name ∧ fault = .config (.unknownPass name) := by
  constructor
  · intro h
    have hunknown : ¬ ∀ name ∈ names, (Pass.ofName? name).isSome = true := by
      intro hknown
      obtain ⟨passes, hpasses, -⟩ := exists_ofNames hknown
      rw [hpasses] at h
      cases h
    obtain ⟨name, hname⟩ := Pass.exists_firstUnknown hunknown
    rw [ofNames_of_firstUnknown hname, Except.error.injEq] at h
    exact ⟨name, hname, h.symm⟩
  · rintro ⟨name, hname, rfl⟩
    exact ofNames_of_firstUnknown hname

theorem ofNames_eq_ok_of_sameNames {names others : List Text} (h : Pass.SameNames names others)
    (hpasses : ofNames names = .ok passes) : ofNames others = .ok passes := by
  obtain ⟨hknown, hincreasing, henabled⟩ := ofNames_eq_ok_iff.mp hpasses
  refine ofNames_eq_ok_iff.mpr ⟨fun other hother => ?_, hincreasing, fun p => ?_⟩
  · obtain ⟨name, hname, halike⟩ := h.2 other hother
    rw [← Pass.ofName?_congr halike]
    exact hknown name hname
  · rw [henabled]
    exact or_congr ⟨h.eq_nil, h.symm.eq_nil⟩ ⟨h.exists_ofName?, h.symm.exists_ofName?⟩

/-- The sets that one comes to from names by switching passes on and off. -/
def Reachable (passes : Passes) : Prop :=
  ∃ names start switches, ofNames names = .ok start ∧ passes = start.run switches

theorem Reachable.increasing (h : passes.Reachable) : passes.Increasing := by
  obtain ⟨names, start, switches, hstart, rfl⟩ := h
  exact (ofNames_eq_ok_iff.mp hstart).2.1.run switches

/-- To enable a pass is to add it at the end and to sort. -/
theorem Reachable.order_enable (h : passes.Reachable) (hp : passes.enabled p = false) :
    (passes.enable p).order = (passes.order ++ [p]).mergeSort (fun q r => q.rank ≤ r.rank) :=
  Pass.insert_eq_mergeSort h.increasing fun hmem => by
    rw [enabled_iff_mem.mpr hmem] at hp
    cases hp

theorem message_unknownPass (name : Text) :
    (Fault.config (.unknownPass name)).message =
      "config: passe inconnue `" ++ String.ofList name ++ "`" := by
  have hlead : "config: " ++ "passe inconnue `" = "config: passe inconnue `" := by decide +kernel
  change "config: " ++ ("passe inconnue `" ++ String.ofList name ++ "`") = _
  rw [← hlead, String.append_assoc, String.append_assoc, String.append_assoc]

/-- Sets of passes are canonical. A name is that of a pass in any case and with blanks around it;
names are refused for the first of them that is not, and otherwise give the set of their passes,
or of all passes where there is no name. The order of this set is increasing, so the same names
give the same set. Switches keep the order increasing, and the last switch of a pass decides
whether it is enabled. In all sets that are reached so, a pass is enabled by adding it at the end
and sorting, and sets that enable the same passes are equal. -/
theorem ofNames_canonical :
    (∀ name p, Pass.ofName? name = some p ↔ Text.Alike name p.name) ∧
    (∀ names, (∃ passes, ofNames names = .ok passes) ↔
      ∀ name ∈ names, (Pass.ofName? name).isSome = true) ∧
    (∀ names fault, ofNames names = .error fault ↔ ∃ name, Pass.FirstUnknown names name ∧
      fault = .config (.unknownPass name) ∧
      fault.message = "config: passe inconnue `" ++ String.ofList name ++ "`") ∧
    (∀ names passes, ofNames names = .ok passes → passes.Increasing ∧
      ∀ p, passes.enabled p = true ↔ names = [] ∨ ∃ name ∈ names, Pass.ofName? name = some p) ∧
    (∀ names others passes, Pass.SameNames names others →
      (ofNames names = .ok passes ↔ ofNames others = .ok passes)) ∧
    (∀ names start switches, ofNames names = .ok start → (start.run switches).Increasing ∧
      ∀ p, (start.run switches).enabled p =
        (switches.filter (·.pass == p)).getLast?.elim (start.enabled p) Switch.on) ∧
    (∀ (passes : Passes) (p : Pass), passes.Reachable → passes.enabled p = false →
      (passes.enable p).order = (passes.order ++ [p]).mergeSort (fun q r => q.rank ≤ r.rank)) ∧
    ∀ passes others : Passes, passes.Reachable → others.Reachable →
      (passes = others ↔ ∀ p, passes.enabled p = others.enabled p) := by
  refine ⟨fun name p => Pass.ofName?_eq_some_iff, fun names => ?_, fun names fault => ?_,
    fun names passes h => (ofNames_eq_ok_iff.mp h).2, fun names others passes h => ?_,
    fun names start switches h => ?_, fun passes p h hp => h.order_enable hp,
    fun passes others h h' => h.increasing.eq_iff h'.increasing⟩
  · constructor
    · rintro ⟨passes, h⟩
      exact (ofNames_eq_ok_iff.mp h).1
    · intro h
      obtain ⟨passes, hpasses, -⟩ := exists_ofNames h
      exact ⟨passes, hpasses⟩
  · rw [ofNames_eq_error_iff]
    refine exists_congr fun name => and_congr_right fun _ => ?_
    refine (and_iff_left_of_imp fun hfault => ?_).symm
    rw [hfault, message_unknownPass]
  · exact ⟨ofNames_eq_ok_of_sameNames h, ofNames_eq_ok_of_sameNames h.symm⟩
  · exact ⟨(ofNames_eq_ok_iff.mp h).2.1.run switches, enabled_run start switches⟩

/-- Two ways to write a list of names, one way to refuse another, and two ways to one set. -/
theorem ofNames_canonical_struct_pipe :
    ofNames [" PIPE\u00a0".toList, "Struct".toList, "pipe".toList] = .ok ⟨[.struct, .pipe]⟩ ∧
    Pass.SameNames [" PIPE\u00a0".toList, "Struct".toList, "pipe".toList]
      ["struct".toList, "pipe".toList] ∧
    ofNames ["struct".toList, "pipe".toList] = .ok ⟨[.struct, .pipe]⟩ ∧
    (∃ fault, ofNames ["Let".toList, " Type".toList, "macro".toList] = .error fault ∧
      fault.message = "config: passe inconnue ` Type`") ∧
    (run ⟨[.struct, .pipe]⟩ [⟨.struct, false⟩, ⟨.trait, true⟩, ⟨.struct, true⟩]).Increasing ∧
    [Pass.struct, .pipe, .impl].mergeSort (fun q r => q.rank ≤ r.rank) = [.struct, .impl, .pipe] ∧
    run ⟨[.struct, .pipe]⟩ [⟨.struct, false⟩, ⟨.trait, true⟩, ⟨.struct, true⟩] =
      run standard [⟨.binding, false⟩, ⟨.impl, false⟩] := by
  obtain ⟨-, -, herror, -, hsame, hrun, hsort, hequal⟩ := ofNames_canonical
  have hnames : ofNames [" PIPE\u00a0".toList, "Struct".toList, "pipe".toList] =
      .ok ⟨[.struct, .pipe]⟩ := by decide +kernel
  have halike : Pass.SameNames [" PIPE\u00a0".toList, "Struct".toList, "pipe".toList]
      ["struct".toList, "pipe".toList] := by
    simp only [Pass.SameNames, Text.alike_iff]
    decide +kernel
  refine ⟨hnames, halike, (hsame _ _ _ halike).mp hnames, ?_, (hrun _ _ _ hnames).1,
    (hsort _ .impl ⟨_, _, [], hnames, rfl⟩ rfl).symm, ?_⟩
  · have hunknown : Pass.FirstUnknown ["Let".toList, " Type".toList, "macro".toList]
        " Type".toList :=
      ⟨["Let".toList], ["macro".toList], rfl, by decide +kernel, by decide +kernel⟩
    exact ⟨_, (herror _ _).mpr ⟨_, hunknown, rfl, message_unknownPass _⟩, by decide +kernel⟩
  · refine (hequal _ _ ⟨_, _, _, hnames, rfl⟩ ⟨[], standard, _, rfl, rfl⟩).mpr fun p => ?_
    cases p <;> decide +kernel

end Passes

end Desugar
