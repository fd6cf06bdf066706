import Desugar.Fault

/-! Cutting texts. A slice that exists splits the text in three, slices that meet put
together a longer one, and two boundaries in order always have a slice between them.
The second part states what a computation that may fail is known to end with. -/
namespace Desugar

namespace Text

/-! ### Boundaries and slices -/

/-- The offset `n` lies between two characters of the text, or at one of its ends. -/
def Boundary (text : Text) (n : Nat) : Prop :=
  ∃ before after, text = before ++ after ∧ width before = n

theorem eq_nil_of_width_eq_zero {s : Text} (h : width s = 0) : s = [] := by
  cases s with
  | nil => rfl
  | cons c s =>
    have hc := c.utf8Size_pos
    rw [width_cons] at h
    omega

theorem width_pos {s : Text} (h : s ≠ []) : 0 < width s :=
  Nat.pos_of_ne_zero fun h0 => h (eq_nil_of_width_eq_zero h0)

theorem append_inj_of_width {s s' t t' : Text} (h : s ++ t = s' ++ t') (hw : width s = width s') :
    s = s' ∧ t = t' := by
  have ht : some t = some t' := by
    rw [← dropBytes?_width s t, h, hw, dropBytes?_width]
  have ht' : t = t' := Option.some.inj ht
  subst ht'
  exact ⟨List.append_cancel_right h, rfl⟩

theorem dropBytes?_eq_some {n : Nat} {text rest : Text} (h : dropBytes? n text = some rest) :
    ∃ front, text = front ++ rest ∧ width front = n := by
  induction text generalizing n with
  | nil =>
    cases n with
    | zero => exact ⟨[], by simpa using h, rfl⟩
    | succ n => simp [dropBytes?] at h
  | cons c cs ih =>
    cases n with
    | zero => exact ⟨[], by simpa using h, rfl⟩
    | succ n =>
      simp only [dropBytes?] at h
      split at h
      · obtain ⟨front, rfl, hw⟩ := ih h
        exact ⟨c :: front, rfl, by rw [width_cons]; omega⟩
      · cases h

theorem takeBytes?_eq_some {n : Nat} {text piece : Text} (h : takeBytes? n text = some piece) :
    ∃ rest, text = piece ++ rest ∧ width piece = n := by
  induction text generalizing n piece with
  | nil =>
    cases n with
    | zero => exact ⟨[], by simpa [eq_comm] using h, by simp_all⟩
    | succ n => simp [takeBytes?] at h
  | cons c cs ih =>
    cases n with
    | zero => exact ⟨c :: cs, by simpa [eq_comm] using h, by simp_all⟩
    | succ n =>
      simp only [takeBytes?] at h
      split at h
      · obtain ⟨piece', hp, rfl⟩ := Option.map_eq_some_iff.mp h
        obtain ⟨rest, rfl, hw⟩ := ih hp
        exact ⟨rest, rfl, by rw [width_cons]; omega⟩
      · cases h

theorem slice?_eq_some_iff {text piece : Text} {a b : Nat} :
    slice? text a b = some piece ↔
      ∃ before after, text = before ++ piece ++ after ∧ width before = a ∧ a + width piece = b := by
  constructor
  · intro h
    unfold slice? at h
    split at h
    · obtain ⟨rest, hd, ht⟩ := Option.bind_eq_some_iff.mp h
      obtain ⟨before, rfl, hb⟩ := dropBytes?_eq_some hd
      obtain ⟨after, rfl, hp⟩ := takeBytes?_eq_some ht
      exact ⟨before, after, by simp, hb, by omega⟩
    · cases h
  · rintro ⟨before, after, rfl, rfl, rfl⟩
    exact slice?_append before piece after

theorem slice?_whole (text : Text) : slice? text 0 (width text) = some text :=
  slice?_eq_some_iff.mpr ⟨[], [], by simp⟩

theorem slice?_append_slice? {text p q : Text} {a b c : Nat} (h₁ : slice? text a b = some p)
    (h₂ : slice? text b c = some q) : slice? text a c = some (p ++ q) := by
  obtain ⟨s, u, hs, rfl, rfl⟩ := slice?_eq_some_iff.mp h₁
  obtain ⟨s', u', hs', hw, rfl⟩ := slice?_eq_some_iff.mp h₂
  rw [hs, List.append_assoc s' q u'] at hs'
  obtain ⟨rfl, rfl⟩ := append_inj_of_width hs' (by rw [width_append, hw])
  exact slice?_eq_some_iff.mpr ⟨s, u', by rw [hs]; simp, rfl, by rw [width_append]; omega⟩

namespace Boundary

variable {text : Text} {a b : Nat}

theorem zero (text : Text) : Boundary text 0 := ⟨[], text, rfl, rfl⟩

theorem width (text : Text) : Boundary text (Text.width text) := ⟨text, [], by simp, rfl⟩

theorem of_slice? {piece : Text} (h : slice? text a b = some piece) :
    Boundary text a ∧ Boundary text b := by
  obtain ⟨s, u, rfl, hs, hp⟩ := slice?_eq_some_iff.mp h
  exact ⟨⟨s, piece ++ u, by simp, hs⟩, ⟨s ++ piece, u, rfl, by rw [width_append]; omega⟩⟩

theorem slice?_self (h : Boundary text a) : slice? text a a = some [] := by
  obtain ⟨s, u, rfl, rfl⟩ := h
  exact slice?_eq_some_iff.mpr ⟨s, u, by simp⟩

/-- Between two boundaries there is a slice. -/
theorem exists_slice? (ha : Boundary text a) (hb : Boundary text b) (h : a ≤ b) :
    ∃ piece, slice? text a b = some piece := by
  obtain ⟨s, u, hs, rfl⟩ := ha
  obtain ⟨s', u', hs', rfl⟩ := hb
  rw [hs] at hs'
  rcases List.append_eq_append_iff.mp hs' with ⟨x, rfl, rfl⟩ | ⟨x, rfl, rfl⟩
  · exact ⟨x, slice?_eq_some_iff.mpr ⟨s, u', by rw [hs]; simp, rfl, by rw [width_append]⟩⟩
  · rw [width_append] at h
    have hx : x = [] := eq_nil_of_width_eq_zero (by omega)
    subst hx
    exact ⟨[], slice?_eq_some_iff.mpr ⟨s', u, by simpa using hs, by simp, by simp⟩⟩

end Boundary

/-- A slice inside another one is a piece of it. -/
theorem slice?_inside {text p q : Text} {a b c d : Nat} (hp : slice? text a d = some p)
    (hq : slice? text b c = some q) (hab : a ≤ b) (hcd : c ≤ d) :
    ∃ x y, p = x ++ q ++ y ∧ slice? text a b = some x ∧ slice? text c d = some y := by
  obtain ⟨ha, hd⟩ := Boundary.of_slice? hp
  obtain ⟨hb, hc⟩ := Boundary.of_slice? hq
  obtain ⟨x, hx⟩ := ha.exists_slice? hb hab
  obtain ⟨y, hy⟩ := hc.exists_slice? hd hcd
  have hall := slice?_append_slice? (slice?_append_slice? hx hq) hy
  exact ⟨x, y, Option.some.inj (hp.symm.trans hall), hx, hy⟩

end Text

/-! ### Outcomes -/

/-- A computation that may fail ends with a value in `P` or with a fault in `E`. -/
def Ends {α : Type} (E : Fault → Prop) (P : α → Prop) : Except Fault α → Prop
  | .ok a => P a
  | .error fault => E fault

/-- A computation that does not fail ends with a value in `P`. -/
abbrev Returns {α : Type} (P : α → Prop) : Except Fault α → Prop := Ends (fun _ => False) P

/-- A computation that may fail with any fault ends with a value in `P`. -/
abbrev Yields {α : Type} (P : α → Prop) : Except Fault α → Prop := Ends (fun _ => True) P

namespace Ends

variable {α β : Type} {E : Fault → Prop} {P : α → Prop} {Q : β → Prop}

theorem bind {x : Except Fault α} {f : α → Except Fault β} (hx : Ends E P x)
    (hf : ∀ a, P a → Ends E Q (f a)) : Ends E Q (x >>= f) := by
  cases x with
  | ok a => exact hf a hx
  | error fault => exact hx

theorem map {x : Except Fault α} {f : α → β} (hx : Ends E P x) (hf : ∀ a, P a → Q (f a)) :
    Ends E Q (x.map f) := by
  cases x with
  | ok a => exact hf a hx
  | error fault => exact hx

theorem mono {P' : α → Prop} {x : Except Fault α} (hx : Ends E P x) (h : ∀ a, P a → P' a) :
    Ends E P' x := by
  cases x with
  | ok a => exact h a hx
  | error fault => exact hx

theorem of_faults {E' : Fault → Prop} {x : Except Fault α} (hx : Ends E P x)
    (h : ∀ fault, E fault → E' fault) : Ends E' P x := by
  cases x with
  | ok a => exact hx
  | error fault => exact h fault hx

theorem and_yields {P' : α → Prop} {x : Except Fault α} (hx : Ends E P x) (hx' : Yields P' x) :
    Ends E (fun a => P a ∧ P' a) x := by
  cases x with
  | ok a => exact ⟨hx, hx'⟩
  | error fault => exact hx

theorem exists_ok {x : Except Fault α} (hx : Returns P x) : ∃ a, x = .ok a ∧ P a := by
  cases x with
  | ok a => exact ⟨a, rfl, hx⟩
  | error fault => exact hx.elim

theorem of_slice? {text piece : Text} {a b : Nat} (h : Text.slice? text a b = some piece) :
    Ends E (fun p => Text.slice? text a b = some p) (Text.slice text a b) := by
  unfold Text.slice
  rw [h]
  rfl

end Ends

/-- A computation whose outcome is known through `f` has that outcome. -/
theorem exists_ok_of_map {α β : Type} {x : Except Fault α} {f : α → β} {b : β}
    (h : x.toOption.map f = some b) :
    ∃ a, x = .ok a ∧ f a = b := by
  cases x with
  | ok a => exact ⟨a, rfl, Option.some.inj h⟩
  | error fault => cases h

end Desugar
