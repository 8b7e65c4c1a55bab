import Mathlib.Order.Bounds.Basic
import Mathlib.Order.Defs.LinearOrder
import Mathlib.Tactic.Ring

/-!
# Bisection among Scattered Entries

Bisection of an interval of indices of which only some carry a key, in nondecreasing order.
What is compared with the key searched for is the last entry not behind the middle; when there
is none, the half up to the middle is left (`Narrows`). A bisection meets an entry with the
key searched for, or narrows its interval until nothing is left of it (`Meets`).

## Main results

* `narrows_or_lastIn`: in an interval that is not empty a bisection goes on, or has met its key.
* `Narrows.flanks`: what is cut off lies on its side of the key.
* `meets_of_mem`: **a bisection for a key that is there meets it.**
* `Meets.unique`: at one place only.
-/

namespace Jos

variable {κ : Type} {key : ℤ → Option κ}

/-! ### Entries -/

/-- No entry in an interval. -/
def Free (key : ℤ → Option κ) (l r : ℤ) : Prop :=
  ∀ i, l ≤ i → i ≤ r → key i = none

/-- The last entry in an interval, and its key. -/
structure LastIn (key : ℤ → Option κ) (l r m : ℤ) (v : κ) : Prop where
  ge : l ≤ m
  le : m ≤ r
  carries : key m = some v
  free : Free key (m + 1) r

/-- Nothing in an empty interval. -/
theorem free_of_lt {l r : ℤ} (h : r < l) : Free key l r :=
  fun _ hl hr => absurd (hl.trans hr) (not_le.mpr h)

/-- A part of a free range is free. -/
theorem Free.mono {l r l' r' : ℤ} (h : Free key l r) (hl : l ≤ l') (hr : r' ≤ r) :
    Free key l' r' :=
  fun i hi hi' => h i (hl.trans hi) (hi'.trans hr)

/-- An entry is not in an interval without entries. -/
theorem Free.not_key {l r m : ℤ} {v : κ} (h : Free key l r) (hl : l ≤ m) (hr : m ≤ r) :
    key m ≠ some v := by
  rw [h m hl hr]
  exact (Option.some_ne_none v).symm

/-- A range with a last entry is not free. -/
theorem LastIn.not_free {l r m : ℤ} {v : κ} (h : LastIn key l r m v) : ¬ Free key l r :=
  fun hf => hf.not_key h.ge h.le h.carries

/-- There is one last entry. -/
theorem LastIn.unique {l r m m' : ℤ} {v v' : κ} (h : LastIn key l r m v)
    (h' : LastIn key l r m' v') : m = m' ∧ v = v' := by
  obtain rfl : m = m' := by
    rcases lt_trichotomy m m' with hlt | heq | hgt
    · exact absurd h'.carries (h.free.not_key (by omega) h'.le)
    · exact heq
    · exact absurd h.carries (h'.free.not_key (by omega) h.le)
  exact ⟨rfl, Option.some.inj (h.carries.symm.trans h'.carries)⟩

/-- There is a last entry, if any. Induction on the length of the interval. -/
theorem free_or_lastIn (key : ℤ → Option κ) (l r : ℤ) :
    Free key l r ∨ ∃ m v, LastIn key l r m v := by
  obtain ⟨n, hn⟩ : ∃ n, n = (r + 1 - l).toNat := ⟨_, rfl⟩
  induction n generalizing r with
  | zero => exact Or.inl (free_of_lt (by omega))
  | succ n ih =>
      cases hr : key r with
      | some v => exact Or.inr ⟨r, v, by omega, le_refl r, hr, free_of_lt (by omega)⟩
      | none =>
          have hfree : ∀ {k}, Free key k (r - 1) → Free key k r := by
            intro k h i hi hi'
            rcases eq_or_lt_of_le hi' with rfl | hlt
            · exact hr
            · exact h i hi (by omega)
          rcases ih (r - 1) (by omega) with h | ⟨m, v, hm⟩
          · exact Or.inl (hfree h)
          · exact Or.inr ⟨m, v, hm.ge, by have := hm.le; omega, hm.carries, hfree hm.free⟩

/-! ### Bisection -/

/-- The middle of an interval. -/
def mid (l r : ℤ) : ℤ :=
  (l + r) / 2

/-- The middle of a range is in it. -/
theorem mid_mem {l r : ℤ} (h : l ≤ r) : l ≤ mid l r ∧ mid l r ≤ r := by
  rw [mid]
  omega

variable [LinearOrder κ] {a : κ}

/-- The keys in an interval do not decrease. -/
def Ascending (key : ℤ → Option κ) (l r : ℤ) : Prop :=
  ∀ i j v w, l ≤ i → i ≤ j → j ≤ r → key i = some v → key j = some w → v ≤ w

/-- A part of an ascending range is ascending. -/
theorem Ascending.mono {l r l' r' : ℤ} (h : Ascending key l r) (hl : l ≤ l') (hr : r' ≤ r) :
    Ascending key l' r' :=
  fun i j v w hi hij hj => h i j v w (hl.trans hi) hij (hj.trans hr)

/-- One step of a bisection for the key `a`, from the interval from `l` to `r`. -/
inductive Narrows (key : ℤ → Option κ) (a : κ) (l r : ℤ) : ℤ → ℤ → Prop
  | free (h : Free key l (mid l r)) : Narrows key a l r (mid l r + 1) r
  | below {m : ℤ} {v : κ} (h : LastIn key l (mid l r) m v) (hv : v < a) :
      Narrows key a l r (mid l r + 1) r
  | above {m : ℤ} {v : κ} (h : LastIn key l (mid l r) m v) (hv : a < v) :
      Narrows key a l r l (m - 1)

/-- A bisection goes on, or has met its key. -/
theorem narrows_or_lastIn (key : ℤ → Option κ) (a : κ) (l r : ℤ) :
    (∃ l' r', Narrows key a l r l' r') ∨ ∃ m, LastIn key l (mid l r) m a := by
  rcases free_or_lastIn key l (mid l r) with h | ⟨m, v, h⟩
  · exact Or.inl ⟨_, _, .free h⟩
  rcases lt_trichotomy v a with hv | rfl | hv
  · exact Or.inl ⟨_, _, .below h hv⟩
  · exact Or.inr ⟨m, h⟩
  · exact Or.inl ⟨_, _, .above h hv⟩

/-- The interval gets smaller. -/
theorem Narrows.lt {l r l' r' : ℤ} (h : Narrows key a l r l' r') (hlr : l ≤ r) :
    (r' + 1 - l').toNat < (r + 1 - l).toNat := by
  obtain ⟨hl, hr⟩ := mid_mem hlr
  cases h with
  | free h => omega
  | below h hv => omega
  | above h hv =>
      have hm := h.ge
      have hm' := h.le
      omega

/-- A bisection goes one way. -/
theorem Narrows.unique {l r l₁ r₁ l₂ r₂ : ℤ} (h₁ : Narrows key a l r l₁ r₁)
    (h₂ : Narrows key a l r l₂ r₂) : l₁ = l₂ ∧ r₁ = r₂ := by
  cases h₁ with
  | free h =>
      cases h₂ with
      | free h' => exact ⟨rfl, rfl⟩
      | below h' hv' => exact ⟨rfl, rfl⟩
      | above h' hv' => exact absurd h h'.not_free
  | below h hv =>
      cases h₂ with
      | free h' => exact ⟨rfl, rfl⟩
      | below h' hv' => exact ⟨rfl, rfl⟩
      | above h' hv' => exact absurd ((h.unique h').2 ▸ hv) hv'.not_gt
  | above h hv =>
      cases h₂ with
      | free h' => exact absurd h' h.not_free
      | below h' hv' => exact absurd ((h.unique h').2 ▸ hv) hv'.not_gt
      | above h' hv' => exact ⟨rfl, by rw [(h.unique h').1]⟩

/-- Having met its key a bisection does not go on. -/
theorem LastIn.not_narrows {l r m l' r' : ℤ} (h : LastIn key l (mid l r) m a) :
    ¬ Narrows key a l r l' r' := by
  intro hn
  cases hn with
  | free h' => exact h.not_free h'
  | below h' hv => exact hv.ne (h.unique h').2.symm
  | above h' hv => exact hv.ne (h.unique h').2

/-! ### What is cut off -/

/-- What an interval has lost on either side, when it got smaller, lies on that side of the
key `a`, and on the right an entry is lost first. -/
structure Flanks (key : ℤ → Option κ) (a : κ) (l r l' r' : ℤ) : Prop where
  left : l ≤ l'
  right : r' ≤ r
  room : l ≤ r' + 1
  below : ∀ i v, l ≤ i → i < l' → key i = some v → v < a
  above : ∀ i v, r' < i → i ≤ r → key i = some v → a < v
  edge : r' = r ∨ ∃ v, key (r' + 1) = some v

/-- A range flanks what it is. -/
theorem Flanks.refl {l r : ℤ} (h : l ≤ r + 1) : Flanks key a l r l r where
  left := le_refl l
  right := le_refl r
  room := h
  below _ _ hi hi' := absurd hi (not_le.mpr hi')
  above _ _ hi hi' := absurd hi' (not_le.mpr hi)
  edge := Or.inl rfl

/-- What has been cut off in turn flanks what is left. -/
theorem Flanks.trans {l₁ r₁ l₂ r₂ l₃ r₃ : ℤ} (h : Flanks key a l₁ r₁ l₂ r₂)
    (h' : Flanks key a l₂ r₂ l₃ r₃) : Flanks key a l₁ r₁ l₃ r₃ where
  left := h.left.trans h'.left
  right := h'.right.trans h.right
  room := h.left.trans h'.room
  below i v hi hi' hv := by
    by_cases hlt : i < l₂
    · exact h.below i v hi hlt hv
    · exact h'.below i v (not_lt.mp hlt) hi' hv
  above i v hi hi' hv := by
    by_cases hlt : r₂ < i
    · exact h.above i v hlt hi' hv
    · exact h'.above i v hi (not_lt.mp hlt) hv
  edge := by
    rcases h'.edge with rfl | hkey
    · exact h.edge
    · exact Or.inr hkey

/-- **What a step cuts off** lies on its side of the key. -/
theorem Narrows.flanks {l r l' r' : ℤ} (h : Narrows key a l r l' r') (hlr : l ≤ r)
    (hasc : Ascending key l r) : Flanks key a l r l' r' := by
  obtain ⟨hl, hr⟩ := mid_mem hlr
  cases h with
  | free h =>
      refine ⟨by omega, le_refl r, by omega, fun i v hi hi' hv => ?_, ?_, Or.inl rfl⟩
      · exact absurd hv (h.not_key hi (by omega))
      · exact fun _ _ hi hi' => absurd hi' (not_le.mpr hi)
  | @below m w h hw =>
      refine ⟨by omega, le_refl r, by omega, fun i v hi hi' hv => ?_, ?_, Or.inl rfl⟩
      · have him : i ≤ m := not_lt.mp fun hlt => h.free.not_key (by omega) (by omega) hv
        exact (hasc i m v w hi him (h.le.trans hr) hv h.carries).trans_lt hw
      · exact fun _ _ hi hi' => absurd hi' (not_le.mpr hi)
  | @above m w h hw =>
      have hge := h.ge
      have hle := h.le
      refine ⟨le_refl l, by omega, by omega, fun _ _ hi hi' => absurd hi (not_le.mpr hi'), ?_,
        Or.inr ⟨w, by rw [sub_add_cancel]; exact h.carries⟩⟩
      exact fun i v hi hi' hv => hw.trans_le (hasc m i w v hge (by omega) hi' h.carries hv)

/-! ### Meeting the key -/

/-- The bisection for `a` of the interval from `l` to `r` meets an entry with that key, at `m`
when its interval ends at `e`. -/
inductive Meets (key : ℤ → Option κ) (a : κ) : ℤ → ℤ → ℤ → ℤ → Prop
  | here {l r m : ℤ} (hlr : l ≤ r) (h : LastIn key l (mid l r) m a) : Meets key a l r m r
  | next {l r l' r' m e : ℤ} (hlr : l ≤ r) (h : Narrows key a l r l' r')
      (hm : Meets key a l' r' m e) : Meets key a l r m e

/-- **It is met at one place.** -/
theorem Meets.unique {l r m₁ e₁ m₂ e₂ : ℤ} (h₁ : Meets key a l r m₁ e₁)
    (h₂ : Meets key a l r m₂ e₂) : m₁ = m₂ ∧ e₁ = e₂ := by
  induction h₁ with
  | here hlr h =>
      cases h₂ with
      | here hlr' h' => exact ⟨(h.unique h').1, rfl⟩
      | next hlr' h' hm' => exact absurd h' h.not_narrows
  | next hlr h hm ih =>
      cases h₂ with
      | here hlr' h' => exact absurd h h'.not_narrows
      | next hlr' h' hm' =>
          obtain ⟨rfl, rfl⟩ := h.unique h'
          exact ih hm'

/-- Where it is met. -/
theorem Meets.flanks {l r m e : ℤ} (h : Meets key a l r m e) (hasc : Ascending key l r) :
    key m = some a ∧ ∃ l', l' ≤ m ∧ m ≤ e ∧ Flanks key a l r l' e := by
  induction h with
  | here hlr h => exact ⟨h.carries, _, h.ge, h.le.trans (mid_mem hlr).2, .refl (by omega)⟩
  | next hlr h hm ih =>
      have hf := h.flanks hlr hasc
      obtain ⟨hkey, l', hl', he, hf'⟩ := ih (hasc.mono hf.left hf.right)
      exact ⟨hkey, l', hl', he, hf.trans hf'⟩

/-- **A bisection for a key that is there meets it.** Induction on the length of the
interval. -/
theorem meets_of_mem {l r i : ℤ} (hasc : Ascending key l r) (hl : l ≤ i) (hr : i ≤ r)
    (hi : key i = some a) : ∃ m e, Meets key a l r m e := by
  obtain ⟨n, hn⟩ : ∃ n, (r + 1 - l).toNat ≤ n := ⟨_, le_refl _⟩
  induction n generalizing l r with
  | zero => omega
  | succ n ih =>
      have hlr := hl.trans hr
      rcases narrows_or_lastIn key a l r with ⟨l', r', h⟩ | ⟨m, h⟩
      · have hf := h.flanks hlr hasc
        have hlt := h.lt hlr
        have hl' : l' ≤ i := not_lt.mp fun hlt => lt_irrefl a (hf.below i a hl hlt hi)
        have hr' : i ≤ r' := not_lt.mp fun hlt => lt_irrefl a (hf.above i a hlt hr hi)
        obtain ⟨m, e, hm⟩ := ih (hasc.mono hf.left hf.right) hl' hr' (by omega)
        exact ⟨m, e, .next hlr h hm⟩
      · exact ⟨m, r, .here hlr h⟩

end Jos
