import Mathlib.Data.List.Induction
import Mathlib.Data.Nat.ModEq
import Mathlib.Logic.Function.Basic
import Mathlib.Tactic.Common

/-!
# Ring Buffers

A ring of `N` slots with a read and a write position, each wrapped to 0 by a comparison
after it is advanced. Empty and full are told apart by leaving a slot free: a ring that
*holds* a queue (`Ring.Holds`) holds fewer than `N` elements, and is empty exactly when
the positions meet.

## Main results

* `Ring.Holds.push`: pushing appends to the queue, as long as there is room.
* `Ring.Holds.pop`: popping removes the head of the queue, and returns it.
* `Ring.Holds.pos_eq_iff`: the positions meet exactly when the queue is empty.
* `Ring.Holds.pushes`: what is left of the queue when the writer laps the reader.
-/

namespace Jos

/-- A ring buffer. -/
structure Ring (α : Type*) where
  buf : ℕ → α
  rpos : ℕ
  wpos : ℕ

namespace Ring

variable {α : Type*} {N : ℕ}

/-- The next position in a ring of `N` slots. -/
def next (N pos : ℕ) : ℕ :=
  if pos + 1 = N then 0 else pos + 1

/-- Store at the write position and advance it. -/
def push (N : ℕ) (x : α) (r : Ring α) : Ring α :=
  { r with buf := Function.update r.buf r.wpos x, wpos := next N r.wpos }

/-- Read at the read position and advance it. -/
def pop (N : ℕ) (r : Ring α) : α × Ring α :=
  (r.buf r.rpos, { r with rpos := next N r.rpos })

/-- The ring holds the queue `q`: its elements are in the slots from the read position on,
around the end, and the write position is the slot after the last. -/
structure Holds (N : ℕ) (r : Ring α) (q : List α) : Prop where
  rpos_lt : r.rpos < N
  length_lt : q.length < N
  wpos_eq : r.wpos = (r.rpos + q.length) % N
  slot : ∀ i (h : i < q.length), r.buf ((r.rpos + i) % N) = q[i]

/-! ### Positions -/

/-- The next position, with the wrap as a remainder. -/
theorem next_eq {pos : ℕ} (h : pos < N) : next N pos = (pos + 1) % N := by
  rw [next]
  split
  · rename_i heq
    rw [heq, Nat.mod_self]
  · rw [Nat.mod_eq_of_lt (by omega)]

/-- Fewer than `N` steps around the ring do not come back. -/
theorem add_mod_inj {p i j : ℕ} (hi : i < N) (hj : j < N) (h : (p + i) % N = (p + j) % N) :
    i = j := by
  have hmod : i % N = j % N := Nat.ModEq.add_left_cancel' p h
  rwa [Nat.mod_eq_of_lt hi, Nat.mod_eq_of_lt hj] at hmod

namespace Holds

variable {r : Ring α} {q : List α}

/-- The write position is in the ring. -/
theorem wpos_lt (h : Holds N r q) : r.wpos < N := by
  rw [h.wpos_eq]
  exact Nat.mod_lt _ (Nat.lt_of_le_of_lt (Nat.zero_le _) h.rpos_lt)

/-- A ring whose positions meet holds the empty queue. -/
theorem empty (hlt : r.rpos < N) (heq : r.rpos = r.wpos) : Holds N r [] where
  rpos_lt := hlt
  length_lt := Nat.lt_of_le_of_lt (Nat.zero_le _) hlt
  wpos_eq := by rw [List.length_nil, Nat.add_zero, Nat.mod_eq_of_lt hlt, heq]
  slot := fun i hi => absurd hi (Nat.not_lt_zero i)

/-- The positions meet exactly when the queue is empty. -/
theorem pos_eq_iff (h : Holds N r q) : r.rpos = r.wpos ↔ q = [] := by
  have hzero : (r.rpos + 0) % N = r.rpos := by
    rw [Nat.add_zero, Nat.mod_eq_of_lt h.rpos_lt]
  constructor
  · intro heq
    have hlen : 0 = q.length :=
      add_mod_inj (Nat.lt_of_le_of_lt (Nat.zero_le _) h.rpos_lt) h.length_lt
        (hzero.trans (heq.trans h.wpos_eq))
    exact List.length_eq_zero_iff.mp hlen.symm
  · rintro rfl
    rw [h.wpos_eq, List.length_nil, hzero]

/-- **Pushing appends.** -/
theorem push (h : Holds N r q) (x : α) (hroom : q.length + 1 < N) :
    Holds N (r.push N x) (q ++ [x]) where
  rpos_lt := h.rpos_lt
  length_lt := by rw [List.length_append, List.length_singleton]; exact hroom
  wpos_eq := by
    rw [List.length_append, List.length_singleton]
    change next N r.wpos = (r.rpos + (q.length + 1)) % N
    rw [next_eq h.wpos_lt, h.wpos_eq, Nat.mod_add_mod, Nat.add_assoc]
  slot := by
    intro i hi
    rw [List.length_append, List.length_singleton] at hi
    change Function.update r.buf r.wpos x ((r.rpos + i) % N) = _
    by_cases hlast : i = q.length
    · subst hlast
      rw [← h.wpos_eq, Function.update_self, List.getElem_concat_length]
      rfl
    · -- the slots filled before are not the one written now
      have hne : (r.rpos + i) % N ≠ r.wpos := by
        rw [h.wpos_eq]
        exact fun heq => hlast (add_mod_inj (by omega) h.length_lt heq)
      rw [Function.update_of_ne hne, List.getElem_append_left (by omega)]
      exact h.slot i (by omega)

/-- **Pushing into a full ring empties it**: the positions meet. -/
theorem push_full (h : Holds N r q) (x : α) (hfull : q.length + 1 = N) :
    Holds N (r.push N x) [] := by
  refine .empty h.rpos_lt ?_
  change r.rpos = next N r.wpos
  rw [next_eq h.wpos_lt, h.wpos_eq, Nat.mod_add_mod, Nat.add_assoc, hfull, Nat.add_mod_right,
    Nat.mod_eq_of_lt h.rpos_lt]

/-- **Pushing without looking at the read position.** Every time around the ring forgets the
whole queue: what it holds at the end are the last elements, and their number is what the
number of all of them leaves modulo `N`. -/
theorem pushes (h : Holds N r q) (l : List α) :
    ∃ q', Holds N (l.foldl (fun r x => r.push N x) r) q' ∧ q' <:+ q ++ l ∧
      q'.length = (q.length + l.length) % N := by
  induction l using List.reverseRecOn with
  | nil =>
      rw [List.append_nil, List.length_nil, Nat.add_zero, Nat.mod_eq_of_lt h.length_lt]
      exact ⟨q, h, List.suffix_refl q, rfl⟩
  | append_singleton l x ih =>
      obtain ⟨q', h', ⟨front, hfront⟩, hlen⟩ := ih
      have hsucc : (q.length + (l ++ [x]).length) % N = (q'.length + 1) % N := by
        rw [List.length_append, List.length_singleton, hlen, Nat.mod_add_mod, Nat.add_assoc]
      rw [List.foldl_append, List.foldl_cons, List.foldl_nil, hsucc]
      by_cases hroom : q'.length + 1 < N
      · refine ⟨q' ++ [x], h'.push x hroom, ⟨front, ?_⟩, ?_⟩
        · rw [← List.append_assoc, hfront, List.append_assoc]
        · rw [List.length_append, List.length_singleton, Nat.mod_eq_of_lt hroom]
      · have hfull : q'.length + 1 = N := by
          have := h'.length_lt
          omega
        exact ⟨[], h'.push_full x hfull, List.nil_suffix, by rw [hfull, Nat.mod_self]; rfl⟩

/-- How many elements the positions say are in the ring. -/
theorem length_eq (h : Holds N r q) : q.length = (r.wpos + N - r.rpos) % N := by
  have hlen := h.length_lt
  have hrpos := h.rpos_lt
  rw [h.wpos_eq]
  by_cases hwrap : r.rpos + q.length < N
  · rw [Nat.mod_eq_of_lt hwrap, show r.rpos + q.length + N - r.rpos = q.length + N by omega,
      Nat.add_mod_right, Nat.mod_eq_of_lt hlen]
  · have hmod : (r.rpos + q.length) % N = r.rpos + q.length - N := by
      rw [Nat.mod_eq_sub_mod (by omega), Nat.mod_eq_of_lt (by omega)]
    rw [hmod, show r.rpos + q.length - N + N - r.rpos = q.length by omega, Nat.mod_eq_of_lt hlen]

/-- **Popping takes the head.** -/
theorem pop {x : α} (h : Holds N r (x :: q)) :
    (r.pop N).1 = x ∧ Holds N (r.pop N).2 q := by
  have hlen := h.length_lt
  rw [List.length_cons] at hlen
  constructor
  · have hslot := h.slot 0 (by simp)
    rwa [Nat.add_zero, Nat.mod_eq_of_lt h.rpos_lt] at hslot
  · refine ⟨?_, by omega, ?_, fun i hi => ?_⟩
    · change next N r.rpos < N
      rw [next_eq h.rpos_lt]
      exact Nat.mod_lt _ (by omega)
    · change r.wpos = (next N r.rpos + q.length) % N
      rw [next_eq h.rpos_lt, h.wpos_eq, List.length_cons, Nat.mod_add_mod]
      congr 1
      omega
    · change r.buf ((next N r.rpos + i) % N) = q[i]
      rw [next_eq h.rpos_lt, Nat.mod_add_mod, Nat.add_assoc, Nat.add_comm 1 i]
      exact h.slot (i + 1) (by rw [List.length_cons]; omega)

end Holds

end Ring

end Jos
