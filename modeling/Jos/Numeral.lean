import Mathlib.Data.Nat.Digits.Lemmas
import Mathlib.Tactic.Ring

/-!
# Numerals

The digits of a number as they are written: most significant first, and a single zero for
zero. Reading them back one by one, `v * b + d`, gives the number in every commutative
semiring; in the integers modulo a power of two it gives the number modulo that power.

## Main results

* `numeral_div_append`: the last digit, and the digits before it.
* `numeral_cons`: the first digit.
* `foldl_numeral`: reading a numeral.
-/

namespace Jos

/-- The numeral of `n` in base `b`. -/
def numeral (b n : ℕ) : List ℕ :=
  if n = 0 then [0] else (Nat.digits b n).reverse

/-- A number of one digit. -/
theorem numeral_of_lt {b n : ℕ} (h : n < b) : numeral b n = [n] := by
  rw [numeral]
  split
  · rename_i hn
    rw [hn]
  · rw [Nat.digits_of_lt b n ‹_› h, List.reverse_singleton]

/-- **The last digit of a longer numeral**, and the digits before it. -/
theorem numeral_div_append {b n : ℕ} (hb : 1 < b) (h : b ≤ n) :
    numeral b n = numeral b (n / b) ++ [n % b] := by
  have hn : 0 < n := by omega
  have hdiv : n / b ≠ 0 := (Nat.div_pos h (by omega)).ne'
  rw [numeral, numeral, if_neg hn.ne', if_neg hdiv, Nat.digits_def' hb hn, List.reverse_cons]

/-- Every digit is below the base. -/
theorem lt_of_mem_numeral {b n d : ℕ} (hb : 1 < b) (h : d ∈ numeral b n) : d < b := by
  rw [numeral] at h
  split at h
  · rw [List.mem_singleton.mp h]
    omega
  · exact Nat.digits_lt_base hb (List.mem_reverse.mp h)

/-- A numeral is not empty, and only that of zero begins with a zero. -/
theorem numeral_cons (b n : ℕ) :
    ∃ d ds, numeral b n = d :: ds ∧ (d = 0 → n = 0 ∧ ds = []) := by
  rw [numeral]
  split
  · rename_i hn
    exact ⟨0, [], rfl, fun _ => ⟨hn, rfl⟩⟩
  · rename_i hn
    have hne : Nat.digits b n ≠ [] := Nat.digits_ne_nil_iff_ne_zero.mpr hn
    obtain ⟨d, ds, hds⟩ := List.exists_cons_of_ne_nil (List.reverse_ne_nil_iff.mpr hne)
    have hlast : (Nat.digits b n).getLast hne = d := by
      rw [List.getLast_eq_head_reverse]
      simp only [hds, List.head_cons]
    refine ⟨d, ds, hds, fun hd => absurd (hlast.trans hd) ?_⟩
    exact Nat.getLast_digit_ne_zero b hn

/-- How long a numeral can be. -/
theorem length_numeral_le {b n k : ℕ} (hb : 1 < b) (hk : 0 < k) (h : n < b ^ k) :
    (numeral b n).length ≤ k := by
  rw [numeral]
  split
  · exact hk
  · rw [List.length_reverse]
    exact (Nat.digits_length_le_iff hb n).mpr h

/-- **Reading a numeral** gives its number. -/
theorem foldl_numeral {α : Type} [CommSemiring α] (b n : ℕ) :
    (numeral b n).foldl (fun (v : α) (d : ℕ) => v * b + d) 0 = n := by
  rw [numeral]
  split
  · rename_i hn
    simp [hn]
  · rw [List.foldl_reverse]
    have hswap : (fun (d : ℕ) (v : α) => v * b + d) = fun (d : ℕ) (v : α) => d + b * v := by
      funext d v
      ring
    rw [hswap, ← Nat.ofDigits_eq_foldr, ← Nat.coe_ofDigits, Nat.ofDigits_digits]

end Jos
