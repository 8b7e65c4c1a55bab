import Jos.Fallible

/-!
# Loops with a Variant

A loop whose rounds can fail, run for a number of rounds at most, and the rule by which it
returns: each round keeps an invariant and lowers a variant, or leaves.

* `Returns P`: the computation succeeds, with a result that satisfies `P`;
* `loop`: rounds until one leaves; out of rounds, it is an error.

## Main results

* `Returns.bind`: the rule for sequencing.
* `loop_returns`: the rule for loops.
* `loop_stuck`: the rule for loops that do not end.
* `loop_keeps`: what a loop keeps that succeeds.
* `Loops.leave`, `Loops.next`, `loops_returns`: the rules for loops whose rounds need fuel of
  their own.
-/

namespace Jos

section

variable {ε α β σ : Type}

/-- The computation succeeds, with a result that satisfies `P`. -/
def Returns (P : α → Prop) (x : Except ε α) : Prop :=
  ∃ a, x = .ok a ∧ P a

theorem returns_ok {P : α → Prop} {a : α} (h : P a) : Returns P (.ok a : Except ε α) :=
  ⟨a, rfl, h⟩

/-- **Sequencing.** -/
theorem Returns.bind {P : α → Prop} {Q : β → Prop} {x : Except ε α} {f : α → Except ε β}
    (h : Returns P x) (hf : ∀ a, P a → Returns Q (f a)) : Returns Q (x >>= f) := by
  obtain ⟨a, rfl, ha⟩ := h
  exact hf a ha

/-- What a round of a loop comes to: the state of the next round, or the loop's result. -/
inductive Round (σ β : Type)
  | next (s : σ)
  | leave (b : β)

/-- At most `fuel` rounds; if none of them leaves the loop, it is stuck. -/
def loop (stuck : ε) (round : σ → Except ε (Round σ β)) : ℕ → σ → Except ε β
  | 0, _ => .error stuck
  | fuel + 1, s => do
      match ← round s with
      | .next s => loop stuck round fuel s
      | .leave b => pure b

/-- A good round: it succeeds, and either keeps the invariant and lowers the variant or
leaves with a good result. -/
def Round.Good (I : σ → Prop) (variant : σ → ℕ) (Q : β → Prop) (s : σ) :
    Round σ β → Prop
  | .next s' => I s' ∧ variant s' < variant s
  | .leave b => Q b

/-- **The rule for loops.** With more rounds than the variant says, a loop of good rounds
returns, with a good result. -/
theorem loop_returns {stuck : ε} {round : σ → Except ε (Round σ β)} {I : σ → Prop}
    {Q : β → Prop} (variant : σ → ℕ)
    (hround : ∀ s, I s → Returns (Round.Good I variant Q s) (round s)) {fuel : ℕ} {s : σ}
    (hs : I s) (hfuel : variant s < fuel) : Returns Q (loop stuck round fuel s) := by
  induction fuel generalizing s with
  | zero => exact absurd hfuel (Nat.not_lt_zero _)
  | succ fuel ih =>
      rw [loop]
      refine (hround s hs).bind ?_
      rintro (s' | b) hgood
      · exact ih hgood.1 (Nat.lt_of_lt_of_le hgood.2 (Nat.le_of_lt_succ hfuel))
      · exact returns_ok hgood

/-- **A loop that does not end.** Each round is stuck itself or goes on, in a state that keeps
the invariant. -/
theorem loop_stuck {stuck : ε} {round : σ → Except ε (Round σ β)} {I : σ → Prop}
    (hround : ∀ s, I s → round s = .error stuck ∨ ∃ s', round s = .ok (.next s') ∧ I s')
    (fuel : ℕ) {s : σ} (hs : I s) : loop stuck round fuel s = .error stuck := by
  induction fuel generalizing s with
  | zero => rfl
  | succ fuel ih =>
      rw [loop]
      obtain hstuck | ⟨s', hnext, hs'⟩ := hround s hs
      · rw [hstuck]
        rfl
      · rw [hnext]
        exact ih hs'

/-- A good round, as far as the invariant goes. -/
def Round.Keeps (I : σ → Prop) (Q : β → Prop) : Round σ β → Prop
  | .next s => I s
  | .leave b => Q b

/-- **What a loop keeps**: where the rounds that succeed keep an invariant, and leave with a good
result only, so does the loop, if it succeeds. -/
theorem loop_keeps {stuck : ε} {round : σ → Except ε (Round σ β)} {I : σ → Prop} {Q : β → Prop}
    (hround : ∀ s o, I s → round s = .ok o → o.Keeps I Q) {fuel : ℕ} {s : σ} (hs : I s) {b : β}
    (h : loop stuck round fuel s = .ok b) : Q b := by
  induction fuel generalizing s with
  | zero => cases h
  | succ fuel ih =>
      rw [loop] at h
      rcases hstep : round s with e | o
      · rw [hstep, error_bind] at h
        cases h
      · rw [hstep, ok_bind] at h
        have hkeep := hround s o hs hstep
        cases o with
        | next s' => exact ih hkeep h
        | leave b' =>
            cases h
            exact hkeep

/-! ### Enough fuel -/

/-- With enough fuel the computation succeeds, with the result `a`. -/
def Converges (a : α) (x : ℕ → Except ε α) : Prop :=
  ∃ N, ∀ fuel, N ≤ fuel → x fuel = .ok a

theorem converges_ok (a : α) : Converges a fun _ => (.ok a : Except ε α) :=
  ⟨0, fun _ _ => rfl⟩

/-- There is one result at most. -/
theorem Converges.unique {x : ℕ → Except ε α} {a b : α} (ha : Converges a x)
    (hb : Converges b x) : a = b := by
  obtain ⟨N, hN⟩ := ha
  obtain ⟨M, hM⟩ := hb
  have hok : (.ok a : Except ε α) = .ok b := by
    rw [← hN (max N M) (Nat.le_max_left N M), hM (max N M) (Nat.le_max_right N M)]
  exact Except.ok.inj hok

/-- What cannot succeed does not converge. -/
theorem not_converges {x : ℕ → Except ε α} {e : ε} (h : ∀ fuel, x fuel = .error e) (a : α) :
    ¬ Converges a x := by
  rintro ⟨N, hN⟩
  have hok := hN N (Nat.le_refl N)
  rw [h N] at hok
  cases hok

/-- **Sequencing.** -/
theorem Converges.bind {x : ℕ → Except ε α} {f : ℕ → α → Except ε β} {a : α} {b : β}
    (hx : Converges a x) (hf : Converges b fun fuel => f fuel a) :
    Converges b fun fuel => x fuel >>= f fuel := by
  obtain ⟨N, hx⟩ := hx
  obtain ⟨M, hf⟩ := hf
  refine ⟨max N M, fun fuel hfuel => ?_⟩
  have hstep : x fuel = .ok a := hx fuel (by omega)
  simp only [hstep, ok_bind]
  exact hf fuel (by omega)

/-- With enough rounds, and enough fuel for each of them, the loop entered in the state `s`
ends with the result `b`. -/
def Loops (stuck : ε) (round : ℕ → σ → Except ε (Round σ β)) (s : σ) (b : β) : Prop :=
  ∃ N, ∀ fuel rounds, N ≤ fuel → N ≤ rounds → loop stuck (round fuel) rounds s = .ok b

variable {stuck : ε} {round : ℕ → σ → Except ε (Round σ β)}

/-- A round that leaves the loop. -/
theorem Loops.leave {s : σ} {b : β} (h : Converges (.leave b) fun fuel => round fuel s) :
    Loops stuck round s b := by
  obtain ⟨N, h⟩ := h
  refine ⟨N + 1, fun fuel rounds hfuel hrounds => ?_⟩
  obtain ⟨rounds, rfl⟩ := Nat.exists_eq_add_of_le' (Nat.le_trans (Nat.le_add_left 1 N) hrounds)
  have hstep : round fuel s = .ok (.leave b) := h fuel (by omega)
  rw [loop, hstep]
  rfl

/-- A round that goes on. -/
theorem Loops.next {s s' : σ} {b : β} (h : Converges (.next s') fun fuel => round fuel s)
    (hrest : Loops stuck round s' b) : Loops stuck round s b := by
  obtain ⟨N, h⟩ := h
  obtain ⟨M, hrest⟩ := hrest
  refine ⟨max N M + 1, fun fuel rounds hfuel hrounds => ?_⟩
  obtain ⟨rounds, rfl⟩ := Nat.exists_eq_add_of_le' (Nat.le_trans (Nat.le_add_left 1 _) hrounds)
  have hstep : round fuel s = .ok (.next s') := h fuel (by omega)
  rw [loop, hstep]
  exact hrest fuel rounds (by omega) (by omega)

/-- **The rule for loops**, with enough fuel: a loop of good rounds ends, with a good result.
Induction on the variant. -/
theorem loops_returns {I : σ → Prop} {Q : β → Prop} (variant : σ → ℕ)
    (hround : ∀ s, I s → ∃ o, Converges o (fun fuel => round fuel s) ∧
      Round.Good I variant Q s o) {s : σ} (hs : I s) : ∃ b, Loops stuck round s b ∧ Q b := by
  obtain ⟨n, hn⟩ : ∃ n, variant s ≤ n := ⟨_, Nat.le_refl _⟩
  induction n generalizing s with
  | zero =>
      obtain ⟨o, ho, hgood⟩ := hround s hs
      cases o with
      | next s' => exact absurd hgood.2 (by omega)
      | leave b => exact ⟨b, .leave ho, hgood⟩
  | succ n ih =>
      obtain ⟨o, ho, hgood⟩ := hround s hs
      cases o with
      | next s' =>
          obtain ⟨b, hb, hQ⟩ := ih hgood.1 (Nat.le_of_lt_succ (Nat.lt_of_lt_of_le hgood.2 hn))
          exact ⟨b, .next ho hb, hQ⟩
      | leave b => exact ⟨b, .leave ho, hgood⟩

/-- One fuel for both. -/
theorem Loops.converges {s : σ} {b : β} (h : Loops stuck round s b) :
    Converges b fun fuel => loop stuck (round fuel) fuel s := by
  obtain ⟨N, h⟩ := h
  exact ⟨N, fun fuel hfuel => h fuel fuel hfuel hfuel⟩

end

end Jos
