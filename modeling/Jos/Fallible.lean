import Mathlib.Data.List.Basic
import Mathlib.Logic.Function.Iterate
import Mathlib.Tactic.Common

/-!
# Fallible Computations

Rules for programs in `Except`: what a sequence of steps keeps if each step keeps it.

* `Agree Q`: two runs end alike, with results related by `Q` or the same error;
* `OnlyFails p`: the only errors are those that satisfy `p`;
* `Reader.Local`: a computation that reads from the front of a list of inputs does not
  depend on, and does not touch, what comes behind the part it reads.

## Main results

* `Agree.bind`, `OnlyFails.bind`, `Reader.Local.bind`: the rules for sequencing.
-/

namespace Jos

section

variable {ε α β γ δ : Type}

/-- A result is passed on. -/
@[simp] theorem ok_bind (a : α) (f : α → Except ε β) :
    ((Except.ok a : Except ε α) >>= f) = f a := rfl

/-- A fault ends the computation. -/
@[simp] theorem error_bind (e : ε) (f : α → Except ε β) :
    ((Except.error e : Except ε α) >>= f) = .error e := rfl

/-- A sequence that succeeds is made of steps that do. -/
theorem ok_of_bind {x : Except ε α} {f : α → Except ε β} {b : β} (h : x >>= f = .ok b) :
    ∃ a, x = .ok a ∧ f a = .ok b := by
  cases x with
  | error e => cases h
  | ok a => exact ⟨a, rfl, h⟩

/-! ### Two runs that end alike -/

/-- Both fail with the same error, or both succeed with related results. -/
inductive Agree (Q : α → β → Prop) : Except ε α → Except ε β → Prop
  | ok {a : α} {b : β} (h : Q a b) : Agree Q (.ok a) (.ok b)
  | error (e : ε) : Agree Q (.error e) (.error e)

/-- A computation agrees with itself. -/
theorem Agree.refl {Q : α → α → Prop} (hQ : ∀ a, Q a a) (x : Except ε α) : Agree Q x x := by
  cases x with
  | error e => exact .error e
  | ok a => exact .ok (hQ a)

/-- **Sequencing.** -/
theorem Agree.bind {Q : α → β → Prop} {P : γ → δ → Prop} {x : Except ε α} {y : Except ε β}
    {f : α → Except ε γ} {g : β → Except ε δ} (h : Agree Q x y)
    (hfg : ∀ a b, Q a b → Agree P (f a) (g b)) : Agree P (x >>= f) (y >>= g) := by
  cases h with
  | ok h => exact hfg _ _ h
  | error e => exact .error e

/-- The same first step. -/
theorem Agree.bind_same {P : γ → δ → Prop} (x : Except ε α) {f : α → Except ε γ}
    {g : α → Except ε δ} (hfg : ∀ a, Agree P (f a) (g a)) : Agree P (x >>= f) (x >>= g) :=
  (Agree.refl (fun _ => rfl) x).bind fun a _ h => h ▸ hfg a

/-! ### The errors of a run -/

/-- The run ends, and an error it ends in satisfies `p`. -/
def OnlyFails (p : ε → Prop) (x : Except ε α) : Prop :=
  ∀ e, x = .error e → p e

/-- A result is no fault. -/
theorem onlyFails_ok (p : ε → Prop) (a : α) : OnlyFails p (.ok a : Except ε α) :=
  fun _ h => nomatch h

/-- A fault of the kind is one. -/
theorem onlyFails_error {p : ε → Prop} {e : ε} (h : p e) :
    OnlyFails p (.error e : Except ε α) := by
  rintro e' ⟨⟩
  exact h

/-- **Sequencing.** -/
theorem OnlyFails.bind {p : ε → Prop} {x : Except ε α} {f : α → Except ε β}
    (h : OnlyFails p x) (hf : ∀ a, OnlyFails p (f a)) : OnlyFails p (x >>= f) := by
  cases x with
  | error e => exact onlyFails_error (h e rfl)
  | ok a => exact hf a

/-! ### Reading from a list of inputs -/

/-- A computation that takes inputs from the front of a list. -/
abbrev Reader (ε ι α : Type) : Type :=
  List ι → Except ε (α × List ι)

/-- It does the same with more inputs behind those it takes, and leaves them. -/
def Reader.Local {ι : Type} (f : Reader ε ι α) : Prop :=
  ∀ ap a ap', f ap = .ok (a, ap') → ∀ bp, f (ap ++ bp) = .ok (a, ap' ++ bp)

/-- What reads no argument reads from the front. -/
theorem Reader.local_ok {ι : Type} (a : α) : Reader.Local fun ap : List ι =>
    (.ok (a, ap) : Except ε (α × List ι)) := by
  rintro ap a ap' ⟨⟩ bp
  rfl

/-- **Sequencing.** -/
theorem Reader.Local.bind {ι : Type} {f : Reader ε ι α} {g : α → Reader ε ι β} (hf : f.Local)
    (hg : ∀ a, (g a).Local) : Reader.Local fun ap => f ap >>= fun r => g r.1 r.2 := by
  intro ap b ap'' h bp
  rcases hfap : f ap with e | ⟨a, ap'⟩
  · simp only [hfap, error_bind] at h
    exact nomatch h
  · simp only [hfap, ok_bind] at h
    simp only [hf ap a ap' hfap bp, ok_bind]
    exact hg a ap' b ap'' h bp

end

/-! ### Repetition -/

/-- Related states stay related under related steps. -/
theorem rel_iterate {σ τ : Type} {R : σ → τ → Prop} {f : σ → σ} {g : τ → τ}
    (hfg : ∀ s t, R s t → R (f s) (g t)) (n : ℕ) {s : σ} {t : τ} (h : R s t) :
    R (f^[n] s) (g^[n] t) := by
  induction n with
  | zero => exact h
  | succ n ih =>
      rw [Function.iterate_succ_apply', Function.iterate_succ_apply']
      exact hfg _ _ ih

end Jos
