import Jos.Loop

/-!
# Linked Lists

Nodes that lead from one to the next, up to a node that ends the list (`Linked`), and loops
that follow them.

## Main results

* `Linked.congr`: the list is the same as long as its own nodes lead where they did.
* `loop_linked`: the rule for a loop that visits the nodes in turn: it ends, having visited
  each of them once.
-/

namespace Jos

section

variable {α : Type} {next next' : α → α} {stop a : α} {l : List α}

/-- From `a` on, the nodes of the list are `l`, in order, and `stop` comes behind them. -/
inductive Linked (next : α → α) (stop : α) : α → List α → Prop
  | nil : Linked next stop stop []
  | cons {a : α} {l : List α} (ne : a ≠ stop) (tail : Linked next stop (next a) l) :
      Linked next stop a (a :: l)

/-- Only the nodes of the list matter. -/
theorem Linked.congr (h : Linked next stop a l) (hnext : ∀ b ∈ l, next' b = next b) :
    Linked next' stop a l := by
  induction h with
  | nil => exact .nil
  | cons ne tail ih =>
      refine .cons ne ?_
      rw [hnext _ (List.mem_cons_self ..)]
      exact ih fun b hb => hnext b (List.mem_cons_of_mem _ hb)

/-- **Following the links.** A loop whose round at a node goes on to the next one, and adds the
node's part to an output, ends with the parts of all nodes. Induction on the list; the
invariant `I` is that of a round. -/
theorem loop_linked {ε σ γ : Type} {stuck : ε} {round : α × σ → Except ε (Round (α × σ) σ)}
    {I : σ → Prop} {out : σ → List γ} {part : α → List γ} (h : Linked next stop a l)
    (hnext : ∀ b ∈ l, b ≠ stop → ∀ s, I s →
      ∃ s', round (b, s) = .ok (.next (next b, s')) ∧ I s' ∧ out s' = out s ++ part b)
    (hstop : ∀ s, I s → round (stop, s) = .ok (.leave s)) {fuel : ℕ} (hfuel : l.length < fuel)
    {s : σ} (hs : I s) :
    ∃ s', loop stuck round fuel (a, s) = .ok s' ∧ I s' ∧ out s' = out s ++ l.flatMap part := by
  induction h generalizing fuel s with
  | nil =>
      cases fuel with
      | zero => exact absurd hfuel (Nat.not_lt_zero _)
      | succ fuel =>
          rw [loop, hstop s hs]
          exact ⟨s, rfl, hs, (List.append_nil _).symm⟩
  | cons ne tail ih =>
      cases fuel with
      | zero => exact absurd hfuel (Nat.not_lt_zero _)
      | succ fuel =>
          obtain ⟨s₁, hround, hs₁, hout₁⟩ := hnext _ (List.mem_cons_self ..) ne s hs
          obtain ⟨s₂, hrest, hs₂, hout₂⟩ := ih (fun b hb => hnext b (List.mem_cons_of_mem _ hb))
            (Nat.lt_of_succ_lt_succ hfuel) hs₁
          refine ⟨s₂, ?_, hs₂, ?_⟩
          · rw [loop, hround]
            exact hrest
          · rw [hout₂, hout₁, List.flatMap_cons, List.append_assoc]

end

end Jos
