import Jos.Input

/-!
# Overrun of the Input Ring

`cons_intr` stores without looking at the read position. When the ring is full, one more
byte makes the positions meet, and `cons_getc`, which is to return "0 if none waiting",
finds none: every time the writer laps the reader, the 512 bytes of the lap are lost
together (`Ring.Holds.pushes`). Of a burst that overruns the ring, what is left is right
only when the count happens to come out at a full ring.

## Main results

* `run_holds`: the ring holds a queue after every run, overruns included.
* `burst_drains`: what can be read after a burst.
* `keepsUnread_iff`: when a burst leaves in the ring what fits into it.
-/

namespace Jos

/-! ### Reachable states -/

/-- The ring holds a queue of nonzero bytes. -/
def Input.Holding (s : Input) (q : List Byte) : Prop :=
  s.cons.Holds consBufSize q ∧ ∀ c ∈ q, c ≠ 0

/-- `cons_intr` pushes what its `proc` returns, zeros left out. -/
theorem consIntr_eq (proc : List Byte) (cons : Ring Byte) :
    consIntr proc cons =
      (proc.filter (· ≠ 0)).foldl (fun r c => r.push consBufSize c) cons := by
  induction proc generalizing cons with
  | nil => rfl
  | cons c proc ih =>
      rw [consIntr, List.foldl_cons, consIntrRound]
      by_cases hc : c = 0
      · rw [if_pos hc, List.filter_cons_of_neg (by simpa using hc)]
        exact ih cons
      · rw [if_neg hc, List.filter_cons_of_pos (by simpa using hc)]
        exact ih _

/-- **A burst**, whatever the room: the ring holds the last of the bytes unread before and
of those of the burst, as many as there are modulo the size of the ring. -/
theorem consIntr_burst (proc : List Byte) {s : Input} {q : List Byte} (h : s.Holding q) :
    ∃ q', Input.Holding { s with cons := consIntr proc s.cons } q' ∧
      q' <:+ q ++ proc.filter (· ≠ 0) ∧
      q'.length = (q.length + (proc.filter (· ≠ 0)).length) % consBufSize := by
  obtain ⟨q', hq', hsuffix, hlen⟩ := h.1.pushes (proc.filter (· ≠ 0))
  refine ⟨q', ⟨?_, fun c hc => ?_⟩, hsuffix, hlen⟩
  · rw [consIntr_eq]
    exact hq'
  · rcases List.mem_append.mp (hsuffix.subset hc) with hc | hc
    · exact h.2 c hc
    · simpa using (List.mem_filter.mp hc).2

/-- Taking a character off the ring. -/
theorem pop_holding {s : Input} {q : List Byte} (h : s.Holding q)
    (hne : s.cons.rpos ≠ s.cons.wpos) :
    ∃ c q', q = c :: q' ∧ (s.cons.pop consBufSize).1 = c ∧
      Input.Holding { s with cons := (s.cons.pop consBufSize).2 } q' := by
  cases q with
  | nil => exact absurd (h.1.pos_eq_iff.mpr rfl) hne
  | cons c q' =>
      obtain ⟨hc, hq'⟩ := h.1.pop
      exact ⟨c, q', rfl, hc, hq', fun x hx => h.2 x (List.mem_cons_of_mem c hx)⟩

/-- **One step**, whatever the room. -/
theorem step_holding {s : Input} {q : List Byte} (h : s.Holding q) (st : InputStep) :
    ∃ q', (st.next s).Holding q' := by
  have hserial : ∀ rx, ∃ q', (serialIntr rx s).Holding q' := by
    intro rx
    rw [serialIntr]
    split
    · obtain ⟨q', hq', -⟩ := consIntr_burst rx h
      exact ⟨q', hq'⟩
    · exact ⟨q, h⟩
  cases st with
  | serialIntr rx => exact hserial rx
  | kbdIntr kbd =>
      obtain ⟨q', hq', -⟩ := consIntr_burst kbd h
      exact ⟨q', hq'⟩
  | consGetc rx kbd =>
      obtain ⟨q₁, h₁⟩ := hserial rx
      obtain ⟨q₂, h₂, -⟩ := consIntr_burst kbd h₁
      change ∃ q', Input.Holding (consGetc rx kbd s).2 q'
      rw [consGetc]
      split
      · rename_i hne
        obtain ⟨c, q', -, -, hq'⟩ := pop_holding h₂ hne
        exact ⟨q', hq'⟩
      · exact ⟨q₂, h₂⟩

/-- **After every run** the ring holds some queue of nonzero bytes. -/
theorem run_holds (serialExists : Bool) (steps : List InputStep) :
    ∃ q, (History.run serialExists steps).input.Holding q := by
  induction steps using List.reverseRecOn with
  | nil => exact ⟨[], .empty (Nat.zero_lt_succ _) rfl, by simp⟩
  | append_singleton steps st ih =>
      obtain ⟨q, hq⟩ := ih
      rw [run_append_singleton]
      exact step_holding hq st

/-! ### Reading the ring out -/

/-- The values of `cons_getc`, with nothing new at either device, up to the first 0. -/
inductive Drains : Input → List Byte → Prop
  | none {s : Input} (h : (consGetc [] [] s).1 = 0) : Drains s []
  | some {s : Input} {c : Byte} {l : List Byte} (hc : (consGetc [] [] s).1 = c) (hne : c ≠ 0)
      (h : Drains (consGetc [] [] s).2 l) : Drains s (c :: l)

/-- With nothing new, `cons_getc` looks at the ring only. -/
theorem consGetc_nil (s : Input) : consGetc [] [] s =
    if s.cons.rpos ≠ s.cons.wpos then
      ((s.cons.pop consBufSize).1, { s with cons := (s.cons.pop consBufSize).2 })
    else (0, s) := by
  have hserial : serialIntr [] s = s := by
    rw [serialIntr]
    split <;> rfl
  have hkbd : kbdIntr [] s = s := rfl
  rw [consGetc, hserial, hkbd]

/-- **What can be read** is the queue the ring holds. -/
theorem drains_iff {s : Input} {q : List Byte} (h : s.Holding q) (l : List Byte) :
    Drains s l ↔ l = q := by
  induction q generalizing s l with
  | nil =>
      have hzero : (consGetc [] [] s).1 = 0 := by
        rw [consGetc_nil, if_neg (not_not.mpr (h.1.pos_eq_iff.mpr rfl))]
      constructor
      · rintro (_ | ⟨hc, hne, -⟩)
        · rfl
        · exact absurd (hc.symm.trans hzero) hne
      · rintro rfl
        exact .none hzero
  | cons c q ih =>
      have hne : s.cons.rpos ≠ s.cons.wpos := fun heq =>
        List.cons_ne_nil c q (h.1.pos_eq_iff.mp heq)
      obtain ⟨c', q', hcons, hc', hq'⟩ := pop_holding h hne
      cases hcons
      have hget : consGetc [] [] s = (c, { s with cons := (s.cons.pop consBufSize).2 }) := by
        rw [consGetc_nil, if_pos hne, hc']
      have hc : c ≠ 0 := h.2 c (List.mem_cons_self ..)
      constructor
      · rintro (hzero | ⟨hc', hne', hdrains⟩)
        · rw [hget] at hzero
          exact absurd hzero hc
        · rw [hget] at hc' hdrains
          obtain rfl : c = _ := hc'
          rw [(ih hq' _).mp hdrains]
      · rintro rfl
        refine .some (c := c) (by rw [hget]) hc ?_
        rw [hget]
        exact (ih hq' q).mpr rfl

/-- **What can be read after a burst.** -/
theorem burst_drains (proc : List Byte) {s : Input} {q l : List Byte} (hq : Drains s q)
    (h : ∃ q, s.Holding q) (hl : Drains { s with cons := consIntr proc s.cons } l) :
    l <:+ q ++ proc.filter (· ≠ 0) ∧
      l.length = (q.length + (proc.filter (· ≠ 0)).length) % consBufSize := by
  obtain ⟨q', h⟩ := h
  obtain rfl := (drains_iff h q).mp hq
  obtain ⟨l', hl', hsuffix, hlen⟩ := consIntr_burst proc h
  obtain rfl := (drains_iff hl' l).mp hl
  exact ⟨hsuffix, hlen⟩

/-! ### Overrun -/

/-- How many bytes are unread, by the positions. -/
def Input.unread (s : Input) : ℕ :=
  (s.cons.wpos + consBufSize - s.cons.rpos) % consBufSize

/-- Overrun does not empty the ring: of `q`, which could be read before the burst that
`proc` returns, and the burst, at least as much can be read afterwards as fits into the
ring, and in order. -/
def KeepsUnread (s : Input) (proc : List Byte) : Prop :=
  ∃ q l, Drains s q ∧ Drains { s with cons := consIntr proc s.cons } l ∧
    min (q.length + (proc.filter (· ≠ 0)).length) 511 ≤ l.length ∧
    l.Sublist (q ++ proc.filter (· ≠ 0))

/-- **When overrun does not empty the ring.** In every reachable state: exactly when the
burst does not overrun it, or its last byte is the one that fills the ring again. -/
theorem keepsUnread_iff (serialExists : Bool) (steps : List InputStep) (proc : List Byte) :
    let s := (History.run serialExists steps).input
    let n := (proc.filter (· ≠ 0)).length
    KeepsUnread s proc ↔
      s.unread + n < consBufSize ∨ (s.unread + n) % consBufSize = consBufSize - 1 := by
  intro s n
  obtain ⟨q, hq⟩ := run_holds serialExists steps
  have hunread : s.unread = q.length := hq.1.length_eq.symm
  obtain ⟨l, hl, -⟩ := consIntr_burst proc hq
  have hdrains := (drains_iff hq q).mpr rfl
  have hdrains' := (drains_iff hl l).mpr rfl
  obtain ⟨hsuffix, hlen⟩ := burst_drains proc hdrains ⟨q, hq⟩ hdrains'
  rw [hunread]
  constructor
  · rintro ⟨q', l', hq', hl', hmin, -⟩
    obtain rfl := (drains_iff hq q').mp hq'
    obtain rfl := (drains_iff hl l').mp hl'
    by_cases hroom : q'.length + n < consBufSize
    · exact Or.inl hroom
    · have hlt : (q'.length + n) % consBufSize < consBufSize := Nat.mod_lt _ (by decide)
      rw [hlen] at hmin
      change min (q'.length + n) 511 ≤ (q'.length + n) % consBufSize at hmin
      simp only [consBufSize] at hmin hroom hlt ⊢
      omega
  · intro hcond
    refine ⟨q, l, hdrains, hdrains', ?_, hsuffix.sublist⟩
    rw [hlen]
    change min (q.length + n) 511 ≤ (q.length + n) % consBufSize
    simp only [consBufSize] at hcond ⊢
    omega

/-- **512 bytes on an empty ring**: nothing can be read. -/
theorem not_keepsUnread : ¬ KeepsUnread (Input.init true) (List.replicate 512 0x61) := by
  have hinit : (Input.init true).Holding [] := ⟨.empty (Nat.zero_lt_succ _) rfl, by simp⟩
  have hburst : (List.replicate 512 (0x61 : Byte)).filter (· ≠ 0) = List.replicate 512 0x61 := by
    rw [List.filter_replicate_of_pos (by decide)]
  rintro ⟨q, l, hq, hl, hmin, -⟩
  obtain ⟨-, hlen⟩ := burst_drains _ hq ⟨[], hinit⟩ hl
  obtain rfl := (drains_iff hinit q).mp hq
  rw [hlen, hburst, List.length_replicate] at hmin
  exact absurd hmin (by decide)

end Jos
