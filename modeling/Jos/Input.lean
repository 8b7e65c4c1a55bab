import Jos.Memory
import Jos.Ring

/-!
# The Console: Input Side

The circular input buffer of `kern/console.c`: the two interrupt routines that fill it and
`cons_getc`, which polls both devices itself before it takes a character. What a device
delivers at a poll is the list of bytes its `proc` returns before it returns -1; any list
is allowed, so every schedule of the devices is.

A run interleaves the three kinds of steps in any order, each step being atomic. Beside
the state it records what has been deposited and what has been returned (`History`).

## Main results

* `consIntr_holds`: a poll appends what the device delivers, leaving zeros out.
* `step_queued`: one step keeps the ring equal to what is deposited and not yet returned.
* `consGetc_run`: the input is a queue along every run in which the ring has room.
-/

namespace Jos

/-- `CONSBUFSIZE`. -/
abbrev consBufSize : ℕ := 512

/-- The input side: the buffer `cons`, and `serial_exists`. -/
structure Input where
  cons : Ring Byte
  serialExists : Bool

/-- The input side as the kernel starts. -/
def Input.init (serialExists : Bool) : Input where
  cons := { buf := fun _ => 0, rpos := 0, wpos := 0 }
  serialExists := serialExists

/-- One round of the loop of `cons_intr`. -/
def consIntrRound (cons : Ring Byte) (c : Byte) : Ring Byte :=
  if c = 0 then cons else cons.push consBufSize c

/-- `cons_intr`, on what its `proc` returns before -1. -/
def consIntr (proc : List Byte) (cons : Ring Byte) : Ring Byte :=
  proc.foldl consIntrRound cons

/-- `serial_intr`. -/
def serialIntr (rx : List Byte) (s : Input) : Input :=
  if s.serialExists then { s with cons := consIntr rx s.cons } else s

/-- `kbd_intr`. -/
def kbdIntr (kbd : List Byte) (s : Input) : Input :=
  { s with cons := consIntr kbd s.cons }

/-- `cons_getc`: the next input character, or 0 if none is waiting. -/
def consGetc (rx kbd : List Byte) (s : Input) : Byte × Input :=
  let s := kbdIntr kbd (serialIntr rx s)
  if s.cons.rpos ≠ s.cons.wpos then
    ((s.cons.pop consBufSize).1, { s with cons := (s.cons.pop consBufSize).2 })
  else (0, s)

/-! ### Runs -/

/-- A step, with what the devices deliver at its polls. -/
inductive InputStep
  | serialIntr (rx : List Byte)
  | kbdIntr (kbd : List Byte)
  | consGetc (rx kbd : List Byte)

/-- A state reached, with the nonzero bytes deposited and the nonzero values returned on
the way to it. -/
structure History where
  input : Input
  deposited : List Byte
  returned : List Byte

/-- What is deposited of the bytes `rx` on the serial line. -/
def Input.received (s : Input) (rx : List Byte) : List Byte :=
  if s.serialExists then rx.filter (· ≠ 0) else []

/-- The nonzero bytes a step deposits. -/
def InputStep.deposits (st : InputStep) (s : Input) : List Byte :=
  match st with
  | serialIntr rx => s.received rx
  | kbdIntr kbd => kbd.filter (· ≠ 0)
  | consGetc rx kbd => s.received rx ++ kbd.filter (· ≠ 0)

/-- The state after a step. -/
def InputStep.next (st : InputStep) (s : Input) : Input :=
  match st with
  | serialIntr rx => Jos.serialIntr rx s
  | kbdIntr kbd => Jos.kbdIntr kbd s
  | consGetc rx kbd => (Jos.consGetc rx kbd s).2

/-- The nonzero values a step returns: one at most, and only from `cons_getc`. -/
def InputStep.returns (st : InputStep) (s : Input) : List Byte :=
  match st with
  | serialIntr _ => []
  | kbdIntr _ => []
  | consGetc rx kbd => [(Jos.consGetc rx kbd s).1].filter (· ≠ 0)

/-- The history after a step. -/
def History.step (h : History) (st : InputStep) : History where
  input := st.next h.input
  deposited := h.deposited ++ st.deposits h.input
  returned := h.returned ++ st.returns h.input

/-- The history of a run. -/
def History.run (serialExists : Bool) (steps : List InputStep) : History :=
  steps.foldl History.step { input := Input.init serialExists, deposited := [], returned := [] }

/-- The most bytes that are unread during a step: all its deposits come before the byte it
takes. -/
def History.peak (h : History) (st : InputStep) : ℕ :=
  h.deposited.length + (st.deposits h.input).length - h.returned.length

/-- A run during which no more than 511 bytes are ever unread. -/
def Roomy (serialExists : Bool) (steps : List InputStep) : Prop :=
  ∀ pre st post, steps = pre ++ st :: post → (History.run serialExists pre).peak st < consBufSize

/-! ### The ring holds what is unread -/

/-- **A poll appends.** The ring takes what the device delivers, zeros left out. -/
theorem consIntr_holds (proc : List Byte) {cons : Ring Byte} {q : List Byte}
    (h : cons.Holds consBufSize q)
    (hroom : q.length + (proc.filter (· ≠ 0)).length < consBufSize) :
    (consIntr proc cons).Holds consBufSize (q ++ proc.filter (· ≠ 0)) := by
  induction proc generalizing cons q with
  | nil => rwa [List.filter_nil, List.append_nil]
  | cons c proc ih =>
      rw [consIntr, List.foldl_cons, consIntrRound]
      by_cases hc : c = 0
      · rw [if_pos hc]
        rw [List.filter_cons_of_neg (by simpa using hc)] at hroom ⊢
        exact ih h hroom
      · rw [if_neg hc]
        rw [List.filter_cons_of_pos (by simpa using hc)] at hroom ⊢
        rw [List.length_cons] at hroom
        have hpush := ih (h.push c (by omega)) (by
          rw [List.length_append, List.length_singleton]
          omega)
        rwa [List.append_assoc, List.singleton_append] at hpush

/-- The ring holds the bytes deposited and not yet returned, none of them zero. -/
structure History.Queued (h : History) (q : List Byte) : Prop where
  deposited : h.deposited = h.returned ++ q
  holds : h.input.cons.Holds consBufSize q
  nonzero : ∀ c ∈ q, c ≠ 0

/-- The serial interrupt appends what the line delivers. -/
theorem serialIntr_holds (rx : List Byte) {s : Input} {q : List Byte}
    (h : s.cons.Holds consBufSize q) (hroom : q.length + (s.received rx).length < consBufSize) :
    (serialIntr rx s).cons.Holds consBufSize (q ++ s.received rx) := by
  rw [Input.received] at hroom ⊢
  rw [serialIntr]
  by_cases hs : s.serialExists
  · simp only [if_pos hs] at hroom ⊢
    exact consIntr_holds rx h hroom
  · simp only [if_neg hs]
    rwa [List.append_nil]

/-- Nothing deposited is zero. -/
theorem ne_zero_of_mem_deposits {st : InputStep} {s : Input} {c : Byte}
    (h : c ∈ st.deposits s) : c ≠ 0 := by
  have hfilter : ∀ l : List Byte, c ∈ l.filter (· ≠ 0) → c ≠ 0 := fun l hl => by
    simpa using (List.mem_filter.mp hl).2
  have hreceived : ∀ rx, c ∈ s.received rx → c ≠ 0 := by
    intro rx hrx
    rw [Input.received] at hrx
    split at hrx
    · exact hfilter rx hrx
    · exact absurd hrx List.not_mem_nil
  cases st with
  | serialIntr rx => exact hreceived rx h
  | kbdIntr kbd => exact hfilter kbd h
  | consGetc rx kbd =>
      rcases List.mem_append.mp h with h | h
      · exact hreceived rx h
      · exact hfilter kbd h

/-- **Taking a character.** `cons_getc` first appends what both devices deliver, then takes
the head of the queue; it returns 0 only when there is none. -/
theorem consGetc_spec (rx kbd : List Byte) {s : Input} {q : List Byte}
    (h : s.cons.Holds consBufSize q)
    (hroom : q.length + (InputStep.deposits (.consGetc rx kbd) s).length < consBufSize) :
    match q ++ InputStep.deposits (.consGetc rx kbd) s with
    | [] => (consGetc rx kbd s).1 = 0 ∧ (consGetc rx kbd s).2.cons.Holds consBufSize []
    | c :: q' => (consGetc rx kbd s).1 = c ∧ (consGetc rx kbd s).2.cons.Holds consBufSize q' := by
  rw [InputStep.deposits, List.length_append] at hroom
  have hserial := serialIntr_holds rx h (by omega)
  have hkbd : (kbdIntr kbd (serialIntr rx s)).cons.Holds consBufSize
      (q ++ InputStep.deposits (.consGetc rx kbd) s) := by
    rw [InputStep.deposits, ← List.append_assoc]
    exact consIntr_holds kbd hserial (by rw [List.length_append]; omega)
  rw [consGetc]
  split
  · rename_i hnil
    rw [hnil] at hkbd
    rw [if_neg (not_not.mpr (hkbd.pos_eq_iff.mpr rfl))]
    exact ⟨rfl, hkbd⟩
  · rename_i c q' hcons
    rw [hcons] at hkbd
    rw [if_pos fun heq => List.cons_ne_nil c q' (hkbd.pos_eq_iff.mp heq)]
    exact hkbd.pop

/-- **One step.** While there is room, the ring stays the queue of unread bytes. -/
theorem step_queued {h : History} {q : List Byte} (hq : h.Queued q) (st : InputStep)
    (hroom : h.peak st < consBufSize) : ∃ q', (h.step st).Queued q' := by
  have hroom' : q.length + (st.deposits h.input).length < consBufSize := by
    rw [History.peak, hq.deposited, List.length_append] at hroom
    omega
  have hnonzero : ∀ c ∈ q ++ st.deposits h.input, c ≠ 0 := fun c hc =>
    (List.mem_append.mp hc).elim (hq.nonzero c) ne_zero_of_mem_deposits
  have hdep : (h.step st).deposited = h.returned ++ (q ++ st.deposits h.input) := by
    rw [History.step, hq.deposited, List.append_assoc]
  have hret : (h.step st).returned = h.returned ++ st.returns h.input := rfl
  cases st with
  | serialIntr rx =>
      refine ⟨_, ?_, serialIntr_holds rx hq.holds hroom', hnonzero⟩
      rw [hdep, hret, InputStep.returns, List.append_nil]
      rfl
  | kbdIntr kbd =>
      refine ⟨_, ?_, consIntr_holds kbd hq.holds hroom', hnonzero⟩
      rw [hdep, hret, InputStep.returns, List.append_nil]
      rfl
  | consGetc rx kbd =>
      have hspec := consGetc_spec rx kbd hq.holds hroom'
      rw [InputStep.returns] at hret
      rcases hunread : q ++ InputStep.deposits (.consGetc rx kbd) h.input with _ | ⟨c, q'⟩
      · rw [hunread] at hspec hdep
        rw [hspec.1, List.filter_cons_of_neg (by decide), List.filter_nil, List.append_nil] at hret
        exact ⟨[], by rw [hdep, hret], hspec.2, by simp⟩
      · rw [hunread] at hspec hdep hnonzero
        have hc : c ≠ 0 := hnonzero c (List.mem_cons_self ..)
        rw [hspec.1, List.filter_cons_of_pos (by simpa using hc), List.filter_nil] at hret
        refine ⟨q', ?_, hspec.2, fun x hx => hnonzero x (List.mem_cons_of_mem c hx)⟩
        rw [hdep, hret, List.append_assoc, List.singleton_append]

/-- A `cons_getc` that returns 0 finds nothing unread and nothing new. -/
theorem eq_nil_of_consGetc_eq_zero {h : History} {q : List Byte} (hq : h.Queued q)
    {rx kbd : List Byte} (hroom : h.peak (.consGetc rx kbd) < consBufSize)
    (hzero : (consGetc rx kbd h.input).1 = 0) :
    q ++ InputStep.deposits (.consGetc rx kbd) h.input = [] := by
  have hroom' : q.length + (InputStep.deposits (.consGetc rx kbd) h.input).length <
      consBufSize := by
    rw [History.peak, hq.deposited, List.length_append] at hroom
    omega
  have hspec := consGetc_spec rx kbd hq.holds hroom'
  rcases hunread : q ++ InputStep.deposits (.consGetc rx kbd) h.input with _ | ⟨c, q'⟩
  · rfl
  · rw [hunread] at hspec
    have hc : c ∈ q ++ InputStep.deposits (.consGetc rx kbd) h.input := by simp [hunread]
    have hne : c ≠ 0 := (List.mem_append.mp hc).elim (hq.nonzero c) ne_zero_of_mem_deposits
    exact absurd (hspec.1.symm.trans hzero) hne

/-- The ring starts empty. -/
theorem init_queued (serialExists : Bool) : (History.run serialExists []).Queued [] :=
  ⟨rfl, .empty (Nat.zero_lt_succ _) rfl, by simp⟩

/-- A run that goes on. -/
theorem run_append_singleton (serialExists : Bool) (steps : List InputStep) (st : InputStep) :
    History.run serialExists (steps ++ [st]) = (History.run serialExists steps).step st := by
  rw [History.run, List.foldl_append, List.foldl_cons, List.foldl_nil, History.run]

/-- The beginning of a roomy run is roomy. -/
theorem Roomy.of_append {serialExists : Bool} {steps steps' : List InputStep}
    (h : Roomy serialExists (steps ++ steps')) : Roomy serialExists steps := by
  intro pre st post heq
  exact h pre st (post ++ steps') (by rw [heq, List.append_assoc, List.cons_append])

theorem roomy_nil (serialExists : Bool) : Roomy serialExists [] := by
  intro pre st post heq
  simp at heq

/-- A roomy run goes on being roomy with a step that has room. -/
theorem Roomy.append_singleton {serialExists : Bool} {steps : List InputStep}
    (h : Roomy serialExists steps) {st : InputStep}
    (hst : (History.run serialExists steps).peak st < consBufSize) :
    Roomy serialExists (steps ++ [st]) := by
  intro pre st' post heq
  rcases List.eq_nil_or_concat post with rfl | ⟨post', t, rfl⟩
  · obtain ⟨rfl, hst'⟩ := List.append_inj' heq rfl
    rwa [← List.singleton_inj.mp hst']
  · rw [List.concat_eq_append, ← List.cons_append, ← List.append_assoc] at heq
    exact h pre st' post' (List.append_inj_left' heq rfl)

/-- **Along a run** in which the ring has room, it is the queue of unread bytes. -/
theorem run_queued {serialExists : Bool} {steps : List InputStep} (h : Roomy serialExists steps) :
    ∃ q, (History.run serialExists steps).Queued q := by
  induction steps using List.reverseRecOn with
  | nil => exact ⟨[], init_queued serialExists⟩
  | append_singleton steps st ih =>
      obtain ⟨q, hq⟩ := ih h.of_append
      rw [run_append_singleton]
      exact step_queued hq st (h steps st [] rfl)

/-- **The input ring is a queue.** In every run of the two interrupt routines and
`cons_getc`, in any order and whatever the devices deliver, during which no more than 511
bytes are ever unread: both positions stay inside the buffer, the nonzero values returned
are a prefix of the nonzero bytes deposited, and a `cons_getc` that returns 0 leaves
nothing unread. -/
theorem consGetc_run (serialExists : Bool) (steps : List InputStep)
    (h : Roomy serialExists steps) :
    let r := History.run serialExists steps
    (r.input.cons.rpos < consBufSize ∧ r.input.cons.wpos < consBufSize) ∧
      r.returned <+: r.deposited ∧
      ∀ pre rx kbd post, steps = pre ++ .consGetc rx kbd :: post →
        (consGetc rx kbd (History.run serialExists pre).input).1 = 0 →
        let r' := History.run serialExists (pre ++ [.consGetc rx kbd])
        r'.returned = r'.deposited := by
  intro r
  obtain ⟨q, hq⟩ := run_queued h
  refine ⟨⟨hq.holds.rpos_lt, hq.holds.wpos_lt⟩, ⟨q, hq.deposited.symm⟩, ?_⟩
  rintro pre rx kbd post rfl hzero r'
  obtain ⟨q', hq'⟩ := run_queued h.of_append
  have hnil := eq_nil_of_consGetc_eq_zero hq' (h pre _ post rfl) hzero
  have hret : r'.returned = (History.run serialExists pre).returned := by
    simp only [r', run_append_singleton, History.step, InputStep.returns, hzero]
    simp
  have hdep : r'.deposited = (History.run serialExists pre).returned := by
    simp only [r', run_append_singleton, History.step, hq'.deposited, List.append_assoc, hnil,
      List.append_nil]
  rw [hret, hdep]

/-- A byte from the keyboard, a zero left out, and a character taken after another byte. -/
theorem consGetc_run_two :
    let r := History.run true [.kbdIntr [0x61, 0], .consGetc [0x62] []]
    r.returned <+: r.deposited := by
  have hone : Roomy true [.kbdIntr [0x61, 0]] := (roomy_nil true).append_singleton (by decide)
  exact (consGetc_run true [.kbdIntr [0x61, 0], .consGetc [0x62] []]
    (hone.append_singleton (by decide))).2.1

end Jos
