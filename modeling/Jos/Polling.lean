import Jos.Mouse
import Jos.Readline

/-!
# Waiting for a Character

`getchar` of `kern/console.c`, down to the ports: it calls `cons_getc` until there is a
character, and each of these calls polls the receiver of the serial port and the keyboard
controller. What comes in before a poll is an `Arrival`; the bytes of a scan code may come in
at different polls.

The steps of `Jos.Input`, which say what the drivers return, are what the ports come to
(`pollSteps`).

## Main results

* `serialIntr_port`, `kbdIntr_port`: `cons_intr`, over what is in the ports.
* `poll_refines`, `chars_refine`: `cons_getc` at the ports is `cons_getc` on what the drivers
  return.
* `chars_queue`: the values of `getchar` are the bytes that came in, in order.
* `chars_drained`: with enough polls, all of them.
-/

namespace Jos

/-! ### The receiver of the serial port -/

/-- `COM_LSR_DATA`. -/
abbrev comLsrData : Byte := 0x01

/-- `inb(COM1+COM_LSR)`, with the bytes that have been received and not read. -/
def inbLsr (rx : List Byte) : Byte :=
  match rx with
  | [] => 0
  | _ :: _ => comLsrData

/-- `inb(COM1+COM_RX)`: the first of these bytes, which is taken away. -/
def inbRx (rx : List Byte) : Byte × List Byte :=
  match rx with
  | [] => (0, [])
  | c :: rx => (c, rx)

/-- `serial_proc_data`. -/
def serialProcData (rx : List Byte) : Except Fault (BitVec 32 × List Byte) :=
  if inbLsr rx &&& comLsrData = 0 then .ok (-1, rx)
  else .ok ((inbRx rx).1.setWidth 32, (inbRx rx).2)

/-- A round of `cons_intr`, when the driver returns a byte. -/
theorem consIntrCall_byte {σ : Type} {proc : σ → Except Fault (BitVec 32 × σ)} {dev dev' : σ}
    {c : Byte} (h : proc dev = .ok (c.setWidth 32, dev')) (cons : Ring Byte) :
    consIntrCall proc (dev, cons) = .ok (.next (dev', consIntrRound cons c)) := by
  have hne : c.setWidth 32 ≠ (-1 : BitVec 32) := by bv_omega
  rw [consIntrCall, h, ok_bind]
  simp only [if_neg hne, consIntrRound]
  by_cases hc : c = 0
  · rw [if_pos hc, if_pos (by rw [hc]; rfl)]
    rfl
  · rw [if_neg hc, if_neg (by bv_omega), BitVec.setWidth_setWidth_of_le _ (by decide),
      BitVec.setWidth_eq]
    rfl

/-- **`serial_intr`** takes everything that has been received. -/
theorem serialIntr_port (rx : List Byte) (cons : Ring Byte) :
    Converges ([], consIntr rx cons) fun fuel => consIntrProc serialProcData fuel rx cons := by
  suffices hloops : Loops .fuel (fun _ => consIntrCall serialProcData) (rx, cons)
      ([], consIntr rx cons) from hloops.converges
  induction rx generalizing cons with
  | nil =>
      have hproc : serialProcData [] = .ok (-1, []) := if_pos (by decide)
      refine .leave ⟨0, fun _ _ => ?_⟩
      rw [consIntrCall, hproc, ok_bind]
      rfl
  | cons c rx ih =>
      have hlsr : inbLsr (c :: rx) = comLsrData := rfl
      have hproc : serialProcData (c :: rx) = .ok (c.setWidth 32, rx) := by
        rw [serialProcData, hlsr, if_neg (by decide)]
        rfl
      exact .next ⟨0, fun _ _ => consIntrCall_byte hproc cons⟩ (ih (consIntrRound cons c))

/-! ### The keyboard controller -/

/-- What the driver returns for each of the bytes from the keyboard, and its state then. -/
def scanned : List Byte → Kbd → Except Fault (List Byte × Kbd)
  | [], s => .ok ([], s)
  | b :: bs, s => do
      let (c, s) ← kbdProcData kbsDib b s
      let (cs, s) ← scanned bs s
      pure (c.setWidth 8 :: cs, s)

/-- The driver always returns. -/
theorem exists_scanned (bs : List Byte) (s : Kbd) : ∃ r, scanned bs s = .ok r := by
  induction bs generalizing s with
  | nil => exact ⟨([], s), rfl⟩
  | cons b bs ih =>
      obtain ⟨c, s₁, hdata⟩ := exists_kbdProcData b s
      obtain ⟨⟨cs, s'⟩, hcs⟩ := ih s₁
      exact ⟨_, by rw [scanned, hdata, ok_bind]; simp only [hcs, ok_bind]; rfl⟩

/-- One byte after the others. -/
theorem scanned_cons {b : Byte} {bs : List Byte} {s s₁ : Kbd} {c : Byte}
    (h : kbdProcData kbsDib b s = .ok (c.setWidth 32, s₁)) :
    scanned (b :: bs) s = (scanned bs s₁).map fun r => (c :: r.1, r.2) := by
  rw [scanned, h, ok_bind]
  simp only [BitVec.setWidth_setWidth_of_le c (by decide : 8 ≤ 32), BitVec.setWidth_eq]
  rcases scanned bs s₁ with e | r <;> rfl

/-- **`kbd_intr`** takes everything that has come from the keyboard. -/
theorem kbdIntr_port {bs cs : List Byte} {s s' : Kbd} (h : scanned bs s = .ok (cs, s'))
    (cons : Ring Byte) : Converges (⟨[], s'⟩, consIntr cs cons)
      fun fuel => Kbc.kbdIntr fuel ⟨bs.map .key, s⟩ cons := by
  suffices hloops : Loops .fuel (fun _ => consIntrCall Kbc.kbdProcData) (⟨bs.map .key, s⟩, cons)
      (⟨[], s'⟩, consIntr cs cons) from hloops.converges
  induction bs generalizing s cs cons with
  | nil =>
      cases h
      exact .leave ⟨0, fun _ _ => consIntrCall_leave (by simp) s' cons⟩
  | cons b bs ih =>
      obtain ⟨c, s₁, hdata, hround⟩ := consIntrCall_key b (bs.map .key) s cons
      rw [scanned_cons hdata] at h
      rcases hbs : scanned bs s₁ with e | ⟨cs', s₂⟩
      · rw [hbs] at h
        cases h
      · rw [hbs] at h
        cases h
        exact .next ⟨0, fun _ _ => hround⟩ (ih hbs (consIntrRound cons c))

/-! ### Polling both -/

/-- The input side down to the ports: what has been received and not read, the keyboard
controller, the buffer `cons`, and `serial_exists`. -/
structure Ports where
  uart : List Byte
  kbc : Kbc
  cons : Ring Byte
  serialExists : Bool

/-- What comes in before a poll: from the serial line, and from the keyboard. -/
structure Arrival where
  rx : List Byte
  scan : List Byte

/-- Nothing comes in. -/
def Arrival.none : Arrival where
  rx := []
  scan := []

namespace Ports

/-- The input side, as the drivers see it. -/
def input (p : Ports) : Input where
  cons := p.cons
  serialExists := p.serialExists

/-- Something comes in. -/
def arrive (a : Arrival) (p : Ports) : Ports :=
  { p with uart := p.uart ++ a.rx, kbc := ⟨p.kbc.queue ++ a.scan.map .key, p.kbc.kbd⟩ }

/-- `serial_intr`, at the port. -/
def serialIntr (fuel : ℕ) (p : Ports) : Except Fault Ports :=
  if p.serialExists then do
    let (uart, cons) ← consIntrProc serialProcData fuel p.uart p.cons
    pure { p with uart := uart, cons := cons }
  else .ok p

/-- `kbd_intr`, at the port. -/
def kbdIntr (fuel : ℕ) (p : Ports) : Except Fault Ports := do
  let (kbc, cons) ← p.kbc.kbdIntr fuel p.cons
  pure { p with kbc := kbc, cons := cons }

/-- `cons_getc`, at the ports. -/
def consGetc (fuel : ℕ) (p : Ports) : Except Fault (BitVec 32 × Ports) := do
  let p ← p.serialIntr fuel
  let p ← p.kbdIntr fuel
  -- grab the next character from the input buffer
  if p.cons.rpos ≠ p.cons.wpos then
    pure ((p.cons.pop consBufSize).1.setWidth 32, { p with cons := (p.cons.pop consBufSize).2 })
  else pure (0, p)

/-- `getchar`: what it returns, unless it is still waiting, and what comes in after that. -/
def getchar (fuel : ℕ) : List Arrival → Ports →
    Except Fault (Option (BitVec 32) × List Arrival × Ports)
  | [], p => .ok (none, [], p)
  | a :: as, p => do
      let (c, p) ← (p.arrive a).consGetc fuel
      if c = 0 then getchar fuel as p else pure (some c, as, p)

/-- The values of `getchar`, called again and again. -/
def chars (fuel : ℕ) : List Arrival → Ports → Except Fault (List (BitVec 32) × Ports)
  | [], p => .ok ([], p)
  | a :: as, p => do
      let (c, p) ← (p.arrive a).consGetc fuel
      let (cs, p) ← chars fuel as p
      pure (if c = 0 then cs else c :: cs, p)

/-- **It is `getchar`** that returns them. -/
theorem chars_eq (fuel : ℕ) (as : List Arrival) (p : Ports) :
    p.chars fuel as = (do
      let (c, as, p) ← p.getchar fuel as
      match c with
      | none => pure ([], p)
      | some c => do
          let (cs, p) ← p.chars fuel as
          pure (c :: cs, p)) := by
  induction as generalizing p with
  | nil => rfl
  | cons a as ih =>
      rw [chars, getchar]
      rcases (p.arrive a).consGetc fuel with e | ⟨c, p'⟩
      · rfl
      · simp only [ok_bind]
        by_cases hc : c = 0
        · rw [if_pos hc]
          simp only [if_pos hc]
          rw [← ih p']
          rcases p'.chars fuel as with e | r <;> rfl
        · simp only [if_neg hc]
          rfl

end Ports

/-! ### What the drivers return -/

/-- The polls as steps of the input side, with what the drivers return at each of them. -/
def pollSteps : List Arrival → Kbd → Except Fault (List InputStep × Kbd)
  | [], s => .ok ([], s)
  | a :: as, s => do
      let (cs, s) ← scanned a.scan s
      let (steps, s) ← pollSteps as s
      pure (.consGetc a.rx cs :: steps, s)

/-- They always return. -/
theorem exists_pollSteps (as : List Arrival) (s : Kbd) : ∃ r, pollSteps as s = .ok r := by
  induction as generalizing s with
  | nil => exact ⟨([], s), rfl⟩
  | cons a as ih =>
      obtain ⟨⟨cs, s₁⟩, hcs⟩ := exists_scanned a.scan s
      obtain ⟨⟨steps, s'⟩, hsteps⟩ := ih s₁
      refine ⟨(.consGetc a.rx cs :: steps, s'), ?_⟩
      simp only [pollSteps, hcs, hsteps, ok_bind]
      rfl

/-- One poll after the others. -/
theorem pollSteps_cons {a : Arrival} {as : List Arrival} {s s' : Kbd} {steps : List InputStep}
    (h : pollSteps (a :: as) s = .ok (steps, s')) : ∃ cs s₁ rest,
      scanned a.scan s = .ok (cs, s₁) ∧ pollSteps as s₁ = .ok (rest, s') ∧
      steps = .consGetc a.rx cs :: rest := by
  obtain ⟨⟨cs, s₁⟩, hcs, h⟩ := ok_of_bind h
  obtain ⟨⟨rest, s₂⟩, hrest, h⟩ := ok_of_bind h
  cases h
  exact ⟨cs, s₁, rest, hcs, hrest, rfl⟩

/-- Between two polls, everything has been taken that is polled for. -/
structure Ports.Idle (p : Ports) : Prop where
  uart : p.serialExists = true → p.uart = []
  queue : p.kbc.queue = []

/-- **One poll** at the ports is a poll of what the drivers return. -/
theorem poll_refines {p : Ports} (h : p.Idle) (a : Arrival) {cs : List Byte} {s' : Kbd}
    (hcs : scanned a.scan p.kbc.kbd = .ok (cs, s')) :
    ∃ p', p'.Idle ∧ p'.input = (consGetc a.rx cs p.input).2 ∧ p'.kbc.kbd = s' ∧
      Converges ((consGetc a.rx cs p.input).1.setWidth 32, p')
        fun fuel => (p.arrive a).consGetc fuel := by
  obtain ⟨uart, ⟨queue, kbd⟩, cons, exist⟩ := p
  obtain rfl : queue = [] := h.queue
  set polled := Jos.kbdIntr cs (Jos.serialIntr a.rx ⟨cons, exist⟩) with hpolled
  have hexist : polled.serialExists = exist := by
    cases exist <;> rfl
  -- what the two interrupt routines leave
  obtain ⟨uart', huart, hserial⟩ : ∃ uart', (exist = true → uart' = []) ∧ Converges
      (⟨uart', ⟨a.scan.map .key, kbd⟩, (Jos.serialIntr a.rx ⟨cons, exist⟩).cons, exist⟩ : Ports)
      fun fuel => Ports.serialIntr fuel ⟨uart ++ a.rx, ⟨a.scan.map .key, kbd⟩, cons, exist⟩ := by
    cases exist with
    | false => exact ⟨uart ++ a.rx, fun hfalse => absurd hfalse (by decide), converges_ok _⟩
    | true =>
        obtain rfl : uart = [] := h.uart rfl
        exact ⟨[], fun _ => rfl, (serialIntr_port a.rx cons).bind (converges_ok _)⟩
  have hkbd : Converges (⟨uart', ⟨[], s'⟩, polled.cons, exist⟩ : Ports) fun fuel =>
      Ports.kbdIntr fuel
        ⟨uart', ⟨a.scan.map .key, kbd⟩, (Jos.serialIntr a.rx ⟨cons, exist⟩).cons, exist⟩ :=
    (kbdIntr_port hcs _).bind (converges_ok _)
  -- and the character that is taken
  rw [Jos.consGetc, Ports.input, ← hpolled]
  by_cases hne : polled.cons.rpos ≠ polled.cons.wpos
  · simp only [if_pos hne]
    refine ⟨⟨uart', ⟨[], s'⟩, (polled.cons.pop consBufSize).2, exist⟩, ⟨huart, rfl⟩, ?_, rfl,
      hserial.bind (hkbd.bind ?_)⟩
    · rw [Ports.input, ← hexist]
    · simp only [if_pos hne]
      exact converges_ok _
  · simp only [if_neg hne]
    refine ⟨⟨uart', ⟨[], s'⟩, polled.cons, exist⟩, ⟨huart, rfl⟩, ?_, rfl,
      hserial.bind (hkbd.bind ?_)⟩
    · rw [Ports.input, ← hexist]
    · simp only [if_neg hne]
      exact converges_ok _

/-- **The values of `getchar`** are those that the steps return. Induction on the polls. -/
theorem chars_refine {as : List Arrival} {p : Ports} (h : p.Idle) {steps : List InputStep}
    {s' : Kbd} (hsteps : pollSteps as p.kbc.kbd = .ok (steps, s')) {r : History}
    (hr : r.input = p.input) :
    ∃ p' bs, p'.Idle ∧ p'.kbc.kbd = s' ∧ p'.input = (steps.foldl History.step r).input ∧
      (steps.foldl History.step r).returned = r.returned ++ bs ∧
      Converges (keys bs, p') fun fuel => p.chars fuel as := by
  induction as generalizing p steps r with
  | nil =>
      cases hsteps
      exact ⟨p, [], h, rfl, hr.symm, (List.append_nil _).symm, converges_ok _⟩
  | cons a as ih =>
      obtain ⟨cs, s₁, rest, hcs, hrest, rfl⟩ := pollSteps_cons hsteps
      obtain ⟨p₁, h₁, hinput, rfl, hpoll⟩ := poll_refines h a hcs
      have hr₁ : (r.step (.consGetc a.rx cs)).input = p₁.input := by
        rw [History.step, InputStep.next, hr, hinput]
      obtain ⟨p', bs, h', hkbd, hlast, hreturned, hchars⟩ := ih h₁ hrest hr₁
      have hfirst : (r.step (.consGetc a.rx cs)).returned =
          r.returned ++ [(consGetc a.rx cs p.input).1].filter (· ≠ 0) := by
        rw [History.step, InputStep.returns, hr]
      refine ⟨p', [(consGetc a.rx cs p.input).1].filter (· ≠ 0) ++ bs, h', hkbd, hlast, ?_,
        hpoll.bind ?_⟩
      · rw [List.foldl_cons, hreturned, hfirst, List.append_assoc]
      · refine hchars.bind ?_
        generalize (consGetc a.rx cs p.input).1 = c
        by_cases hc : c = 0
        · rw [hc, List.filter_cons_of_neg (by decide)]
          exact converges_ok _
        · have hne : c.setWidth 32 ≠ (0 : BitVec 32) := by bv_omega
          rw [List.filter_cons_of_pos (by simpa using hc)]
          simp only [if_neg hne]
          exact converges_ok _

/-! ### From the start of the kernel -/

/-- The input side as the kernel starts: nothing has come in, and the keyboard is as it is
initialised. -/
def Ports.start (serialExists : Bool) (console : Console) : Ports where
  uart := []
  kbc := ⟨[], { shift := 0, console := console }⟩
  cons := (Input.init serialExists).cons
  serialExists := serialExists

/-- **`getchar` reads a queue.** Whatever comes in before each poll, complete scan codes or parts
of them: as long as no more than 511 bytes are ever unread, the values of `getchar` and what
is left in the ring are the bytes that the drivers returned, in order, zeros left out. -/
theorem chars_queue (serialExists : Bool) (console : Console) (as : List Arrival) :
    ∃ steps s' bs p', pollSteps as { shift := 0, console := console } = .ok (steps, s') ∧
      Converges (keys bs, p') (fun fuel => (Ports.start serialExists console).chars fuel as) ∧
      bs = (History.run serialExists steps).returned ∧
      (Roomy serialExists steps → ∃ q, (History.run serialExists steps).deposited = bs ++ q ∧
        p'.cons.Holds consBufSize q) := by
  obtain ⟨⟨steps, s'⟩, hsteps⟩ := exists_pollSteps as { shift := 0, console := console }
  obtain ⟨p', bs, -, -, hlast, hreturned, hchars⟩ := chars_refine
    (p := Ports.start serialExists console) ⟨fun _ => rfl, rfl⟩ hsteps
    (r := { input := Input.init serialExists, deposited := [], returned := [] }) rfl
  refine ⟨steps, s', bs, p', hsteps, hchars, hreturned.symm, fun hroom => ?_⟩
  obtain ⟨q, hq⟩ := run_queued hroom
  have hholds := hq.holds
  rw [History.run, ← hlast] at hholds
  exact ⟨q, by rw [hq.deposited]; exact congrArg (· ++ q) hreturned, hholds⟩

/-- **Reading the ring out**: a poll with nothing new takes the next unread byte. Induction on the
polls. -/
theorem drain_steps {n : ℕ} {r : History} {q : List Byte} (hq : r.Queued q) (hn : q.length ≤ n) :
    ((List.replicate n (.consGetc [] [])).foldl History.step r).returned = r.deposited := by
  induction n generalizing r q with
  | zero =>
      rw [List.length_eq_zero_iff.mp (Nat.le_zero.mp hn)] at hq
      rw [List.replicate_zero, List.foldl_nil, hq.deposited, List.append_nil]
  | succ n ih =>
      have hnew : InputStep.deposits (.consGetc [] []) r.input = [] := by
        simp [InputStep.deposits, Input.received]
      have hspec := consGetc_spec [] [] hq.holds (by rw [hnew]; exact hq.holds.length_lt)
      have hdep : (r.step (.consGetc [] [])).deposited = r.deposited := by
        rw [History.step, hnew, List.append_nil]
      have hret : (r.step (.consGetc [] [])).returned =
          r.returned ++ [(consGetc [] [] r.input).1].filter (· ≠ 0) := rfl
      rw [hnew, List.append_nil] at hspec
      rw [List.replicate_succ, List.foldl_cons, ← hdep]
      cases q with
      | nil =>
          rw [hspec.1, List.filter_cons_of_neg (by decide), List.filter_nil,
            List.append_nil] at hret
          exact ih (q := []) ⟨by rw [hdep, hret, hq.deposited], hspec.2, by simp⟩ (Nat.zero_le n)
      | cons c q =>
          have hc : c ≠ 0 := hq.nonzero c List.mem_cons_self
          rw [hspec.1, List.filter_cons_of_pos (by simpa using hc), List.filter_nil] at hret
          refine ih (q := q) ⟨?_, hspec.2, fun x hx => hq.nonzero x (List.mem_cons_of_mem c hx)⟩
            (Nat.le_of_succ_le_succ hn)
          rw [hdep, hret, hq.deposited, List.append_assoc, List.singleton_append]

/-- The polls, and then others. -/
theorem pollSteps_append {as bs : List Arrival} {s s₁ s₂ : Kbd} {steps rest : List InputStep}
    (h : pollSteps as s = .ok (steps, s₁)) (h' : pollSteps bs s₁ = .ok (rest, s₂)) :
    pollSteps (as ++ bs) s = .ok (steps ++ rest, s₂) := by
  induction as generalizing s steps with
  | nil =>
      cases h
      exact h'
  | cons a as ih =>
      obtain ⟨cs, s₀, steps', hcs, hsteps, rfl⟩ := pollSteps_cons h
      simp only [List.cons_append, pollSteps, hcs, ih hsteps, ok_bind]
      rfl

/-- Polls with nothing new. -/
theorem pollSteps_none (n : ℕ) (s : Kbd) : pollSteps (List.replicate n .none) s =
    .ok (List.replicate n (.consGetc [] []), s) := by
  induction n with
  | zero => rfl
  | succ n ih =>
      have hcs : scanned Arrival.none.scan s = .ok ([], s) := rfl
      simp only [List.replicate_succ, pollSteps, hcs, ih, ok_bind]
      rfl

/-- **With enough polls** everything that has come in is read. -/
theorem chars_drained {serialExists : Bool} {console : Console} {as : List Arrival}
    {steps : List InputStep} {s' : Kbd}
    (hsteps : pollSteps as { shift := 0, console := console } = .ok (steps, s'))
    (hroom : Roomy serialExists steps) {n : ℕ}
    (hn : (History.run serialExists steps).deposited.length ≤ n) :
    ∃ p', p'.kbc.kbd = s' ∧
      Converges (keys (History.run serialExists steps).deposited, p') fun fuel =>
        (Ports.start serialExists console).chars fuel (as ++ List.replicate n .none) := by
  obtain ⟨q, hq⟩ := run_queued hroom
  have hlen : q.length ≤ n := by
    rw [hq.deposited, List.length_append] at hn
    omega
  obtain ⟨p', bs, -, hkbd, -, hreturned, hchars⟩ := chars_refine
    (p := Ports.start serialExists console) ⟨fun _ => rfl, rfl⟩
    (pollSteps_append hsteps (pollSteps_none n s'))
    (r := { input := Input.init serialExists, deposited := [], returned := [] }) rfl
  rw [List.foldl_append] at hreturned
  have hall := drain_steps hq hlen
  rw [History.run] at hall hq ⊢
  rw [hall, List.nil_append] at hreturned
  exact ⟨p', hkbd, by rw [hreturned]; exact hchars⟩

end Jos
