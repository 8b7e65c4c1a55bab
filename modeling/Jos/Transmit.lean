import Jos.Ansi

/-!
# Waiting for the Devices

`serial_putc` and `lpt_putc` of `kern/console.c`, down to the ports: before each character they wait
for their device, but not for ever. `Jos.Console` leaves the waits out; here is why it may, and
what becomes of the characters.

Each device answers the reads of its status port with bytes of its own choosing, and when it says
that it is ready, it has passed on the character that it was given before. The transmitter of the
serial port has no queue, since `serial_init` turns it off: a character that comes too early takes
the place of the one before. A busy printer does not take a character at all.

## Main results

* `wait_gets`: a wait ends, and a prompt device is ready then.
* `consPutc_console`: the waits make no difference to the console, whatever the devices answer.
* `consPutc_delivers`: **the step**, one character.
* `consPuts_delivers`: hence the run: prompt devices get every character, in order.
-/

namespace Jos

open Console

/-! ### Devices -/

/-- A device that takes one character at a time: how often its status has been read, the character
that it has been given and has not passed on, those that it has passed on, and how many are
lost. -/
structure Sender where
  polls : ℕ
  held : Option Byte
  sent : List Byte
  lost : ℕ

namespace Sender

/-- The characters that it has been given and that are not lost. -/
def got (d : Sender) : List Byte :=
  d.sent ++ d.held.toList

/-- `inb` from its status port. -/
def inb (status : ℕ → Byte) (mask : Byte) (d : Sender) : Byte × Sender :=
  let d' := { d with polls := d.polls + 1 }
  (status d.polls,
    if status d.polls &&& mask = 0 then d' else { d' with held := none, sent := d.got })

/-- `for (i = 0; !(inb(port) & mask) && i < 12800; i++) delay();`, with so many rounds left. -/
def wait (status : ℕ → Byte) (mask : Byte) : ℕ → Sender → Sender
  | 0, d => (d.inb status mask).2
  | n + 1, d =>
      if (d.inb status mask).1 &&& mask = 0 then wait status mask n (d.inb status mask).2
      else (d.inb status mask).2

/-- A character for the transmitter takes the place of the one before. -/
def put (c : Byte) (d : Sender) : Sender :=
  { d with held := some c, lost := d.lost + d.held.toList.length }

/-- A busy printer does not take a character. -/
def strobe (c : Byte) (d : Sender) : Sender :=
  match d.held with
  | none => { d with held := some c }
  | some _ => { d with lost := d.lost + 1 }

end Sender

/-- `COM_LSR_TXRDY`. -/
abbrev comLsrTxrdy : Byte := 0x20

/-- The bit of the printer's status that says it is not busy. -/
abbrev lptNotBusy : Byte := 0x80

/-- What the devices answer to the reads of their status. -/
structure Answers where
  lsr : ℕ → Byte
  lpt : ℕ → Byte

/-- The console with the devices at its ports: the transmitter of the serial port, the printer, the
character at the printer's data port, and whether its strobe is on. -/
structure Wired where
  console : Console
  uart : Sender
  printer : Sender
  latch : Byte
  strobed : Bool

/-! ### The drivers -/

namespace Wired

variable (ans : Answers)

/-- `outb`. The printer takes a character when the strobe goes on. -/
def outb (port : BitVec 32) (data : Byte) (w : Wired) : Wired :=
  let w := { w with console := w.console.outb port data }
  if port = com1 + 0 then { w with uart := w.uart.put data }
  else if port = 0x378 + 0 then { w with latch := data }
  else if port = 0x378 + 2 then
    { w with
      printer := if data.getLsbD 0 ∧ ¬ w.strobed then w.printer.strobe w.latch else w.printer
      strobed := data.getLsbD 0 }
  else w

/-- `serial_putc`. -/
def serialPutc (c : BitVec 32) (w : Wired) : Wired :=
  let w := { w with uart := w.uart.wait ans.lsr comLsrTxrdy 12800 }
  w.outb (com1 + 0) (c.setWidth 8)

/-- `lpt_putc`. -/
def lptPutc (c : BitVec 32) (w : Wired) : Wired :=
  let w := { w with printer := w.printer.wait ans.lpt lptNotBusy 12800 }
  ((w.outb (0x378 + 0) (c.setWidth 8)).outb (0x378 + 2) (0x08 ||| 0x04 ||| 0x01)).outb
    (0x378 + 2) 0x08

/-- What writes to no port. -/
def draw (f : Console → Console) (w : Wired) : Wired :=
  { w with console := f w.console }

/-- The cursor of `cga_putc`. -/
def moveCursor (w : Wired) : Wired :=
  let w := w.outb w.console.addr6845 14
  let w := w.outb (w.console.addr6845 + 1) ((w.console.crtPos >>> 8).setWidth 8)
  let w := w.outb w.console.addr6845 15
  w.outb (w.console.addr6845 + 1) (w.console.crtPos.setWidth 8)

/-- The body of `cga_putc`, over the `cons_putc` its tab case calls. -/
def cgaPutcBody (consPutc : BitVec 32 → Wired → Wired) (c : BitVec 32) (w : Wired) : Wired :=
  let c := withAttr c w.console
  let w :=
    if c &&& 0xFF = 0x09 then (consPutc 0x20)^[5] w
    else w.draw (cgaSwitch (fun _ s => s) c)
  (w.draw scrollCheck).moveCursor

/-- Normal output: the character goes to the three devices in turn. -/
def emitBody (cgaPutc : BitVec 32 → Wired → Wired) (c : BitVec 32) (w : Wired) : Wired :=
  cgaPutc c ((w.serialPutc ans c).lptPutc ans c)

/-- The body of `cons_putc`, over the `cga_putc` it calls. -/
def consPutcBody (cgaPutc : BitVec 32 → Wired → Wired) (c : BitVec 32) (w : Wired) : Wired :=
  if w.console.esc = 0 then
    if c &&& 0xFF = 0x1B then w.draw fun s => { s with esc := 1 }
    else emitBody ans cgaPutc c w
  else if w.console.esc = 1 then
    if c &&& 0xFF = 0x5B then w.draw fun s => { s with esc := 2, param := -1, nparams := 0 }
    else
      -- not CSI, print literal ESC then this char
      emitBody ans cgaPutc c (emitBody ans cgaPutc 0x1B (w.draw fun s => { s with esc := 0 }))
  else if w.console.esc = 2 then w.draw (csiPutc (c &&& 0xFF))
  else emitBody ans cgaPutc c w

/-- `cons_putc` as the tab case reaches it. -/
def consPutcBlank : BitVec 32 → Wired → Wired :=
  consPutcBody ans (cgaPutcBody fun _ w => w)

/-- `cga_putc`. -/
def cgaPutc : BitVec 32 → Wired → Wired :=
  cgaPutcBody (consPutcBlank ans)

/-- `cons_putc`. -/
def consPutc : BitVec 32 → Wired → Wired :=
  consPutcBody ans (cgaPutc ans)

/-- One character after the other. -/
def consPuts (cs : List (BitVec 32)) (w : Wired) : Wired :=
  cs.foldl (fun w c => consPutc ans c w) w

end Wired

/-! ### The waits make no difference to the console -/

section

variable (ans : Answers)

/-- A byte for a port is one for the console, whatever the devices make of it. -/
theorem outb_console (port : BitVec 32) (data : Byte) (w : Wired) :
    (w.outb port data).console = w.console.outb port data := by
  simp only [Wired.outb]
  split_ifs <;> rfl

/-- The waits of `serial_putc` are not seen on the console. -/
theorem serialPutc_console (c : BitVec 32) (w : Wired) :
    (w.serialPutc ans c).console = serialPutc c w.console :=
  outb_console _ _ _

/-- Nor are those of `lpt_putc`. -/
theorem lptPutc_console (c : BitVec 32) (w : Wired) :
    (w.lptPutc ans c).console = lptPutc c w.console := by
  simp only [Wired.lptPutc, outb_console, lptPutc]

/-- The cursor moves as it does without devices. -/
theorem moveCursor_console (w : Wired) : w.moveCursor.console = moveCursor w.console := by
  simp only [Wired.moveCursor, outb_console, moveCursor]

/-- The display, over any `cons_putc` that does to the console what it should. -/
theorem cgaPutcBody_console {f : BitVec 32 → Wired → Wired} {g : BitVec 32 → Console → Console}
    (hf : ∀ w, (f 0x20 w).console = g 0x20 w.console) (c : BitVec 32) (w : Wired) :
    (Wired.cgaPutcBody f c w).console = cgaPutcBody g c w.console := by
  have htab : ∀ n (w : Wired), ((f 0x20)^[n] w).console = (g 0x20)^[n] w.console := by
    intro n w
    induction n generalizing w with
    | zero => rfl
    | succ n ih => rw [Function.iterate_succ_apply, Function.iterate_succ_apply, ih, hf]
  have hswitch : (if withAttr c w.console &&& 0xFF = 0x09 then (f 0x20)^[5] w
      else w.draw (cgaSwitch (fun _ s => s) (withAttr c w.console))).console =
      cgaSwitch g (withAttr c w.console) w.console := by
    by_cases h09 : withAttr c w.console &&& 0xFF = 0x09
    · have hne : ¬ withAttr c w.console &&& 0xFF = 0x08 ∧
          ¬ withAttr c w.console &&& 0xFF = 0x0A ∧ ¬ withAttr c w.console &&& 0xFF = 0x0D := by
        rw [h09]
        decide
      rw [if_pos h09, htab, cgaSwitch, if_neg hne.1, if_neg hne.2.1, if_neg hne.2.2, if_pos h09]
    · simp only [if_neg h09, Wired.draw, cgaSwitch]
  simp only [Wired.cgaPutcBody, moveCursor_console, Wired.draw, cgaPutcBody] at hswitch ⊢
  rw [hswitch]

/-- The parser, over any display. -/
theorem consPutcBody_console {f : BitVec 32 → Wired → Wired} {g : BitVec 32 → Console → Console}
    (hf : ∀ c w, (f c w).console = g c w.console) (c : BitVec 32) (w : Wired) :
    (Wired.consPutcBody ans f c w).console = consPutcBody g c w.console := by
  have hemit : ∀ c w, (Wired.emitBody ans f c w).console = emitBody g c w.console := by
    intro c w
    rw [Wired.emitBody, hf, lptPutc_console, serialPutc_console, emitBody]
  rw [Wired.consPutcBody, consPutcBody]
  split_ifs <;> simp only [hemit, Wired.draw]

/-- **The waits make no difference to the console**, whatever the devices answer. -/
theorem consPutc_console (c : BitVec 32) (w : Wired) :
    (w.consPutc ans c).console = consPutc c w.console := by
  have hblank : ∀ c w, (Wired.consPutcBlank ans c w).console = consPutcBlank c w.console :=
    consPutcBody_console ans (cgaPutcBody_console fun _ => rfl)
  exact consPutcBody_console ans (cgaPutcBody_console (hblank 0x20)) c w

/-- So a run of `cons_putc` is the run without devices. -/
theorem consPuts_console (cs : List (BitVec 32)) (w : Wired) :
    (w.consPuts ans cs).console = cs.foldl (fun s c => consPutc c s) w.console := by
  induction cs generalizing w with
  | nil => rfl
  | cons c cs ih => exact (ih _).trans (by rw [consPutc_console, List.foldl_cons])

end

/-! ### What a device gets -/

/-- The device is never busy for long: it is ready again before a wait is given up. -/
def Prompt (status : ℕ → Byte) (mask : Byte) : Prop :=
  ∀ n, ∃ k ≤ 12800, status (n + k) &&& mask ≠ 0

/-- The device has been given the characters `cs`: it has got some of them, in order, the others are
lost, and if it is prompt, none is. -/
structure Gets (status : ℕ → Byte) (mask : Byte) (cs : List Byte) (d d' : Sender) : Prop where
  got : List.Sublist d'.got (d.got ++ cs)
  count : d'.got.length + d'.lost = d.got.length + d.lost + cs.length
  polls : d'.polls ≤ d.polls + 12801 * cs.length
  kept : Prompt status mask → d'.lost = d.lost

section

variable {status : ℕ → Byte} {mask : Byte} {d d' d'' : Sender}

/-- A device gets nothing while nothing is done. -/
theorem Gets.refl (d : Sender) : Gets status mask [] d d where
  got := List.sublist_append_left _ _
  count := rfl
  polls := Nat.le_add_right _ _
  kept := fun _ => rfl

/-- What a device gets in turn, it gets one behind the other. -/
theorem Gets.trans {cs cs' : List Byte} (h : Gets status mask cs d d')
    (h' : Gets status mask cs' d' d'') : Gets status mask (cs ++ cs') d d'' where
  got := by
    rw [← List.append_assoc]
    exact h'.got.trans (h.got.append_right cs')
  count := by
    have hcount := h.count
    have hcount' := h'.count
    rw [List.length_append]
    omega
  polls := by
    have hpolls := h.polls
    have hpolls' := h'.polls
    rw [List.length_append]
    omega
  kept := fun hprompt => (h'.kept hprompt).trans (h.kept hprompt)

/-- **A prompt device gets everything.** -/
theorem Gets.prompt {cs : List Byte} (h : Gets status mask cs d d') (hp : Prompt status mask) :
    d'.got = d.got ++ cs := by
  have hcount := h.count
  have hkept := h.kept hp
  refine h.got.eq_of_length ?_
  rw [List.length_append]
  omega

/-- A read of the status loses nothing. -/
theorem inb_spec (status : ℕ → Byte) (mask : Byte) (d : Sender) :
    (d.inb status mask).2.got = d.got ∧ (d.inb status mask).2.lost = d.lost ∧
      (d.inb status mask).2.polls = d.polls + 1 ∧
      (status d.polls &&& mask ≠ 0 → (d.inb status mask).2.held = none) := by
  by_cases hbusy : status d.polls &&& mask = 0
  · rw [Sender.inb, if_pos hbusy]
    exact ⟨rfl, rfl, rfl, fun hready => absurd hbusy hready⟩
  · rw [Sender.inb, if_neg hbusy]
    exact ⟨List.append_nil _, rfl, rfl, fun _ => rfl⟩

/-- **A wait** ends, loses nothing, and comes to a device that is ready if it is ready in time.
Induction on the rounds that are left. -/
theorem wait_spec (status : ℕ → Byte) (mask : Byte) (n : ℕ) (d : Sender) :
    (d.wait status mask n).got = d.got ∧ (d.wait status mask n).lost = d.lost ∧
      (d.wait status mask n).polls ≤ d.polls + (n + 1) ∧
      ((∃ k ≤ n, status (d.polls + k) &&& mask ≠ 0) → (d.wait status mask n).held = none) := by
  induction n generalizing d with
  | zero =>
      obtain ⟨hgot, hlost, hpolls, hready⟩ := inb_spec status mask d
      refine ⟨hgot, hlost, hpolls.le, ?_⟩
      rintro ⟨k, hk, hk'⟩
      rw [Nat.le_zero.mp hk] at hk'
      exact hready hk'
  | succ n ih =>
      obtain ⟨hgot, hlost, hpolls, hready⟩ := inb_spec status mask d
      by_cases hbusy : (d.inb status mask).1 &&& mask = 0
      · obtain ⟨hgot', hlost', hpolls', hready'⟩ := ih (d.inb status mask).2
        rw [Sender.wait, if_pos hbusy]
        refine ⟨hgot'.trans hgot, hlost'.trans hlost, by omega, ?_⟩
        rintro ⟨k, hk, hk'⟩
        -- the device is not ready yet, so it is at a later read
        obtain _ | k := k
        · exact absurd hbusy hk'
        · refine hready' ⟨k, Nat.le_of_succ_le_succ hk, ?_⟩
          rw [hpolls, add_assoc, add_comm 1 k]
          exact hk'
      · rw [Sender.wait, if_neg hbusy]
        exact ⟨hgot, hlost, by omega, fun _ => hready hbusy⟩

/-- How a device takes a character that is written to it, whether it is ready or not. -/
structure Takes (take : Byte → Sender → Sender) : Prop where
  got : ∀ c d, List.Sublist (take c d).got (d.got ++ [c])
  count : ∀ c d, (take c d).got.length + (take c d).lost = d.got.length + d.lost + 1
  polls : ∀ c d, (take c d).polls = d.polls
  kept : ∀ c d, d.held = none → (take c d).lost = d.lost

/-- The serial port takes a byte that is put. -/
theorem takes_put : Takes Sender.put where
  got c d := (List.sublist_append_left d.sent d.held.toList).append_right [c]
  count c d := by
    simp only [Sender.put, Sender.got, List.length_append, Option.toList_some,
      List.length_singleton]
    omega
  polls _ _ := rfl
  kept c d hfree := by simp [Sender.put, hfree]

/-- The printer takes a byte at the strobe. -/
theorem takes_strobe : Takes Sender.strobe where
  got c d := by
    cases hheld : d.held <;> simp [Sender.strobe, Sender.got, hheld]
  count c d := by
    cases hheld : d.held <;> simp [Sender.strobe, Sender.got, hheld] <;> omega
  polls c d := by
    cases hheld : d.held <;> simp [Sender.strobe, hheld]
  kept c d hfree := by simp [Sender.strobe, hfree]

/-- **A character after a wait.** -/
theorem wait_gets {take : Byte → Sender → Sender} (h : Takes take) (c : Byte) (d : Sender) :
    Gets status mask [c] d (take c (d.wait status mask 12800)) := by
  obtain ⟨hgot, hlost, hpolls, hready⟩ := wait_spec status mask 12800 d
  refine ⟨?_, ?_, ?_, fun hprompt => ?_⟩
  · rw [← hgot]
    exact h.got c _
  · rw [h.count, hgot, hlost]
    rfl
  · rw [h.polls]
    exact hpolls
  · rw [h.kept c _ (hready (hprompt d.polls)), hlost]

end

/-! ### What the devices get -/

/-- A step of the console with its devices: the characters that it sends to the two ports are given
to the devices there. -/
structure Delivers (ans : Answers) (w w' : Wired) : Prop where
  serial : ∃ cs, w'.console.serialOut = w.console.serialOut ++ cs ∧
    Gets ans.lsr comLsrTxrdy cs w.uart w'.uart
  lpt : ∃ cs, w'.console.lptOut = w.console.lptOut ++ cs ∧
    Gets ans.lpt lptNotBusy cs w.printer w'.printer
  addr6845 : w'.console.addr6845 = w.console.addr6845
  crtBuf : w'.console.crtBuf = w.console.crtBuf
  strobed : w'.strobed = w.strobed

/-- Between two characters: the adapter is one of the two, and the strobe is off. -/
structure Wired.Ready (w : Wired) : Prop where
  video : w.console.Video
  strobed : w.strobed = false

section

variable (ans : Answers) {w w' w'' : Wired}

variable {ans} in
/-- Nothing is delivered while nothing is done. -/
theorem Delivers.refl (w : Wired) : Delivers ans w w where
  serial := ⟨[], (List.append_nil _).symm, .refl _⟩
  lpt := ⟨[], (List.append_nil _).symm, .refl _⟩
  addr6845 := rfl
  crtBuf := rfl
  strobed := rfl

variable {ans} in
/-- Deliveries, one after the other. -/
theorem Delivers.trans (h : Delivers ans w w') (h' : Delivers ans w' w'') :
    Delivers ans w w'' := by
  obtain ⟨cs, hserial, hgets⟩ := h.serial
  obtain ⟨cs', hserial', hgets'⟩ := h'.serial
  obtain ⟨ds, hlpt, htakes⟩ := h.lpt
  obtain ⟨ds', hlpt', htakes'⟩ := h'.lpt
  refine ⟨⟨cs ++ cs', ?_, hgets.trans hgets'⟩, ⟨ds ++ ds', ?_, htakes.trans htakes'⟩,
    h'.addr6845.trans h.addr6845, h'.crtBuf.trans h.crtBuf, h'.strobed.trans h.strobed⟩
  · rw [hserial', hserial, List.append_assoc]
  · rw [hlpt', hlpt, List.append_assoc]

variable {ans} in
/-- A delivery leaves the devices wired as they were. -/
theorem Delivers.ready (h : Delivers ans w w') (hw : w.Ready) : w'.Ready where
  video := by
    rw [Video, h.crtBuf, h.addr6845]
    exact hw.video
  strobed := h.strobed.trans hw.strobed

/-- A step that writes to no port, and leaves the adapter alone. -/
structure NoPort (s s' : Console) : Prop where
  out : s'.out = s.out
  addr6845 : s'.addr6845 = s.addr6845
  crtBuf : s'.crtBuf = s.crtBuf

/-- What touches no port delivers nothing. -/
theorem draw_delivers {f : Console → Console} (h : NoPort w.console (f w.console)) :
    Delivers ans w (w.draw f) where
  serial := ⟨[], by rw [List.append_nil, Console.serialOut, Console.serialOut, ← h.out]; rfl,
    .refl _⟩
  lpt := ⟨[], by rw [List.append_nil, Console.lptOut, Console.lptOut, ← h.out]; rfl, .refl _⟩
  addr6845 := h.addr6845
  crtBuf := h.crtBuf
  strobed := rfl

/-- **`serial_putc`.** -/
theorem serialPutc_delivers (c : BitVec 32) (w : Wired) :
    Delivers ans w (w.serialPutc ans c) where
  serial := ⟨[c.setWidth 8], (serialPutc_sends c w.console).serialOut, wait_gets takes_put _ _⟩
  lpt := ⟨[], (serialPutc_sends c w.console).lptOut, .refl _⟩
  addr6845 := rfl
  crtBuf := rfl
  strobed := rfl

/-- The strobe takes the character to the printer, and is off again. -/
theorem lptPutc_eq (c : BitVec 32) (hw : w.strobed = false) : w.lptPutc ans c = { w with
    console := lptPutc c w.console
    printer := (w.printer.wait ans.lpt lptNotBusy 12800).strobe (c.setWidth 8)
    latch := c.setWidth 8 } := by
  have hports : ¬ (0x378 + 0 : BitVec 32) = com1 + 0 ∧ ¬ (0x378 + 2 : BitVec 32) = com1 + 0 ∧
      ¬ (0x378 + 2 : BitVec 32) = 0x378 + 0 := by decide
  have hon : (0x08 ||| 0x04 ||| 0x01 : Byte).getLsbD 0 = true := by decide
  have hoff : (0x08 : Byte).getLsbD 0 = false := by decide
  simp only [Wired.lptPutc, Wired.outb, if_neg hports.1, if_neg hports.2.1, if_neg hports.2.2,
    if_true, hon, hoff, hw, lptPutc]
  rfl

/-- **`lpt_putc`.** -/
theorem lptPutc_delivers (c : BitVec 32) (hw : w.Ready) : Delivers ans w (w.lptPutc ans c) := by
  rw [lptPutc_eq ans c hw.strobed]
  exact ⟨⟨[], (lptPutc_sends c w.console).serialOut, .refl _⟩,
    ⟨[c.setWidth 8], (lptPutc_sends c w.console).lptOut, wait_gets takes_strobe _ _⟩,
    rfl, rfl, rfl⟩

/-- The display controller is at other ports. -/
theorem outb_crtc_delivers {port : BitVec 32} (hw : w.Ready)
    (hport : port = w.console.addr6845 ∨ port = w.console.addr6845 + 1) (data : Byte) :
    Delivers ans w (w.outb port data) := by
  have hsends := outb_crtc_sends hw.video hport data
  have hne : port ≠ com1 + 0 ∧ port ≠ 0x378 + 0 ∧ port ≠ 0x378 + 2 := by
    rcases hw.video with ⟨-, ha⟩ | ⟨-, ha⟩ <;> rw [ha] at hport <;> rcases hport with rfl | rfl <;>
      decide
  have hout : w.outb port data = { w with console := w.console.outb port data } := by
    simp only [Wired.outb, if_neg hne.1, if_neg hne.2.1, if_neg hne.2.2]
  rw [hout]
  exact ⟨⟨[], hsends.serialOut, .refl _⟩, ⟨[], hsends.lptOut, .refl _⟩, rfl, rfl, rfl⟩

/-- The writes that move the cursor go to other ports. -/
theorem moveCursor_delivers (hw : w.Ready) : Delivers ans w w.moveCursor := by
  have h₁ := outb_crtc_delivers ans hw (Or.inl rfl) 14
  set w₁ := w.outb w.console.addr6845 14
  have h₂ := h₁.trans (outb_crtc_delivers ans (h₁.ready hw) (Or.inr rfl)
    ((w₁.console.crtPos >>> 8).setWidth 8))
  set w₂ := w₁.outb (w₁.console.addr6845 + 1) ((w₁.console.crtPos >>> 8).setWidth 8)
  have h₃ := h₂.trans (outb_crtc_delivers ans (h₂.ready hw) (Or.inl rfl) 15)
  exact h₃.trans (outb_crtc_delivers ans (h₃.ready hw) (Or.inr rfl) _)

/-- What the display does to the screen. -/
theorem cgaSwitch_noPort (c : BitVec 32) (s : Console) :
    NoPort s (cgaSwitch (fun _ s => s) c s) := by
  rw [cgaSwitch]
  split_ifs <;> exact ⟨rfl, rfl, rfl⟩

/-- A scroll touches no port. -/
theorem scrollCheck_noPort (s : Console) : NoPort s (scrollCheck s) := by
  rw [scrollCheck]
  split
  · exact ⟨out_scroll s, (scroll_draws s).addr6845, (scroll_draws s).crtBuf⟩
  · exact ⟨rfl, rfl, rfl⟩

/-- A character inside a control sequence. -/
theorem csiPutc_noPort (ch : BitVec 32) (s : Console) : NoPort s (csiPutc ch s) := by
  have hnoPort : ∀ {s' : Console}, Parses s s' → NoPort s s' :=
    fun h => ⟨h.out, h.addr6845, h.crtBuf⟩
  have hpush := (pushParam_parses s).1
  have hloop : ∀ l : List ℕ, Parses s (l.foldl sgrRound (pushParam s)) := fun l =>
    List.foldlRecOn (motive := Parses s) l sgrRound hpush fun s' h i _ => by
      obtain ⟨a, ha, -⟩ := sgrRound_eq s' i
      rw [ha]
      exact h.trans ⟨rfl, rfl, rfl, rfl, rfl, rfl⟩
  rw [csiPutc]
  split
  · exact ⟨rfl, rfl, rfl⟩
  split
  · exact hnoPort (hpush.trans ⟨rfl, rfl, rfl, rfl, rfl, rfl⟩)
  split
  · exact hnoPort ((hloop _).trans (setEsc_parses _ 0))
  · exact hnoPort (setEsc_parses s 0)

/-- **`cga_putc`**, over any `cons_putc` that delivers its blanks. -/
theorem cgaPutcBody_delivers {f : BitVec 32 → Wired → Wired}
    (hf : ∀ w : Wired, w.Ready → Delivers ans w (f 0x20 w)) (c : BitVec 32) (hw : w.Ready) :
    Delivers ans w (Wired.cgaPutcBody f c w) := by
  have htab : ∀ n, Delivers ans w ((f 0x20)^[n] w) := by
    intro n
    induction n with
    | zero => exact .refl w
    | succ n ih =>
        rw [Function.iterate_succ_apply']
        exact ih.trans (hf _ (ih.ready hw))
  rw [Wired.cgaPutcBody]
  set w₁ := if withAttr c w.console &&& 0xFF = 0x09 then (f 0x20)^[5] w
    else w.draw (cgaSwitch (fun _ s => s) (withAttr c w.console)) with hw₁
  have hswitch : Delivers ans w w₁ := by
    rw [hw₁]
    split
    · exact htab 5
    · exact draw_delivers ans (cgaSwitch_noPort _ _)
  have hscroll := hswitch.trans (draw_delivers ans (scrollCheck_noPort w₁.console))
  exact hscroll.trans (moveCursor_delivers ans (hscroll.ready hw))

/-- The parser, over any display that delivers. -/
theorem consPutcBody_delivers {f : BitVec 32 → Wired → Wired}
    (hf : ∀ c (w : Wired), w.Ready → Delivers ans w (f c w)) (c : BitVec 32) (hw : w.Ready) :
    Delivers ans w (Wired.consPutcBody ans f c w) := by
  have hemit : ∀ c (w : Wired), w.Ready → Delivers ans w (Wired.emitBody ans f c w) := by
    intro c w hw
    have hserial := serialPutc_delivers ans c w
    have hlpt := hserial.trans (lptPutc_delivers ans c (hserial.ready hw))
    exact hlpt.trans (hf c _ (hlpt.ready hw))
  have hesc : ∀ e : BitVec 32, Delivers ans w (w.draw fun s => { s with esc := e }) :=
    fun _ => draw_delivers ans ⟨rfl, rfl, rfl⟩
  rw [Wired.consPutcBody]
  split_ifs
  · exact hesc 1
  · exact hemit c w hw
  · exact draw_delivers ans ⟨rfl, rfl, rfl⟩
  · have hlit := (hesc 0).trans (hemit 0x1B _ ((hesc 0).ready hw))
    exact hlit.trans (hemit c _ (hlit.ready hw))
  · exact draw_delivers ans (csiPutc_noPort _ _)
  · exact hemit c w hw

/-- **One character.** -/
theorem consPutc_delivers (c : BitVec 32) (hw : w.Ready) : Delivers ans w (w.consPutc ans c) := by
  have hblank : ∀ w : Wired, w.Ready → Delivers ans w (Wired.consPutcBlank ans 0x20 w) :=
    fun _ hw => consPutcBody_delivers ans
      (fun c _ hw => cgaPutcBody_delivers ans (fun w _ => .refl w) c hw) 0x20 hw
  exact consPutcBody_delivers ans (fun c _ hw => cgaPutcBody_delivers ans hblank c hw) c hw

/-- A run of characters. -/
theorem consPuts_run (cs : List (BitVec 32)) (hw : w.Ready) :
    Delivers ans w (w.consPuts ans cs) := by
  induction cs generalizing w with
  | nil => exact .refl w
  | cons c cs ih =>
      have hstep := consPutc_delivers ans c hw
      exact hstep.trans (ih (hstep.ready hw))

/-- **What is printed arrives.** Whatever the devices answer, the console is the terminal that it is
without them, each character costs at most 12801 reads of a status, and what a device gets is
some of the characters that the terminal sends on, in order: all of them, if it is prompt. -/
theorem consPuts_delivers {s₀ : Console} {a : AnsiTerm} (h : Renders s₀ w.console a)
    (hs : w.strobed = false) (cs : List (BitVec 32)) :
    Renders s₀ (w.consPuts ans cs).console (a.text cs) ∧
      ∃ bs, (a.text cs).sent = a.sent ++ bs ∧
        Gets ans.lsr comLsrTxrdy bs w.uart (w.consPuts ans cs).uart ∧
        Gets ans.lpt lptNotBusy bs w.printer (w.consPuts ans cs).printer ∧
        (Prompt ans.lsr comLsrTxrdy → (w.consPuts ans cs).uart.got = w.uart.got ++ bs) ∧
        (Prompt ans.lpt lptNotBusy → (w.consPuts ans cs).printer.got = w.printer.got ++ bs) := by
  have hrenders : Renders s₀ (w.consPuts ans cs).console (a.text cs) := by
    rw [consPuts_console]
    exact foldl_renders h cs
  have hrun := consPuts_run ans cs ⟨h.passes.video, hs⟩
  obtain ⟨bs, hserial, hgets⟩ := hrun.serial
  obtain ⟨ds, hlpt, htakes⟩ := hrun.lpt
  -- what the terminal sends on is what has been sent to each of the ports
  have hbs : (a.text cs).sent = a.sent ++ bs := by
    rw [h.passes.serialOut, hrenders.passes.serialOut, List.append_assoc] at hserial
    exact List.append_cancel_left hserial
  have hds : (a.text cs).sent = a.sent ++ ds := by
    rw [h.passes.lptOut, hrenders.passes.lptOut, List.append_assoc] at hlpt
    exact List.append_cancel_left hlpt
  have heq : ds = bs := List.append_cancel_left (hds.symm.trans hbs)
  rw [heq] at htakes
  exact ⟨hrenders, bs, hbs, hgets, htakes, hgets.prompt, htakes.prompt⟩

end

/-- A console as it comes up, with devices that are always ready. -/
theorem consPuts_delivers_hi :
    (Wired.consPuts ⟨fun _ => 0x20, fun _ => 0x80⟩ [0x48, 0x69]
      ⟨cgaInit 0xA55A (statics ⟨fun _ => 0, []⟩ ⟨0, fun _ => 0⟩), ⟨0, none, [], 0⟩,
        ⟨0, none, [], 0⟩, 0, false⟩).uart.got = [0x48, 0x69] := by
  set s := cgaInit 0xA55A (statics ⟨fun _ => 0, []⟩ ⟨0, fun _ => 0⟩)
  have hinv : s.Inv := cgaInit_inv _ _ _ (by decide)
  obtain ⟨-, bs, hbs, -, -, hserial, -⟩ :=
    consPuts_delivers ⟨fun _ => 0x20, fun _ => 0x80⟩ (w := ⟨s, ⟨0, none, [], 0⟩,
      ⟨0, none, [], 0⟩, 0, false⟩) (renders_start hinv.video rfl hinv.attr hinv.pos) rfl
      [0x48, 0x69]
  have htext : bs = [0x48, 0x69] := hbs.symm
  have hready : Prompt (fun _ => 0x20) comLsrTxrdy :=
    fun _ => ⟨0, Nat.zero_le _, (by decide : (0x20 : Byte) &&& comLsrTxrdy ≠ 0)⟩
  rw [hserial hready, htext]
  rfl

end Jos
