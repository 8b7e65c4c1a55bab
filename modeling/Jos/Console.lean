import Jos.LibString

/-!
# The Console: Output Side

The output half of `kern/console.c`: the serial and parallel port drivers, the CGA/VGA
text display with its 6845 cursor registers, and `consPutc`, the ANSI escape parser that
feeds all three.

The state carries what the code can touch: memory (the screen lives there, at `crtBuf`),
the static variables, and the ports. Two ledgers are kept beside it, every port write in
order and every use of the `params` array, so that statements about *each* access made
during a call can be read off the state.

`cgaPutc` and `consPutc` call each other: the tab case of the display prints five blanks
through the whole console. The recursion is tied through the bodies `cgaPutcBody` and
`consPutcBody`, each taking the other function as a parameter; a blank never reaches the
tab case, so the knot closes after one turn, and `cgaPutc_eq` and `consPutc_eq` are the
recursive equations of the source.

The polling loops that wait for a port to become ready are bounded (12800 polls) and
touch nothing in this state, so a driver is its writes.
-/

namespace Jos

/-! ### Constants of `kern/console.h` and `inc/memlayout.h` -/

abbrev crtCols : ℕ := 80
abbrev crtSize : ℕ := 2000

abbrev kernbase : Addr := 0xF0000000
abbrev cgaBuf : Addr := 0xB8000
abbrev cgaBase : BitVec 32 := 0x3D4
abbrev monoBuf : Addr := 0xB0000
abbrev monoBase : BitVec 32 := 0x3B4

abbrev com1 : BitVec 32 := 0x3F8

/-! ### State -/

/-- The 6845 display controller: the register its index port selects, and its registers.
Registers 14 and 15 hold the cursor position, high byte first. -/
structure Crtc where
  index : Byte
  reg : Byte → Byte

/-- A write to one of the controller's two ports, the index port at `base` and the data
port right after it. -/
def Crtc.outb (crtc : Crtc) (base port : BitVec 32) (data : Byte) : Crtc :=
  if port = base then { crtc with index := data }
  else if port = base + 1 then { crtc with reg := Function.update crtc.reg crtc.index data }
  else crtc

/-- The cursor position the controller holds. -/
def Crtc.cursor (crtc : Crtc) : BitVec 16 :=
  crtc.reg 14 ++ crtc.reg 15

/-- A use of the array `params`: filling slot `i`, or reading slot `i` when `n` slots are
filled. -/
inductive ParamUse
  | fill (i : ℤ)
  | read (i n : ℤ)

/-- The state of the console's output side. -/
structure Console where
  mem : Mem
  crtc : Crtc
  /-- every port write so far, in order -/
  out : List (BitVec 32 × Byte)
  addr6845 : BitVec 32
  crtBuf : Addr
  crtPos : BitVec 16
  crtAttr : BitVec 16
  /-- 0 normal, 1 saw ESC, 2 inside CSI after `[` -/
  esc : BitVec 32
  param : BitVec 32
  params : ℤ → BitVec 32
  nparams : BitVec 32
  /-- every use of `params` so far, most recent first -/
  uses : List ParamUse

namespace Console

/-- The statics as the kernel starts, over any memory and any display controller. -/
def statics (mem : Mem) (crtc : Crtc) : Console where
  mem := mem
  crtc := crtc
  out := []
  addr6845 := 0
  crtBuf := 0
  crtPos := 0
  crtAttr := 0x0700
  esc := 0
  param := -1
  params := fun _ => 0
  nparams := 0
  uses := []

/-- `outb`. -/
def outb (port : BitVec 32) (data : Byte) (s : Console) : Console :=
  { s with out := s.out ++ [(port, data)], crtc := s.crtc.outb s.addr6845 port data }

/-- The address of `crt_buf[i]`. -/
def cellAddr (s : Console) (i : ℕ) : Addr :=
  s.crtBuf + BitVec.ofNat 32 (2 * i)

/-- `crt_buf[i]`, a character in the low byte and its attribute in the high byte. -/
def cell (s : Console) (i : ℕ) : BitVec 16 :=
  s.mem.load16 (s.cellAddr i)

/-- `crt_buf[i] = v`. -/
def setCell (i : ℕ) (v : BitVec 16) (s : Console) : Console :=
  { s with mem := s.mem.store16 (s.cellAddr i) v }

end Console

open Console

/-! ### The drivers -/

/-- `serial_putc`. -/
def serialPutc (c : BitVec 32) (s : Console) : Console :=
  s.outb (com1 + 0) (c.setWidth 8)

/-- `lpt_putc`. -/
def lptPutc (c : BitVec 32) (s : Console) : Console :=
  ((s.outb (0x378 + 0) (c.setWidth 8)).outb (0x378 + 2) (0x08 ||| 0x04 ||| 0x01)).outb
    (0x378 + 2) 0x08

/-- `cga_init`. The volatile read of the first cell after the probe value was stored to
it is answered by the hardware: `readback`. -/
def cgaInit (readback : BitVec 16) (s : Console) : Console :=
  let cp := kernbase + cgaBuf
  let was := s.mem.load16 cp
  let s := { s with mem := s.mem.store16 cp 0xA55A }
  let s :=
    if readback ≠ 0xA55A then { s with crtBuf := kernbase + monoBuf, addr6845 := monoBase }
    else { s with mem := s.mem.store16 cp was, crtBuf := cp, addr6845 := cgaBase }
  -- extract cursor location
  let s := s.outb s.addr6845 14
  let pos : BitVec 32 := BitVec.setWidth 32 (s.crtc.reg s.crtc.index) <<< (8 : ℕ)
  let s := s.outb s.addr6845 15
  let pos : BitVec 32 := pos ||| BitVec.setWidth 32 (s.crtc.reg s.crtc.index)
  { s with crtPos := pos.setWidth 16 }

/-- The scroll of `cga_putc`: the lower rows move up by one and the last row is blanked. -/
def scroll (s : Console) : Console :=
  let s := { s with
    mem := memmove s.mem s.crtBuf (s.cellAddr crtCols)
      (BitVec.ofNat 32 ((crtSize - crtCols) * 2)) }
  let s := (List.range' (crtSize - crtCols) crtCols).foldl
    (fun s i => s.setCell i (s.crtAttr ||| 0x20)) s
  { s with crtPos := s.crtPos - BitVec.ofNat 16 crtCols }

/-- "Move that little blinky thing": the four port writes that end `cga_putc`. -/
def moveCursor (s : Console) : Console :=
  let s := s.outb s.addr6845 14
  let s := s.outb (s.addr6845 + 1) ((s.crtPos >>> 8).setWidth 8)
  let s := s.outb s.addr6845 15
  s.outb (s.addr6845 + 1) (s.crtPos.setWidth 8)

/-- The first test of `cga_putc`: a character without an attribute of its own gets the
current one. -/
def withAttr (c : BitVec 32) (s : Console) : BitVec 32 :=
  -- if no attribute given, then use black on white
  if c &&& ~~~0xFF = 0 then c ||| s.crtAttr.setWidth 32 else c

/-- The switch of `cga_putc` on the character, over the `cons_putc` its tab case calls. -/
def cgaSwitch (consPutc : BitVec 32 → Console → Console) (c : BitVec 32) (s : Console) :
    Console :=
  if c &&& 0xFF = 0x08 then
    if 0 < s.crtPos then
      let s := { s with crtPos := s.crtPos - 1 }
      s.setCell s.crtPos.toNat ((c &&& ~~~0xFF ||| 0x20).setWidth 16)
    else s
  else if c &&& 0xFF = 0x0A then
    let s := { s with crtPos := s.crtPos + BitVec.ofNat 16 crtCols }
    { s with crtPos := s.crtPos - s.crtPos % BitVec.ofNat 16 crtCols }
  else if c &&& 0xFF = 0x0D then
    { s with crtPos := s.crtPos - s.crtPos % BitVec.ofNat 16 crtCols }
  else if c &&& 0xFF = 0x09 then
    (consPutc 0x20)^[5] s
  else
    let s := s.setCell s.crtPos.toNat (c.setWidth 16)
    { s with crtPos := s.crtPos + 1 }

/-- The scroll check of `cga_putc`. -/
def scrollCheck (s : Console) : Console :=
  if crtSize ≤ s.crtPos.toNat then scroll s else s

/-- The body of `cga_putc`, over the `cons_putc` its tab case calls. -/
def cgaPutcBody (consPutc : BitVec 32 → Console → Console) (c : BitVec 32) (s : Console) :
    Console :=
  moveCursor (scrollCheck (cgaSwitch consPutc (withAttr c s) s))

/-! ### Colours and the escape parser -/

/-- `ansi_to_vga_basic`. -/
def ansiToVgaBasic (ansi : BitVec 32) : BitVec 32 :=
  ansi &&& 7

/-- `set_vga_fg`. -/
def setVgaFg (fg : BitVec 32) (s : Console) : Console :=
  let attr : Byte := ((s.crtAttr >>> 8) &&& 0xFF).setWidth 8
  let attr : Byte := (attr &&& 0xF0) ||| (fg &&& 0x0F).setWidth 8
  { s with crtAttr := attr.setWidth 16 <<< 8 }

/-- `set_vga_bg`. -/
def setVgaBg (bg : BitVec 32) (s : Console) : Console :=
  let attr : Byte := ((s.crtAttr >>> 8) &&& 0xFF).setWidth 8
  let attr : Byte := (attr &&& 0x0F) ||| ((bg &&& 0x0F) <<< 4).setWidth 8
  { s with crtAttr := attr.setWidth 16 <<< 8 }

/-- The action of one SGR parameter. -/
def applySgr (p : BitVec 32) (s : Console) : Console :=
  if p = 0 then { s with crtAttr := 0x0700 }
  else if p = 1 then
    -- bright: bump fg into 8..15 if it is 0..7
    let attr : Byte := ((s.crtAttr >>> 8) &&& 0xFF).setWidth 8
    let fg : BitVec 32 := attr.setWidth 32 &&& 0x0F
    if fg.toInt < 8 then setVgaFg (fg + 8) s else s
  else if 30 ≤ p.toInt ∧ p.toInt ≤ 37 then setVgaFg (ansiToVgaBasic (p - 30)) s
  else if 40 ≤ p.toInt ∧ p.toInt ≤ 47 then setVgaBg (ansiToVgaBasic (p - 40)) s
  else if 90 ≤ p.toInt ∧ p.toInt ≤ 97 then setVgaFg (ansiToVgaBasic (p - 90) + 8) s
  else if 100 ≤ p.toInt ∧ p.toInt ≤ 107 then setVgaBg (ansiToVgaBasic (p - 100) + 8) s
  else s

/-- `if (nparams < 4) params[nparams++] = (param < 0) ? 0 : param`. -/
def pushParam (s : Console) : Console :=
  if s.nparams.toInt < 4 then
    { s with
      params := Function.update s.params s.nparams.toInt
        (if s.param.toInt < 0 then 0 else s.param)
      nparams := s.nparams + 1
      uses := .fill s.nparams.toInt :: s.uses }
  else s

/-- One round of the loop that applies the SGR parameters. -/
def sgrRound (s : Console) (i : ℕ) : Console :=
  applySgr (s.params i) { s with uses := .read i s.nparams.toInt :: s.uses }

/-- The parser inside a CSI sequence, on the character `ch`. -/
def csiPutc (ch : BitVec 32) (s : Console) : Console :=
  if 0x30 ≤ ch.toInt ∧ ch.toInt ≤ 0x39 then
    let param := if s.param.toInt < 0 then 0 else s.param
    { s with param := param * 10 + (ch - 0x30) }
  else if ch = 0x3B then
    { pushParam s with param := -1 }
  else if ch = 0x6D then
    let s := pushParam s
    let s := (List.range s.nparams.toInt.toNat).foldl sgrRound s
    { s with esc := 0 }
  else
    -- unknown CSI sequence, just ignore it
    { s with esc := 0 }

/-- Normal output: the character goes to the three devices in turn. -/
def emitBody (cgaPutc : BitVec 32 → Console → Console) (c : BitVec 32) (s : Console) :
    Console :=
  cgaPutc c (lptPutc c (serialPutc c s))

/-- The body of `cons_putc`, over the `cga_putc` it calls. -/
def consPutcBody (cgaPutc : BitVec 32 → Console → Console) (c : BitVec 32) (s : Console) :
    Console :=
  if s.esc = 0 then
    if c &&& 0xFF = 0x1B then { s with esc := 1 }
    else emitBody cgaPutc c s
  else if s.esc = 1 then
    if c &&& 0xFF = 0x5B then { s with esc := 2, param := -1, nparams := 0 }
    else
      -- not CSI, print literal ESC then this char
      emitBody cgaPutc c (emitBody cgaPutc 0x1B { s with esc := 0 })
  else if s.esc = 2 then csiPutc (c &&& 0xFF) s
  else emitBody cgaPutc c s

/-- `cons_putc` as the tab case reaches it. The display below it is given nothing to call
back: a blank is no tab. -/
def consPutcBlank : BitVec 32 → Console → Console :=
  consPutcBody (cgaPutcBody fun _ s => s)

/-- `cga_putc`. -/
def cgaPutc : BitVec 32 → Console → Console :=
  cgaPutcBody consPutcBlank

/-- `cons_putc`. -/
def consPutc : BitVec 32 → Console → Console :=
  consPutcBody cgaPutc

/-- `cputchar`. -/
def cputchar (c : BitVec 32) (s : Console) : Console :=
  consPutc c s

/-- The bytes sent to the serial port so far. -/
def Console.serialOut (s : Console) : List Byte :=
  (s.out.filter fun w => w.1 = com1 + 0).map Prod.snd

/-- The bytes sent to the parallel port's data register so far. -/
def Console.lptOut (s : Console) : List Byte :=
  (s.out.filter fun w => w.1 = 0x378 + 0).map Prod.snd

/-! ### The recursive equations of the source -/

/-- A character with bit 4 or bit 5 set is no tab, whatever attribute is added to it: the
display does not call back. -/
theorem cgaPutcBody_congr {c : BitVec 32} (hc : c.getLsbD 4 = true ∨ c.getLsbD 5 = true)
    (f g : BitVec 32 → Console → Console) (s : Console) :
    cgaPutcBody f c s = cgaPutcBody g c s := by
  have htab : ∀ x : BitVec 32, x.getLsbD 4 = true ∨ x.getLsbD 5 = true → ¬ x &&& 0xFF = 0x09 := by
    intro x hx h
    have h4 := congrArg (fun v => BitVec.getLsbD v 4) h
    have h5 := congrArg (fun v => BitVec.getLsbD v 5) h
    simp only [BitVec.getLsbD_and] at h4 h5
    rcases hx with hx | hx
    · rw [hx] at h4
      exact absurd h4 (by decide)
    · rw [hx] at h5
      exact absurd h5 (by decide)
  have hor : ¬ withAttr c s &&& 0xFF = 0x09 := by
    rw [withAttr]
    split
    · refine htab _ ?_
      simp only [BitVec.getLsbD_or]
      rcases hc with h | h <;> simp [h]
    · exact htab c hc
  simp only [cgaPutcBody, cgaSwitch, if_neg hor]

/-- The blanks of a tab are printed by `cons_putc` itself. -/
theorem consPutcBlank_eq (s : Console) : consPutcBlank 0x20 s = consPutc 0x20 s := by
  have hcb : ∀ c : BitVec 32, c.getLsbD 4 = true ∨ c.getLsbD 5 = true →
      cgaPutcBody (fun _ s => s) c = cgaPutc c :=
    fun c hc => funext fun s => cgaPutcBody_congr hc _ _ s
  have h20 := hcb 0x20 (Or.inr (by decide))
  have h1B := hcb 0x1B (Or.inl (by decide))
  simp only [consPutcBlank, consPutc, consPutcBody, emitBody, h20, h1B]

/-- **The recursive equation of `cga_putc`.** -/
theorem cgaPutc_eq (c : BitVec 32) (s : Console) : cgaPutc c s = cgaPutcBody consPutc c s := by
  simp only [cgaPutc, cgaPutcBody, cgaSwitch, Function.iterate_succ, Function.iterate_zero,
    Function.comp_apply, id_eq, consPutcBlank_eq]

/-- **The recursive equation of `cons_putc`.** -/
theorem consPutc_eq (c : BitVec 32) (s : Console) : consPutc c s = consPutcBody cgaPutc c s :=
  rfl

/-! ### The parser, state by state -/

section

variable (g : BitVec 32 → Console → Console) (c : BitVec 32) {s : Console}

/-- In running text. -/
theorem consPutcBody_text (he : s.esc = 0) : consPutcBody g c s =
    if c &&& 0xFF = 0x1B then { s with esc := 1 } else emitBody g c s :=
  if_pos he

/-- After an ESC. -/
theorem consPutcBody_esc (he : s.esc = 1) : consPutcBody g c s =
    if c &&& 0xFF = 0x5B then { s with esc := 2, param := -1, nparams := 0 }
    else emitBody g c (emitBody g 0x1B { s with esc := 0 }) := by
  have hne : s.esc ≠ 0 := by
    rw [he]
    decide
  rw [consPutcBody, if_neg hne, if_pos he]

/-- Inside a sequence. -/
theorem consPutcBody_csi (he : s.esc = 2) : consPutcBody g c s = csiPutc (c &&& 0xFF) s := by
  have hne : s.esc ≠ 0 ∧ s.esc ≠ 1 := by
    rw [he]
    decide
  rw [consPutcBody, if_neg hne.1, if_neg hne.2, if_pos he]

end

end Jos
