import Jos.Boot
import Jos.Pc

/-!
# The Boot Sector

`boot/boot.S`: the way from real mode, in which the BIOS leaves the processor, to the call of
`bootmain` in protected mode. It waits for the keyboard controller, twice, to have it enable the
address line 20, and gives all segment registers segments of all addresses. The code is in memory,
byte by byte, and is executed from there.

## Main results

* `startCode_assembled`: the bytes of the boot sector are those of the lines of `boot.S`.
* `waits_ready`: each of the two loops ends, with nothing but `al`, the zero flag and the number
  of polls changed.
* `start_enters`: **the boot sector** comes to `bootmain`, with the memory as it was but for the
  return address, which is that of `spin`.
* `Entered.identity`: there every address is what it says.
-/

namespace Jos

/-! ### The code -/

/-- `PROT_MODE_CSEG` and `PROT_MODE_DSEG`. -/
abbrev protModeCseg : BitVec 16 := 0x8
abbrev protModeDseg : BitVec 16 := 0x10

/-- Where the code and the tables are. -/
abbrev start : Addr := 0x7C00
abbrev protcseg : Addr := 0x7C32
abbrev spin : Addr := 0x7C4A
abbrev gdt : Addr := 0x7C4C
abbrev gdtdesc : Addr := 0x7C64

/-- The code of `boot.S`. Jumps and calls have the distance from the line behind. -/
def startCode (bootmainAddr : Addr) : List CodeLine :=
  [⟨0x00, false, [0xFA], .cli⟩,
    ⟨0x01, false, [0xFC], .cld⟩,
    ⟨0x02, false, [0x31, 0xC0], .xorwAx⟩,
    ⟨0x04, false, [0x8E, 0xD8], .movwAxTo .ds⟩,
    ⟨0x06, false, [0x8E, 0xC0], .movwAxTo .es⟩,
    ⟨0x08, false, [0x8E, 0xD0], .movwAxTo .ss⟩,
    -- seta20.1
    ⟨0x0A, false, [0xE4, 0x64], .inbAl 0x64⟩,
    ⟨0x0C, false, [0xA8, 0x02], .testbAl 0x2⟩,
    ⟨0x0E, false, [0x75, 0xFA], .jnz (0x0A - 0x10)⟩,
    ⟨0x10, false, [0xB0, 0xD1], .movbAl 0xD1⟩,
    ⟨0x12, false, [0xE6, 0x64], .outbAl 0x64⟩,
    -- seta20.2
    ⟨0x14, false, [0xE4, 0x64], .inbAl 0x64⟩,
    ⟨0x16, false, [0xA8, 0x02], .testbAl 0x2⟩,
    ⟨0x18, false, [0x75, 0xFA], .jnz (0x14 - 0x1A)⟩,
    ⟨0x1A, false, [0xB0, 0xDF], .movbAl 0xDF⟩,
    ⟨0x1C, false, [0xE6, 0x60], .outbAl 0x60⟩,
    ⟨0x1E, false, [0x0F, 0x01, 0x16, 0x64, 0x7C], .lgdt (gdtdesc.setWidth 16)⟩,
    ⟨0x23, false, [0x0F, 0x20, 0xC0], .movlCr0Eax⟩,
    ⟨0x26, false, [0x66, 0x83, 0xC8, 0x01], .orlEax cr0PE⟩,
    ⟨0x2A, false, [0x0F, 0x22, 0xC0], .movlEaxCr0⟩,
    ⟨0x2D, false, [0xEA, 0x32, 0x7C, 0x08, 0x00], .ljmp protModeCseg (protcseg.setWidth 16)⟩,
    -- protcseg
    ⟨0x32, true, [0x66, 0xB8, 0x10, 0x00], .movwAx protModeDseg⟩,
    ⟨0x36, true, [0x8E, 0xD8], .movwAxTo .ds⟩,
    ⟨0x38, true, [0x8E, 0xC0], .movwAxTo .es⟩,
    ⟨0x3A, true, [0x8E, 0xE0], .movwAxTo .fs⟩,
    ⟨0x3C, true, [0x8E, 0xE8], .movwAxTo .gs⟩,
    ⟨0x3E, true, [0x8E, 0xD0], .movwAxTo .ss⟩,
    ⟨0x40, true, [0xBC, 0x00, 0x7C, 0x00, 0x00], .movlEsp start⟩,
    ⟨0x45, true, 0xE8 :: bytes32 (bootmainAddr - spin), .call (bootmainAddr - spin)⟩,
    -- spin
    ⟨0x4A, true, [0xEB, 0xFE], .jmp (0x4A - 0x4C)⟩]

/-- The table of segments, and what `lgdt` reads. -/
def bootTables : List Byte :=
  asmSegNull ++ asmSeg (staX ||| staR) 0 0xFFFFFFFF ++ asmSeg staW 0 0xFFFFFFFF ++
    asmWord 0x17 ++ asmWord gdt ++ asmWord (gdt >>> 16)

/-- The boot sector, up to `bootmain`. -/
def startBytes (bootmainAddr : Addr) : List Byte :=
  (startCode bootmainAddr).flatMap CodeLine.bytes ++ bootTables

section

variable (bootmainAddr : Addr)

/-- The lines are one behind the other. -/
theorem startCode_contiguous : CodeLine.Contiguous 0 (startCode bootmainAddr) := by
  simp [startCode, CodeLine.Contiguous, bytes32]

/-- **The bytes are those of the lines.** -/
theorem startCode_assembled : ∀ l ∈ startCode bootmainAddr,
    l.Assembled ∧ l.off + l.bytes.length ≤ 0x4C := by
  have hcall : ∀ rest, decode true (0xE8 :: bytes32 (bootmainAddr - spin) ++ rest) =
      some (.call (bootmainAddr - spin), 5) := fun rest =>
    congrArg (fun v => some (Insn.call v, 5)) (Mem.append_word (bootmainAddr - spin))
  have hsize : ∀ l ∈ startCode bootmainAddr, 1 ≤ l.bytes.length ∧ l.bytes.length ≤ 15 ∧
      l.off + l.bytes.length ≤ 0x4C := by
    simp [startCode, bytes32]
  intro l hl
  obtain ⟨hone, hshort, hend⟩ := hsize l hl
  refine ⟨⟨?_, hone, hshort⟩, hend⟩
  simp only [startCode, List.mem_cons, List.not_mem_nil, or_false] at hl
  rcases hl with rfl | rfl | rfl | rfl | rfl | rfl | rfl | rfl | rfl | rfl | rfl | rfl | rfl | rfl |
    rfl | rfl | rfl | rfl | rfl | rfl | rfl | rfl | rfl | rfl | rfl | rfl | rfl | rfl | rfl | rfl
  all_goals first | exact fun _ => rfl | exact hcall

/-- Where the code and the tables are in memory. -/
theorem holds_start {m : Mem} (h : m.Holds start (startBytes bootmainAddr)) :
    (∀ l ∈ startCode bootmainAddr, m.Holds (start + BitVec.ofNat 32 l.off) l.bytes) ∧
      m.Holds gdt bootTables := by
  refine ⟨CodeLine.holds_line (startCode_contiguous bootmainAddr) ?_, ?_⟩
  · rw [BitVec.add_zero]
    exact h.left
  · exact h.right

end

/-! ### Real mode -/

/-- The code is not in the part of memory that the address line 20 hides. -/
theorem a20Line_start : ∀ k < 0x4C, ∀ a20, a20Line a20 (start + BitVec.ofNat 32 k) =
    start + BitVec.ofNat 32 k := by
  decide

/-- As the BIOS leaves the processor, with the boot sector loaded. -/
structure Pc.Booted (bootmainAddr : Addr) (p : Pc) : Prop where
  real : p.cr0 &&& cr0PE = 0
  unpaged : p.cr0 &&& cr0PG = 0
  eip : p.eip = start
  base : p.cs.segment.base = 0
  limit : p.cs.segment.limit = 0xFFFF
  big : p.cs.segment.big = false
  data : (p.data .ds).segment.limit = 0xFFFF
  sector : p.mem.Holds start (startBytes bootmainAddr)

/-- Real mode, at an offset of the boot sector that was entered in the state `p`. -/
structure Real (p : Pc) (off : ℕ) (q : Pc) : Prop where
  eip : q.eip = start + BitVec.ofNat 32 off
  cs : q.cs = p.cs
  base : (q.data .ds).segment.base = 0
  limit : (q.data .ds).segment.limit = 0xFFFF
  mem : q.mem = p.mem
  cr0 : q.cr0 = p.cr0
  df : q.df = false
  interrupts : q.interrupts = false

section

variable (status : ℕ → Byte) {t : EntryTables} (mmu : Mmu t) {bootmainAddr : Addr} {p q : Pc}

/-- **One line of the boot sector**, in a code segment for it. -/
theorem start_line (hp : p.Booted bootmainAddr) (hmem : q.mem = p.mem)
    (hoff : q.cr0 &&& cr0PG = 0) {l : CodeLine} (hl : l ∈ startCode bootmainAddr)
    (heip : q.eip = start + BitVec.ofNat 32 l.off) (hbase : q.cs.segment.base = 0)
    (hlimit : 0xFFFF ≤ q.cs.segment.limit.toNat) (hbig : q.cs.segment.big = l.big) :
    q.step status mmu = l.insn.execute status mmu
      { q with eip := start + BitVec.ofNat 32 (l.off + l.bytes.length) } := by
  obtain ⟨hassembled, hend⟩ := startCode_assembled bootmainAddr l hl
  have hholds := (holds_start bootmainAddr hp.sector).1 l hl
  rw [← hmem] at hholds
  have hone := hassembled.nonempty
  have hlinear : ∀ k < 0x4C, q.cs.segment.linear (start + BitVec.ofNat 32 k) 1 =
      some (start + BitVec.ofNat 32 k) := by
    intro k hk
    have hnat : (start + BitVec.ofNat 32 k).toNat = 0x7C00 + k :=
      toNat_add_ofNat (by change 0x7C00 + k < 2 ^ 32; omega)
    rw [Segment.linear, if_pos (by omega), hbase, zero_add]
  have hfetch : ∀ i < l.bytes.length, q.codeByte i =
      some (q.mem.byte (start + BitVec.ofNat 32 (l.off + i))) := by
    intro i hi
    have hat : q.eip + BitVec.ofNat 32 i = start + BitVec.ofNat 32 (l.off + i) := by
      rw [heip, BitVec.ofNat_add, add_assoc]
    rw [Pc.codeByte, hat, hlinear _ (by omega)]
    simp only [translate, if_pos hoff, Option.bind_eq_bind, Option.bind_some, Pc.seen,
      a20Line_start _ (by omega : l.off + i < 0x4C)]
    rfl
  refine (CodeLine.step status mmu hassembled hholds heip hbig
    (by rw [heip]; exact hlinear _ (by omega)) hfetch).trans ?_
  rw [Mmu.marked, if_pos hoff]

/-- A line of real mode. -/
theorem real_line (hp : p.Booted bootmainAddr) (hcs : q.cs = p.cs) (hcr0 : q.cr0 = p.cr0)
    (hmem : q.mem = p.mem) {l : CodeLine} (hl : l ∈ startCode bootmainAddr)
    (heip : q.eip = start + BitVec.ofNat 32 l.off) (hbig : l.big = false) :
    q.step status mmu = l.insn.execute status mmu
      { q with eip := start + BitVec.ofNat 32 (l.off + l.bytes.length) } := by
  refine start_line status mmu hp hmem (by rw [hcr0, hp.unpaged]) hl heip ?_ ?_ ?_ <;> rw [hcs]
  · exact hp.base
  · rw [hp.limit]
    decide
  · rw [hp.big, hbig]

/-- An instruction that keeps the segments, the memory and the flags stays in real mode. -/
theorem Real.keeps {q' : Pc} {o o' : ℕ} (hq : Real p o q)
    (heip : q'.eip = start + BitVec.ofNat 32 o')
    (hregs : (q'.cs, q'.data, q'.mem, q'.cr0) = (q.cs, q.data, q.mem, q.cr0))
    (hflags : (q'.df, q'.interrupts) = (q.df, q.interrupts)) : Real p o' q' := by
  simp only [Prod.mk.injEq] at hregs hflags
  obtain ⟨hcs, hdata, hmem, hcr0⟩ := hregs
  exact ⟨heip, hcs.trans hq.cs, by rw [hdata, hq.base], by rw [hdata, hq.limit], hmem.trans hq.mem,
    hcr0.trans hq.cr0, hflags.1.trans hq.df, hflags.2.trans hq.interrupts⟩

/-- A load of a data segment register in real mode. -/
theorem loadData_real (hreal : q.cr0 &&& cr0PE = 0) (r : SegName) (sel : BitVec 16) :
    q.loadData r sel = some { q with
      data := Function.update q.data r
        ⟨sel, { (q.data r).segment with base := sel.setWidth 32 <<< 4 }⟩ } :=
  if_pos hreal

/-- **The first lines**: the flags, and the segment registers of real mode. -/
theorem starts (hp : p.Booted bootmainAddr) : ∃ q, p.Runs status mmu q ∧ Real p 0x0A q := by
  set q₁ : Pc := { p with interrupts := false, eip := start + BitVec.ofNat 32 1 } with hq₁
  set q₂ : Pc := { q₁ with df := false, eip := start + BitVec.ofNat 32 2 } with hq₂
  set q₃ : Pc := { q₂.setAx 0 with zf := true, eip := start + BitVec.ofNat 32 4 } with hq₃
  have hax : q₃.ax = 0 := ax_setAx q₂ 0
  have h₁ : p.step status mmu = some q₁ := real_line status mmu (q := p) hp rfl rfl rfl
    (l := ⟨0x00, false, [0xFA], .cli⟩) (by simp [startCode])
    (hp.eip.trans (BitVec.add_zero _).symm) rfl
  have h₂ : q₁.step status mmu = some q₂ := real_line status mmu (q := q₁) hp rfl rfl rfl
    (l := ⟨0x01, false, [0xFC], .cld⟩) (by simp [startCode]) rfl rfl
  have h₃ : q₂.step status mmu = some q₃ := real_line status mmu (q := q₂) hp rfl rfl rfl
    (l := ⟨0x02, false, [0x31, 0xC0], .xorwAx⟩) (by simp [startCode]) rfl rfl
  have hload : ∀ q : Pc, q.cs = p.cs → q.cr0 = p.cr0 → q.mem = p.mem → q.ax = 0 →
      ∀ l ∈ startCode bootmainAddr, ∀ r, l.insn = .movwAxTo r → l.big = false →
        q.eip = start + BitVec.ofNat 32 l.off → q.step status mmu = some { q with
          eip := start + BitVec.ofNat 32 (l.off + l.bytes.length)
          data := Function.update q.data r ⟨0, { (q.data r).segment with base := 0 }⟩ } := by
    intro q hcs hcr0 hmem hax l hl r hinsn hbig heip
    have hreal : q.cr0 &&& cr0PE = 0 := by rw [hcr0, hp.real]
    set q' : Pc := { q with eip := start + BitVec.ofNat 32 (l.off + l.bytes.length) }
    have hzero : q'.loadData r q'.ax = q'.loadData r 0 := congrArg (q'.loadData r) hax
    rw [real_line status mmu hp hcs hcr0 hmem hl heip hbig, hinsn]
    exact hzero.trans (loadData_real (q := q') hreal r 0)
  have h₄ := hload q₃ rfl rfl rfl hax ⟨0x04, false, [0x8E, 0xD8], .movwAxTo .ds⟩
    (by simp [startCode]) .ds rfl rfl rfl
  set q₄ : Pc := { q₃ with
    eip := start + BitVec.ofNat 32 6
    data := Function.update q₃.data .ds ⟨0, { (q₃.data .ds).segment with base := 0 }⟩ } with hq₄
  have h₅ := hload q₄ rfl rfl rfl hax ⟨0x06, false, [0x8E, 0xC0], .movwAxTo .es⟩
    (by simp [startCode]) .es rfl rfl rfl
  set q₅ : Pc := { q₄ with
    eip := start + BitVec.ofNat 32 8
    data := Function.update q₄.data .es ⟨0, { (q₄.data .es).segment with base := 0 }⟩ } with hq₅
  have h₆ := hload q₅ rfl rfl rfl hax ⟨0x08, false, [0x8E, 0xD0], .movwAxTo .ss⟩
    (by simp [startCode]) .ss rfl rfl rfl
  refine ⟨_, runs_step h₁ (runs_step h₂ (runs_step h₃ (runs_step h₄ (runs_step h₅
    (runs_step h₆ .refl))))), rfl, rfl, rfl, ?_, rfl, rfl, rfl, rfl⟩
  exact hp.data

/-- A jump by a distance in real mode. -/
theorem jumpBy_real (hp : p.Booted bootmainAddr) (hcs : q.cs = p.cs) {rel : Byte} {o o' : ℕ}
    (heip : q.eip = start + BitVec.ofNat 32 o)
    (ho : (start + BitVec.ofNat 32 o + rel.signExtend 32) &&& 0xFFFF =
      start + BitVec.ofNat 32 o') :
    q.jumpBy (rel.signExtend 32) = { q with eip := start + BitVec.ofNat 32 o' } := by
  have hbig : ¬ q.cs.segment.big = true := by rw [hcs, hp.big]; decide
  rw [Pc.jumpBy, if_neg hbig, heip, ho]

/-- The lines of a loop that waits for the keyboard controller, from the offset `o` on. -/
structure Waits (bootmainAddr : Addr) (o : ℕ) : Prop where
  inb : ⟨o, false, [0xE4, 0x64], .inbAl 0x64⟩ ∈ startCode bootmainAddr
  testb : ⟨o + 2, false, [0xA8, 0x02], .testbAl 0x2⟩ ∈ startCode bootmainAddr
  jnz : ⟨o + 4, false, [0x75, 0xFA], .jnz 0xFA⟩ ∈ startCode bootmainAddr
  back : (start + BitVec.ofNat 32 (o + 6) + (0xFA : Byte).signExtend 32) &&& 0xFFFF =
    start + BitVec.ofNat 32 o

/-- There are two. -/
theorem waits_seta20 : Waits bootmainAddr 0x0A ∧ Waits bootmainAddr 0x14 :=
  ⟨⟨by simp [startCode], by simp [startCode], by simp [startCode], by decide⟩,
    ⟨by simp [startCode], by simp [startCode], by simp [startCode], by decide⟩⟩

/-- One round of a loop that waits for the keyboard controller. -/
theorem wait_round (hp : p.Booted bootmainAddr) {o : ℕ} (hloop : Waits bootmainAddr o)
    (hq : Real p o q) :
    ∃ q', q.Runs status mmu q' ∧
      Real p (if status q.polls &&& 0x2 = 0 then o + 6 else o) q' ∧
      q'.ready = decide (status q.polls &&& 0x2 = 0) ∧ q'.outPort = q.outPort ∧
      q'.polls = q.polls + 1 := by
  set free : Bool := decide (status q.polls &&& 0x2 = 0) with hfree
  set q₁ : Pc := { q.setAl (status q.polls) with
    eip := start + BitVec.ofNat 32 (o + 2)
    polls := q.polls + 1
    ready := free } with hq₁
  set q₂ : Pc := { q₁ with zf := free, eip := start + BitVec.ofNat 32 (o + 4) } with hq₂
  set q₃ : Pc := { q₂ with eip := start + BitVec.ofNat 32 (o + 6) } with hq₃
  have hal : q₁.al = status q.polls := al_setAl q _
  have h₁ : q.step status mmu = some q₁ :=
    real_line status mmu hp hq.cs hq.cr0 hq.mem hloop.inb hq.eip rfl
  have h₂ : q₁.step status mmu = some q₂ := by
    refine (real_line status mmu (q := q₁) hp hq.cs hq.cr0 hq.mem hloop.testb rfl rfl).trans ?_
    have hzf : decide (q₁.al &&& 0x2 = 0) = free := by rw [hal]
    exact congrArg (fun b => some { q₁ with zf := b, eip := start + BitVec.ofNat 32 (o + 4) }) hzf
  have h₃ : q₂.step status mmu =
      some (if q₃.zf then q₃ else q₃.jumpBy ((0xFA : Byte).signExtend 32)) :=
    real_line status mmu (q := q₂) hp hq.cs hq.cr0 hq.mem hloop.jnz rfl rfl
  by_cases hready : status q.polls &&& 0x2 = 0
  · have hzf : q₃.zf = true := decide_eq_true hready
    rw [if_pos hready]
    exact ⟨_, runs_step h₁ (runs_step h₂ (runs_step (h₃.trans (congrArg some (if_pos hzf))) .refl)),
      hq.keeps rfl rfl rfl, rfl, rfl, rfl⟩
  · have hzf : ¬ q₃.zf = true := by
      rw [decide_eq_true_iff]
      exact hready
    have hjump := jumpBy_real (q := q₃) hp hq.cs (o := o + 6) rfl hloop.back
    rw [if_neg hzf, hjump] at h₃
    rw [if_neg hready]
    exact ⟨_, runs_step h₁ (runs_step h₂ (runs_step h₃ .refl)),
      hq.keeps rfl rfl rfl, rfl, rfl, rfl⟩

/-- **A loop that waits** for the keyboard controller ends, and finds it ready. Induction on how
long the controller is still busy. -/
theorem waits_ready (hp : p.Booted bootmainAddr) {o : ℕ} (hloop : Waits bootmainAddr o)
    (hlive : ∀ n, ∃ k, n ≤ k ∧ status k &&& 0x2 = 0) (hq : Real p o q) :
    ∃ q', q.Runs status mmu q' ∧ Real p (o + 6) q' ∧ q'.ready = true ∧
      q'.outPort = q.outPort := by
  obtain ⟨k, hk, hfree⟩ := hlive q.polls
  obtain ⟨n, hn⟩ := Nat.exists_eq_add_of_le hk
  induction n generalizing q with
  | zero =>
      rw [Nat.add_zero] at hn
      rw [hn] at hfree
      obtain ⟨q', hrun, hreal, hready, hport, -⟩ := wait_round status mmu hp hloop hq
      rw [if_pos hfree] at hreal
      exact ⟨q', hrun, hreal, by rw [hready, decide_eq_true hfree], hport⟩
  | succ n ih =>
      obtain ⟨q', hrun, hreal, hready, hport, hpolls⟩ := wait_round status mmu hp hloop hq
      by_cases hnow : status q.polls &&& 0x2 = 0
      · rw [if_pos hnow] at hreal
        exact ⟨q', hrun, hreal, by rw [hready, decide_eq_true hnow], hport⟩
      · rw [if_neg hnow] at hreal
        obtain ⟨q'', hrun', hreal', hready', hport'⟩ := ih hreal (by omega) (by omega)
        exact ⟨q'', hrun.trans hrun', hreal', hready', hport'.trans hport⟩

/-- **The command**: the controller takes it, and waits for the byte for its output port. -/
theorem sends_command (hp : p.Booted bootmainAddr) (hq : Real p 0x10 q) (hready : q.ready = true) :
    ∃ q', q.Runs status mmu q' ∧ Real p 0x14 q' ∧ q'.outPort = true := by
  set q₁ : Pc := { q.setAl 0xD1 with eip := start + BitVec.ofNat 32 0x12 } with hq₁
  have hal : q₁.al = 0xD1 := al_setAl q _
  have h₁ : q.step status mmu = some q₁ := real_line status mmu hp hq.cs hq.cr0 hq.mem
    (l := ⟨0x10, false, [0xB0, 0xD1], .movbAl 0xD1⟩) (by simp [startCode]) hq.eip rfl
  have h₂ := real_line status mmu (q := q₁) hp hq.cs hq.cr0 hq.mem
    (l := ⟨0x12, false, [0xE6, 0x64], .outbAl 0x64⟩) (by simp [startCode]) rfl rfl
  have hout : ∀ q' : Pc, q'.ready = true →
      q'.outb 0x64 0xD1 = { q' with ready := false, outPort := true } := by
    intro q' hready'
    rw [Pc.outb, if_neg (fun h => h hready'), if_pos rfl, decide_eq_true rfl]
  set q₂ : Pc := { q₁ with eip := start + BitVec.ofNat 32 0x14 } with hq₂
  have hstep : q₁.step status mmu = some { q₂ with ready := false, outPort := true } := by
    refine h₂.trans (congrArg some ?_)
    exact (congrArg (q₂.outb 0x64) hal).trans (hout q₂ hready)
  exact ⟨_, runs_step h₁ (runs_step hstep .refl),
    hq.keeps rfl rfl rfl, rfl⟩

/-- **The byte for the output port** enables the address line 20. -/
theorem enables_a20 (hp : p.Booted bootmainAddr) (hq : Real p 0x1A q) (hready : q.ready = true)
    (hport : q.outPort = true) :
    ∃ q', q.Runs status mmu q' ∧ Real p 0x1E q' ∧ q'.a20 = true := by
  set q₁ : Pc := { q.setAl 0xDF with eip := start + BitVec.ofNat 32 0x1C } with hq₁
  have hal : q₁.al = 0xDF := al_setAl q _
  have h₁ : q.step status mmu = some q₁ := real_line status mmu hp hq.cs hq.cr0 hq.mem
    (l := ⟨0x1A, false, [0xB0, 0xDF], .movbAl 0xDF⟩) (by simp [startCode]) hq.eip rfl
  have h₂ := real_line status mmu (q := q₁) hp hq.cs hq.cr0 hq.mem
    (l := ⟨0x1C, false, [0xE6, 0x60], .outbAl 0x60⟩) (by simp [startCode]) rfl rfl
  have hout : ∀ q' : Pc, q'.ready = true → q'.outPort = true →
      q'.outb 0x60 0xDF = { q' with ready := false, outPort := false, a20 := true } := by
    intro q' hready' hport'
    rw [Pc.outb, if_neg (fun h => h hready'), if_neg (by decide), if_pos ⟨rfl, hport'⟩]
    rfl
  set q₂ : Pc := { q₁ with eip := start + BitVec.ofNat 32 0x1E } with hq₂
  have hstep : q₁.step status mmu =
      some { q₂ with ready := false, outPort := false, a20 := true } := by
    refine h₂.trans (congrArg some ?_)
    exact (congrArg (q₂.outb 0x60) hal).trans (hout q₂ hready hport)
  exact ⟨_, runs_step h₁ (runs_step hstep .refl),
    hq.keeps rfl rfl rfl, rfl⟩

/-! ### Protected mode -/

/-- The two segments of the table. -/
def flatCode : Segment :=
  ⟨0, 0xFFFFFFFF, true, false, true⟩

def flatData : Segment :=
  ⟨0, 0xFFFFFFFF, false, true, true⟩

/-- What the tables of the boot sector say. -/
theorem tables_read {m : Mem} (h : m.Holds gdt bootTables) :
    m.load16 gdtdesc = 0x17 ∧ m.load32 (gdtdesc + 2) &&& 0xFFFFFF = gdt ∧
      m.Holds (gdt + 8) (asmSeg (staX ||| staR) 0 0xFFFFFFFF) ∧
      m.Holds (gdt + 16) (asmSeg staW 0 0xFFFFFFFF) := by
  have h24 : m.byte gdtdesc = 0x17 := h 24 _ rfl
  have h25 : m.byte (gdtdesc + 1) = 0 := h 25 _ rfl
  have h26 : m.byte (gdtdesc + 2) = 0x4C := h 26 _ rfl
  have h27 : m.byte (gdtdesc + 2 + 1) = 0x7C := h 27 _ rfl
  have h28 : m.byte (gdtdesc + 2 + 2) = 0 := h 28 _ rfl
  have h29 : m.byte (gdtdesc + 2 + 3) = 0 := h 29 _ rfl
  refine ⟨?_, ?_, h.left.left.left.left.right, h.left.left.left.right⟩
  · rw [Mem.load16, h24, h25]
    rfl
  · rw [Mem.load32, h26, h27, h28, h29]
    rfl

/-- Protected mode, at an offset of the boot sector. -/
structure Protected (p : Pc) (off : ℕ) (q : Pc) : Prop where
  eip : q.eip = start + BitVec.ofNat 32 off
  cs : q.cs = ⟨protModeCseg, flatCode⟩
  gdtLimit : q.gdtLimit = 0x17
  gdtBase : q.gdtBase = gdt
  a20 : q.a20 = true
  mem : q.mem = p.mem
  cr0 : q.cr0 = p.cr0 ||| cr0PE
  df : q.df = false
  interrupts : q.interrupts = false

/-- Protected mode is on then. -/
theorem or_cr0PE (v : BitVec 32) : ¬ (v ||| cr0PE) &&& cr0PE = 0 := by
  intro hzero
  have hbit := congrArg (BitVec.getLsbD · 0) hzero
  simp at hbit

/-- Protected mode does not change paging. -/
theorem or_cr0PE_cr0PG (v : BitVec 32) : (v ||| cr0PE) &&& cr0PG = v &&& cr0PG := by
  refine BitVec.eq_of_getLsbD_eq fun i hi => ?_
  interval_cases i <;> simp

/-- The descriptors of the two selectors. -/
theorem descriptor_eq (hmem : q.mem.Holds gdt bootTables) (ha20 : q.a20 = true)
    (hunpaged : q.cr0 &&& cr0PG = 0) (hlimit : q.gdtLimit = 0x17) (hbase : q.gdtBase = gdt) :
    (∃ d, q.descriptor protModeCseg = some d ∧ d.segment = flatCode) ∧
      ∃ d, q.descriptor protModeDseg = some d ∧ d.segment = flatData := by
  obtain ⟨-, -, hcode, hdata⟩ := tables_read hmem
  obtain ⟨hs, hp, hdpl, -, hsegment⟩ := seg_loaded _ _ _ hcode
  obtain ⟨hs', hp', hdpl', -, hsegment'⟩ := seg_loaded _ _ _ hdata
  constructor
  · refine ⟨q.mem.segdesc (gdt + 8), ?_, hsegment⟩
    have hoff : protModeCseg &&& 0xFFF8 = 8 := by decide
    simp only [Pc.descriptor, hoff, hlimit, hbase]
    rw [seen_eq ha20, if_neg (not_or.mpr ⟨fun h => h hunpaged, by decide⟩)]
    exact if_pos ⟨hs, hp, hdpl⟩
  · refine ⟨q.mem.segdesc (gdt + 16), ?_, hsegment'⟩
    have hoff : protModeDseg &&& 0xFFF8 = 16 := by decide
    simp only [Pc.descriptor, hoff, hlimit, hbase]
    rw [seen_eq ha20, if_neg (not_or.mpr ⟨fun h => h hunpaged, by decide⟩)]
    exact if_pos ⟨hs', hp', hdpl'⟩

/-- **The switch**: the table of segments is loaded, protected mode is on, and the jump goes to
32-bit code. -/
theorem switches (hp : p.Booted bootmainAddr) (hq : Real p 0x1E q) (ha20 : q.a20 = true) :
    ∃ q', q.Runs status mmu q' ∧ Protected p 0x32 q' := by
  have hmem : q.mem.Holds gdt bootTables := by
    rw [hq.mem]
    exact (holds_start bootmainAddr hp.sector).2
  obtain ⟨hlimit, hbase, -⟩ := tables_read hmem
  rw [← seen_eq ha20] at hlimit hbase
  have hoff : q.cr0 &&& cr0PG = 0 := by rw [hq.cr0, hp.unpaged]
  have hdesc : (gdtdesc.setWidth 16).setWidth 32 = gdtdesc := by decide
  have hlinear : (q.data .ds).segment.linear gdtdesc 6 = some gdtdesc := by
    rw [Segment.linear, hq.limit, if_pos (by decide), hq.base, zero_add]
  set q₁ : Pc := { q with
    eip := start + BitVec.ofNat 32 0x23
    gdtLimit := 0x17
    gdtBase := gdt } with hq₁
  set q₂ : Pc := { q₁ with eip := start + BitVec.ofNat 32 0x26, eax := q.cr0 } with hq₂
  set q₃ : Pc := { q₂ with
    eip := start + BitVec.ofNat 32 0x2A
    eax := q.cr0 ||| cr0PE
    zf := q.cr0 ||| cr0PE = 0 } with hq₃
  set q₄ : Pc := { q₃ with eip := start + BitVec.ofNat 32 0x2D, cr0 := q.cr0 ||| cr0PE } with hq₄
  have h₁ : q.step status mmu = some q₁ := by
    refine (real_line status mmu hp hq.cs hq.cr0 hq.mem
      (l := ⟨0x1E, false, [0x0F, 0x01, 0x16, 0x64, 0x7C], .lgdt (gdtdesc.setWidth 16)⟩)
      (by simp [startCode]) hq.eip rfl).trans ?_
    simp only [Insn.execute, hdesc, hlinear, Option.bind_eq_bind, Option.bind_some, if_pos hoff]
    rw [hq₁, ← hlimit, ← hbase]
    rfl
  have hcs : q₄.cs = p.cs := hq.cs
  have h₂ : q₁.step status mmu = some q₂ :=
    real_line status mmu (q := q₁) hp hq.cs hq.cr0 hq.mem
      (l := ⟨0x23, false, [0x0F, 0x20, 0xC0], .movlCr0Eax⟩) (by simp [startCode]) rfl rfl
  have h₃ : q₂.step status mmu = some q₃ :=
    real_line status mmu (q := q₂) hp hq.cs hq.cr0 hq.mem
      (l := ⟨0x26, false, [0x66, 0x83, 0xC8, 0x01], .orlEax cr0PE⟩) (by simp [startCode]) rfl rfl
  have h₄ : q₃.step status mmu = some q₄ :=
    real_line status mmu (q := q₃) hp hq.cs hq.cr0 hq.mem
      (l := ⟨0x2A, false, [0x0F, 0x22, 0xC0], .movlEaxCr0⟩) (by simp [startCode]) rfl rfl
  have hoff' : q₄.cr0 &&& cr0PG = 0 := (or_cr0PE_cr0PG q.cr0).trans hoff
  have h₅ := start_line status mmu (q := q₄) hp hq.mem hoff'
    (l := ⟨0x2D, false, [0xEA, 0x32, 0x7C, 0x08, 0x00], .ljmp protModeCseg (protcseg.setWidth 16)⟩)
    (by simp [startCode]) rfl (by rw [← hp.base, ← hq.cs]) (by rw [hcs, hp.limit]; decide)
    (by rw [hcs, hp.big])
  set q₅ : Pc := { q₄ with eip := start + BitVec.ofNat 32 0x32 } with hq₅
  obtain ⟨⟨d, hd, hsegment⟩, -⟩ := descriptor_eq (q := q₅) hmem ha20 hoff' rfl rfl
  have hjump : q₅.farJump protModeCseg protcseg =
      some { q₅ with cs := ⟨protModeCseg, flatCode⟩, eip := protcseg } := by
    have hexec : d.segment.executable = true := by rw [hsegment]; rfl
    rw [Pc.farJump, if_neg (or_cr0PE q.cr0), hd, ← hsegment]
    simp only [Option.bind_eq_bind, Option.bind_some, if_pos hexec]
    rfl
  refine ⟨_, runs_step h₁ (runs_step h₂ (runs_step h₃ (runs_step h₄ (runs_step (h₅.trans hjump)
    .refl)))), rfl, rfl, rfl, rfl, ha20, hq.mem, ?_, hq.df, hq.interrupts⟩
  rw [← hq.cr0]

/-- Paging is still off there. -/
theorem Protected.unpaged {off : ℕ} (hq : Protected p off q) (hp : p.Booted bootmainAddr) :
    q.cr0 &&& cr0PG = 0 := by
  rw [hq.cr0, or_cr0PE_cr0PG, hp.unpaged]

/-- An instruction that keeps the code segment, the table of segments, the memory and the flags
stays in protected mode. -/
theorem Protected.keeps {q' : Pc} {o o' : ℕ} (hq : Protected p o q)
    (heip : q'.eip = start + BitVec.ofNat 32 o')
    (hregs : (q'.cs, q'.mem, q'.cr0, q'.a20) = (q.cs, q.mem, q.cr0, q.a20))
    (htable : (q'.gdtLimit, q'.gdtBase) = (q.gdtLimit, q.gdtBase))
    (hflags : (q'.df, q'.interrupts) = (q.df, q.interrupts)) : Protected p o' q' := by
  simp only [Prod.mk.injEq] at hregs htable hflags
  obtain ⟨hcs, hmem, hcr0, ha20⟩ := hregs
  exact ⟨heip, hcs.trans hq.cs, htable.1.trans hq.gdtLimit, htable.2.trans hq.gdtBase,
    ha20.trans hq.a20, hmem.trans hq.mem, hcr0.trans hq.cr0, hflags.1.trans hq.df,
    hflags.2.trans hq.interrupts⟩

/-- A line of protected mode. -/
theorem protected_line (hp : p.Booted bootmainAddr) {l : CodeLine} (hq : Protected p l.off q)
    (hl : l ∈ startCode bootmainAddr) (hbig : l.big = true) :
    q.step status mmu = l.insn.execute status mmu
      { q with eip := start + BitVec.ofNat 32 (l.off + l.bytes.length) } := by
  refine start_line status mmu hp hq.mem (hq.unpaged hp) hl hq.eip ?_ ?_ ?_ <;> rw [hq.cs]
  · rfl
  · change 0xFFFF ≤ (0xFFFFFFFF : BitVec 32).toNat
    decide
  · exact hbig.symm

/-- A load of a data segment register there. -/
theorem load_line (hp : p.Booted bootmainAddr) {l : CodeLine} {r : SegName}
    (hq : Protected p l.off q) (hl : l ∈ startCode bootmainAddr) (hbig : l.big = true)
    (hinsn : l.insn = .movwAxTo r) (hax : q.ax = protModeDseg) :
    ∃ q', q.step status mmu = some q' ∧ Protected p (l.off + l.bytes.length) q' ∧
      q'.ax = protModeDseg ∧ q'.data = Function.update q.data r ⟨protModeDseg, flatData⟩ := by
  set q₁ : Pc := { q with eip := start + BitVec.ofNat 32 (l.off + l.bytes.length) } with hq₁
  have hmem : q₁.mem.Holds gdt bootTables := by
    change q.mem.Holds gdt bootTables
    rw [hq.mem]
    exact (holds_start bootmainAddr hp.sector).2
  obtain ⟨-, d, hd, hsegment⟩ :=
    descriptor_eq hmem hq.a20 (hq.unpaged hp) hq.gdtLimit hq.gdtBase
  have hPE : ¬ q₁.cr0 &&& cr0PE = 0 := by
    change ¬ q.cr0 &&& cr0PE = 0
    rw [hq.cr0]
    exact or_cr0PE p.cr0
  have hok : ¬ (d.segment.executable = true ∧ ¬ d.sdType.getLsbD 1 = true ∨
      r = .ss ∧ ¬ d.segment.writable = true) := by
    rw [hsegment]
    rintro (⟨h, -⟩ | ⟨-, h⟩)
    · cases h
    · exact h rfl
  have hload : q₁.loadData r protModeDseg = some { q₁ with
      data := Function.update q₁.data r ⟨protModeDseg, flatData⟩ } := by
    rw [Pc.loadData, if_neg hPE, hd, ← hsegment]
    simp only [Option.bind_eq_bind, Option.bind_some, if_neg hok]
    rfl
  have hline : q.step status mmu = q₁.loadData r q₁.ax := by
    rw [protected_line status mmu hp hq hl hbig, hinsn]
    rfl
  have hax₁ : q₁.ax = protModeDseg := hax
  rw [hax₁, hload] at hline
  exact ⟨_, hline, hq.keeps rfl rfl rfl rfl, hax, rfl⟩

/-- At `bootmain`, from the state `p` in which the boot sector was entered. -/
structure Entered (bootmainAddr : Addr) (p q : Pc) : Prop where
  eip : q.eip = bootmainAddr
  cs : q.cs = ⟨protModeCseg, flatCode⟩
  data : ∀ r, q.data r = ⟨protModeDseg, flatData⟩
  a20 : q.a20 = true
  cr0 : q.cr0 = p.cr0 ||| cr0PE
  esp : q.esp = start - 4
  ret : q.mem.load32 q.esp = spin
  within : Mem.Within (Mem.Span (start - 4) 4) p.mem q.mem
  df : q.df = false
  interrupts : q.interrupts = false

/-- **The last lines**: the data segments, the stack, and the call. -/
theorem calls (hp : p.Booted bootmainAddr) (hq : Protected p 0x32 q) :
    ∃ q', q.Runs status mmu q' ∧ Entered bootmainAddr p q' := by
  set q₀ : Pc := { q.setAx protModeDseg with eip := start + BitVec.ofNat 32 0x36 } with hq₀
  have h₀ : q.step status mmu = some q₀ := protected_line status mmu hp
    (l := ⟨0x32, true, [0x66, 0xB8, 0x10, 0x00], .movwAx protModeDseg⟩) hq (by simp [startCode]) rfl
  have hq₀' : Protected p 0x36 q₀ := hq.keeps rfl rfl rfl rfl
  have hax₀ : q₀.ax = protModeDseg := ax_setAx q protModeDseg
  obtain ⟨q₁, h₁, hq₁, hax₁, hdata₁⟩ := load_line status mmu hp
    (l := ⟨0x36, true, [0x8E, 0xD8], .movwAxTo .ds⟩) hq₀' (by simp [startCode]) rfl rfl hax₀
  obtain ⟨q₂, h₂, hq₂, hax₂, hdata₂⟩ := load_line status mmu hp
    (l := ⟨0x38, true, [0x8E, 0xC0], .movwAxTo .es⟩) hq₁ (by simp [startCode]) rfl rfl hax₁
  obtain ⟨q₃, h₃, hq₃, hax₃, hdata₃⟩ := load_line status mmu hp
    (l := ⟨0x3A, true, [0x8E, 0xE0], .movwAxTo .fs⟩) hq₂ (by simp [startCode]) rfl rfl hax₂
  obtain ⟨q₄, h₄, hq₄, hax₄, hdata₄⟩ := load_line status mmu hp
    (l := ⟨0x3C, true, [0x8E, 0xE8], .movwAxTo .gs⟩) hq₃ (by simp [startCode]) rfl rfl hax₃
  obtain ⟨q₅, h₅, hq₅, hax₅, hdata₅⟩ := load_line status mmu hp
    (l := ⟨0x3E, true, [0x8E, 0xD0], .movwAxTo .ss⟩) hq₄ (by simp [startCode]) rfl rfl hax₄
  have hdata : ∀ r, q₅.data r = ⟨protModeDseg, flatData⟩ := by
    rw [hdata₅, hdata₄, hdata₃, hdata₂, hdata₁]
    intro r
    cases r <;> rfl
  set q₆ : Pc := { q₅ with eip := start + BitVec.ofNat 32 0x45, esp := start } with hq₆
  have h₆ : q₅.step status mmu = some q₆ := protected_line status mmu hp
    (l := ⟨0x40, true, [0xBC, 0x00, 0x7C, 0x00, 0x00], .movlEsp start⟩) hq₅ (by simp [startCode])
    rfl
  have hq₆' : Protected p 0x45 q₆ := hq₅.keeps rfl rfl rfl rfl
  have hlinear : (q₆.data .ss).segment.linear (q₆.esp - 4) 4 = some (start - 4) := by
    change (q₅.data .ss).segment.linear (start - 4) 4 = some (start - 4)
    rw [hdata]
    exact flat_linear rfl rfl _ (by decide)
  have hline : a20Line q₆.a20 (start - 4) = start - 4 := if_pos hq₅.a20
  have hoff : q₆.cr0 &&& cr0PG = 0 := hq₆'.unpaged hp
  have htarget : spin + (bootmainAddr - spin) = bootmainAddr := add_sub_cancel _ _
  have h₇ : q₆.step status mmu = some { q₆ with
      mem := Mem.stosl spin q₆.mem (start - 4)
      esp := start - 4
      eip := bootmainAddr } := by
    refine (protected_line status mmu hp
      (l := ⟨0x45, true, 0xE8 :: bytes32 (bootmainAddr - spin), .call (bootmainAddr - spin)⟩)
      hq₆' (by simp [startCode]) rfl).trans ?_
    have heip : start + BitVec.ofNat 32 (0x45 + (0xE8 :: bytes32 (bootmainAddr - spin)).length) =
        spin := rfl
    simp only [Insn.execute, hlinear, translate, Mmu.marked, if_pos hoff, hline, heip, htarget,
      Option.bind_eq_bind, Option.bind_some]
    rfl
  refine ⟨_, runs_step h₀ (runs_step h₁ (runs_step h₂ (runs_step h₃ (runs_step h₄ (runs_step h₅
    (runs_step h₆ (runs_step h₇ .refl))))))), rfl, hq₅.cs, hdata, hq₅.a20, hq₅.cr0, rfl, ?_, ?_,
    hq₅.df, hq₅.interrupts⟩
  · exact Mem.load32_stosl q₆.mem spin (start - 4)
  · rw [← hq₅.mem]
    exact Mem.within_store32 ..

/-- **The boot sector** comes to `bootmain`, however long the keyboard controller is busy, and
whatever is in the registers: in protected mode, with segments of all addresses, the address line
20, and a stack below the boot sector. The memory is as it was but for the return address. -/
theorem start_enters (hlive : ∀ n, ∃ k, n ≤ k ∧ status k &&& 0x2 = 0)
    (hp : p.Booted bootmainAddr) : ∃ q, p.Runs status mmu q ∧ Entered bootmainAddr p q := by
  obtain ⟨q₁, hrun₁, hq₁⟩ := starts status mmu hp
  obtain ⟨q₂, hrun₂, hq₂, hready₂, -⟩ := waits_ready status mmu hp waits_seta20.1 hlive hq₁
  obtain ⟨q₃, hrun₃, hq₃, hport₃⟩ :=
    sends_command status mmu hp hq₂ hready₂
  obtain ⟨q₄, hrun₄, hq₄, hready₄, hport₄⟩ := waits_ready status mmu hp waits_seta20.2 hlive hq₃
  obtain ⟨q₅, hrun₅, hq₅, ha20⟩ := enables_a20 status mmu hp hq₄
    hready₄ (hport₄.trans hport₃)
  obtain ⟨q₆, hrun₆, hq₆⟩ := switches status mmu hp hq₅ ha20
  obtain ⟨q₇, hrun₇, hq₇⟩ := calls status mmu hp hq₆
  exact ⟨q₇, hrun₁.trans (hrun₂.trans (hrun₃.trans (hrun₄.trans (hrun₅.trans
    (hrun₆.trans hrun₇))))), hq₇⟩

/-- **There every address is what it says**, for code, data and the stack. -/
theorem Entered.identity (h : Entered bootmainAddr p q)
    (r : SegName) (off : BitVec 32) {n : ℕ} (hn : off.toNat + n ≤ 2 ^ 32) :
    q.cs.segment.linear off n = some off ∧ (q.data r).segment.linear off n = some off ∧
      a20Line q.a20 off = off := by
  rw [h.cs, h.data]
  exact ⟨flat_linear rfl rfl off hn, flat_linear rfl rfl off hn, if_pos h.a20⟩

end

end Jos
