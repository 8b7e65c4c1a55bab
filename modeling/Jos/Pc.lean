import Jos.Paging
import Jos.Segments
import Mathlib.Logic.Relation

/-!
# The Processor before C

The processor from the boot sector to the first line of C in the kernel: it fetches bytes of code
from the memory, through the segment, the page table and the address line 20, decodes them, and
carries out what they say. Only the instructions of `boot.S` and of the first lines of `entry.S`
are decoded; any other bytes stop it.

## Main results

* `Pc.step_eq`: a step is what the bytes at `eip` decode to.
* `CodeLine.step`: **a line of code** that has been loaded is the one that is carried out.
-/

namespace Jos

/-! ### The machine -/

/-- A segment register: its selector, and the segment that it stands for. -/
structure SegReg where
  selector : BitVec 16
  segment : Segment

/-- The segment registers for data. -/
inductive SegName
  | ds
  | es
  | fs
  | gs
  | ss
deriving DecidableEq

/-- The processor, what belongs to it of the keyboard controller, and the memory. -/
structure Pc where
  mem : Mem
  cs : SegReg
  data : SegName → SegReg
  eax : BitVec 32
  esp : BitVec 32
  eip : BitVec 32
  cr0 : BitVec 32
  cr3 : BitVec 32
  gdtLimit : BitVec 16
  gdtBase : Addr
  zf : Bool
  df : Bool
  interrupts : Bool
  /-- the address line 20 -/
  a20 : Bool
  /-- the keyboard controller takes a byte: it was found ready, and has got none since then -/
  ready : Bool
  /-- the next byte for port 0x60 is for its output port -/
  outPort : Bool
  /-- how often the status of the controller has been read -/
  polls : ℕ

/-- The physical address. -/
def a20Line (a20 : Bool) (la : Addr) : Addr :=
  if a20 then la else la &&& ~~~0x100000

namespace Pc

variable (p : Pc)

/-- The memory as the processor sees it. -/
def seen : Mem where
  byte a := p.mem.byte (a20Line p.a20 a)
  stores := p.mem.stores

/-- The low byte of `eax`. -/
def al : Byte :=
  p.eax.setWidth 8

/-- Its low half. -/
def ax : BitVec 16 :=
  p.eax.setWidth 16

/-- A new low byte of `eax`. -/
def setAl (v : Byte) : Pc :=
  { p with eax := p.eax &&& 0xFFFFFF00 ||| v.setWidth 32 }

/-- A new low half. -/
def setAx (v : BitVec 16) : Pc :=
  { p with eax := p.eax &&& 0xFFFF0000 ||| v.setWidth 32 }

/-- A jump by a distance: `eip` has 16 bits in 16-bit code. -/
def jumpBy (rel : BitVec 32) : Pc :=
  { p with eip := if p.cs.segment.big then p.eip + rel else (p.eip + rel) &&& 0xFFFF }

/-- The descriptor that a selector stands for, with paging off. -/
def descriptor (sel : BitVec 16) : Option Segdesc :=
  let off := sel &&& 0xFFF8
  -- the null selector, one of a local table or of a lower privilege, one beyond the table
  if p.cr0 &&& cr0PG ≠ 0 ∨ off = 0 ∨ sel &&& 7 ≠ 0 ∨ p.gdtLimit.toNat < off.toNat + 7 then none
  else
    let d := p.seen.segdesc (p.gdtBase + off.setWidth 32)
    if d.sdS = 1 ∧ d.sdP = 1 ∧ d.sdDpl = 0 then some d else none

/-- A load of a data segment register. The stack must be writable, any other segment readable. -/
def loadData (r : SegName) (sel : BitVec 16) : Option Pc :=
  if p.cr0 &&& cr0PE = 0 then
    let segment := { (p.data r).segment with base := sel.setWidth 32 <<< 4 }
    some { p with data := Function.update p.data r ⟨sel, segment⟩ }
  else do
    let d ← p.descriptor sel
    if d.segment.executable ∧ ¬ d.sdType.getLsbD 1 ∨ r = .ss ∧ ¬ d.segment.writable then none
    else pure { p with data := Function.update p.data r ⟨sel, d.segment⟩ }

/-- A jump to another code segment. -/
def farJump (sel : BitVec 16) (off : BitVec 32) : Option Pc :=
  if p.cr0 &&& cr0PE = 0 then
    let segment := { p.cs.segment with base := sel.setWidth 32 <<< 4 }
    some { p with cs := ⟨sel, segment⟩, eip := off }
  else do
    let d ← p.descriptor sel
    if d.segment.executable then pure { p with cs := ⟨sel, d.segment⟩, eip := off } else none

/-- A byte for the keyboard controller: the command `0xD1` announces one for its output port, whose
bit 1 is the address line 20. A byte that comes too early is lost. -/
def outb (port : Byte) (v : Byte) : Pc :=
  if ¬ p.ready then p
  else if port = 0x64 then { p with ready := false, outPort := v = 0xD1 }
  else if port = 0x60 ∧ p.outPort then
    { p with ready := false, outPort := false, a20 := v.getLsbD 1 }
  else p

end Pc

/-- The low byte reads back. -/
theorem al_setAl (p : Pc) (v : Byte) : (p.setAl v).al = v := by
  refine BitVec.eq_of_getLsbD_eq fun i hi => ?_
  simp only [Pc.al, Pc.setAl]
  interval_cases i <;> simp

/-- So does the low half. -/
theorem ax_setAx (p : Pc) (v : BitVec 16) : (p.setAx v).ax = v := by
  refine BitVec.eq_of_getLsbD_eq fun i hi => ?_
  simp only [Pc.ax, Pc.setAx]
  interval_cases i <;> simp

/-- With the address line 20 the processor sees the memory as it is. -/
theorem seen_eq {p : Pc} (ha20 : p.a20 = true) : p.seen = p.mem := by
  have hbyte : p.seen.byte = p.mem.byte := funext fun _ => congrArg p.mem.byte (if_pos ha20)
  exact congrArg (fun f => Mem.mk f p.mem.stores) hbyte

/-! ### Instructions -/

/-- The instructions of `boot.S`, and those of `entry.S` up to `relocated`. -/
inductive Insn
  | cli
  | cld
  | xorwAx
  | movwAxTo (r : SegName)
  | inbAl (port : Byte)
  | testbAl (v : Byte)
  | jnz (rel : Byte)
  | movbAl (v : Byte)
  | outbAl (port : Byte)
  | lgdt (a : BitVec 16)
  | movlCr0Eax
  | orlEax (v : BitVec 32)
  | movlEaxCr0
  | movlEaxCr3
  | ljmp (sel off : BitVec 16)
  | movwAx (v : BitVec 16)
  | movlEax (v : BitVec 32)
  | movlEsp (v : BitVec 32)
  | movwTo (a : Addr) (v : BitVec 16)
  | call (rel : BitVec 32)
  | jmp (rel : Byte)
  | jmpEax
deriving DecidableEq

/-- The instruction that bytes of code begin with, and its size. `big` is for 32-bit code, where the
prefix `0x66` stands for 16-bit operands; in 16-bit code it is the other way round. -/
def decode : Bool → List Byte → Option (Insn × ℕ)
  | _, 0xFA :: _ => some (.cli, 1)
  | _, 0xFC :: _ => some (.cld, 1)
  | _, 0x8E :: 0xD8 :: _ => some (.movwAxTo .ds, 2)
  | _, 0x8E :: 0xC0 :: _ => some (.movwAxTo .es, 2)
  | _, 0x8E :: 0xD0 :: _ => some (.movwAxTo .ss, 2)
  | _, 0x8E :: 0xE0 :: _ => some (.movwAxTo .fs, 2)
  | _, 0x8E :: 0xE8 :: _ => some (.movwAxTo .gs, 2)
  | _, 0xE4 :: port :: _ => some (.inbAl port, 2)
  | _, 0xA8 :: v :: _ => some (.testbAl v, 2)
  | _, 0x75 :: rel :: _ => some (.jnz rel, 2)
  | _, 0xB0 :: v :: _ => some (.movbAl v, 2)
  | _, 0xE6 :: port :: _ => some (.outbAl port, 2)
  | _, 0xEB :: rel :: _ => some (.jmp rel, 2)
  | _, 0x0F :: 0x20 :: 0xC0 :: _ => some (.movlCr0Eax, 3)
  | _, 0x0F :: 0x22 :: 0xC0 :: _ => some (.movlEaxCr0, 3)
  | _, 0x0F :: 0x22 :: 0xD8 :: _ => some (.movlEaxCr3, 3)
  | false, 0x31 :: 0xC0 :: _ => some (.xorwAx, 2)
  | false, 0x0F :: 0x01 :: 0x16 :: a :: b :: _ => some (.lgdt (b ++ a), 5)
  | false, 0x66 :: 0x83 :: 0xC8 :: v :: _ => some (.orlEax (v.signExtend 32), 4)
  | false, 0xEA :: a :: b :: c :: d :: _ => some (.ljmp (d ++ c) (b ++ a), 5)
  | true, 0x66 :: 0xB8 :: a :: b :: _ => some (.movwAx (b ++ a), 4)
  | true, 0xB8 :: a :: b :: c :: d :: _ => some (.movlEax (d ++ c ++ b ++ a), 5)
  | true, 0xBC :: a :: b :: c :: d :: _ => some (.movlEsp (d ++ c ++ b ++ a), 5)
  | true, 0x0D :: a :: b :: c :: d :: _ => some (.orlEax (d ++ c ++ b ++ a), 5)
  | true, 0x66 :: 0xC7 :: 0x05 :: a :: b :: c :: d :: e :: f :: _ =>
      some (.movwTo (d ++ c ++ b ++ a) (f ++ e), 9)
  | true, 0xE8 :: a :: b :: c :: d :: _ => some (.call (d ++ c ++ b ++ a), 5)
  | true, 0xFF :: 0xE0 :: _ => some (.jmpEax, 2)
  | _, _ => none

section

variable (status : ℕ → Byte) {t : EntryTables} (mmu : Mmu t)

/-- What an instruction does, with `eip` already behind it. Reads of the status of the keyboard
controller are numbered, and no other port is read. An access is translated at its first byte. -/
def Insn.execute (insn : Insn) (p : Pc) : Option Pc :=
  match insn with
  | cli => some { p with interrupts := false }
  | cld => some { p with df := false }
  | xorwAx => some { p.setAx 0 with zf := true }
  | movwAxTo r => p.loadData r p.ax
  | inbAl port =>
      if port = 0x64 then
        some { p.setAl (status p.polls) with
          polls := p.polls + 1
          ready := status p.polls &&& 0x2 = 0 }
      else none
  | testbAl v => some { p with zf := p.al &&& v = 0 }
  | jnz rel => some (if p.zf then p else p.jumpBy (rel.signExtend 32))
  | movbAl v => some (p.setAl v)
  | outbAl port => some (p.outb port p.al)
  | lgdt a => do
      let la ← (p.data .ds).segment.linear (a.setWidth 32) 6
      -- a 16-bit operand has 24 bits of the address
      if p.cr0 &&& cr0PG = 0 then
        pure { p with gdtLimit := p.seen.load16 la, gdtBase := p.seen.load32 (la + 2) &&& 0xFFFFFF }
      else none
  | movlCr0Eax => some { p with eax := p.cr0 }
  | orlEax v => some { p with eax := p.eax ||| v, zf := p.eax ||| v = 0 }
  | movlEaxCr0 => some { p with cr0 := p.eax }
  | movlEaxCr3 => some { p with cr3 := p.eax }
  | ljmp sel off => p.farJump sel (off.setWidth 32)
  | movwAx v => some (p.setAx v)
  | movlEax v => some { p with eax := v }
  | movlEsp v => some { p with esp := v }
  | movwTo a v => do
      let la ← (p.data .ds).segment.linear a 2
      let pa ← translate p.seen p.cr0 p.cr3 true la
      pure { p with mem := (mmu.marked p.cr0 true la p.mem).store16 (a20Line p.a20 pa) v }
  | call rel => do
      let la ← (p.data .ss).segment.linear (p.esp - 4) 4
      let pa ← translate p.seen p.cr0 p.cr3 true la
      pure { p with
        mem := Mem.stosl p.eip (mmu.marked p.cr0 true la p.mem) (a20Line p.a20 pa)
        esp := p.esp - 4
        eip := p.eip + rel }
  | jmp rel => some (p.jumpBy (rel.signExtend 32))
  | jmpEax => some { p with eip := p.eax }

/-- The byte of code `k` bytes from `eip`. -/
def Pc.codeByte (p : Pc) (k : ℕ) : Option Byte := do
  let la ← p.cs.segment.linear (p.eip + BitVec.ofNat 32 k) 1
  let pa ← translate p.seen p.cr0 p.cr3 false la
  pure (p.seen.byte pa)

/-- The code from `k` bytes behind `eip` on, up to `n` bytes, as far as it can be fetched. -/
def Pc.code (p : Pc) (k : ℕ) : ℕ → List Byte
  | 0 => []
  | n + 1 =>
      match p.codeByte k with
      | none => []
      | some b => b :: p.code (k + 1) n

/-- One instruction, of 15 bytes at most. The fetch is marked at its first byte. -/
def Pc.step (p : Pc) : Option Pc := do
  let la ← p.cs.segment.linear p.eip 1
  let (insn, size) ← decode p.cs.segment.big (p.code 0 15)
  insn.execute status mmu { p with
    mem := mmu.marked p.cr0 false la p.mem
    eip := p.eip + BitVec.ofNat 32 size }

/-- A number of instructions. -/
def Pc.Runs : Pc → Pc → Prop :=
  Relation.ReflTransGen fun p q => p.step status mmu = some q

variable {status mmu} in
/-- A run goes on from its first step. -/
theorem runs_step {p q r : Pc} (h : p.step status mmu = some q) (hrest : q.Runs status mmu r) :
    p.Runs status mmu r :=
  .head h hrest

/-! ### Steps -/

/-- Bytes that can be fetched are fetched. -/
theorem code_eq {p : Pc} {bs : List Byte} {k : ℕ}
    (h : ∀ i b, bs[i]? = some b → p.codeByte (k + i) = some b) {n : ℕ} (hn : bs.length ≤ n) :
    ∃ rest, p.code k n = bs ++ rest := by
  induction bs generalizing k n with
  | nil => exact ⟨_, rfl⟩
  | cons b bs ih =>
      obtain ⟨n, rfl⟩ : ∃ m, n = m + 1 := ⟨n - 1, by rw [List.length_cons] at hn; omega⟩
      have hb : p.codeByte k = some b := h 0 b rfl
      obtain ⟨rest, hrest⟩ := ih (k := k + 1) (n := n)
        (fun i c hc => by rw [add_assoc, add_comm 1]; exact h (i + 1) c hc)
        (by rw [List.length_cons] at hn; omega)
      exact ⟨rest, by rw [Pc.code, hb, hrest]; rfl⟩

/-- **A step** is what the bytes at `eip` decode to. -/
theorem Pc.step_eq {p : Pc} {la : Addr} (hla : p.cs.segment.linear p.eip 1 = some la)
    {bs : List Byte} (hbs : ∀ i b, bs[i]? = some b → p.codeByte i = some b)
    (hlen : bs.length ≤ 15) {insn : Insn} {size : ℕ}
    (hdecode : ∀ rest, decode p.cs.segment.big (bs ++ rest) = some (insn, size)) :
    p.step status mmu = insn.execute status mmu { p with
      mem := mmu.marked p.cr0 false la p.mem
      eip := p.eip + BitVec.ofNat 32 size } := by
  obtain ⟨rest, hcode⟩ := code_eq (k := 0) (fun i b hb => by rw [zero_add]; exact hbs i b hb) hlen
  simp only [Pc.step, hla, hcode, hdecode, Option.bind_eq_bind, Option.bind_some]

end

/-! ### Lines of code -/

/-- A line of assembly: its offset, whether it is 32-bit code, its bytes, and the instruction. -/
structure CodeLine where
  off : ℕ
  big : Bool
  bytes : List Byte
  insn : Insn
deriving DecidableEq

namespace CodeLine

/-- Each line is right behind the one before. -/
def Contiguous : ℕ → List CodeLine → Prop
  | _, [] => True
  | n, l :: ls => l.off = n ∧ Contiguous (n + l.bytes.length) ls

/-- Its bytes are those of the instruction. -/
structure Assembled (l : CodeLine) : Prop where
  decodes : ∀ rest, decode l.big (l.bytes ++ rest) = some (l.insn, l.bytes.length)
  nonempty : 1 ≤ l.bytes.length
  short : l.bytes.length ≤ 15

/-- Where the code is, each line is at its offset. -/
theorem holds_line {m : Mem} {a : Addr} {ls : List CodeLine} {n : ℕ} (hls : Contiguous n ls)
    (h : m.Holds (a + BitVec.ofNat 32 n) (ls.flatMap bytes)) :
    ∀ l ∈ ls, m.Holds (a + BitVec.ofNat 32 l.off) l.bytes := by
  induction ls generalizing n with
  | nil => exact fun l hl => absurd hl List.not_mem_nil
  | cons l ls ih =>
      obtain ⟨rfl, hrest⟩ := hls
      rw [List.flatMap_cons] at h
      have hright := h.right
      rw [add_assoc, ← BitVec.ofNat_add] at hright
      intro l' hl'
      rcases List.mem_cons.mp hl' with rfl | hl'
      · exact h.left
      · exact ih hrest hright l' hl'

variable (status : ℕ → Byte) {t : EntryTables} (mmu : Mmu t)

/-- **A line of code** that has been loaded is carried out, where the processor fetches the bytes
that are there. -/
theorem step {p : Pc} {base la : Addr} {l : CodeLine} (hl : l.Assembled)
    (hmem : p.mem.Holds (base + BitVec.ofNat 32 l.off) l.bytes)
    (heip : p.eip = base + BitVec.ofNat 32 l.off) (hbig : p.cs.segment.big = l.big)
    (hla : p.cs.segment.linear p.eip 1 = some la)
    (hfetch : ∀ i < l.bytes.length,
      p.codeByte i = some (p.mem.byte (base + BitVec.ofNat 32 (l.off + i)))) :
    p.step status mmu = l.insn.execute status mmu { p with
      mem := mmu.marked p.cr0 false la p.mem
      eip := base + BitVec.ofNat 32 (l.off + l.bytes.length) } := by
  have hbs : ∀ i b, l.bytes[i]? = some b → p.codeByte i = some b := by
    intro i b hb
    rw [hfetch i (List.getElem?_eq_some_iff.mp hb).1, BitVec.ofNat_add, ← add_assoc]
    exact congrArg some (hmem i b hb)
  have hnext : p.eip + BitVec.ofNat 32 l.bytes.length =
      base + BitVec.ofNat 32 (l.off + l.bytes.length) := by
    rw [heip, BitVec.ofNat_add, add_assoc]
  rw [Pc.step_eq status mmu hla hbs hl.short fun rest => by rw [hbig]; exact hl.decodes rest, hnext]

end CodeLine

end Jos
