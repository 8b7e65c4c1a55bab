import Jos.Start

/-!
# From the BIOS to the Kernel

The way as a whole: the boot sector is executed from memory, `bootmain` loads the kernel from the
disk, and the processor executes the bytes of `entry.S` where `bootmain` has put them. The compiled
code of `bootmain` is not: it is taken for the C function, and may leave anything in the registers
and on the stack of the loader, which is below the boot sector.

The machine of `Jos.Paging` knows the instructions of `entry.S` in advance. The processor, which
decodes them, follows it (`runs_entry`).

## Main results

* `entryCode_assembled`: the bytes of `entry.S` up to `relocated`.
* `step_entry`: **the simulation**, one instruction.
* `power_on`: **from the BIOS to the kernel**, by way of the boot sector, of `bootmain` and of
  `entry.S`.
-/

namespace Jos

/-! ### The bytes of the entry -/

section

variable (t : EntryTables) (entry : Addr)

/-- The instructions as the processor has them. -/
def EntryInsn.insn : EntryInsn → Insn
  | warmBoot => .movwTo 0x472 0x1234
  | loadPgdir => .movlEax (t.entryPgdir - kernbase)
  | setCr3 => .movlEaxCr3
  | getCr0 => .movlCr0Eax
  | orCr0 => .orlEax (cr0PE ||| cr0PG ||| cr0WP)
  | setCr0 => .movlEaxCr0
  | loadRelocated => .movlEax (relocatedAddr entry)
  | jump => .jmpEax

/-- Their bytes. -/
def EntryInsn.bytes : EntryInsn → List Byte
  | warmBoot => [0x66, 0xC7, 0x05, 0x72, 0x04, 0x00, 0x00, 0x34, 0x12]
  | loadPgdir => 0xB8 :: bytes32 (t.entryPgdir - kernbase)
  | setCr3 => [0x0F, 0x22, 0xD8]
  | getCr0 => [0x0F, 0x20, 0xC0]
  | orCr0 => [0x0D, 0x01, 0x00, 0x01, 0x80]
  | setCr0 => [0x0F, 0x22, 0xC0]
  | loadRelocated => 0xB8 :: bytes32 (relocatedAddr entry)
  | jump => [0xFF, 0xE0]

/-- A line of `entry.S`. -/
def entryLine (e : ℕ × EntryInsn) : CodeLine :=
  ⟨e.1, true, e.2.bytes t entry, e.2.insn t entry⟩

/-- The code from `entry` to `relocated`. -/
def entryBytes : List Byte :=
  (entryCode.map (entryLine t entry)).flatMap CodeLine.bytes

/-- **The bytes are those of the instructions.** -/
theorem entryCode_assembled (i : EntryInsn) (off : ℕ) :
    (entryLine t entry (off, i)).Assembled ∧ (i.bytes t entry).length = i.size := by
  have hword : ∀ (v : BitVec 32) (rest : List Byte),
      decode true (0xB8 :: bytes32 v ++ rest) = some (.movlEax v, 5) := fun v rest =>
    congrArg (fun v => some (Insn.movlEax v, 5)) (Mem.append_word v)
  have hsize : (i.bytes t entry).length = i.size := by cases i <;> rfl
  have hbounds : ∀ i : EntryInsn, 1 ≤ i.size ∧ i.size ≤ 15 := by
    intro i
    cases i <;> decide
  obtain ⟨hone, hshort⟩ := hbounds i
  refine ⟨⟨?_, hsize ▸ hone, hsize ▸ hshort⟩, hsize⟩
  cases i with
  | loadPgdir => exact hword _
  | loadRelocated => exact hword _
  | _ => exact fun _ => rfl

/-- Where the code is, each line is at its offset. -/
theorem holds_entry {m : Mem} {a : Addr} (h : m.Holds a (entryBytes t entry)) :
    ∀ e ∈ entryCode, m.Holds (a + BitVec.ofNat 32 e.1) (e.2.bytes t entry) := by
  have hlines : CodeLine.Contiguous 0 (entryCode.map (entryLine t entry)) := by
    simp [entryCode, entryLine, CodeLine.Contiguous, EntryInsn.bytes, bytes32]
  intro e he
  exact CodeLine.holds_line hlines (by rwa [BitVec.add_zero]) (entryLine t entry e)
    (List.mem_map_of_mem he)

end

/-! ### The simulation -/

/-- Segments of all addresses for code and data, and the address line 20. -/
structure Pc.Flat (p : Pc) : Prop where
  cs : p.cs = ⟨protModeCseg, flatCode⟩
  ds : p.data .ds = ⟨protModeDseg, flatData⟩
  a20 : p.a20 = true

/-- The flag for the warm boot is below this. -/
theorem ne_warmBoot {a : Addr} (ha : 0x474 ≤ a.toNat) : a ≠ 0x472 ∧ a ≠ 0x473 := by
  constructor <;> rintro rfl <;> exact absurd ha (by decide)

/-- What the machine of the entry has of it. -/
def Pc.processor (p : Pc) : Processor :=
  ⟨p.mem, p.cr0, p.cr3, p.eax, p.eip⟩

section

variable (status : ℕ → Byte) {t : EntryTables} (mmu : Mmu t) {entry : Addr}

/-- What an instruction does to the machine of the entry, it does to the processor. -/
theorem execute_entry (i : EntryInsn) {p : Pc} (hp : p.Flat) {q : Processor}
    (h : i.execute mmu entry p.processor = some q) :
    ∃ p', (i.insn t entry).execute status mmu p = some p' ∧ p'.processor = q ∧ p'.Flat := by
  cases i with
  | warmBoot =>
      have hlinear : (p.data .ds).segment.linear 0x472 2 = some 0x472 := by
        rw [hp.ds]
        exact flat_linear rfl rfl _ (by decide)
      rw [EntryInsn.execute] at h
      cases hpa : translate p.processor.mem p.processor.cr0 p.processor.cr3 true 0x472 with
      | none =>
          rw [hpa] at h
          cases h
      | some pa =>
          rw [hpa] at h
          cases h
          have hpa' : translate p.seen p.cr0 p.cr3 true 0x472 = some pa := by
            rw [seen_eq hp.a20]
            exact hpa
          have hline : a20Line p.a20 pa = pa := if_pos hp.a20
          refine ⟨{ p with mem := (mmu.marked p.cr0 true 0x472 p.mem).store16 pa 0x1234 }, ?_, rfl,
            hp.cs, hp.ds, hp.a20⟩
          simp only [EntryInsn.insn, Insn.execute, hlinear, hpa', hline, Option.bind_eq_bind,
            Option.bind_some]
          rfl
  | _ =>
      cases h
      exact ⟨_, rfl, rfl, hp.cs, hp.ds, hp.a20⟩

/-- On the way, the code is fetched where it has been loaded. -/
theorem Processor.OnWay.fetch {m : Mem} {p : Processor} (hway : p.OnWay t entry m) {la : Addr}
    (hla : la.toNat < 0x400000) : translate p.mem p.cr0 p.cr3 false la = some la := by
  rcases hway.mapped with hoff | ⟨hPG, hWP, hcr3, hloaded⟩
  · exact if_pos hoff
  · rw [hcr3, translate_window hloaded hPG hWP, window, if_pos hla, if_neg (by simp)]

variable (hentry : 0xF0100000 ≤ entry.toNat ∧ entry.toNat + 35 ≤ 0xF0400000)
  (hclear : ∀ i < 35, ¬ t.Inside (entry - kernbase + BitVec.ofNat 32 i))
include hentry

/-- The addresses of the code. -/
theorem toNat_entry {i : ℕ} (hi : i ≤ 35) : (entry - kernbase + BitVec.ofNat 32 i).toNat =
    entry.toNat - 0xF0000000 + i := by
  have hkern : kernbase.toNat = 0xF0000000 := rfl
  rw [BitVec.toNat_add, BitVec.toNat_sub, BitVec.toNat_ofNat, hkern]
  omega

include hclear

/-- **One instruction.** Where the machine of the entry makes a step on the way, the processor
fetches the bytes of the same instruction, and makes the step. -/
theorem step_entry {m : Mem} (hcode : m.Holds (entry - kernbase) (entryBytes t entry)) {p : Pc}
    (hp : p.Flat) {q : Processor} (h : p.processor.Follows mmu entry m q) :
    ∃ p', p.step status mmu = some p' ∧ p'.processor = q ∧ p'.Flat := by
  obtain ⟨hway, hstep⟩ := h
  obtain ⟨⟨off, i⟩, he, heip⟩ := hway.line
  obtain ⟨hassembled, hsize⟩ := entryCode_assembled t entry i off
  have hend : off + i.size ≤ 35 := (by decide : ∀ e ∈ entryCode, e.1 + e.2.size ≤ 35) _ he
  have hone : 1 ≤ i.size := hsize ▸ hassembled.nonempty
  have heip' : p.eip = entry - kernbase + BitVec.ofNat 32 off := heip
  have hsame : ∀ k < 35, p.mem.byte (entry - kernbase + BitVec.ofNat 32 k) =
      m.byte (entry - kernbase + BitVec.ofNat 32 k) := by
    intro k hk
    have hnat := toNat_entry hentry (i := k) (by omega)
    obtain ⟨h472, h473⟩ := ne_warmBoot (a := entry - kernbase + BitVec.ofNat 32 k) (by omega)
    exact hway.same _ (hclear k hk) h472 h473
  have hholds : p.mem.Holds (entry - kernbase + BitVec.ofNat 32 off) (i.bytes t entry) := by
    intro k b hb
    have hk := (List.getElem?_eq_some_iff.mp hb).1
    rw [← holds_entry t entry hcode _ he k b hb, add_assoc, ← BitVec.ofNat_add]
    exact hsame (off + k) (by omega)
  have hlinear : ∀ k ≤ 35, p.cs.segment.linear (entry - kernbase + BitVec.ofNat 32 k) 1 =
      some (entry - kernbase + BitVec.ofNat 32 k) := by
    intro k hk
    have hnat := toNat_entry hentry hk
    rw [hp.cs]
    exact flat_linear rfl rfl _ (by omega)
  have hmap : ∀ k < 35, translate p.mem p.cr0 p.cr3 false
      (entry - kernbase + BitVec.ofNat 32 k) = some (entry - kernbase + BitVec.ofNat 32 k) := by
    intro k hk
    have hnat := toNat_entry hentry (i := k) (by omega)
    exact hway.fetch (by omega)
  have hfetch : ∀ k < (i.bytes t entry).length, p.codeByte k =
      some (p.mem.byte (entry - kernbase + BitVec.ofNat 32 (off + k))) := by
    intro k hk
    have hat : p.eip + BitVec.ofNat 32 k = entry - kernbase + BitVec.ofNat 32 (off + k) := by
      rw [heip', BitVec.ofNat_add, add_assoc]
    rw [Pc.codeByte, hat, hlinear _ (by omega), seen_eq hp.a20]
    simp only [hmap (off + k) (by omega), Option.bind_eq_bind, Option.bind_some]
    rfl
  have hla : p.cs.segment.linear p.eip 1 = some p.eip := by
    rw [heip']
    exact hlinear off (by omega)
  have hline := CodeLine.step status mmu hassembled hholds heip' (by rw [hp.cs]; rfl) hla hfetch
  have hmachine := step_fetch mmu entry he heip (by
    change translate p.mem p.cr0 p.cr3 false p.eip = some p.eip
    rw [heip']
    exact hmap off (by omega))
  rw [hmachine] at hstep
  set p₁ : Pc := { p with
    mem := mmu.marked p.cr0 false p.eip p.mem
    eip := entry - kernbase + BitVec.ofNat 32 (off + i.size) } with hp₁
  obtain ⟨p', hp', hproc, hflat⟩ := execute_entry status mmu i (p := p₁)
    ⟨hp.cs, hp.ds, hp.a20⟩ hstep
  refine ⟨p', hline.trans ?_, hproc, hflat⟩
  change (i.insn t entry).execute status mmu { p with
    mem := mmu.marked p.cr0 false p.eip p.mem
    eip := entry - kernbase + BitVec.ofNat 32 (off + (i.bytes t entry).length) } = some p'
  rw [hsize]
  exact hp'

/-- **The run.** -/
theorem runs_entry {m : Mem} (hcode : m.Holds (entry - kernbase) (entryBytes t entry)) {p : Pc}
    (hp : p.Flat) {q : Processor}
    (h : Relation.ReflTransGen (Processor.Follows mmu entry m) p.processor q) :
    ∃ p', p.Runs status mmu p' ∧ p'.processor = q ∧ p'.Flat := by
  generalize hproc : p.processor = r at h
  induction h using Relation.ReflTransGen.head_induction_on generalizing p with
  | refl => exact ⟨p, .refl, hproc, hp⟩
  | head hstep _ ih =>
      rw [← hproc] at hstep
      obtain ⟨p₁, hp₁, hproc₁, hflat₁⟩ := step_entry status mmu hentry hclear hcode hp hstep
      obtain ⟨p', hrun, hproc', hflat'⟩ := ih hflat₁ hproc₁
      exact ⟨p', runs_step hp₁ hrun, hproc', hflat'⟩

end

/-! ### From the BIOS to the kernel -/

/-- A disk with a kernel: it can be booted, its segments do not spoil each other, nor the boot
sector and the stack below it, and the first lines of `entry.S` and the tables of `entrypgdir.c`
are in the image, apart from each other. -/
structure Disk.Kernel (d : Disk) (t : EntryTables) (entry : Addr) : Prop where
  live : d.Live
  bootable : d.Bootable
  intact : d.Intact
  above : ∀ seg ∈ d.segments, ∀ a, seg.Covers a → 0x7E00 ≤ a.toNat
  jumps : d.elf.entry = entry - kernbase
  linked : 0xF0100000 ≤ entry.toNat ∧ entry.toNat + 35 ≤ 0xF0400000
  code : ∀ m, Loaded d m → m.Holds (entry - kernbase) (entryBytes t entry)
  tables : ∀ m, Loaded d m → t.Loaded m
  apart : ∀ i < 35, ¬ t.Inside (entry - kernbase + BitVec.ofNat 32 i)

/-- What `bootmain` leaves of an image whose segments do not spoil each other. -/
theorem loaded_of_intact {d : Disk} (hb : d.Bootable) (hi : d.Intact) {m : Mem} {f : Addr → Byte}
    (hm : m.byte = d.segments.foldl (place d) f) : Loaded d m := by
  intro seg hseg i hi'
  obtain ⟨pre, post, hsplit⟩ := List.append_of_mem hseg
  obtain ⟨hcovers, hcontent⟩ := covers_own hb hseg hi'
  rw [hm, hsplit, List.foldl_append, List.foldl_cons, foldl_place]
  cases hcase : (post.filter (·.Covers (seg.pa + BitVec.ofNat 32 i))).getLast? with
  | none => rw [Option.elim_none, place, if_pos hcovers, hcontent]
  | some last => exact hi pre seg post hsplit i hi' last hcase

/-- **`bootmain` and its own code**: the kernel is loaded, and the boot sector and the stack below
it are as they were. -/
theorem bootmain_loads {d : Disk} {t : EntryTables} {entry : Addr} (hd : d.Kernel t entry)
    (s : Machine) :
    ∃ s', Converges (.entry (entry - kernbase) s') (fun fuel => bootmain fuel d s) ∧
      Loaded d s'.mem ∧ ∀ a : Addr, a.toNat < 0x7E00 → s'.mem.byte a = s.mem.byte a := by
  obtain ⟨s', f, hboot, hbyte, hframe⟩ := bootmain_spec hd.live hd.bootable s
  rw [hd.jumps] at hboot
  refine ⟨s', hboot, loaded_of_intact hd.bootable hd.intact hbyte, fun a ha => ?_⟩
  have hnone : d.segments.filter (·.Covers a) = [] := by
    refine List.filter_eq_nil_iff.mpr fun seg hseg hcovers => ?_
    have habove := hd.above seg hseg a (by simpa using hcovers)
    omega
  have hscratch : ¬ Mem.Span elfHdr 4096 a := by
    rw [Mem.Span, BitVec.toNat_sub]
    change ¬ (2 ^ 32 - 0x10000 + a.toNat) % 2 ^ 32 < 4096
    omega
  rw [hbyte, foldl_place, hnone]
  exact hframe a hscratch

/-- The processor as `bootmain`, called in the state `q`, hands it over to `eip` with the memory
`m`. What `bootmain` leaves in the other registers and on its stack may be anything. -/
structure Handed (q : Pc) (m : Mem) (eip : Addr) (p : Pc) : Prop where
  eip : p.eip = eip
  cs : p.cs = q.cs
  data : p.data = q.data
  a20 : p.a20 = q.a20
  cr0 : p.cr0 = q.cr0
  mem : ∀ a : Addr, 0x7C00 ≤ a.toNat → p.mem.byte a = m.byte a

/-- **The entry of the kernel**, loaded from the disk, is executed where it has been loaded. -/
theorem entry_executes (status : ℕ → Byte) {d : Disk} {t : EntryTables} {entry : Addr}
    (hd : d.Kernel t entry) (mmu : Mmu t) {p : Pc} (hp : p.Flat) (hoff : p.cr0 &&& cr0PG = 0)
    (heip : p.eip = entry - kernbase) (hloaded : Loaded d p.mem) :
    ∃ r, p.Runs status mmu r ∧ r.Flat ∧ r.eip = relocatedAddr entry ∧
      r.cr0 = p.cr0 ||| (cr0PE ||| cr0PG ||| cr0WP) ∧ r.cr3 = t.entryPgdir - kernbase ∧
      t.Loaded r.mem ∧ r.mem.load16 0x472 = 0x1234 ∧
      ∀ a, ¬ t.Inside a → a ≠ 0x472 → a ≠ 0x473 → r.mem.byte a = p.mem.byte a := by
  obtain ⟨m, -, hway, htables, hwarm, hsame⟩ :=
    entry_steps mmu hd.linked hoff (hd.tables p.mem hloaded) p.cr3 p.eax
  rw [← heip] at hway
  obtain ⟨r, hrun, hproc, hflat⟩ :=
    runs_entry status mmu hd.linked hd.apart (hd.code p.mem hloaded) hp hway
  have hmem : r.mem = m := congrArg Processor.mem hproc
  exact ⟨r, hrun, hflat, congrArg Processor.eip hproc, congrArg Processor.cr0 hproc,
    congrArg Processor.cr3 hproc, hmem ▸ htables, hmem ▸ hwarm, hmem ▸ hsame⟩

/-- **From the BIOS to the kernel.** The boot sector, executed from memory, comes to `bootmain`,
which loads the kernel, leaves its own code and stack alone, and jumps to the entry point. What it
has loaded there is executed, and comes to `relocated` at its link address, with paging and write
protection on, the tables in place, the flag for the warm boot set, and every segment where it is
to be but for the marks in the tables. -/
theorem power_on (status : ℕ → Byte) (hlive : ∀ n, ∃ k, n ≤ k ∧ status k &&& 0x2 = 0)
    {bootmainAddr : Addr} {d : Disk} {t : EntryTables} {entry : Addr} (hd : d.Kernel t entry)
    (mmu : Mmu t) {p : Pc} (hp : p.Booted bootmainAddr) (ide : Ide) (out : List PortWrite) :
    ∃ q s, p.Runs status mmu q ∧ Entered bootmainAddr p q ∧
      Converges (.entry (entry - kernbase) s) (fun fuel => bootmain fuel d ⟨q.mem, ide, out⟩) ∧
      (∀ a : Addr, a.toNat < 0x7E00 → s.mem.byte a = q.mem.byte a) ∧
      ∀ k, Handed q s.mem (entry - kernbase) k → ∃ r, k.Runs status mmu r ∧ r.Flat ∧
        r.eip = relocatedAddr entry ∧ r.cr0 &&& cr0PG ≠ 0 ∧ r.cr0 &&& cr0WP ≠ 0 ∧
        r.cr3 = t.entryPgdir - kernbase ∧ t.Loaded r.mem ∧ r.mem.load16 0x472 = 0x1234 ∧
        ∀ seg ∈ d.segments, ∀ i < seg.filesz.toNat, ¬ t.Inside (seg.pa + BitVec.ofNat 32 i) →
          r.mem.byte (seg.pa + BitVec.ofNat 32 i) = d.byte (sectSize + seg.offset.toNat + i) := by
  obtain ⟨q, hrun, hq⟩ := start_enters status mmu hlive hp
  obtain ⟨s, hboot, hloaded, hlow⟩ := bootmain_loads hd ⟨q.mem, ide, out⟩
  refine ⟨q, s, hrun, hq, hboot, hlow, fun k hk => ?_⟩
  have hown : ∀ seg ∈ d.segments, ∀ i < seg.filesz.toNat,
      0x7E00 ≤ (seg.pa + BitVec.ofNat 32 i).toNat := fun seg hseg i hi =>
    hd.above seg hseg _ (covers_own hd.bootable hseg hi).1
  have hloaded' : Loaded d k.mem := fun seg hseg i hi => by
    have habove := hown seg hseg i hi
    rw [hk.mem _ (by omega), hloaded seg hseg i hi]
  have hflat : k.Flat :=
    ⟨hk.cs.trans hq.cs, (congrFun hk.data .ds).trans (hq.data .ds), hk.a20.trans hq.a20⟩
  have hoff : k.cr0 &&& cr0PG = 0 := by
    rw [hk.cr0, hq.cr0, or_cr0PE_cr0PG, hp.unpaged]
  obtain ⟨r, hrun', hflat', heip, hcr0, hcr3, htables, hwarm, hsame⟩ :=
    entry_executes status hd mmu hflat hoff hk.eip hloaded'
  refine ⟨r, hrun', hflat', heip, hcr0 ▸ (paging_on k.cr0).1, hcr0 ▸ (paging_on k.cr0).2, hcr3,
    htables, hwarm, fun seg hseg i hi hout => ?_⟩
  have habove := hown seg hseg i hi
  obtain ⟨h472, h473⟩ := ne_warmBoot (a := seg.pa + BitVec.ofNat 32 i) (by omega)
  rw [hsame _ hout h472 h473, hloaded' seg hseg i hi]

/-! ### A kernel of one segment -/

/-- The first bytes of an image of one segment, at the first megabyte. -/
def bareHeaders : List Byte :=
  bytes32 elfMagic ++ List.replicate 20 0 ++ bytes32 0x10000C ++ bytes32 52 ++
    List.replicate 12 0 ++ [1, 0] ++ List.replicate 6 0 ++
    (bytes32 1 ++ bytes32 0x1000 ++ bytes32 0xF0100000 ++ bytes32 0x100000 ++ bytes32 0x17000 ++
      bytes32 0x17000 ++ bytes32 7 ++ bytes32 0x1000)

/-- A kernel in memory: the first lines of its entry, the tables, and nothing else. -/
def bareKernel : Mem where
  byte a :=
    if (a - 0x10000C).toNat < 35 then
      (entryBytes bareTables 0xF010000C).getD (a - 0x10000C).toNat 0
    else bareTables.placed.byte a
  stores := []

/-- A disk with that kernel. -/
def bareDisk : Disk where
  byte n :=
    if n < 0x1200 then bareHeaders.getD (n - 512) 0
    else bareKernel.byte (BitVec.ofNat 32 (n - 0x1200 + 0x100000))
  status _ := 0x40

/-- Its one segment. -/
theorem segments_bareDisk : bareDisk.segments = [⟨0x1000, 0x100000, 0x17000, 0x17000⟩] := by
  decide

/-- Its sectors begin at the first megabyte. -/
theorem covers_bareDisk {seg : Proghdr} (hseg : seg ∈ bareDisk.segments) {a : Addr}
    (hcovers : seg.Covers a) : 0x100000 ≤ a.toNat := by
  have hpa : 0x100000 ≤ seg.pa.toNat := by
    rw [segments_bareDisk] at hseg
    rw [List.mem_singleton.mp hseg]
    decide
  have hsectors := (around_iff.mp hcovers).1
  omega

/-- It can be booted. -/
theorem bootable_bareDisk : bareDisk.Bootable where
  magic := by decide
  phdrs := by decide
  filesz := by rw [segments_bareDisk]; simp
  aligned := by rw [segments_bareDisk]; simp
  ascending := by rw [segments_bareDisk]; simp
  scratch := by
    intro seg hseg a hcovers hscratch
    have hmega := covers_bareDisk hseg hcovers
    rw [Mem.Span, BitVec.toNat_sub] at hscratch
    change (2 ^ 32 - 0x10000 + a.toNat) % 2 ^ 32 < 4096 at hscratch
    omega
  inside := by rw [segments_bareDisk]; simp

/-- Where its segment is, there is the kernel. -/
theorem loaded_bareDisk {m : Mem} (h : Loaded bareDisk m) {a : Addr}
    (ha : 0x100000 ≤ a.toNat ∧ a.toNat < 0x117000) : m.byte a = bareKernel.byte a := by
  rw [Loaded, segments_bareDisk] at h
  have hbyte := h _ List.mem_cons_self (a.toNat - 0x100000)
    (by change a.toNat - 0x100000 < 0x17000; omega)
  have hat : (0x100000 : Addr) + BitVec.ofNat 32 (a.toNat - 0x100000) = a := by bv_omega
  have hoff : ¬ sectSize + (0x1000 : BitVec 32).toNat + (a.toNat - 0x100000) < 0x1200 := by
    change ¬ 512 + 0x1000 + (a.toNat - 0x100000) < 0x1200
    omega
  have hplace : BitVec.ofNat 32 (sectSize + (0x1000 : BitVec 32).toNat + (a.toNat - 0x100000) -
      0x1200 + 0x100000) = a := by
    change BitVec.ofNat 32 (512 + 0x1000 + (a.toNat - 0x100000) - 0x1200 + 0x100000) = a
    bv_omega
  dsimp only at hbyte
  rw [hat] at hbyte
  rw [hbyte]
  dsimp only [bareDisk]
  rw [if_neg hoff, hplace]

/-- Where the tables are. -/
theorem inside_bareTables {a : Addr} (ha : bareTables.Inside a) :
    0x115000 ≤ a.toNat ∧ a.toNat < 0x117000 := by
  have hdir : bareTables.entryPgdir - kernbase = 0x115000 := by decide
  have htable : bareTables.entryPgtable - kernbase = 0x116000 := by decide
  rw [EntryTables.Inside, hdir, htable, Mem.Span, Mem.Span] at ha
  bv_omega

/-- It is a disk with a kernel. -/
theorem kernel_bareDisk : bareDisk.Kernel bareTables 0xF010000C where
  live := Disk.live_of_ready fun _ => (by decide : isReady 0x40)
  bootable := bootable_bareDisk
  intact := intact_of_apart bootable_bareDisk (by rw [segments_bareDisk]; simp)
  above seg hseg a hcovers := by
    have hmega := covers_bareDisk hseg hcovers
    omega
  jumps := by decide
  linked := by decide
  code m hm i b hb := by
    have hi : i < 35 := (List.getElem?_eq_some_iff.mp hb).1
    have hbase : (0xF010000C : Addr) - kernbase = 0x10000C := by decide
    have hoff : ((0x10000C : Addr) + BitVec.ofNat 32 i - 0x10000C).toNat = i := by bv_omega
    have hat : ((0x10000C : Addr) + BitVec.ofNat 32 i).toNat = 0x10000C + i := by bv_omega
    rw [hbase, loaded_bareDisk hm (by omega)]
    simp only [bareKernel, hoff]
    rw [if_pos hi, List.getD_eq_getElem?_getD, hb, Option.getD_some]
  tables m hm := by
    refine (placed_loaded bareTables).congr fun a ha => ?_
    have hrange := inside_bareTables ha
    have hfar : ¬ (a - 0x10000C).toNat < 35 := by bv_omega
    rw [loaded_bareDisk hm (by omega)]
    exact if_neg hfar
  apart i hi hin := by
    have hrange := inside_bareTables hin
    have hbase : (0xF010000C : Addr) - kernbase = 0x10000C := by decide
    rw [hbase] at hrange
    bv_omega

/-- The boot sector as the BIOS has loaded it. -/
def barePc : Pc where
  mem := ⟨fun a => (startBytes 0x7D0A).getD (a - start).toNat 0, []⟩
  cs := ⟨0, 0, 0xFFFF, true, false, false⟩
  data := fun _ => ⟨0, 0, 0xFFFF, false, true, false⟩
  eax := 0
  esp := 0
  eip := start
  cr0 := 0
  cr3 := 0
  gdtLimit := 0
  gdtBase := 0
  zf := false
  df := true
  interrupts := true
  a20 := false
  ready := false
  outPort := false
  polls := 0

/-- It is as the BIOS leaves it. -/
theorem booted_barePc : barePc.Booted 0x7D0A where
  real := by decide
  unpaged := by decide
  eip := rfl
  base := rfl
  limit := rfl
  big := rfl
  data := rfl
  sector := by
    intro i b hb
    have hi : i < 106 := (List.getElem?_eq_some_iff.mp hb).1
    have hoff : (start + BitVec.ofNat 32 i - start).toNat = i := by bv_omega
    change (startBytes 0x7D0A).getD (start + BitVec.ofNat 32 i - start).toNat 0 = b
    rw [hoff, List.getD_eq_getElem?_getD, hb, Option.getD_some]

/-- The kernel of one segment, with a keyboard controller that is never busy, a processor that
marks the tables, and registers as `bootmain` found them. -/
theorem power_on_bare : ∃ q s r, barePc.Runs (fun _ => 0) (Mmu.marking bareTables) q ∧
    Converges (.entry 0x10000C s) (fun fuel => bootmain fuel bareDisk
      ⟨q.mem, ⟨0, 0, 0, 0, 0, 0, true, false, []⟩, []⟩) ∧
    Pc.Runs (fun _ => 0) (Mmu.marking bareTables) { q with mem := s.mem, eip := 0x10000C } r ∧
    r.eip = 0xF010002F ∧ r.mem.load16 0x472 = 0x1234 := by
  obtain ⟨q, s, hrun, -, hboot, -, hentry⟩ :=
    power_on (fun _ => 0) (fun n => ⟨n, le_refl n, by decide⟩) kernel_bareDisk
      (Mmu.marking bareTables) booted_barePc ⟨0, 0, 0, 0, 0, 0, true, false, []⟩ []
  have hbase : (0xF010000C : Addr) - kernbase = 0x10000C := by decide
  rw [hbase] at hboot hentry
  obtain ⟨r, hrun', -, heip, -, -, -, -, hwarm, -⟩ :=
    hentry { q with mem := s.mem, eip := 0x10000C } ⟨rfl, rfl, rfl, rfl, rfl, fun _ _ => rfl⟩
  exact ⟨q, s, r, hrun, hboot, hrun', heip, hwarm⟩

end Jos
