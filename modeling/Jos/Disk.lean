import Jos.Loop
import Jos.Memory

/-!
# The Boot Loader's Disk

`readsect` and `readseg` of `boot/main.c`, over the memory and the IDE disk they read from.
The disk answers every read of its status port with a byte of its own choosing; it takes a
command when it has been seen ready, and has the data when it is seen ready again. A read
command asks for the sectors from the 28-bit number on that was written to the ports `0x1F3`
to `0x1F6`, provided the top one says so.

All that is assumed of the disk is that it becomes ready again after any number of reads of
its status (`Disk.Live`).

## Main results

* `readsect_spec`: one sector.
* `readseg_copies`: **the bytes asked for are copied**, and nothing but whole sectors around
  them is written.
* `segmentRead_iff`: **when `readseg` returns.**
-/

namespace Jos

/-! ### The machine -/

/-- A disk: its bytes, and what it answers to each read of the status port. -/
structure Disk where
  byte : ℕ → Byte
  status : ℕ → Byte

/-- The status of a disk that is ready, and not busy. -/
def isReady (status : Byte) : Prop :=
  status &&& 0xC0 = 0x40

instance (status : Byte) : Decidable (isReady status) :=
  inferInstanceAs (Decidable (_ = _))

/-- The disk becomes ready again, however often its status has been read. -/
def Disk.Live (d : Disk) : Prop :=
  ∀ n, ∃ m, n ≤ m ∧ isReady (d.status m)

/-- A disk that is always ready. -/
theorem Disk.live_of_ready {d : Disk} (h : ∀ n, isReady (d.status n)) : d.Live :=
  fun n => ⟨n, Nat.le_refl n, h n⟩

/-- The controller: how often its status has been read, the registers at the ports `0x1F2`
to `0x1F6`, whether it takes a command, whether a read is under way, and the bytes ready to
be taken from its data port. -/
structure Ide where
  polls : ℕ
  count : Byte
  lba0 : Byte
  lba1 : Byte
  lba2 : Byte
  lba3 : Byte
  idle : Bool
  reading : Bool
  data : List Byte

/-- A write to a port. -/
inductive PortWrite
  | outb (port : BitVec 32) (data : Byte)
  | outw (port : BitVec 32) (data : BitVec 16)
deriving DecidableEq

/-- The machine the boot loader runs on, with every port write so far. -/
structure Machine where
  mem : Mem
  ide : Ide
  out : List PortWrite

/-- The sector number in the four registers: 28 bits. -/
def lba (lba0 lba1 lba2 lba3 : Byte) : ℕ :=
  lba0.toNat + 2 ^ 8 * lba1.toNat + 2 ^ 16 * lba2.toNat + 2 ^ 24 * (lba3.toNat % 16)

/-- What the disk has for the controller's registers: the sectors from the number in them on,
if the first disk is addressed by such a number. A count of 0 stands for 256. -/
def Disk.sectors (d : Disk) (ide : Ide) : List Byte :=
  if ide.lba3 &&& 0xF0 = 0xE0 then
    (List.range (512 * if ide.count = 0 then 256 else ide.count.toNat)).map fun i =>
      d.byte (512 * lba ide.lba0 ide.lba1 ide.lba2 ide.lba3 + i)
  else []

/-- What a write to a port does to the controller. -/
def Ide.outb (port : BitVec 32) (data : Byte) (ide : Ide) : Ide :=
  if port = 0x1F2 then { ide with count := data }
  else if port = 0x1F3 then { ide with lba0 := data }
  else if port = 0x1F4 then { ide with lba1 := data }
  else if port = 0x1F5 then { ide with lba2 := data }
  else if port = 0x1F6 then { ide with lba3 := data }
  else if port = 0x1F7 ∧ data = 0x20 ∧ ide.idle then { ide with idle := false, reading := true }
  else ide

/-- `outb`. -/
def Machine.outb (port : BitVec 32) (data : Byte) (s : Machine) : Machine :=
  { s with ide := s.ide.outb port data, out := s.out ++ [.outb port data] }

/-- `inb` from the status port `0x1F7`. -/
def Machine.inb (d : Disk) (s : Machine) : Byte × Machine :=
  let status := d.status s.ide.polls
  let ide := { s.ide with polls := s.ide.polls + 1 }
  (status, { s with
    ide :=
      if isReady status then
        { ide with
          idle := true
          reading := false
          data := if ide.reading then d.sectors ide else ide.data }
      else ide })

/-- `insl` from the data port `0x1F0`: a port with no data floats. -/
def Machine.insl : ℕ → Addr → Machine → Machine
  | 0, _, s => s
  | cnt + 1, addr, s =>
      let data := fun i => s.ide.data.getD i 0xFF
      Machine.insl cnt (addr + 4) { s with
        mem := s.mem.store32 addr (data 0) (data 1) (data 2) (data 3)
        ide := { s.ide with data := s.ide.data.drop 4 } }

/-! ### The boot loader -/

/-- Why a call does not come back: a loop that does not end. -/
inductive Hang
  | fuel

/-- `SECTSIZE`. -/
abbrev sectSize : ℕ := 512

/-- A round of the loop of `waitdisk`. -/
def waitRound (d : Disk) (s : Machine) : Except Hang (Round Machine Machine) :=
  let (status, s) := s.inb d
  .ok (if isReady status then .leave s else .next s)

/-- `waitdisk`. -/
def waitdisk (fuel : ℕ) (d : Disk) (s : Machine) : Except Hang Machine :=
  loop .fuel (waitRound d) fuel s

/-- The port writes of `readsect`. -/
def readCommand (offset : BitVec 32) (s : Machine) : Machine :=
  let s := s.outb 0x1F2 1
  let s := s.outb 0x1F3 (offset.setWidth 8)
  let s := s.outb 0x1F4 ((offset >>> 8).setWidth 8)
  let s := s.outb 0x1F5 ((offset >>> 16).setWidth 8)
  let s := s.outb 0x1F6 ((offset >>> 24 ||| 0xE0).setWidth 8)
  s.outb 0x1F7 0x20

/-- `readsect`. -/
def readsect (fuel : ℕ) (d : Disk) (dst : Addr) (offset : BitVec 32) (s : Machine) :
    Except Hang Machine := do
  -- wait for disk to be ready
  let s ← waitdisk fuel d s
  let s := readCommand offset s
  -- wait for disk to be ready
  let s ← waitdisk fuel d s
  -- read a sector
  pure (s.insl (sectSize / 4) dst)

/-- A round of the loop of `readseg`, on `pa`, `offset` and the machine. -/
def readsegRound (d : Disk) (endPa : Addr) (fuel : ℕ) (s : Addr × BitVec 32 × Machine) :
    Except Hang (Round (Addr × BitVec 32 × Machine) Machine) :=
  if s.1 < endPa then do
    let m ← readsect fuel d s.1 s.2.1 s.2.2
    pure (.next (s.1 + BitVec.ofNat 32 sectSize, s.2.1 + 1, m))
  else .ok (.leave s.2.2)

/-- `readseg`. -/
def readseg (fuel : ℕ) (d : Disk) (pa count offset : BitVec 32) (s : Machine) :
    Except Hang Machine :=
  let endPa := pa + count
  -- round down to sector boundary
  let pa := pa &&& ~~~(BitVec.ofNat 32 sectSize - 1)
  -- translate from bytes to sectors, and kernel starts at sector 1
  let offset := offset / BitVec.ofNat 32 sectSize + 1
  loop .fuel (readsegRound d endPa fuel) fuel (pa, offset, s)

/-! ### Waiting -/

/-- The controller once its disk has been seen ready. -/
def Ide.settled (d : Disk) (polls : ℕ) (ide : Ide) : Ide :=
  { ide with
    polls := polls
    idle := true
    reading := false
    data := if ide.reading then d.sectors ide else ide.data }

/-- **Waiting.** The disk becomes ready, and delivers what is under way. -/
theorem waitdisk_spec {d : Disk} (hd : d.Live) (s : Machine) :
    ∃ polls, Converges { s with ide := s.ide.settled d polls } fun fuel => waitdisk fuel d s := by
  have hleave : ∀ s, isReady (d.status s.ide.polls) →
      ∃ polls, Loops Hang.fuel (fun _ => waitRound d) s
        { s with ide := s.ide.settled d polls } := by
    intro s hready
    have hround : waitRound d s = .ok (.leave { s with
        ide := s.ide.settled d (s.ide.polls + 1) }) := by
      simp only [waitRound, Machine.inb]
      rw [if_pos hready, if_pos hready]
      rfl
    refine ⟨s.ide.polls + 1, .leave ?_⟩
    simp only [hround]
    exact converges_ok _
  have hloop : ∀ k s, isReady (d.status (s.ide.polls + k)) →
      ∃ polls, Loops Hang.fuel (fun _ => waitRound d) s
        { s with ide := s.ide.settled d polls } := by
    intro k
    induction k with
    | zero => exact hleave
    | succ k ih =>
        intro s hready
        by_cases hnow : isReady (d.status s.ide.polls)
        · exact hleave s hnow
        have hround : waitRound d s = .ok (.next { s with
            ide := { s.ide with polls := s.ide.polls + 1 } }) := by
          simp only [waitRound, Machine.inb]
          rw [if_neg hnow, if_neg hnow]
        obtain ⟨polls, hrest⟩ := ih { s with ide := { s.ide with polls := s.ide.polls + 1 } }
          (by rwa [Nat.add_assoc, Nat.add_comm 1 k])
        refine ⟨polls, .next ?_ hrest⟩
        simp only [hround]
        exact converges_ok _
  obtain ⟨m, hm, hready⟩ := hd s.ide.polls
  obtain ⟨polls, h⟩ := hloop (m - s.ide.polls) s (by rwa [Nat.add_sub_cancel' hm])
  exact ⟨polls, h.converges⟩

/-! ### One sector -/

/-- The top byte of a sector number, tagged: the tag is in place, and the number's four bits
are as they were. -/
theorem tagged_top : ∀ b : Byte, b < 0x10 →
    (b ||| 0xE0) &&& 0xF0 = 0xE0 ∧ (b ||| 0xE0).toNat % 16 = b.toNat := by
  decide

/-- The four register bytes written for `x` address the first disk by the number `n`. -/
def Encodes (x : BitVec 32) (n : ℕ) : Prop :=
  ((x >>> 24 ||| 0xE0).setWidth 8 : Byte) &&& 0xF0 = 0xE0 ∧
    lba (x.setWidth 8) ((x >>> 8).setWidth 8) ((x >>> 16).setWidth 8)
      ((x >>> 24 ||| 0xE0).setWidth 8) = n

/-- **The registers encode the sector number.** -/
theorem encodes_toNat {x : BitVec 32} (hx : x.toNat < 2 ^ 28) : Encodes x x.toNat := by
  have htop : ((x >>> 24).setWidth 8 : Byte) < 0x10 := by
    rw [BitVec.lt_def, BitVec.toNat_setWidth, BitVec.toNat_ushiftRight, Nat.shiftRight_eq_div_pow]
    change x.toNat / 2 ^ 24 % 2 ^ 8 < 16
    omega
  obtain ⟨htag, hbits⟩ := tagged_top _ htop
  have hor : ((x >>> 24 ||| 0xE0).setWidth 8 : Byte) = (x >>> 24).setWidth 8 ||| 0xE0 := by
    rw [BitVec.setWidth_or]
    rfl
  rw [Encodes, hor]
  refine ⟨htag, ?_⟩
  simp only [lba, hbits, BitVec.toNat_setWidth, BitVec.toNat_ushiftRight,
    Nat.shiftRight_eq_div_pow]
  omega

/-- The port writes for a sector. -/
def commands (x : BitVec 32) : List PortWrite :=
  [.outb 0x1F2 1, .outb 0x1F3 (x.setWidth 8), .outb 0x1F4 ((x >>> 8).setWidth 8),
    .outb 0x1F5 ((x >>> 16).setWidth 8), .outb 0x1F6 ((x >>> 24 ||| 0xE0).setWidth 8),
    .outb 0x1F7 0x20]

/-- **Reading the data port.** The next bytes it holds, in order. -/
theorem byte_insl (cnt : ℕ) {addr : Addr} {s : Machine} {data : List Byte}
    (hdata : s.ide.data = data) (hcnt : 4 * cnt ≤ 2 ^ 32) (a : Addr) :
    (s.insl cnt addr).mem.byte a =
      if (a - addr).toNat < 4 * cnt then data.getD (a - addr).toNat 0xFF else s.mem.byte a := by
  induction cnt generalizing addr s data with
  | zero => rfl
  | succ cnt ih =>
      have hpast := Mem.toNat_sub_add_ofNat a addr (k := 4) (by decide)
      have hword := Mem.byte_store32 s.mem addr a fun i => data.getD i 0xFF
      rw [Machine.insl, ih rfl (by omega)]
      subst hdata
      simp only [List.getD_eq_getElem?_getD, List.getElem?_drop] at hword ⊢
      rw [hword]
      have hlt : (a - addr).toNat < 2 ^ 32 := (a - addr).isLt
      change (a - (addr + 4)).toNat = _ at hpast
      by_cases hin : 4 ≤ (a - addr).toNat
      · rw [if_pos hin] at hpast
        rw [hpast, if_neg (show ¬ (a - addr).toNat < 4 by omega), Nat.add_sub_cancel' hin]
        by_cases hrest : (a - addr).toNat < 4 * (cnt + 1)
        · rw [if_pos hrest, if_pos (by omega)]
        · rw [if_neg hrest, if_neg (by omega)]
      · rw [if_neg hin] at hpast
        rw [if_neg (by omega), if_pos (by omega), if_pos (by omega)]

/-- Reading the data port stores to the words read. -/
theorem within_insl (cnt : ℕ) (addr : Addr) (s : Machine) :
    Mem.Within (Mem.Span addr (4 * cnt)) s.mem (s.insl cnt addr).mem := by
  induction cnt generalizing addr s with
  | zero => exact .refl _ _
  | succ cnt ih =>
      rw [Machine.insl, Nat.mul_succ, Nat.add_comm]
      have hword := Mem.within_store32 s.mem addr (s.ide.data.getD 0 0xFF)
        (s.ide.data.getD 1 0xFF) (s.ide.data.getD 2 0xFF) (s.ide.data.getD 3 0xFF)
      have hhead := hword.mono (Q := Mem.Span addr (4 + 4 * cnt)) fun b hb =>
        Nat.lt_of_lt_of_le hb (Nat.le_add_right _ _)
      exact hhead.trans <| .mono (fun b hb => Mem.span_of_span_add (by decide) hb) <|
        ih (addr + BitVec.ofNat 32 4) { s with
          mem := s.mem.store32 addr _ _ _ _
          ide := { s.ide with data := s.ide.data.drop 4 } }

theorem out_insl (cnt : ℕ) (addr : Addr) (s : Machine) : (s.insl cnt addr).out = s.out := by
  induction cnt generalizing addr s with
  | zero => rfl
  | succ cnt ih => rw [Machine.insl, ih]

/-- A read command to a controller that takes one. -/
theorem ide_readCommand {s : Machine} (hidle : s.ide.idle = true) (x : BitVec 32) :
    (readCommand x s).ide =
      { s.ide with
        count := 1
        lba0 := x.setWidth 8
        lba1 := (x >>> 8).setWidth 8
        lba2 := (x >>> 16).setWidth 8
        lba3 := (x >>> 24 ||| 0xE0).setWidth 8
        idle := false
        reading := true } := by
  simp [readCommand, Machine.outb, Ide.outb, hidle]

/-- When the disk is ready again, the data port holds the sector of that number. -/
theorem data_readCommand (d : Disk) {polls : ℕ} {s : Machine} (hidle : s.ide.idle = true)
    {x : BitVec 32} (hx : x.toNat < 2 ^ 28) :
    ((readCommand x s).ide.settled d polls).data =
      (List.range sectSize).map fun i => d.byte (sectSize * x.toNat + i) := by
  obtain ⟨htag, hlba⟩ := encodes_toNat hx
  rw [ide_readCommand hidle]
  simp only [Ide.settled, if_true, Disk.sectors]
  rw [if_pos htag, hlba]
  rfl

/-- **One sector.** Reading it returns, whatever the controller was left with, and writes 512
bytes; they are those of the sector, if its number is one the registers hold. -/
theorem readsect_spec {d : Disk} (hd : d.Live) (s : Machine) (dst : Addr) (x : BitVec 32) :
    ∃ s', Converges s' (fun fuel => readsect fuel d dst x s) ∧
      s'.out = s.out ++ commands x ∧ Mem.Within (Mem.Span dst sectSize) s.mem s'.mem ∧
      (x.toNat < 2 ^ 28 → ∀ a, Mem.Span dst sectSize a →
        s'.mem.byte a = d.byte (sectSize * x.toNat + (a - dst).toNat)) := by
  obtain ⟨polls, hready⟩ := waitdisk_spec hd s
  let m := readCommand x { s with ide := s.ide.settled d polls }
  obtain ⟨polls', hdone⟩ := waitdisk_spec hd m
  let m' : Machine := { m with ide := m.ide.settled d polls' }
  have hmem : m'.mem = s.mem := rfl
  have hout : m'.out = s.out ++ commands x := by
    simp [m', m, readCommand, Machine.outb, commands]
  refine ⟨m'.insl (sectSize / 4) dst, hready.bind (hdone.bind (converges_ok _)), ?_, ?_, ?_⟩
  · rw [out_insl, hout]
  · have hinsl := within_insl (sectSize / 4) dst m'
    rwa [hmem] at hinsl
  intro hx a ha
  have hport : m'.ide.data =
      (List.range sectSize).map fun i => d.byte (sectSize * x.toNat + i) :=
    data_readCommand d rfl hx
  have hin : (a - dst).toNat < 4 * (sectSize / 4) := ha
  rw [byte_insl _ hport (by decide), if_pos hin, List.getD_eq_getElem?_getD, List.getElem?_map,
    List.getElem?_range ha]
  rfl

/-! ### A segment -/

/-- The sectors from `x` on. -/
def sectorsFrom (x : BitVec 32) (n : ℕ) : List (BitVec 32) :=
  (List.range n).map fun j => x + BitVec.ofNat 32 j

theorem sectorsFrom_succ (x : BitVec 32) (n : ℕ) :
    sectorsFrom x (n + 1) = x :: sectorsFrom (x + 1) n := by
  rw [sectorsFrom, List.range_succ_eq_map, List.map_cons, List.map_map, sectorsFrom]
  congr 1
  · simp
  · refine List.map_congr_left fun j _ => ?_
    simp only [Function.comp_apply, Nat.succ_eq_add_one, Nat.add_comm j, BitVec.ofNat_add]
    exact (add_assoc _ _ _).symm

theorem sectorsFrom_getElem? {x y : BitVec 32} {n j : ℕ} (h : (sectorsFrom x n)[j]? = some y) :
    j < n ∧ y = x + BitVec.ofNat 32 j := by
  obtain ⟨hj, hy⟩ := List.getElem?_eq_some_iff.mp h
  rw [sectorsFrom, List.length_map, List.length_range] at hj
  refine ⟨hj, ?_⟩
  rw [← hy]
  simp [sectorsFrom]

/-- **The rounds of `readseg`.** As many sectors as it takes to reach the end are read, one
after the other, and copied if their numbers are ones the registers hold. Induction on how
many they are. -/
theorem readsegRound_loops {d : Disk} (hd : d.Live) (endPa : Addr) (n : ℕ) (p : Addr)
    (x : BitVec 32) (s : Machine) (hn : n = (endPa.toNat - p.toNat + 511) / 512)
    (hp : p.toNat + 512 * n < 2 ^ 32) :
    ∃ s', Loops .fuel (readsegRound d endPa) (p, x, s) s' ∧
      s'.out = s.out ++ (sectorsFrom x n).flatMap commands ∧
      Mem.Within (Mem.Span p (512 * n)) s.mem s'.mem ∧
      (x.toNat + n ≤ 2 ^ 28 → ∀ a, Mem.Span p (512 * n) a →
        s'.mem.byte a = d.byte (512 * x.toNat + (a - p).toNat)) := by
  have hsect : sectSize = 512 := rfl
  induction n generalizing p x s with
  | zero =>
      have hend : ¬ p < endPa := by rw [BitVec.lt_def]; omega
      refine ⟨s, .leave ?_, by simp [sectorsFrom], .refl _ _, fun _ a ha => ?_⟩
      · simp only [readsegRound, if_neg hend]
        exact converges_ok _
      · exact absurd ha (Nat.not_lt_zero _)
  | succ n ih =>
      have hend : p < endPa := by rw [BitVec.lt_def]; omega
      have hnext : (p + BitVec.ofNat 32 sectSize).toNat = p.toNat + 512 := by
        rw [BitVec.toNat_add, BitVec.toNat_ofNat]
        omega
      obtain ⟨m, hm, hout, hwithin, hbyte⟩ := readsect_spec hd s p x
      obtain ⟨s', hs', hout', hwithin', hbyte'⟩ := ih (p + BitVec.ofNat 32 sectSize)
        (x + 1) m (by omega) (by omega)
      have hpage : sectSize < 2 ^ 32 := by decide
      have hpast := fun a => Mem.toNat_sub_add_ofNat a p hpage
      refine ⟨s', .next ?_ hs', ?_, ?_, fun hx a ha => ?_⟩
      · simp only [readsegRound, if_pos hend]
        exact hm.bind (converges_ok _)
      · rw [hout', hout, sectorsFrom_succ, List.flatMap_cons, List.append_assoc]
      · rw [Nat.mul_succ, Nat.add_comm]
        refine .trans (hwithin.mono fun b hb => ?_) (hwithin'.mono fun b hb => ?_)
        · exact Nat.lt_of_lt_of_le hb (Nat.le_add_right _ _)
        · exact Mem.span_of_span_add hpage hb
      have hsector : (x + 1).toNat = x.toNat + 1 := by
        rw [BitVec.toNat_add]
        change (x.toNat + 1) % 2 ^ 32 = _
        omega
      have ha' : (a - p).toNat < 512 * (n + 1) := ha
      by_cases hfirst : (a - p).toNat < 512
      · rw [hwithin'.frame a, hbyte (by omega) a hfirst]
        rw [Mem.Span, hpast, if_neg (by omega)]
        omega
      · rw [hbyte' (by omega) a, hpast, if_pos (by omega), hsector]
        · exact congrArg d.byte (by omega)
        · rw [Mem.Span, hpast, if_pos (by omega)]
          omega

/-- The whole sectors around the `count` bytes from `pa` on. -/
def Around (pa count : BitVec 32) (a : Addr) : Prop :=
  pa.toNat / sectSize * sectSize ≤ a.toNat ∧
    a.toNat < (pa.toNat + count.toNat + (sectSize - 1)) / sectSize * sectSize

theorem around_iff {pa count : BitVec 32} {a : Addr} :
    Around pa count a ↔ pa.toNat / 512 * 512 ≤ a.toNat ∧
      a.toNat < (pa.toNat + count.toNat + 511) / 512 * 512 :=
  Iff.rfl

/-- The sectors `readseg` asks for. -/
def segSectors (pa count offset : BitVec 32) : List (BitVec 32) :=
  sectorsFrom (offset / BitVec.ofNat 32 sectSize + 1)
    ((pa.toNat + count.toNat + (sectSize - 1)) / sectSize - pa.toNat / sectSize)

/-- Rounding down to a sector boundary. -/
theorem toNat_sector (pa : Addr) :
    (pa &&& ~~~(BitVec.ofNat 32 sectSize - 1)).toNat = pa.toNat / 512 * 512 := by
  have hmask : ∀ i < 32, (~~~(BitVec.ofNat 32 sectSize - 1)).getLsbD i = decide (9 ≤ i) := by
    decide
  have hshift : pa &&& ~~~(BitVec.ofNat 32 sectSize - 1) = pa >>> 9 <<< 9 := by
    refine BitVec.eq_of_getLsbD_eq fun i hi => ?_
    rw [BitVec.getLsbD_and, hmask i hi, BitVec.getLsbD_shiftLeft, BitVec.getLsbD_ushiftRight]
    by_cases h : 9 ≤ i
    · simp [h, hi, Nat.add_sub_cancel' h]
    · simp [h]
  rw [hshift, BitVec.toNat_shiftLeft, BitVec.toNat_ushiftRight, Nat.shiftLeft_eq,
    Nat.shiftRight_eq_div_pow]
  omega

/-- The number of the `j`-th sector asked for. -/
theorem toNat_sector_add (offset : BitVec 32) {j : ℕ} (hj : j < 2 ^ 31) :
    (offset / BitVec.ofNat 32 sectSize + 1 + BitVec.ofNat 32 j).toNat =
      offset.toNat / 512 + 1 + j := by
  have hoffset : (offset / BitVec.ofNat 32 sectSize).toNat = offset.toNat / 512 := by
    rw [BitVec.toNat_udiv]
    rfl
  rw [BitVec.toNat_add, BitVec.toNat_add, hoffset, BitVec.toNat_ofNat]
  change ((offset.toNat / 512 + 1) % 2 ^ 32 + j % 2 ^ 32) % 2 ^ 32 = _
  omega

/-- **`readseg`, whole sectors.** Every byte of the sectors around the segment is the disk's,
and nothing else is written. -/
theorem readseg_spec {d : Disk} (hd : d.Live) {pa count offset : BitVec 32}
    (halign : pa.toNat % 512 = offset.toNat % 512)
    (hend : pa.toNat + count.toNat ≤ 2 ^ 32 - 512) (s : Machine) :
    ∃ s', Converges s' (fun fuel => readseg fuel d pa count offset s) ∧
      s'.out = s.out ++ (segSectors pa count offset).flatMap commands ∧
      Mem.Within (Around pa count) s.mem s'.mem ∧
      ∀ a, Around pa count a →
        s'.mem.byte a = d.byte (512 + offset.toNat + a.toNat - pa.toNat) := by
  have hbase := toNat_sector pa
  have hendPa : (pa + count).toNat = pa.toNat + count.toNat := by
    rw [BitVec.toNat_add]
    omega
  have hsector := toNat_sector_add offset (j := 0) (by decide)
  rw [BitVec.add_zero] at hsector
  have hin : ∀ n : ℕ, n = (pa.toNat + count.toNat + 511) / 512 - pa.toNat / 512 → ∀ a,
      Mem.Span (pa &&& ~~~(BitVec.ofNat 32 sectSize - 1)) (512 * n) a ↔ Around pa count a := by
    intro n hn a
    have ha : a.toNat < 2 ^ 32 := a.isLt
    rw [Mem.Span, around_iff, BitVec.toNat_sub, hbase]
    omega
  obtain ⟨s', hs', hout, hwithin, hbyte⟩ := readsegRound_loops hd (pa + count)
    ((pa.toNat + count.toNat + 511) / 512 - pa.toNat / 512)
    (pa &&& ~~~(BitVec.ofNat 32 sectSize - 1)) (offset / BitVec.ofNat 32 sectSize + 1) s
    (by omega) (by omega)
  refine ⟨s', hs'.converges, hout, hwithin.mono fun a ha => (hin _ rfl a).mp ha, fun a ha => ?_⟩
  rw [hbyte (by omega) a ((hin _ rfl a).mpr ha), hsector, BitVec.toNat_sub, hbase]
  congr 1
  have ha' : a.toNat < 2 ^ 32 := a.isLt
  rw [around_iff] at ha
  omega

/-- **`readseg` copies the requested bytes.** It returns; every byte asked for is the disk's,
only whole sectors around them are written, and the registers of each command encode the
number of the sector meant. -/
theorem readseg_copies {d : Disk} (hd : d.Live) {pa count offset : BitVec 32}
    (halign : pa.toNat % 512 = offset.toNat % 512)
    (hend : pa.toNat + count.toNat ≤ 2 ^ 32 - 512) (s : Machine) :
    ∃ s', Converges s' (fun fuel => readseg fuel d pa count offset s) ∧
      (∀ i < count.toNat,
        s'.mem.byte (pa + BitVec.ofNat 32 i) = d.byte (512 + offset.toNat + i)) ∧
      Mem.Within (Around pa count) s.mem s'.mem ∧
      s'.out = s.out ++ (segSectors pa count offset).flatMap commands ∧
      ∀ (j : ℕ) (x : BitVec 32), (segSectors pa count offset)[j]? = some x →
        Encodes x (offset.toNat / 512 + 1 + j) := by
  obtain ⟨s', hs', hout, hwithin, hbyte⟩ := readseg_spec hd halign hend s
  refine ⟨s', hs', fun i hi => ?_, hwithin, hout, fun j x hx => ?_⟩
  · have haddr : (pa + BitVec.ofNat 32 i).toNat = pa.toNat + i := by
      rw [BitVec.toNat_add, BitVec.toNat_ofNat]
      omega
    rw [hbyte _ (around_iff.mpr (by omega)), haddr]
    congr 1
    omega
  · obtain ⟨hj, rfl⟩ := sectorsFrom_getElem? hx
    change j < (pa.toNat + count.toNat + 511) / 512 - pa.toNat / 512 at hj
    have hsector := toNat_sector_add offset (j := j) (by omega)
    rw [← hsector]
    exact encodes_toNat (by omega)

/-- A segment that starts and ends inside a sector. -/
theorem readseg_copies_unaligned :
    ∃ s', Converges s' (fun fuel => readseg fuel ⟨BitVec.ofNat 8, fun _ => 0x40⟩ 0x100003 0x300
        0x1003 ⟨⟨fun _ => 0, []⟩, ⟨0, 0, 0, 0, 0, 0, true, false, []⟩, []⟩) ∧
      s'.mem.byte 0x100005 = 5 := by
  have hd : Disk.Live ⟨BitVec.ofNat 8, fun _ => 0x40⟩ :=
    Disk.live_of_ready fun _ => (by decide : isReady 0x40)
  have halign : (0x100003 : BitVec 32).toNat % 512 = (0x1003 : BitVec 32).toNat % 512 := rfl
  have hend : (0x100003 : BitVec 32).toNat + (0x300 : BitVec 32).toNat ≤ 2 ^ 32 - 512 := by
    decide
  obtain ⟨s', hs', hbyte, -⟩ := readseg_copies hd halign hend
    ⟨⟨fun _ => 0, []⟩, ⟨0, 0, 0, 0, 0, 0, true, false, []⟩, []⟩
  exact ⟨s', hs', hbyte 2 (by decide)⟩

/-! ### The end of the loop -/

/-- `readseg` returns, having read at most one sector more than `count` bytes take up, and
having written nothing below `pa` rounded down to a sector. -/
def SegmentRead (d : Disk) (pa count offset : BitVec 32) (s : Machine) : Prop :=
  ∃ s' n, Converges s' (fun fuel => readseg fuel d pa count offset s) ∧
    s'.out = s.out ++ (sectorsFrom (offset / BitVec.ofNat 32 sectSize + 1) n).flatMap commands ∧
    n ≤ (count.toNat + (sectSize - 1)) / sectSize + 1 ∧
    Mem.Within (fun a => pa.toNat / sectSize * sectSize ≤ a.toNat) s.mem s'.mem

/-- A segment that ends below the last sector of the address space. -/
theorem segmentRead_of_le {d : Disk} (hd : d.Live) {pa count offset : BitVec 32}
    (hend : pa.toNat + count.toNat ≤ 2 ^ 32 - 512) (s : Machine) :
    SegmentRead d pa count offset s := by
  have hbase := toNat_sector pa
  have hendPa : (pa + count).toNat = pa.toNat + count.toNat := by
    rw [BitVec.toNat_add]
    omega
  obtain ⟨n, hn⟩ : ∃ n, n = (pa.toNat + count.toNat + 511) / 512 - pa.toNat / 512 := ⟨_, rfl⟩
  obtain ⟨s', hs', hout, hwithin, -⟩ := readsegRound_loops hd (pa + count) n
    (pa &&& ~~~(BitVec.ofNat 32 sectSize - 1)) (offset / BitVec.ofNat 32 sectSize + 1) s
    (by omega) (by omega)
  refine ⟨s', n, hs'.converges, hout, ?_, hwithin.mono fun a ha => ?_⟩
  · change n ≤ (count.toNat + 511) / 512 + 1
    omega
  · have ha' : a.toNat < 2 ^ 32 := a.isLt
    rw [Mem.Span, BitVec.toNat_sub, hbase] at ha
    change pa.toNat / 512 * 512 ≤ a.toNat
    omega

/-- **The address wraps.** For a segment that ends in the last sector of the address space,
there is no sector boundary from its end on, and `readseg` reads sectors for ever. -/
theorem readseg_wraps (d : Disk) {pa count : BitVec 32}
    (hlast : 2 ^ 32 - 512 < pa.toNat + count.toNat) (hsum : pa.toNat + count.toNat < 2 ^ 32)
    (offset : BitVec 32) (s : Machine) (fuel : ℕ) :
    readseg fuel d pa count offset s = .error .fuel := by
  have hendPa : (pa + count).toNat = pa.toNat + count.toNat := by
    rw [BitVec.toNat_add]
    omega
  have hbase := toNat_sector pa
  refine loop_stuck (I := fun t => t.1.toNat % 512 = 0) ?_ fuel
    (show (pa &&& ~~~(BitVec.ofNat 32 sectSize - 1)).toNat % 512 = 0 by omega)
  rintro ⟨p, x, m⟩ hp
  change p.toNat % 512 = 0 at hp
  have hbound : p.toNat < 2 ^ 32 := p.isLt
  have hlt : p < pa + count := by rw [BitVec.lt_def]; omega
  rw [readsegRound, if_pos hlt]
  cases readsect fuel d p x m with
  | error e => exact .inl rfl
  | ok m' =>
      refine .inr ⟨(p + BitVec.ofNat 32 sectSize, x + 1, m'), rfl, ?_⟩
      change (p + BitVec.ofNat 32 sectSize).toNat % 512 = 0
      rw [BitVec.toNat_add, BitVec.toNat_ofNat]
      change (p.toNat + 512 % 2 ^ 32) % 2 ^ 32 % 512 = 0
      omega

/-- **When `readseg` returns.** It does so if and only if the segment ends below the last
sector of the address space. -/
theorem segmentRead_iff {d : Disk} (hd : d.Live) {pa count : BitVec 32}
    (hsum : pa.toNat + count.toNat < 2 ^ 32) (offset : BitVec 32) (s : Machine) :
    SegmentRead d pa count offset s ↔ pa.toNat + count.toNat ≤ 2 ^ 32 - 512 := by
  refine ⟨fun hread => ?_, fun hend => segmentRead_of_le hd hend s⟩
  obtain ⟨s', n, hs', -⟩ := hread
  by_contra hlast
  exact not_converges (readseg_wraps d (Nat.lt_of_not_le hlast) hsum offset s) s' hs'

/-- A segment that ends where the last sector starts, on a disk that is always ready. -/
theorem segmentRead_iff_below :
    Disk.Live ⟨BitVec.ofNat 8, fun _ => 0x40⟩ ∧
      (SegmentRead ⟨BitVec.ofNat 8, fun _ => 0x40⟩ 0xFFFFFC00 0x200 0
        ⟨⟨fun _ => 0, []⟩, ⟨0, 0, 0, 0, 0, 0, true, false, []⟩, []⟩ ↔
          0xFFFFFC00 + 0x200 ≤ 2 ^ 32 - 512) := by
  have hd : Disk.Live ⟨BitVec.ofNat 8, fun _ => 0x40⟩ :=
    Disk.live_of_ready fun _ => (by decide : isReady 0x40)
  exact ⟨hd, segmentRead_iff hd (by decide) 0 _⟩

/-- **`readseg` does not always return.** Not for 256 bytes at the start of the last sector of
the address space, on a disk that is always ready. -/
theorem not_segmentRead_last :
    ¬ ∀ (d : Disk) (pa count offset : BitVec 32) (s : Machine), d.Live →
      pa.toNat + count.toNat < 2 ^ 32 → SegmentRead d pa count offset s := by
  intro hall
  have hd : Disk.Live ⟨BitVec.ofNat 8, fun _ => 0x40⟩ :=
    Disk.live_of_ready fun _ => (by decide : isReady 0x40)
  obtain ⟨s', n, hs', -⟩ := hall _ 0xFFFFFE00 0x100 0
    ⟨⟨fun _ => 0, []⟩, ⟨0, 0, 0, 0, 0, 0, true, false, []⟩, []⟩ hd (by decide)
  exact not_converges (readseg_wraps _ (by decide) (by decide) 0 _) s' hs'

end Jos
