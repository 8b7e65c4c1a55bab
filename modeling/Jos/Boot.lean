import Jos.Disk

/-!
# The Boot Loader

`bootmain` of `boot/main.c`: the first page of the kernel image is read to a scratch page,
and from the program headers in it the segments are loaded one after the other. `readseg`
copies whole sectors, "but it doesn't matter -- we load in increasing order": it does where
two segments share a sector of memory, since the bytes the later one brings in front of its
own lie over the last ones of the earlier.

## Main results

* `bootmain_spec`: the memory when `bootmain` jumps to the kernel, as the loads one after
  the other leave it.
* `foldl_place`: **the last load counts**, for every byte.
* `bootmain_loaded_iff`: when every segment is loaded.
-/

namespace Jos

/-! ### The headers -/

/-- `struct Elf`, as far as `bootmain` reads it. -/
structure Elf where
  magic : BitVec 32
  entry : BitVec 32
  phoff : BitVec 32
  phnum : BitVec 16
deriving DecidableEq

/-- `struct Proghdr`, as far as it says what is loaded. -/
structure Proghdr where
  offset : BitVec 32
  pa : BitVec 32
  filesz : BitVec 32
  memsz : BitVec 32
deriving DecidableEq

/-- The ELF header at an address. -/
def Mem.elf (m : Mem) (a : Addr) : Elf where
  magic := m.load32 a
  entry := m.load32 (a + 24)
  phoff := m.load32 (a + 28)
  phnum := m.load16 (a + 44)

/-- The program header at an address. -/
def Mem.proghdr (m : Mem) (a : Addr) : Proghdr where
  offset := m.load32 (a + 4)
  pa := m.load32 (a + 12)
  filesz := m.load32 (a + 16)
  memsz := m.load32 (a + 20)

/-! ### `bootmain` -/

/-- `ELF_MAGIC`. -/
def elfMagic : BitVec 32 := 0x464C457F

/-- `ELFHDR`: scratch space. -/
abbrev elfHdr : Addr := 0x10000

/-- `sizeof(struct Proghdr)`. -/
abbrev sizeofProghdr : ℕ := 32

/-- `outw`. -/
def Machine.outw (port : BitVec 32) (data : BitVec 16) (s : Machine) : Machine :=
  { s with out := s.out ++ [.outw port data] }

/-- How `bootmain` ends: in a jump to the kernel, or in a loop that does nothing. -/
inductive Boot
  | entry (eip : Addr) (s : Machine)
  | bad (s : Machine)

/-- A round of the loop of `bootmain`, on `ph` and the machine. -/
def segRound (d : Disk) (eph : Addr) (fuel : ℕ) (s : Addr × Machine) :
    Except Hang (Round (Addr × Machine) Machine) :=
  if s.1 < eph then do
    let ph := s.2.mem.proghdr s.1
    let m ← readseg fuel d ph.pa ph.memsz ph.offset s.2
    pure (.next (s.1 + BitVec.ofNat 32 sizeofProghdr, m))
  else .ok (.leave s.2)

/-- `bootmain`. -/
def bootmain (fuel : ℕ) (d : Disk) (s : Machine) : Except Hang Boot := do
  -- read 1st page off disk
  let s ← readseg fuel d elfHdr (BitVec.ofNat 32 (sectSize * 8)) 0 s
  -- is this a valid ELF?
  if (s.mem.elf elfHdr).magic ≠ elfMagic then
    pure (.bad ((s.outw 0x8A00 0x8A00).outw 0x8A00 0x8E00))
  else do
    -- load each program segment (ignores ph flags)
    let ph := elfHdr + (s.mem.elf elfHdr).phoff
    let eph := ph + BitVec.ofNat 32 (sizeofProghdr * (s.mem.elf elfHdr).phnum.toNat)
    let s ← loop .fuel (segRound d eph fuel) fuel (ph, s)
    -- call the entry point from the ELF header
    pure (.entry (s.mem.elf elfHdr).entry s)

/-! ### The kernel image -/

/-- The kernel image, as a memory of its own: the disk from its second sector on. -/
def Disk.image (d : Disk) : Mem where
  byte a := d.byte (sectSize + a.toNat)
  stores := []

/-- The image's ELF header. -/
def Disk.elf (d : Disk) : Elf :=
  d.image.elf 0

/-- The image's program headers. -/
def Disk.segments (d : Disk) : List Proghdr :=
  (List.range d.elf.phnum.toNat).map fun k =>
    d.image.proghdr (BitVec.ofNat 32 (d.elf.phoff.toNat + sizeofProghdr * k))

/-- What a segment has for an address in or around it. -/
def Proghdr.content (d : Disk) (seg : Proghdr) (a : Addr) : Byte :=
  d.byte (sectSize + seg.offset.toNat + a.toNat - seg.pa.toNat)

/-- The segment's sectors, as `readseg` loads them, cover the address. -/
def Proghdr.Covers (seg : Proghdr) (a : Addr) : Prop :=
  Around seg.pa seg.memsz a

instance (seg : Proghdr) (a : Addr) : Decidable (seg.Covers a) :=
  inferInstanceAs (Decidable (_ ∧ _))

/-- An image that can be booted: its headers are on its first page, every segment lies in
memory as it does in the image, up to whole sectors, the segments are in increasing order
without overlap, and none is loaded over the scratch page or around the address space. -/
structure Disk.Bootable (d : Disk) : Prop where
  magic : d.elf.magic = elfMagic
  phdrs : d.elf.phoff.toNat + sizeofProghdr * d.elf.phnum.toNat ≤ 4096
  filesz : ∀ seg ∈ d.segments, seg.filesz.toNat ≤ seg.memsz.toNat
  aligned : ∀ seg ∈ d.segments, seg.pa.toNat % 512 = seg.offset.toNat % 512
  ascending : d.segments.Pairwise fun a b => a.pa.toNat + a.memsz.toNat ≤ b.pa.toNat
  scratch : ∀ seg ∈ d.segments, ∀ a, seg.Covers a → ¬ Mem.Span elfHdr 4096 a
  inside : ∀ seg ∈ d.segments, seg.pa.toNat + seg.memsz.toNat ≤ 2 ^ 32 - 512

/-! ### The scratch page -/

/-- Two memories hold the same `n` bytes, the one from `a` on and the other from `b` on. -/
def Alike (n : ℕ) (m m' : Mem) (a b : Addr) : Prop :=
  ∀ i < n, m.byte (a + BitVec.ofNat 32 i) = m'.byte (b + BitVec.ofNat 32 i)

/-- Bytes further on. -/
theorem Alike.add {n : ℕ} {m m' : Mem} {a b : Addr} (h : Alike n m m' a b) {k j : ℕ}
    (hkj : k + j ≤ n) : Alike j m m' (a + BitVec.ofNat 32 k) (b + BitVec.ofNat 32 k) := by
  intro i hi
  rw [add_assoc, add_assoc, ← BitVec.ofNat_add]
  exact h (k + i) (by omega)

theorem Alike.load16 {m m' : Mem} {a b : Addr} (h : Alike 2 m m' a b) :
    m.load16 a = m'.load16 b := by
  have h₀ := h 0 (by decide)
  have h₁ : m.byte (a + 1) = m'.byte (b + 1) := h 1 (by decide)
  rw [BitVec.add_zero, BitVec.add_zero] at h₀
  rw [Mem.load16, Mem.load16, h₀, h₁]

theorem Alike.load32 {m m' : Mem} {a b : Addr} (h : Alike 4 m m' a b) :
    m.load32 a = m'.load32 b :=
  Mem.load32_congr h

/-- The same bytes are the same ELF header. -/
theorem Alike.elf {m m' : Mem} {a b : Addr} (h : Alike 52 m m' a b) : m.elf a = m'.elf b := by
  have hmagic := (h.add (k := 0) (j := 4) (by decide)).load32
  have hentry := (h.add (k := 24) (j := 4) (by decide)).load32
  have hphoff := (h.add (k := 28) (j := 4) (by decide)).load32
  have hphnum := (h.add (k := 44) (j := 2) (by decide)).load16
  rw [BitVec.add_zero, BitVec.add_zero] at hmagic
  exact Elf.mk.injEq .. ▸ ⟨hmagic, hentry, hphoff, hphnum⟩

/-- The same bytes are the same program header. -/
theorem Alike.proghdr {m m' : Mem} {a b : Addr} (h : Alike 32 m m' a b) :
    m.proghdr a = m'.proghdr b := by
  have hoffset := (h.add (k := 4) (j := 4) (by decide)).load32
  have hpa := (h.add (k := 12) (j := 4) (by decide)).load32
  have hfilesz := (h.add (k := 16) (j := 4) (by decide)).load32
  have hmemsz := (h.add (k := 20) (j := 4) (by decide)).load32
  exact Proghdr.mk.injEq .. ▸ ⟨hoffset, hpa, hfilesz, hmemsz⟩

/-- The scratch page holds the image's first page. -/
def Paged (d : Disk) (m : Mem) : Prop :=
  Alike 4096 m d.image elfHdr 0

/-- Loads off the scratch page leave it alone. -/
theorem Paged.within {d : Disk} {m m' : Mem} {P : Addr → Prop} (h : Paged d m)
    (hm : Mem.Within P m m') (hP : ∀ a, P a → ¬ Mem.Span elfHdr 4096 a) : Paged d m' := by
  intro i hi
  rw [hm.frame, h i hi]
  intro ha
  refine hP _ ha ?_
  rw [Mem.Span, add_sub_cancel_left, BitVec.toNat_ofNat]
  omega

/-- An address on the scratch page. -/
theorem toNat_scratch {n : ℕ} (hn : n ≤ 4096) :
    (elfHdr + BitVec.ofNat 32 n).toNat = 0x10000 + n := by
  rw [BitVec.toNat_add, BitVec.toNat_ofNat]
  change (0x10000 + n % 2 ^ 32) % 2 ^ 32 = _
  omega

/-- **The first page** comes to the scratch page, and the rest of the memory stays. -/
theorem readPage {d : Disk} (hd : d.Live) (s : Machine) :
    ∃ s', Converges s' (fun fuel => readseg fuel d elfHdr (BitVec.ofNat 32 (sectSize * 8)) 0 s) ∧
      Paged d s'.mem ∧ ∀ a, ¬ Mem.Span elfHdr 4096 a → s'.mem.byte a = s.mem.byte a := by
  have halign : elfHdr.toNat % 512 = (0 : BitVec 32).toNat % 512 := rfl
  have hend : elfHdr.toNat + (BitVec.ofNat 32 (sectSize * 8)).toNat ≤ 2 ^ 32 - 512 := by decide
  obtain ⟨s', hs', -, hwithin, hbyte⟩ := readseg_spec hd halign hend s
  have hsize : (BitVec.ofNat 32 (sectSize * 8)).toNat = 4096 := rfl
  have hpage : elfHdr.toNat = 0x10000 := rfl
  refine ⟨s', hs', fun i hi => ?_, fun a ha => hwithin.frame a fun haround => ha ?_⟩
  · have haddr := toNat_scratch (Nat.le_of_lt hi)
    rw [hbyte _ (around_iff.mpr (by omega)), Disk.image]
    refine congrArg d.byte ?_
    rw [haddr, zero_add, BitVec.toNat_ofNat]
    change 512 + 0 + (0x10000 + i) - 0x10000 = 512 + i % 2 ^ 32
    omega
  · have hsectors := around_iff.mp haround
    rw [Mem.Span, BitVec.toNat_sub]
    omega

/-! ### The loads -/

/-- The memory after a load. -/
def place (d : Disk) (f : Addr → Byte) (seg : Proghdr) (a : Addr) : Byte :=
  if seg.Covers a then seg.content d a else f a

/-- **The last load counts.** -/
theorem foldl_place (d : Disk) (segs : List Proghdr) (f : Addr → Byte) (a : Addr) :
    segs.foldl (place d) f a =
      ((segs.filter (·.Covers a)).getLast?).elim (f a) fun seg => seg.content d a := by
  induction segs using List.reverseRecOn with
  | nil => rfl
  | append_singleton segs seg ih =>
      rw [List.foldl_append, List.foldl_cons, List.foldl_nil, place, List.filter_append]
      by_cases h : seg.Covers a
      · rw [if_pos h, List.filter_cons_of_pos (by simpa using h), List.filter_nil,
          List.getLast?_concat]
        rfl
      · rw [if_neg h, List.filter_cons_of_neg (by simpa using h), List.filter_nil,
          List.append_nil, ih]

/-- A load of the machine's is a load of the memory's. -/
theorem readseg_place {d : Disk} (hd : d.Live) {seg : Proghdr}
    (halign : seg.pa.toNat % 512 = seg.offset.toNat % 512)
    (hend : seg.pa.toNat + seg.memsz.toNat ≤ 2 ^ 32 - 512) (s : Machine) :
    ∃ s', Converges s' (fun fuel => readseg fuel d seg.pa seg.memsz seg.offset s) ∧
      Mem.Within seg.Covers s.mem s'.mem ∧ s'.mem.byte = place d s.mem.byte seg := by
  obtain ⟨s', hs', -, hwithin, hbyte⟩ := readseg_spec hd halign hend s
  refine ⟨s', hs', hwithin, funext fun a => ?_⟩
  by_cases ha : seg.Covers a
  · rw [place, if_pos ha]
    exact hbyte a ha
  · rw [place, if_neg ha]
    exact hwithin.frame a ha

/-- **The loop of `bootmain`.** From the `k`-th program header on, the segments are loaded one
after the other, and the scratch page stays. Induction on the number of headers left. -/
theorem segRound_loops {d : Disk} (hd : d.Live) (hb : d.Bootable) (n k : ℕ)
    (hk : k + n = d.elf.phnum.toNat) (s : Machine) (hs : Paged d s.mem) :
    ∃ s', Loops .fuel (segRound d (elfHdr +
          BitVec.ofNat 32 (d.elf.phoff.toNat + sizeofProghdr * d.elf.phnum.toNat)))
        (elfHdr + BitVec.ofNat 32 (d.elf.phoff.toNat + sizeofProghdr * k), s) s' ∧
      Paged d s'.mem ∧
      s'.mem.byte = (d.segments.drop k).foldl (place d) s.mem.byte := by
  have hphdrs : d.elf.phoff.toNat + 32 * d.elf.phnum.toNat ≤ 4096 := hb.phdrs
  have hlen : d.segments.length = d.elf.phnum.toNat := by
    rw [Disk.segments, List.length_map, List.length_range]
  have heph := toNat_scratch hphdrs
  induction n generalizing k s with
  | zero =>
      refine ⟨s, .leave ?_, hs, ?_⟩
      · have hend : ¬ elfHdr + BitVec.ofNat 32 (d.elf.phoff.toNat + sizeofProghdr * k) <
            elfHdr + BitVec.ofNat 32 (d.elf.phoff.toNat + sizeofProghdr * d.elf.phnum.toNat) := by
          rw [← hk]
          exact BitVec.lt_irrefl _
        simp only [segRound, if_neg hend]
        exact converges_ok _
      · rw [List.drop_of_length_le (by omega), List.foldl_nil]
  | succ n ih =>
      have hin : d.elf.phoff.toNat + 32 * k + 32 ≤ 4096 := by omega
      have hlt : k < d.segments.length := by omega
      have hph := toNat_scratch (n := d.elf.phoff.toNat + 32 * k) (by omega)
      have hend : elfHdr + BitVec.ofNat 32 (d.elf.phoff.toNat + sizeofProghdr * k) <
          elfHdr + BitVec.ofNat 32 (d.elf.phoff.toNat + sizeofProghdr * d.elf.phnum.toNat) := by
        rw [BitVec.lt_def, heph, hph]
        omega
      have hnext : elfHdr + BitVec.ofNat 32 (d.elf.phoff.toNat + sizeofProghdr * k) +
          BitVec.ofNat 32 sizeofProghdr =
            elfHdr + BitVec.ofNat 32 (d.elf.phoff.toNat + sizeofProghdr * (k + 1)) := by
        rw [add_assoc, ← BitVec.ofNat_add, add_assoc, ← Nat.mul_succ]
      have hseg : s.mem.proghdr
          (elfHdr + BitVec.ofNat 32 (d.elf.phoff.toNat + sizeofProghdr * k)) =
            d.segments[k] := by
        have hhdr := (hs.add (k := d.elf.phoff.toNat + sizeofProghdr * k) (j := 32)
          hin).proghdr
        rw [hhdr, zero_add]
        simp [Disk.segments]
      have hmem := List.getElem_mem hlt
      obtain ⟨m, hm, hwithin, hbyte⟩ :=
        readseg_place hd (hb.aligned _ hmem) (hb.inside _ hmem) s
      obtain ⟨s', hs', hpage, hbytes⟩ := ih (k + 1) (by omega) m
        (hs.within hwithin (hb.scratch _ hmem))
      refine ⟨s', .next ?_ hs', hpage, ?_⟩
      · simp only [segRound, if_pos hend, hseg, hnext]
        exact hm.bind (converges_ok _)
      · rw [hbytes, hbyte, List.drop_eq_getElem_cons hlt, List.foldl_cons]

/-- **`bootmain` on an image that can be booted.** It jumps to the kernel's entry point, and
memory is as the loads leave it, one after the other, and as before where there are none. -/
theorem bootmain_spec {d : Disk} (hd : d.Live) (hb : d.Bootable) (s : Machine) :
    ∃ s' f, Converges (.entry d.elf.entry s') (fun fuel => bootmain fuel d s) ∧
      s'.mem.byte = d.segments.foldl (place d) f ∧
      ∀ a, ¬ Mem.Span elfHdr 4096 a → f a = s.mem.byte a := by
  obtain ⟨m, hm, hpage, hframe⟩ := readPage hd s
  have helf : ∀ {m : Mem}, Paged d m → m.elf elfHdr = d.elf := fun h => by
    have hhead := (h.add (k := 0) (j := 52) (by decide)).elf
    rwa [BitVec.add_zero, BitVec.add_zero] at hhead
  obtain ⟨s', hs', hpage', hbyte⟩ :=
    segRound_loops hd hb d.elf.phnum.toNat 0 (Nat.zero_add _) m hpage
  refine ⟨s', m.mem.byte, hm.bind ?_, hbyte, hframe⟩
  have hphoff : elfHdr + d.elf.phoff =
      elfHdr + BitVec.ofNat 32 (d.elf.phoff.toNat + sizeofProghdr * 0) := by
    rw [Nat.mul_zero, Nat.add_zero, BitVec.ofNat_toNat, BitVec.setWidth_eq]
  have heph : elfHdr + BitVec.ofNat 32 (d.elf.phoff.toNat + sizeofProghdr * 0) +
      BitVec.ofNat 32 (sizeofProghdr * d.elf.phnum.toNat) =
        elfHdr + BitVec.ofNat 32 (d.elf.phoff.toNat + sizeofProghdr * d.elf.phnum.toNat) := by
    rw [Nat.mul_zero, Nat.add_zero, add_assoc, ← BitVec.ofNat_add]
  simp only [helf hpage, hb.magic, ne_eq, not_true_eq_false, if_false, hphoff, heph]
  refine hs'.converges.bind ?_
  simp only [helf hpage']
  exact converges_ok _

/-! ### When every segment is loaded -/

/-- Every segment's bytes of the image are where they are to be. -/
def Loaded (d : Disk) (m : Mem) : Prop :=
  ∀ seg ∈ d.segments, ∀ i < seg.filesz.toNat,
    m.byte (seg.pa + BitVec.ofNat 32 i) = d.byte (sectSize + seg.offset.toNat + i)

/-- Where sectors loaded for later segments lie over a segment's bytes of the image, the last
of them hold the same bytes. -/
def Disk.Intact (d : Disk) : Prop :=
  ∀ pre seg post, d.segments = pre ++ seg :: post → ∀ i < seg.filesz.toNat,
    ∀ last, (post.filter (·.Covers (seg.pa + BitVec.ofNat 32 i))).getLast? = some last →
      last.content d (seg.pa + BitVec.ofNat 32 i) = d.byte (sectSize + seg.offset.toNat + i)

/-- A segment's own bytes. -/
theorem covers_own {d : Disk} (hb : d.Bootable) {seg : Proghdr} (hseg : seg ∈ d.segments) {i : ℕ}
    (hi : i < seg.filesz.toNat) :
    seg.Covers (seg.pa + BitVec.ofNat 32 i) ∧
      seg.content d (seg.pa + BitVec.ofNat 32 i) = d.byte (sectSize + seg.offset.toNat + i) := by
  have hfile := hb.filesz seg hseg
  have hinside := hb.inside seg hseg
  have haddr : (seg.pa + BitVec.ofNat 32 i).toNat = seg.pa.toNat + i := by
    rw [BitVec.toNat_add, BitVec.toNat_ofNat]
    omega
  refine ⟨around_iff.mpr (by omega), ?_⟩
  rw [Proghdr.content, haddr]
  exact congrArg d.byte (by omega)

/-- **When every segment is loaded.** `bootmain` jumps to the kernel; then every segment is in
place if and only if no later segment's sectors have spoiled it. -/
theorem bootmain_loaded_iff {d : Disk} (hd : d.Live) (hb : d.Bootable) (s : Machine) :
    ∃ s', Converges (.entry d.elf.entry s') (fun fuel => bootmain fuel d s) ∧
      (Loaded d s'.mem ↔ d.Intact) := by
  obtain ⟨s', f, hs', hbyte, -⟩ := bootmain_spec hd hb s
  have hlast : ∀ pre seg post, d.segments = pre ++ seg :: post → ∀ i < seg.filesz.toNat,
      s'.mem.byte (seg.pa + BitVec.ofNat 32 i) =
        ((post.filter (·.Covers (seg.pa + BitVec.ofNat 32 i))).getLast?).elim
          (d.byte (sectSize + seg.offset.toNat + i))
          fun last => last.content d (seg.pa + BitVec.ofNat 32 i) := by
    intro pre seg post hsplit i hi
    have hseg : seg ∈ d.segments := by rw [hsplit]; simp
    obtain ⟨hcovers, hcontent⟩ := covers_own hb hseg hi
    rw [hbyte, hsplit, List.foldl_append, List.foldl_cons, foldl_place, place, if_pos hcovers,
      hcontent]
  refine ⟨s', hs', fun hloaded => ?_, fun hintact => ?_⟩
  · intro pre seg post hsplit i hi last hcase
    have hbyte := hlast pre seg post hsplit i hi
    rw [hcase, hloaded seg (by rw [hsplit]; simp) i hi] at hbyte
    exact hbyte.symm
  · intro seg hseg i hi
    obtain ⟨pre, post, hsplit⟩ := List.append_of_mem hseg
    rw [hlast pre seg post hsplit i hi]
    cases hcase : (post.filter (·.Covers (seg.pa + BitVec.ofNat 32 i))).getLast? with
    | none => rfl
    | some last => exact hintact pre seg post hsplit i hi last hcase

/-- Segments that share no sector of memory are all loaded. -/
theorem intact_of_apart {d : Disk} (hb : d.Bootable)
    (hapart : d.segments.Pairwise fun seg later => ∀ a, seg.Covers a → ¬ later.Covers a) :
    d.Intact := by
  intro pre seg post hsplit i hi last hlast
  have hseg : seg ∈ d.segments := by rw [hsplit]; simp
  obtain ⟨hmem, hlater⟩ := List.mem_filter.mp (List.mem_of_getLast? hlast)
  rw [hsplit, List.pairwise_append, List.pairwise_cons] at hapart
  exact absurd (by simpa using hlater) (hapart.2.1.1 last hmem _ (covers_own hb hseg hi).1)

/-! ### Two segments in one sector -/

/-- The bytes of a 32-bit cell, low byte first. -/
def bytes32 (v : BitVec 32) : List Byte :=
  [v.setWidth 8, (v >>> 8).setWidth 8, (v >>> 16).setWidth 8, (v >>> 24).setWidth 8]

/-- The first bytes of an image of two segments of one byte each, the second right behind the
first. -/
def adjoiningHeaders : List Byte :=
  bytes32 elfMagic ++ List.replicate 20 0 ++ bytes32 0x100000 ++ bytes32 52 ++
    List.replicate 12 0 ++ [2, 0] ++ List.replicate 6 0 ++
    (bytes32 1 ++ bytes32 0x1000 ++ bytes32 0x100000 ++ bytes32 0x100000 ++ bytes32 1 ++
      bytes32 1 ++ bytes32 5 ++ bytes32 0x1000) ++
    (bytes32 1 ++ bytes32 0x1201 ++ bytes32 0x100001 ++ bytes32 0x100001 ++ bytes32 1 ++
      bytes32 1 ++ bytes32 6 ++ bytes32 0x1000)

/-- A disk with that image, and the byte 0xC3 for the first segment. -/
def adjoiningDisk : Disk where
  byte n := if n = 512 + 0x1000 then 0xC3 else (adjoiningHeaders).getD (n - 512) 0
  status _ := 0x40

theorem segments_adjoiningDisk : adjoiningDisk.segments =
    [⟨0x1000, 0x100000, 1, 1⟩, ⟨0x1201, 0x100001, 1, 1⟩] := by
  decide

theorem bootable_adjoiningDisk : adjoiningDisk.Bootable where
  magic := by decide
  phdrs := by decide
  filesz := by rw [segments_adjoiningDisk]; simp
  aligned := by rw [segments_adjoiningDisk]; simp
  ascending := by rw [segments_adjoiningDisk]; simp
  scratch := by
    rw [segments_adjoiningDisk]
    intro seg hseg a hcovers hscratch
    have hpa : 0x100000 ≤ seg.pa.toNat := by
      rcases List.mem_pair.mp hseg with rfl | rfl <;> decide
    have hsectors := (around_iff.mp hcovers).1
    rw [Mem.Span, BitVec.toNat_sub] at hscratch
    change (2 ^ 32 - 0x10000 + a.toNat) % 2 ^ 32 < 4096 at hscratch
    omega
  inside := by rw [segments_adjoiningDisk]; simp

/-- The claim that increasing order is enough, refuted: the first segment's byte is lost to
the sector of the second. -/
theorem not_loaded : ¬ ∀ d : Disk, d.Live → d.Bootable → ∀ (s : Machine) eip s',
    Converges (.entry eip s') (fun fuel => bootmain fuel d s) → Loaded d s'.mem := by
  intro h
  have hlive : adjoiningDisk.Live := fun n => ⟨n, Nat.le_refl n, (by decide : isReady 0x40)⟩
  obtain ⟨s', f, hs', hbyte, -⟩ := bootmain_spec hlive bootable_adjoiningDisk
    ⟨⟨fun _ => 0, []⟩, ⟨0, 0, 0, 0, 0, 0, true, false, []⟩, []⟩
  have hloaded := h _ hlive bootable_adjoiningDisk _ _ s' hs'
  rw [Loaded, segments_adjoiningDisk] at hloaded
  have hfirst := hloaded _ List.mem_cons_self 0 (by decide)
  have hlast : (List.filter (·.Covers (0x100000 + BitVec.ofNat 32 0))
      adjoiningDisk.segments).getLast? = some ⟨0x1201, 0x100001, 1, 1⟩ := by
    rw [segments_adjoiningDisk]
    decide
  rw [hbyte, foldl_place, hlast, Option.elim_some] at hfirst
  exact absurd hfirst (by decide)

/-- The two segments that adjoin. -/
theorem bootmain_loaded_iff_adjoining : ∃ s',
    Converges (.entry 0x100000 s') (fun fuel => bootmain fuel adjoiningDisk
      ⟨⟨fun _ => 0, []⟩, ⟨0, 0, 0, 0, 0, 0, true, false, []⟩, []⟩) ∧
      (Loaded adjoiningDisk s'.mem ↔ adjoiningDisk.Intact) :=
  bootmain_loaded_iff (fun n => ⟨n, Nat.le_refl n, (by decide : isReady 0x40)⟩)
    bootable_adjoiningDisk _

end Jos
