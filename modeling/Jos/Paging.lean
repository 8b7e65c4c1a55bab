import Jos.Console
import Mathlib.Logic.Relation

/-!
# The First Page Table

`inc/mmu.h` on linear addresses, the page table of `kern/entrypgdir.c`, and the translation
of the processor with it. The rest of the model has the memory as the kernel sees it, at its
link addresses; here is why it may (`paged_run`).

The processor marks the entries that it uses as accessed and dirty. Entries are therefore
compared without these two bits, and a translation may set them (`Mmu`).

## Main results

* `pgaddr_parts`, `parts_pgaddr`: an address is its indices and its offset.
* `translate_window`, `entryPgdir_maps`: what the page table maps, and for which accesses.
* `paged_run`: accesses to the kernel, in any order, are accesses to a flat memory.
* `entry_switches`: the switch to paging comes to `relocated`.
-/

namespace Jos

/-! ### Linear addresses -/

abbrev ptxShift : ℕ := 12

abbrev pdxShift : ℕ := 22

/-- `PDX`. -/
def pdx (la : Addr) : BitVec 32 :=
  la >>> pdxShift &&& 0x3FF

/-- `PTX`. -/
def ptx (la : Addr) : BitVec 32 :=
  la >>> ptxShift &&& 0x3FF

/-- `PGOFF`. -/
def pgoff (la : Addr) : BitVec 32 :=
  la &&& 0xFFF

/-- `PGADDR`. -/
def pgaddr (d t o : BitVec 32) : Addr :=
  d <<< pdxShift ||| t <<< ptxShift ||| o

/-- The bits of an entry. -/
abbrev pteP : BitVec 32 := 0x001
abbrev pteW : BitVec 32 := 0x002
abbrev pteA : BitVec 32 := 0x020
abbrev pteD : BitVec 32 := 0x040

/-- `PTE_ADDR`. -/
def pteAddr (pte : BitVec 32) : Addr :=
  pte &&& ~~~0xFFF

/-- `CR0_PE`, `CR0_WP` and `CR0_PG`. -/
abbrev cr0PE : BitVec 32 := 0x00000001
abbrev cr0WP : BitVec 32 := 0x00010000
abbrev cr0PG : BitVec 32 := 0x80000000

/-- The index into the page directory. -/
theorem toNat_pdx (la : Addr) : (pdx la).toNat = la.toNat / 2 ^ 22 := by
  have hand := Nat.and_two_pow_sub_one_eq_mod (la.toNat >>> 22) 10
  rw [pdx, BitVec.toNat_and, BitVec.toNat_ushiftRight]
  refine hand.trans ?_
  rw [Nat.shiftRight_eq_div_pow]
  omega

/-- The index into the page table. -/
theorem toNat_ptx (la : Addr) : (ptx la).toNat = la.toNat / 2 ^ 12 % 2 ^ 10 := by
  have hand := Nat.and_two_pow_sub_one_eq_mod (la.toNat >>> 12) 10
  rw [ptx, BitVec.toNat_and, BitVec.toNat_ushiftRight]
  refine hand.trans ?_
  rw [Nat.shiftRight_eq_div_pow]

/-- The offset in the page. -/
theorem toNat_pgoff (la : Addr) : (pgoff la).toNat = la.toNat % 2 ^ 12 :=
  (BitVec.toNat_and la 0xFFF).trans (Nat.and_two_pow_sub_one_eq_mod la.toNat 12)

/-- The parts of an address do not overlap. -/
theorem toNat_pgaddr {d t o : BitVec 32} (hd : d.toNat < 2 ^ 10) (ht : t.toNat < 2 ^ 10)
    (ho : o.toNat < 2 ^ 12) :
    (pgaddr d t o).toNat = d.toNat * 2 ^ 22 + t.toNat * 2 ^ 12 + o.toNat := by
  have hshift : ∀ (v : BitVec 32) (k : ℕ), v.toNat * 2 ^ k < 2 ^ 32 →
      (v <<< k).toNat = v.toNat * 2 ^ k := by
    intro v k hk
    rw [BitVec.toNat_shiftLeft, Nat.shiftLeft_eq, Nat.mod_eq_of_lt hk]
  have hlow : t.toNat * 2 ^ 12 ||| o.toNat = t.toNat * 2 ^ 12 + o.toNat := by
    rw [← Nat.shiftLeft_eq, Nat.shiftLeft_add_eq_or_of_lt ho]
  have hhigh : d.toNat * 2 ^ 22 ||| (t.toNat * 2 ^ 12 + o.toNat) =
      d.toNat * 2 ^ 22 + (t.toNat * 2 ^ 12 + o.toNat) := by
    rw [← Nat.shiftLeft_eq d.toNat, Nat.shiftLeft_add_eq_or_of_lt (by omega)]
  rw [pgaddr, BitVec.or_assoc, BitVec.toNat_or, BitVec.toNat_or, hshift d 22 (by omega),
    hshift t 12 (by omega), hlow, hhigh, Nat.add_assoc]

/-- **Taken apart and put together**, an address is what it was. -/
theorem pgaddr_parts (la : Addr) : pgaddr (pdx la) (ptx la) (pgoff la) = la := by
  have hd := toNat_pdx la
  have ht := toNat_ptx la
  have ho := toNat_pgoff la
  have hlt := la.isLt
  refine BitVec.eq_of_toNat_eq ?_
  rw [toNat_pgaddr (by omega) (by omega) (by omega)]
  omega

/-- **Put together and taken apart**, so are the indices and the offset. -/
theorem parts_pgaddr {d t o : BitVec 32} (hd : d.toNat < 2 ^ 10) (ht : t.toNat < 2 ^ 10)
    (ho : o.toNat < 2 ^ 12) :
    pdx (pgaddr d t o) = d ∧ ptx (pgaddr d t o) = t ∧ pgoff (pgaddr d t o) = o := by
  have hsum := toNat_pgaddr hd ht ho
  refine ⟨BitVec.eq_of_toNat_eq ?_, BitVec.eq_of_toNat_eq ?_, BitVec.eq_of_toNat_eq ?_⟩
  · rw [toNat_pdx, hsum]
    omega
  · rw [toNat_ptx, hsum]
    omega
  · rw [toNat_pgoff, hsum]
    omega

/-- `PTE_ADDR` takes the offset away. -/
theorem toNat_pteAddr (pte : BitVec 32) : (pteAddr pte).toNat = pte.toNat / 2 ^ 12 * 2 ^ 12 := by
  have hbits : pteAddr pte = pte >>> 12 <<< 12 := by
    refine BitVec.eq_of_getLsbD_eq fun i hi => ?_
    have hmask : (~~~(0xFFF : BitVec 32)).getLsbD i = decide (12 ≤ i) := by
      revert i
      decide
    rw [pteAddr, BitVec.getLsbD_and, hmask, BitVec.getLsbD_shiftLeft, BitVec.getLsbD_ushiftRight]
    by_cases h12 : 12 ≤ i
    · rw [decide_eq_true h12, decide_eq_false (Nat.not_lt.mpr h12), Nat.add_sub_cancel' h12]
      simp [hi]
    · rw [decide_eq_false h12, decide_eq_true (Nat.lt_of_not_le h12)]
      simp
  rw [hbits, BitVec.toNat_shiftLeft, BitVec.toNat_ushiftRight, Nat.shiftLeft_eq,
    Nat.shiftRight_eq_div_pow, Nat.mod_eq_of_lt]
  have hlt := pte.isLt
  omega

/-! ### The translation -/

/-- The bits that the processor sets. -/
abbrev pteMarks : BitVec 32 :=
  pteA ||| pteD

/-- The translation of the processor in supervisor mode; none is a page fault. -/
def translate (m : Mem) (cr0 cr3 : BitVec 32) (write : Bool) (la : Addr) : Option Addr :=
  if cr0 &&& cr0PG = 0 then some la
  else
    let pde := m.load32 (pteAddr cr3 + 4 * pdx la)
    let pte := m.load32 (pteAddr pde + 4 * ptx la)
    if pde &&& pteP = 0 ∨ pte &&& pteP = 0 then none
    else if write = true ∧ cr0 &&& cr0WP ≠ 0 ∧ (pde &&& pteW = 0 ∨ pte &&& pteW = 0) then none
    else some (pteAddr pte + pgoff la)

/-- Where the two tables are linked: in the kernel, in pages of their own. -/
structure EntryTables where
  entryPgdir : Addr
  entryPgtable : Addr
  pgdir_aligned : entryPgdir.toNat % 4096 = 0
  pgtable_aligned : entryPgtable.toNat % 4096 = 0
  pgdir_inside : 0xF0100000 ≤ entryPgdir.toNat ∧ entryPgdir.toNat < 0xF0400000
  pgtable_inside : 0xF0100000 ≤ entryPgtable.toNat ∧ entryPgtable.toNat < 0xF0400000
  apart : entryPgdir ≠ entryPgtable

namespace EntryTables

variable (t : EntryTables)

/-- `entry_pgdir`. -/
def pgdirEntry (i : ℕ) : BitVec 32 :=
  if i = 0 then t.entryPgtable - kernbase + pteP
  else if i = (kernbase >>> pdxShift).toNat then t.entryPgtable - kernbase + pteP + pteW
  else 0

/-- `entry_pgtable`. -/
def pgtableEntry (i : ℕ) : BitVec 32 :=
  BitVec.ofNat 32 (i * 0x1000) ||| pteP ||| pteW

/-- The tables are where they have been loaded, but for the marks. -/
structure Loaded (m : Mem) : Prop where
  pgdir : ∀ i < 1024, m.load32 (t.entryPgdir - kernbase + 4 * BitVec.ofNat 32 i) &&& ~~~pteMarks =
    t.pgdirEntry i
  pgtable : ∀ i < 1024, m.load32 (t.entryPgtable - kernbase + 4 * BitVec.ofNat 32 i) &&&
    ~~~pteMarks = pgtableEntry i

end EntryTables

/-- What the page table is for: the first four megabytes at `KERNBASE`, and at 0 to be read. -/
def window (write : Bool) (la : Addr) : Option Addr :=
  if la.toNat < 0x400000 then
    if write then none else some la
  else if 0xF0000000 ≤ la.toNat ∧ la.toNat < 0xF0400000 then some (la - kernbase)
  else none

/-! ### What the page table maps -/

/-- The test for a present entry. -/
theorem and_pteP (x : BitVec 32) : x &&& pteP = 0 ↔ x.toNat % 2 = 0 := by
  have hand : (x &&& pteP).toNat = x.toNat % 2 := Nat.and_two_pow_sub_one_eq_mod x.toNat 1
  rw [← hand, ← BitVec.toNat_inj]
  rfl

/-- The test for a writable entry. -/
theorem and_pteW (x : BitVec 32) : x &&& pteW = 0 ↔ x.toNat / 2 % 2 = 0 := by
  have hand : x &&& pteW = if x.getLsbD 1 then pteW else 0 := BitVec.and_twoPow x 1
  have hbit : x.getLsbD 1 = decide (x.toNat / 2 % 2 = 1) := by
    rw [BitVec.getLsbD, Nat.testBit_succ, Nat.testBit_zero]
  rw [hand, hbit]
  by_cases h : x.toNat / 2 % 2 = 1
  · rw [decide_eq_true h]
    exact iff_of_false (by decide) (by omega)
  · rw [decide_eq_false h]
    exact iff_of_true rfl (by omega)

/-- Nothing that matters is among the marks. -/
theorem unmarked {e f : BitVec 32} (h : e &&& ~~~pteMarks = f) :
    (e &&& pteP = 0 ↔ f.toNat % 2 = 0) ∧ (e &&& pteW = 0 ↔ f.toNat / 2 % 2 = 0) ∧
      (pteAddr e).toNat = f.toNat / 2 ^ 12 * 2 ^ 12 := by
  have hP : f &&& pteP = e &&& pteP := by
    rw [← h, BitVec.and_assoc]
    rfl
  have hW : f &&& pteW = e &&& pteW := by
    rw [← h, BitVec.and_assoc]
    rfl
  have hA : pteAddr f = pteAddr e := by
    rw [pteAddr, pteAddr, ← h, BitVec.and_assoc]
    rfl
  rw [← hP, ← hW, ← hA, and_pteP, and_pteW, toNat_pteAddr]
  exact ⟨Iff.rfl, Iff.rfl, rfl⟩

/-- The entries as numbers. -/
theorem toNat_pgtableEntry {i : ℕ} (hi : i < 1024) :
    (EntryTables.pgtableEntry i).toNat = i * 4096 + 3 := by
  have hbits : (pteP ||| pteW).toNat = 3 := rfl
  have hlow : i * 2 ^ 12 ||| 3 = i * 2 ^ 12 + 3 := by
    rw [← Nat.shiftLeft_eq, Nat.shiftLeft_add_eq_or_of_lt (by decide)]
  rw [EntryTables.pgtableEntry, BitVec.or_assoc, BitVec.toNat_or, hbits, BitVec.toNat_ofNat,
    Nat.mod_eq_of_lt (by omega)]
  exact hlow

section

variable (t : EntryTables)

/-- Where the page table is loaded. -/
theorem EntryTables.toNat_pgtable :
    (t.entryPgtable - kernbase).toNat = t.entryPgtable.toNat - 0xF0000000 := by
  have hinside := t.pgtable_inside
  have hlt := t.entryPgtable.isLt
  have hbase : kernbase.toNat = 0xF0000000 := rfl
  rw [BitVec.toNat_sub, hbase]
  omega

/-- Where the page directory is loaded. -/
theorem EntryTables.toNat_pgdir :
    (t.entryPgdir - kernbase).toNat = t.entryPgdir.toNat - 0xF0000000 := by
  have hinside := t.pgdir_inside
  have hlt := t.entryPgdir.isLt
  have hbase : kernbase.toNat = 0xF0000000 := rfl
  rw [BitVec.toNat_sub, hbase]
  omega

/-- The entries of the page directory as numbers. -/
theorem EntryTables.toNat_pgdirEntry (i : ℕ) : (t.pgdirEntry i).toNat =
    if i = 0 then t.entryPgtable.toNat - 0xF0000000 + 1
    else if i = 960 then t.entryPgtable.toNat - 0xF0000000 + 3
    else 0 := by
  have hbase := t.toNat_pgtable
  have hinside := t.pgtable_inside
  have hP : pteP.toNat = 1 := rfl
  have hW : pteW.toNat = 2 := rfl
  have hkern : (kernbase >>> pdxShift).toNat = 960 := rfl
  rw [EntryTables.pgdirEntry, hkern]
  split_ifs
  · rw [BitVec.toNat_add, hbase, hP]
    omega
  · rw [BitVec.toNat_add, BitVec.toNat_add, hbase, hP, hW]
    omega
  · rfl

end

section

variable {t : EntryTables} {m : Mem} (h : t.Loaded m)
include h

/-- An entry of the page table maps its page, for every access. -/
theorem pgtable_spec (la : Addr) {pde : BitVec 32}
    (hpde : pteAddr pde = t.entryPgtable - kernbase) :
    ¬ m.load32 (pteAddr pde + 4 * ptx la) &&& pteP = 0 ∧
      ¬ m.load32 (pteAddr pde + 4 * ptx la) &&& pteW = 0 ∧
      (pteAddr (m.load32 (pteAddr pde + 4 * ptx la)) + pgoff la).toNat = la.toNat % 2 ^ 22 := by
  have hlt : (ptx la).toNat < 1024 := by
    rw [toNat_ptx]
    omega
  have hentry := h.pgtable (ptx la).toNat hlt
  have hindex : BitVec.ofNat 32 (ptx la).toNat = ptx la := BitVec.ofNat_toNat 32 _ |>.trans
    (BitVec.setWidth_eq _)
  have hvalue := toNat_pgtableEntry hlt
  rw [hindex, ← hpde] at hentry
  obtain ⟨hP, hW, hA⟩ := unmarked hentry
  rw [hvalue] at hP hW hA
  refine ⟨by rw [hP]; omega, by rw [hW]; omega, ?_⟩
  have hoff := toNat_pgoff la
  have hptx := toNat_ptx la
  rw [BitVec.toNat_add, hA, hoff]
  omega

/-- **What the page table maps**, and for which accesses: with write protection on, the first four
megabytes are there twice, and may be written to at `KERNBASE` only. -/
theorem translate_window {cr0 : BitVec 32} (hPG : cr0 &&& cr0PG ≠ 0) (hWP : cr0 &&& cr0WP ≠ 0)
    (write : Bool) (la : Addr) :
    translate m cr0 (t.entryPgdir - kernbase) write la = window write la := by
  have hlt : (pdx la).toNat < 1024 := by
    rw [toNat_pdx]
    have hla := la.isLt
    omega
  have hcr3 : pteAddr (t.entryPgdir - kernbase) = t.entryPgdir - kernbase := by
    refine BitVec.eq_of_toNat_eq ?_
    have haligned := t.pgdir_aligned
    rw [toNat_pteAddr, t.toNat_pgdir]
    omega
  have hindex : BitVec.ofNat 32 (pdx la).toNat = pdx la :=
    (BitVec.ofNat_toNat 32 _).trans (BitVec.setWidth_eq _)
  have hentry := h.pgdir (pdx la).toNat hlt
  rw [hindex] at hentry
  obtain ⟨hP, hW, hA⟩ := unmarked hentry
  rw [t.toNat_pgdirEntry, toNat_pdx] at hP hW hA
  have haligned := t.pgtable_aligned
  have hbase := t.toNat_pgtable
  rw [translate, if_neg hPG, hcr3, window]
  generalize m.load32 (t.entryPgdir - kernbase + 4 * pdx la) = pde at hP hW hA
  rcases Nat.eq_zero_or_pos (la.toNat / 2 ^ 22) with hzero | hpos
  · -- the first four megabytes, by an entry without `PTE_W`
    rw [if_pos hzero] at hP hW hA
    have hpde : pteAddr pde = t.entryPgtable - kernbase :=
      BitVec.eq_of_toNat_eq (by rw [hA, hbase]; omega)
    obtain ⟨hpte, -, hpage⟩ := pgtable_spec h la hpde
    rw [if_pos (by omega : la.toNat < 0x400000),
      if_neg (not_or.mpr ⟨by rw [hP]; omega, hpte⟩)]
    cases write with
    | false =>
        rw [if_neg (by simp), if_neg (by simp)]
        exact congrArg some (BitVec.eq_of_toNat_eq (by rw [hpage]; omega))
    | true => rw [if_pos ⟨rfl, hWP, Or.inl (hW.mpr (by omega))⟩, if_pos rfl]
  · rw [if_neg (by omega : ¬ la.toNat < 0x400000)]
    rw [if_neg (by omega : ¬ la.toNat / 2 ^ 22 = 0)] at hP hW hA
    by_cases hkern : la.toNat / 2 ^ 22 = 960
    · -- and again at `KERNBASE`
      rw [if_pos hkern] at hP hW hA
      have hpde : pteAddr pde = t.entryPgtable - kernbase :=
        BitVec.eq_of_toNat_eq (by rw [hA, hbase]; omega)
      obtain ⟨hpte, hwrite, hpage⟩ := pgtable_spec h la hpde
      have hsub : (la - kernbase).toNat = la.toNat - 0xF0000000 := by
        have hk : kernbase.toNat = 0xF0000000 := rfl
        rw [BitVec.toNat_sub, hk]
        omega
      rw [if_pos (by omega : 0xF0000000 ≤ la.toNat ∧ la.toNat < 0xF0400000),
        if_neg (not_or.mpr ⟨by rw [hP]; omega, hpte⟩),
        if_neg fun hprot => hprot.2.2.elim (fun h0 => absurd (hW.mp h0) (by omega)) hwrite]
      exact congrArg some (BitVec.eq_of_toNat_eq (by rw [hpage, hsub]; omega))
    · rw [if_neg hkern] at hP
      rw [if_pos (Or.inl (hP.mpr rfl)),
        if_neg (by omega : ¬ (0xF0000000 ≤ la.toNat ∧ la.toNat < 0xF0400000))]

end

/-- A memory with the tables in it, and nothing else. -/
def EntryTables.placed (t : EntryTables) : Mem where
  byte a :=
    let d := (a - (t.entryPgdir - kernbase)).toNat
    let e := (a - (t.entryPgtable - kernbase)).toNat
    if d < 4096 then (t.pgdirEntry (d / 4) >>> (8 * (d % 4))).setWidth 8
    else if e < 4096 then (pgtableEntry (e / 4) >>> (8 * (e % 4))).setWidth 8
    else 0
  stores := []

/-- The entries have no marks. -/
theorem and_not_marks {x : BitVec 32} (h : x.toNat % 4096 < 4) : x &&& ~~~pteMarks = x := by
  refine BitVec.eq_of_getLsbD_eq fun i hi => ?_
  have hmask : (~~~pteMarks).getLsbD i = !(decide (i = 5) || decide (i = 6)) := by
    revert i
    decide
  have hclear : i = 5 ∨ i = 6 → x.getLsbD i = false := by
    intro hi56
    rw [BitVec.getLsbD, Nat.testBit_eq_decide_div_mod_eq, decide_eq_false_iff_not]
    rcases hi56 with rfl | rfl <;> omega
  rw [BitVec.getLsbD_and, hmask]
  by_cases hi56 : i = 5 ∨ i = 6
  · rw [hclear hi56, Bool.false_and]
  · obtain ⟨h5, h6⟩ := not_or.mp hi56
    rw [decide_eq_false h5, decide_eq_false h6]
    exact Bool.and_true _

/-- A word by its bytes. -/
theorem load32_of_bytes {m : Mem} {a : Addr} {v : BitVec 32}
    (h : ∀ k < 4, m.byte (a + BitVec.ofNat 32 k) = (v >>> (8 * k)).setWidth 8) :
    m.load32 a = v := by
  have h₀ := h 0 (by decide)
  have h₁ : m.byte (a + 1) = (v >>> 8).setWidth 8 := h 1 (by decide)
  have h₂ : m.byte (a + 2) = (v >>> 16).setWidth 8 := h 2 (by decide)
  have h₃ : m.byte (a + 3) = (v >>> 24).setWidth 8 := h 3 (by decide)
  rw [BitVec.add_zero, Nat.mul_zero, BitVec.ushiftRight_zero] at h₀
  rw [Mem.load32, h₀, h₁, h₂, h₃]
  exact Mem.append_word v

/-- **The tables as they are initialised** are loaded tables. -/
theorem placed_loaded (t : EntryTables) : t.Loaded t.placed := by
  have hdir := t.toNat_pgdir
  have htable := t.toNat_pgtable
  have haligned := t.pgtable_aligned
  have hoff : ∀ (base : Addr) {i k : ℕ}, i < 1024 → k < 4 →
      (base + 4 * BitVec.ofNat 32 i + BitVec.ofNat 32 k - base).toNat = 4 * i + k := by
    intro base i k hi hk
    bv_omega
  refine ⟨fun i hi => ?_, fun i hi => ?_⟩
  · have hword : t.placed.load32 (t.entryPgdir - kernbase + 4 * BitVec.ofNat 32 i) =
        t.pgdirEntry i := by
      refine load32_of_bytes fun k hk => ?_
      simp only [EntryTables.placed, hoff _ hi hk]
      rw [if_pos (by omega), show (4 * i + k) / 4 = i by omega, show (4 * i + k) % 4 = k by omega]
    rw [hword, and_not_marks]
    rw [t.toNat_pgdirEntry]
    split_ifs <;> omega
  · have hapart : ∀ k < 4, ¬ (t.entryPgtable - kernbase + 4 * BitVec.ofNat 32 i +
        BitVec.ofNat 32 k - (t.entryPgdir - kernbase)).toNat < 4096 := by
      intro k hk
      have hdir' := t.pgdir_aligned
      have hinside := t.pgdir_inside
      have hinside' := t.pgtable_inside
      have hne : t.entryPgdir.toNat ≠ t.entryPgtable.toNat :=
        fun heq => t.apart (BitVec.eq_of_toNat_eq heq)
      have hsum : (t.entryPgtable - kernbase + 4 * BitVec.ofNat 32 i + BitVec.ofNat 32 k).toNat =
          t.entryPgtable.toNat - 0xF0000000 + (4 * i + k) := by
        bv_omega
      rw [BitVec.toNat_sub, hsum, hdir]
      omega
    have hword : t.placed.load32 (t.entryPgtable - kernbase + 4 * BitVec.ofNat 32 i) =
        EntryTables.pgtableEntry i := by
      refine load32_of_bytes fun k hk => ?_
      simp only [EntryTables.placed, hoff _ hi hk, if_neg (hapart k hk)]
      rw [if_pos (by omega), show (4 * i + k) / 4 = i by omega, show (4 * i + k) % 4 = k by omega]
    rw [hword, and_not_marks]
    rw [toNat_pgtableEntry hi]
    omega

/-- Tables somewhere in the kernel. -/
def bareTables : EntryTables where
  entryPgdir := 0xF0115000
  entryPgtable := 0xF0116000
  pgdir_aligned := rfl
  pgtable_aligned := rfl
  pgdir_inside := ⟨Nat.le_of_ble_eq_true rfl, Nat.le_of_ble_eq_true rfl⟩
  pgtable_inside := ⟨Nat.le_of_ble_eq_true rfl, Nat.le_of_ble_eq_true rfl⟩
  apart := by decide

/-- **What is mapped where.** -/
theorem entryPgdir_maps {t : EntryTables} {m : Mem} (h : t.Loaded m) {cr0 : BitVec 32}
    (hPG : cr0 &&& cr0PG ≠ 0) (hWP : cr0 &&& cr0WP ≠ 0) (write : Bool) (la pa : Addr) :
    translate m cr0 (t.entryPgdir - kernbase) write la = some pa ↔
      (la.toNat < 0x400000 ∧ write = false ∧ pa = la) ∨
      (∃ k < 0x400000, la.toNat = 0xF0000000 + k ∧ pa.toNat = k) := by
  rw [translate_window h hPG hWP, window]
  by_cases hlow : la.toNat < 0x400000
  · rw [if_pos hlow]
    constructor
    · cases write with
      | false => exact fun hpa => Or.inl ⟨hlow, rfl, (Option.some.inj hpa).symm⟩
      | true => exact fun hpa => absurd hpa (by simp)
    · rintro (⟨-, rfl, rfl⟩ | ⟨k, hk, hla, -⟩)
      · rfl
      · omega
  · have hsub : 0xF0000000 ≤ la.toNat → (la - kernbase).toNat = la.toNat - 0xF0000000 := by
      intro hle
      have hk : kernbase.toNat = 0xF0000000 := rfl
      have hlt := la.isLt
      rw [BitVec.toNat_sub, hk]
      omega
    rw [if_neg hlow]
    constructor
    · intro hpa
      split at hpa
      · rename_i hrange
        refine Or.inr ⟨la.toNat - 0xF0000000, by omega, by omega, ?_⟩
        rw [← Option.some.inj hpa, hsub hrange.1]
      · cases hpa
    · rintro (⟨hlt, -⟩ | ⟨k, hk, hla, hpa⟩)
      · exact absurd hlt hlow
      · rw [if_pos (by omega)]
        exact congrArg some (BitVec.eq_of_toNat_eq (by rw [hsub (by omega)]; omega))

/-- A null pointer can be read, and not written to. -/
theorem entryPgdir_maps_null :
    translate bareTables.placed 0x80010001 (bareTables.entryPgdir - kernbase) false 0 = some 0 ∧
      translate bareTables.placed 0x80010001 (bareTables.entryPgdir - kernbase) true 0 ≠
        some 0 := by
  have hmaps := entryPgdir_maps (placed_loaded bareTables)
    (by decide : (0x80010001 : BitVec 32) &&& cr0PG ≠ 0) (by decide)
  refine ⟨(hmaps false 0 0).mpr (Or.inl ⟨by decide, rfl, rfl⟩), fun h => ?_⟩
  rcases (hmaps true 0 0).mp h with ⟨-, hfalse, -⟩ | ⟨k, -, hk, -⟩
  · cases hfalse
  · exact absurd hk (by change ¬ (0 = 0xF0000000 + k); omega)

/-! ### Accesses -/

/-- The physical addresses of the tables. -/
def EntryTables.Inside (t : EntryTables) (pa : Addr) : Prop :=
  Mem.Span (t.entryPgdir - kernbase) 4096 pa ∨ Mem.Span (t.entryPgtable - kernbase) 4096 pa

/-- Only the bytes of the tables matter. -/
theorem EntryTables.Loaded.congr {t : EntryTables} {m m' : Mem} (h : t.Loaded m)
    (hm : ∀ a, t.Inside a → m'.byte a = m.byte a) : t.Loaded m' := by
  have hword : ∀ (base : Addr), (∀ a, Mem.Span base 4096 a → m'.byte a = m.byte a) →
      ∀ i < 1024, m'.load32 (base + 4 * BitVec.ofNat 32 i) =
        m.load32 (base + 4 * BitVec.ofNat 32 i) := by
    intro base hbase i hi
    refine Mem.load32_congr fun k hk => hbase _ ?_
    have hoff : (base + 4 * BitVec.ofNat 32 i + BitVec.ofNat 32 k - base).toNat = 4 * i + k := by
      bv_omega
    rw [Mem.Span, hoff]
    omega
  refine ⟨fun i hi => ?_, fun i hi => ?_⟩
  · rw [hword _ (fun a ha => hm a (Or.inl ha)) i hi, h.pgdir i hi]
  · rw [hword _ (fun a ha => hm a (Or.inr ha)) i hi, h.pgtable i hi]

/-- What the processor marks in the tables at a translation. -/
structure Mmu (t : EntryTables) where
  mark : Bool → Addr → Mem → Mem
  outside : ∀ write la m a, ¬ t.Inside a → (mark write la m).byte a = m.byte a
  keeps : ∀ write la m, t.Loaded m → t.Loaded (mark write la m)

/-- Bits of an entry, at its low byte. -/
def markEntry (a : Addr) (bits : Byte) (m : Mem) : Mem :=
  m.store8 a (m.byte a ||| bits)

/-- Marks change an entry in nothing but marks. Both addresses are those of words. -/
theorem load32_markEntry {a e : Addr} (ha : a.toNat % 4 = 0) (he : e.toNat % 4 = 0) {bits : Byte}
    (hbits : bits.setWidth 32 &&& ~~~pteMarks = 0) (m : Mem) :
    (markEntry a bits m).load32 e &&& ~~~pteMarks = m.load32 e &&& ~~~pteMarks := by
  have hhigh : ∀ k, 0 < k → k < 4 →
      (markEntry a bits m).byte (e + BitVec.ofNat 32 k) = m.byte (e + BitVec.ofNat 32 k) := by
    intro k hk hk4
    rw [markEntry, Mem.byte_store8, if_neg]
    rintro rfl
    bv_omega
  have h₁ : (markEntry a bits m).byte (e + 1) = m.byte (e + 1) := hhigh 1 (by decide) (by decide)
  have h₂ : (markEntry a bits m).byte (e + 2) = m.byte (e + 2) := hhigh 2 (by decide) (by decide)
  have h₃ : (markEntry a bits m).byte (e + 3) = m.byte (e + 3) := hhigh 3 (by decide) (by decide)
  rw [Mem.load32, Mem.load32, h₁, h₂, h₃, markEntry, Mem.byte_store8]
  split
  · subst_vars
    have hor : ∀ (w : BitVec 24) (b : Byte), (w ++ (b ||| bits) : BitVec 32) =
        (w ++ b) ||| bits.setWidth 32 := by
      intro w b
      ext i hi
      simp only [BitVec.getElem_append, BitVec.getElem_or, BitVec.getElem_setWidth]
      by_cases h8 : i < 8
      · simp [h8]
      · simp [h8, BitVec.getLsbD_of_ge bits i (by omega)]
    rw [hor, BitVec.and_or_distrib_right, hbits]
    exact BitVec.or_zero
  · rfl

/-- The entries that a translation uses. -/
theorem EntryTables.entry_spec (t : EntryTables) (la : Addr) :
    (Mem.Span (t.entryPgdir - kernbase) 4096 (t.entryPgdir - kernbase + 4 * pdx la) ∧
      (t.entryPgdir - kernbase + 4 * pdx la).toNat % 4 = 0) ∧
    (Mem.Span (t.entryPgtable - kernbase) 4096 (t.entryPgtable - kernbase + 4 * ptx la) ∧
      (t.entryPgtable - kernbase + 4 * ptx la).toNat % 4 = 0) := by
  have hdir := t.toNat_pgdir
  have htable := t.toNat_pgtable
  have hdirAligned := t.pgdir_aligned
  have htableAligned := t.pgtable_aligned
  have hdirInside := t.pgdir_inside
  have htableInside := t.pgtable_inside
  have hd := toNat_pdx la
  have ht := toNat_ptx la
  have hla := la.isLt
  have hspan : ∀ base x : BitVec 32, x.toNat < 2 ^ 10 → base.toNat < 2 ^ 24 →
      base.toNat % 4096 = 0 →
      Mem.Span base 4096 (base + 4 * x) ∧ (base + 4 * x).toNat % 4 = 0 := by
    intro base x hx hbase haligned
    rw [Mem.Span]
    bv_omega
  exact ⟨hspan _ _ (by omega) (by omega) (by omega), hspan _ _ (by omega) (by omega) (by omega)⟩

/-- A processor that marks the entries it has used: as accessed, and that of the page as dirty
when it has been written to. -/
def Mmu.marking (t : EntryTables) : Mmu t where
  mark write la m := markEntry (t.entryPgtable - kernbase + 4 * ptx la)
    (if write then 0x60 else 0x20) (markEntry (t.entryPgdir - kernbase + 4 * pdx la) 0x20 m)
  outside write la m a ha := by
    obtain ⟨⟨hdir, -⟩, ⟨htable, -⟩⟩ := t.entry_spec la
    have hneDir : a ≠ t.entryPgdir - kernbase + 4 * pdx la := by
      rintro rfl
      exact ha (Or.inl hdir)
    have hneTable : a ≠ t.entryPgtable - kernbase + 4 * ptx la := by
      rintro rfl
      exact ha (Or.inr htable)
    rw [markEntry, Mem.byte_store8, if_neg hneTable, markEntry, Mem.byte_store8, if_neg hneDir]
  keeps write la m h := by
    obtain ⟨⟨-, hdir⟩, ⟨-, htable⟩⟩ := t.entry_spec la
    have hbits : ((if write then 0x60 else 0x20 : Byte).setWidth 32 : BitVec 32) &&& ~~~pteMarks =
        0 := by
      cases write <;> decide
    have haligned : ∀ base : Addr, base.toNat % 4096 = 0 → ∀ i < 1024,
        (base + 4 * BitVec.ofNat 32 i).toNat % 4 = 0 := by
      intro base hbase i hi
      bv_omega
    have hd := t.toNat_pgdir
    have ht := t.toNat_pgtable
    have hdirAligned := t.pgdir_aligned
    have htableAligned := t.pgtable_aligned
    refine ⟨fun i hi => ?_, fun i hi => ?_⟩
    · have hentry := haligned (t.entryPgdir - kernbase) (by omega) i hi
      rw [load32_markEntry htable hentry hbits, load32_markEntry hdir hentry (by decide),
        h.pgdir i hi]
    · have hentry := haligned (t.entryPgtable - kernbase) (by omega) i hi
      rw [load32_markEntry htable hentry hbits, load32_markEntry hdir hentry (by decide),
        h.pgtable i hi]

/-- With paging off, it marks nothing. -/
def Mmu.marked {t : EntryTables} (mmu : Mmu t) (cr0 : BitVec 32) (write : Bool) (la : Addr)
    (m : Mem) : Mem :=
  if cr0 &&& cr0PG = 0 then m else mmu.mark write la m

/-- An access to a byte, and its address. -/
inductive Access
  | load (la : Addr)
  | store (la : Addr) (v : Byte)

/-- The address of an access. -/
def Access.addr : Access → Addr
  | load la => la
  | store la _ => la

/-- Accesses to a flat memory: what is loaded, and the memory after them. -/
def runFlat : List Access → Mem → List Byte × Mem
  | [], v => ([], v)
  | .load la :: as, v => (v.byte la :: (runFlat as v).1, (runFlat as v).2)
  | .store la b :: as, v => runFlat as (v.store8 la b)

/-- Accesses by way of the page table, unless there is a page fault. -/
def runPaged {t : EntryTables} (mmu : Mmu t) (cr0 cr3 : BitVec 32) :
    List Access → Mem → Option (List Byte × Mem)
  | [], m => some ([], m)
  | .load la :: as, m => do
      let pa ← translate m cr0 cr3 false la
      let (bs, m') ← runPaged mmu cr0 cr3 as (mmu.mark false la m)
      pure ((mmu.mark false la m).byte pa :: bs, m')
  | .store la b :: as, m => do
      let pa ← translate m cr0 cr3 true la
      runPaged mmu cr0 cr3 as ((mmu.mark true la m).store8 pa b)

/-- The addresses of the kernel: at `KERNBASE`, but not in the tables. -/
def EntryTables.Kernel (t : EntryTables) (la : Addr) : Prop :=
  (0xF0000000 ≤ la.toNat ∧ la.toNat < 0xF0400000) ∧ ¬ t.Inside (la - kernbase)

/-- The flat memory has what the physical memory has. -/
def EntryTables.View (t : EntryTables) (v m : Mem) : Prop :=
  ∀ la, t.Kernel la → v.byte la = m.byte (la - kernbase)

section

variable {t : EntryTables} (mmu : Mmu t) {cr0 : BitVec 32} (hPG : cr0 &&& cr0PG ≠ 0)
  (hWP : cr0 &&& cr0WP ≠ 0)
include hPG hWP

/-- An address of the kernel is mapped, for every access. -/
theorem translate_kernel {m : Mem} (h : t.Loaded m) {la : Addr} (hla : t.Kernel la)
    (write : Bool) : translate m cr0 (t.entryPgdir - kernbase) write la = some (la - kernbase) := by
  have hrange := hla.1
  rw [translate_window h hPG hWP, window, if_neg (by omega), if_pos hrange]

/-- **Accesses to the kernel**, in any order, whatever the processor marks: there is no page fault,
and what is loaded is what a flat memory has at the link addresses. Induction on the
accesses. -/
theorem paged_run {as : List Access} (has : ∀ a ∈ as, t.Kernel a.addr) {v m : Mem}
    (h : t.Loaded m) (hview : t.View v m) :
    ∃ m', runPaged mmu cr0 (t.entryPgdir - kernbase) as m = some ((runFlat as v).1, m') ∧
      t.Loaded m' ∧ t.View (runFlat as v).2 m' := by
  induction as generalizing v m with
  | nil => exact ⟨m, rfl, h, hview⟩
  | cons a as ih =>
      have has' := fun a' ha' => has a' (List.mem_cons_of_mem a ha')
      have hmark : ∀ write la, t.View v (mmu.mark write la m) := fun write la la' hk => by
        rw [mmu.outside write la m _ hk.2, hview la' hk]
      cases a with
      | load la =>
          have hla : t.Kernel la := has (.load la) List.mem_cons_self
          obtain ⟨m', hrun, h', hview'⟩ := ih has' (mmu.keeps false la m h) (hmark false la)
          refine ⟨m', ?_, h', hview'⟩
          rw [runPaged, translate_kernel hPG hWP h hla, runFlat, hmark false la la hla]
          simp only [Option.bind_eq_bind, Option.bind_some, hrun]
          rfl
      | store la b =>
          have hla : t.Kernel la := has (.store la b) List.mem_cons_self
          have hstore : t.Loaded ((mmu.mark true la m).store8 (la - kernbase) b) := by
            refine (mmu.keeps true la m h).congr fun a ha => ?_
            rw [Mem.byte_store8, if_neg]
            rintro rfl
            exact hla.2 ha
          have hsame : t.View (v.store8 la b) ((mmu.mark true la m).store8 (la - kernbase) b) := by
            intro la' hk'
            have hiff : la' - kernbase = la - kernbase ↔ la' = la := by bv_omega
            rw [Mem.byte_store8, Mem.byte_store8, hmark true la la' hk']
            simp only [hiff]
          obtain ⟨m', hrun, h', hview'⟩ := ih has' hstore hsame
          refine ⟨m', ?_, h', hview'⟩
          rw [runPaged, translate_kernel hPG hWP h hla]
          exact hrun

end

/-- A byte of the kernel is stored and loaded again. -/
theorem paged_run_byte : ∃ m', runPaged (Mmu.marking bareTables) 0x80010001
    (bareTables.entryPgdir - kernbase) [.store 0xF0100000 0x41, .load 0xF0100000]
    bareTables.placed = some ([0x41], m') := by
  have hkernel : bareTables.Kernel 0xF0100000 := by
    refine ⟨by decide, ?_⟩
    rintro (h | h)
    · exact absurd h (by decide : ¬ (0xF0100000 - kernbase - (0xF0115000 - kernbase)).toNat < 4096)
    · exact absurd h (by decide : ¬ (0xF0100000 - kernbase - (0xF0116000 - kernbase)).toNat < 4096)
  have hall : ∀ a ∈ [Access.store 0xF0100000 0x41, .load 0xF0100000],
      bareTables.Kernel a.addr := by
    simpa [Access.addr] using hkernel
  obtain ⟨m', hrun, -⟩ := paged_run (Mmu.marking bareTables)
    (by decide : (0x80010001 : BitVec 32) &&& cr0PG ≠ 0) (by decide) hall
    (v := ⟨fun la => bareTables.placed.byte (la - kernbase), []⟩) (placed_loaded bareTables)
    fun _ _ => rfl
  exact ⟨m', hrun⟩

/-! ### The switch -/

/-- The instructions of `entry.S` from `entry` to `relocated`. -/
inductive EntryInsn
  | warmBoot
  | loadPgdir
  | setCr3
  | getCr0
  | orCr0
  | setCr0
  | loadRelocated
  | jump
deriving DecidableEq

/-- How many bytes they take. -/
def EntryInsn.size : EntryInsn → ℕ
  | warmBoot => 9
  | loadPgdir => 5
  | setCr3 => 3
  | getCr0 => 3
  | orCr0 => 5
  | setCr0 => 3
  | loadRelocated => 5
  | jump => 2

/-- The instructions, each with its offset from `entry`. -/
def entryCode : List (ℕ × EntryInsn) :=
  [(0, .warmBoot), (9, .loadPgdir), (14, .setCr3), (17, .getCr0), (20, .orCr0), (25, .setCr0),
    (28, .loadRelocated), (33, .jump)]

/-- Each comes right behind the one before. -/
example : entryCode.map Prod.fst =
    (entryCode.map fun e => e.2.size).inits.dropLast.map List.sum := by decide

/-- The processor, and the memory. -/
structure Processor where
  mem : Mem
  cr0 : BitVec 32
  cr3 : BitVec 32
  eax : BitVec 32
  eip : Addr

section

variable {t : EntryTables} (mmu : Mmu t) (entry : Addr)

/-- `relocated`. -/
def relocatedAddr : Addr :=
  entry + 35

/-- The instruction that has been loaded to a physical address. -/
def codeAt (pa : Addr) : Option EntryInsn :=
  entryCode.findSome? fun e =>
    if pa = entry - kernbase + BitVec.ofNat 32 e.1 then some e.2 else none

/-- What an instruction does, but for `eip`. -/
def EntryInsn.execute (insn : EntryInsn) (p : Processor) : Option Processor :=
  match insn with
  | warmBoot => do
      let pa ← translate p.mem p.cr0 p.cr3 true 0x472
      pure { p with mem := (mmu.marked p.cr0 true 0x472 p.mem).store16 pa 0x1234 }
  | loadPgdir => some { p with eax := t.entryPgdir - kernbase }
  | setCr3 => some { p with cr3 := p.eax }
  | getCr0 => some { p with eax := p.cr0 }
  | orCr0 => some { p with eax := p.eax ||| (cr0PE ||| cr0PG ||| cr0WP) }
  | setCr0 => some { p with cr0 := p.eax }
  | loadRelocated => some { p with eax := relocatedAddr entry }
  | jump => some { p with eip := p.eax }

/-- One instruction, fetched at `eip` by way of the page table, unless paging is off. -/
def Processor.step (p : Processor) : Option Processor := do
  let pa ← translate p.mem p.cr0 p.cr3 false p.eip
  let insn ← codeAt entry pa
  insn.execute mmu entry { p with
    mem := mmu.marked p.cr0 false p.eip p.mem
    eip := p.eip + BitVec.ofNat 32 insn.size }

/-- A number of instructions. -/
def Processor.steps : ℕ → Processor → Option Processor
  | 0, p => some p
  | n + 1, p => do
      let p ← p.step mmu entry
      Processor.steps n p

/-- The instructions are where they have been loaded. -/
theorem codeAt_eq : ∀ e ∈ entryCode, codeAt entry (entry - kernbase + BitVec.ofNat 32 e.1) =
    some e.2 := by
  have hoff : ∀ v : BitVec 32, codeAt entry (entry - kernbase + v) =
      entryCode.findSome? fun e => if v = BitVec.ofNat 32 e.1 then some e.2 else none := by
    intro v
    simp only [codeAt, add_right_inj]
  intro e he
  rw [hoff]
  revert e
  decide

/-- An instruction that is fetched where it has been loaded. -/
theorem step_fetch {p : Processor} {off : ℕ} {insn : EntryInsn} (he : (off, insn) ∈ entryCode)
    (heip : p.eip = entry - kernbase + BitVec.ofNat 32 off)
    (hfetch : translate p.mem p.cr0 p.cr3 false p.eip = some p.eip) :
    p.step mmu entry = insn.execute mmu entry { p with
      mem := mmu.marked p.cr0 false p.eip p.mem
      eip := entry - kernbase + BitVec.ofNat 32 (off + insn.size) } := by
  have hnext : p.eip + BitVec.ofNat 32 insn.size =
      entry - kernbase + BitVec.ofNat 32 (off + insn.size) := by
    rw [heip, BitVec.ofNat_add, add_assoc]
  have hcode : codeAt entry p.eip = some insn := heip ▸ codeAt_eq entry _ he
  simp only [Processor.step, hfetch, hcode, hnext, Option.bind_eq_bind, Option.bind_some]

/-- A run goes on from its first step. -/
theorem steps_succ {p q : Processor} (h : p.step mmu entry = some q) (n : ℕ) :
    p.steps mmu entry (n + 1) = q.steps mmu entry n := by
  rw [Processor.steps, h]
  rfl

/-- With paging off, `eip` is where the instruction is. -/
theorem step_off {cr0 : BitVec 32} (hoff : cr0 &&& cr0PG = 0) {off : ℕ} {insn : EntryInsn}
    (he : (off, insn) ∈ entryCode) (m : Mem) (cr3 eax : BitVec 32) :
    Processor.step mmu entry ⟨m, cr0, cr3, eax, entry - kernbase + BitVec.ofNat 32 off⟩ =
      insn.execute mmu entry
        ⟨m, cr0, cr3, eax, entry - kernbase + BitVec.ofNat 32 (off + insn.size)⟩ := by
  have hfetch : translate m cr0 cr3 false (entry - kernbase + BitVec.ofNat 32 off) =
      some (entry - kernbase + BitVec.ofNat 32 off) := if_pos hoff
  refine (step_fetch mmu entry he rfl hfetch).trans ?_
  simp only [Mmu.marked, if_pos hoff]

/-- With paging on, `eip` is still where the instruction is: the code is mapped there, too. -/
theorem step_on {cr0 : BitVec 32} (hPG : cr0 &&& cr0PG ≠ 0) (hWP : cr0 &&& cr0WP ≠ 0) {m : Mem}
    (hm : t.Loaded m) (hentry : 0xF0100000 ≤ entry.toNat ∧ entry.toNat + 35 ≤ 0xF0400000) {off : ℕ}
    {insn : EntryInsn} (he : (off, insn) ∈ entryCode) (eax : BitVec 32) :
    Processor.step mmu entry
        ⟨m, cr0, t.entryPgdir - kernbase, eax, entry - kernbase + BitVec.ofNat 32 off⟩ =
      insn.execute mmu entry ⟨mmu.mark false (entry - kernbase + BitVec.ofNat 32 off) m, cr0,
        t.entryPgdir - kernbase, eax, entry - kernbase + BitVec.ofNat 32 (off + insn.size)⟩ := by
  have hoff : off < 35 := (by decide : ∀ e ∈ entryCode, e.1 < 35) _ he
  have hfetch : translate m cr0 (t.entryPgdir - kernbase) false
      (entry - kernbase + BitVec.ofNat 32 off) = some (entry - kernbase + BitVec.ofNat 32 off) := by
    have hkern : kernbase.toNat = 0xF0000000 := rfl
    have hsum : (entry - kernbase + BitVec.ofNat 32 off).toNat =
        entry.toNat - 0xF0000000 + off := by
      have hlt := entry.isLt
      rw [BitVec.toNat_add, BitVec.toNat_sub, BitVec.toNat_ofNat, hkern]
      omega
    rw [translate_window hm hPG hWP, window, if_pos (by omega), if_neg (by simp)]
  refine (step_fetch mmu entry he rfl hfetch).trans ?_
  simp only [Mmu.marked, if_neg hPG]

/-- The flag for the warm boot is not in the tables. -/
theorem inside_ne_warm {a : Addr} (ha : t.Inside a) : a ≠ 0x472 ∧ a ≠ 0x473 := by
  have hdir := t.toNat_pgdir
  have htable := t.toNat_pgtable
  have hdir' := t.pgdir_inside
  have htable' := t.pgtable_inside
  rcases ha with ha | ha <;> rw [Mem.Span] at ha <;> constructor <;> rintro rfl <;> bv_omega

/-- Paging and write protection are on. -/
theorem paging_on (cr0 : BitVec 32) : (cr0 ||| (cr0PE ||| cr0PG ||| cr0WP)) &&& cr0PG ≠ 0 ∧
    (cr0 ||| (cr0PE ||| cr0PG ||| cr0WP)) &&& cr0WP ≠ 0 := by
  constructor
  · intro hzero
    have hbit := congrArg (BitVec.getLsbD · 31) hzero
    simp at hbit
  · intro hzero
    have hbit := congrArg (BitVec.getLsbD · 16) hzero
    simp at hbit

/-- On the way through the switch, which began with the memory `m`: `eip` is at an instruction, the
code is mapped to where it has been loaded, and nothing but the tables and the flag for the warm
boot has changed. -/
structure Processor.OnWay (t : EntryTables) (entry : Addr) (m : Mem) (p : Processor) : Prop where
  line : ∃ e ∈ entryCode, p.eip = entry - kernbase + BitVec.ofNat 32 e.1
  mapped : p.cr0 &&& cr0PG = 0 ∨ p.cr0 &&& cr0PG ≠ 0 ∧ p.cr0 &&& cr0WP ≠ 0 ∧
    p.cr3 = t.entryPgdir - kernbase ∧ t.Loaded p.mem
  same : ∀ a, ¬ t.Inside a → a ≠ 0x472 → a ≠ 0x473 → p.mem.byte a = m.byte a

/-- A step on the way. -/
def Processor.Follows (m : Mem) (p q : Processor) : Prop :=
  p.OnWay t entry m ∧ p.step mmu entry = some q

/-- The eight instructions, one after the other: six with paging off, and two with paging on that
are still fetched at the load address. -/
theorem entry_steps {entry : Addr}
    (hentry : 0xF0100000 ≤ entry.toNat ∧ entry.toNat + 35 ≤ 0xF0400000) {m : Mem} {cr0 : BitVec 32}
    (hoff : cr0 &&& cr0PG = 0) (hp : t.Loaded m) (cr3 eax : BitVec 32) :
    ∃ m', Processor.steps mmu entry 8 ⟨m, cr0, cr3, eax, entry - kernbase⟩ =
        some ⟨m', cr0 ||| (cr0PE ||| cr0PG ||| cr0WP), t.entryPgdir - kernbase,
          relocatedAddr entry, relocatedAddr entry⟩ ∧
      Relation.ReflTransGen (Processor.Follows mmu entry m)
        ⟨m, cr0, cr3, eax, entry - kernbase⟩ ⟨m', cr0 ||| (cr0PE ||| cr0PG ||| cr0WP),
          t.entryPgdir - kernbase, relocatedAddr entry, relocatedAddr entry⟩ ∧
      t.Loaded m' ∧ m'.load16 0x472 = 0x1234 ∧
      ∀ a, ¬ t.Inside a → a ≠ 0x472 → a ≠ 0x473 → m'.byte a = m.byte a := by
  set m₁ := m.store16 0x472 0x1234 with hm₁
  set pgdir := t.entryPgdir - kernbase with hpgdir
  set on := cr0 ||| (cr0PE ||| cr0PG ||| cr0WP) with hon
  -- six instructions with paging off
  have h₁ : Processor.step mmu entry ⟨m, cr0, cr3, eax, entry - kernbase⟩ =
      some ⟨m₁, cr0, cr3, eax, entry - kernbase + BitVec.ofNat 32 9⟩ := by
    have hzero : entry - kernbase = entry - kernbase + BitVec.ofNat 32 0 := (BitVec.add_zero _).symm
    rw [hzero, step_off mmu entry hoff (by decide : (0, .warmBoot) ∈ entryCode), ← hzero]
    simp only [EntryInsn.execute, translate, Mmu.marked, if_pos hoff]
    rfl
  have h₂ := step_off mmu entry hoff (by decide : (9, .loadPgdir) ∈ entryCode) m₁ cr3 eax
  have h₃ := step_off mmu entry hoff (by decide : (14, .setCr3) ∈ entryCode) m₁ cr3 pgdir
  have h₄ := step_off mmu entry hoff (by decide : (17, .getCr0) ∈ entryCode) m₁ pgdir pgdir
  have h₅ := step_off mmu entry hoff (by decide : (20, .orCr0) ∈ entryCode) m₁ pgdir cr0
  have h₆ := step_off mmu entry hoff (by decide : (25, .setCr0) ∈ entryCode) m₁ pgdir on
  -- two with paging on, still at the load address
  obtain ⟨hPG, hWP⟩ := paging_on cr0
  have hbyte : ∀ a, a ≠ 0x472 → a ≠ 0x473 → m₁.byte a = m.byte a := by
    intro a h2 h3
    have h473 : (0x472 : Addr) + 1 = 0x473 := rfl
    rw [hm₁, Mem.store16, h473, Mem.byte_store8, Mem.byte_store8, if_neg h3, if_neg h2]
  have hload₁ : t.Loaded m₁ :=
    hp.congr fun a ha => hbyte a (inside_ne_warm ha).1 (inside_ne_warm ha).2
  have h₇ := step_on mmu entry hPG hWP hload₁ hentry
    (by decide : (28, .loadRelocated) ∈ entryCode) on
  set m₂ := mmu.mark false (entry - kernbase + BitVec.ofNat 32 28) m₁ with hm₂
  have hload₂ : t.Loaded m₂ := mmu.keeps _ _ _ hload₁
  have h₈ := step_on mmu entry hPG hWP hload₂ hentry (by decide : (33, .jump) ∈ entryCode)
    (relocatedAddr entry)
  set m₃ := mmu.mark false (entry - kernbase + BitVec.ofNat 32 33) m₂ with hm₃
  have hsame : ∀ a, ¬ t.Inside a → m₃.byte a = m₁.byte a := fun a ha => by
    rw [hm₃, mmu.outside _ _ _ _ ha, hm₂, mmu.outside _ _ _ _ ha]
  have hsame₂ : ∀ a, ¬ t.Inside a → m₂.byte a = m₁.byte a := fun a ha => by
    rw [hm₂, mmu.outside _ _ _ _ ha]
  have hstart : entry - kernbase = entry - kernbase + BitVec.ofNat 32 0 := (BitVec.add_zero _).symm
  have hway : ∀ e ∈ entryCode, ∀ cr3 eax, Processor.OnWay t entry m
      ⟨m₁, cr0, cr3, eax, entry - kernbase + BitVec.ofNat 32 e.1⟩ := fun e he cr3 eax =>
    ⟨⟨e, he, rfl⟩, Or.inl hoff, fun a _ h2 h3 => hbyte a h2 h3⟩
  refine ⟨m₃, ?_, ?_, mmu.keeps _ _ _ hload₂, ?_,
    fun a ha h2 h3 => (hsame a ha).trans (hbyte a h2 h3)⟩
  · refine (steps_succ mmu entry h₁ 7).trans ?_
    refine (steps_succ mmu entry h₂ 6).trans ?_
    refine (steps_succ mmu entry h₃ 5).trans ?_
    refine (steps_succ mmu entry h₄ 4).trans ?_
    refine (steps_succ mmu entry h₅ 3).trans ?_
    refine (steps_succ mmu entry h₆ 2).trans ?_
    exact (steps_succ mmu entry h₇ 1).trans (steps_succ mmu entry h₈ 0)
  · refine .head ⟨⟨⟨(0, .warmBoot), by decide, hstart⟩, Or.inl hoff, fun a _ _ _ => rfl⟩, h₁⟩ ?_
    refine .head ⟨hway (9, .loadPgdir) (by decide) _ _, h₂⟩ ?_
    refine .head ⟨hway (14, .setCr3) (by decide) _ _, h₃⟩ ?_
    refine .head ⟨hway (17, .getCr0) (by decide) _ _, h₄⟩ ?_
    refine .head ⟨hway (20, .orCr0) (by decide) _ _, h₅⟩ ?_
    refine .head ⟨hway (25, .setCr0) (by decide) _ _, h₆⟩ ?_
    refine .head ⟨⟨⟨(28, .loadRelocated), by decide, rfl⟩, Or.inr ⟨hPG, hWP, rfl, hload₁⟩,
      fun a _ h2 h3 => hbyte a h2 h3⟩, h₇⟩ ?_
    exact .single ⟨⟨⟨(33, .jump), by decide, rfl⟩, Or.inr ⟨hPG, hWP, rfl, hload₂⟩,
      fun a ha h2 h3 => (hsame₂ a ha).trans (hbyte a h2 h3)⟩, h₈⟩
  · have hcell : m₃.load16 0x472 = m₁.load16 0x472 := by
      rw [Mem.load16, Mem.load16, hsame 0x472 fun h => (inside_ne_warm h).1 rfl,
        hsame (0x472 + 1) fun h => (inside_ne_warm h).2 rfl]
    exact hcell.trans (Mem.load16_store16 m 0x472 0x1234)

/-- **The switch to paging.** From `entry` at its load address, with paging off, the processor
comes to `relocated` at its link address, with paging and write protection on: every
instruction, also the two that are still fetched at the load address then, is the one that
has been loaded there. -/
theorem entry_switches {entry : Addr}
    (hentry : 0xF0100000 ≤ entry.toNat ∧ entry.toNat + 35 ≤ 0xF0400000) {p : Processor}
    (hoff : p.cr0 &&& cr0PG = 0) (hp : t.Loaded p.mem) (heip : p.eip = entry - kernbase) :
    ∃ q, p.steps mmu entry 8 = some q ∧ q.eip = relocatedAddr entry ∧
      q.cr0 = p.cr0 ||| (cr0PE ||| cr0PG ||| cr0WP) ∧ q.cr3 = t.entryPgdir - kernbase ∧
      t.Loaded q.mem ∧ q.mem.load16 0x472 = 0x1234 ∧
      ∀ a, ¬ t.Inside a → a ≠ 0x472 → a ≠ 0x473 → q.mem.byte a = p.mem.byte a := by
  obtain ⟨m, cr0, cr3, eax, eip⟩ := p
  obtain rfl : eip = entry - kernbase := heip
  obtain ⟨m', hsteps, -, hloaded, hwarm, hsame⟩ := entry_steps mmu hentry hoff hp cr3 eax
  exact ⟨_, hsteps, rfl, rfl, rfl, hloaded, hwarm, hsame⟩

end

/-- The entry of the kernel as it stands. -/
theorem entry_switches_bare : ∃ q, Processor.steps (Mmu.marking bareTables) 0xF010000C 8
    ⟨bareTables.placed, 1, 0, 0, 0x10000C⟩ = some q ∧ q.eip = 0xF010002F := by
  have hentry : 0xF0100000 ≤ (0xF010000C : Addr).toNat ∧
      (0xF010000C : Addr).toNat + 35 ≤ 0xF0400000 := by decide
  obtain ⟨q, hq, heip, -⟩ := entry_switches (Mmu.marking bareTables) hentry
    (p := ⟨bareTables.placed, 1, 0, 0, 0x10000C⟩) (by decide)
    (placed_loaded bareTables) rfl
  exact ⟨q, hq, heip⟩

end Jos
