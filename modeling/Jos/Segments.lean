import Jos.Memory
import Mathlib.Tactic.IntervalCases

/-!
# Segment Descriptors

The segment descriptors of `inc/mmu.h`: `struct Segdesc` with the macros that fill it in, the macro
`SEG` of the assembler, which writes the bytes of one, and what the processor makes of these
bytes when a segment register is loaded.

## Main results

* `asmSeg_bytes`: both `SEG` macros build one descriptor.
* `segdesc_bytes`: a descriptor in memory is read back.
* `seg_loaded`: the processor gets the base as it was given, and the limit rounded up to pages.
* `seg16_limit_iff`: `SEG16` keeps a limit below one megabyte, and no other.
* `flat_linear`: a segment of all addresses maps each to itself.
-/

namespace Jos

/-! ### Descriptors -/

/-- `struct Segdesc`. -/
structure Segdesc where
  sdLim15_0 : BitVec 16
  sdBase15_0 : BitVec 16
  sdBase23_16 : Byte
  sdType : BitVec 4
  sdS : BitVec 1
  sdDpl : BitVec 2
  sdP : BitVec 1
  sdLim19_16 : BitVec 4
  sdAvl : BitVec 1
  sdRsv1 : BitVec 1
  sdDb : BitVec 1
  sdG : BitVec 1
  sdBase31_24 : Byte
deriving DecidableEq

/-- Its bytes in memory, where the first bit field of a byte has the low bits. -/
def Segdesc.bytes (d : Segdesc) : List Byte :=
  [d.sdLim15_0.setWidth 8, (d.sdLim15_0 >>> 8).setWidth 8, d.sdBase15_0.setWidth 8,
    (d.sdBase15_0 >>> 8).setWidth 8, d.sdBase23_16, d.sdP ++ d.sdDpl ++ d.sdS ++ d.sdType,
    d.sdG ++ d.sdDb ++ d.sdRsv1 ++ d.sdAvl ++ d.sdLim19_16, d.sdBase31_24]

/-- Application segment type bits. -/
abbrev staX : BitVec 4 := 0x8
abbrev staW : BitVec 4 := 0x2
abbrev staR : BitVec 4 := 0x2

/-- `SEG_NULL`. -/
def segNull : Segdesc :=
  ⟨0, 0, 0, 0, 0, 0, 0, 0, 0, 0, 0, 0, 0⟩

/-- `SEG`. -/
def seg (type : BitVec 4) (base lim : BitVec 32) (dpl : BitVec 2) : Segdesc :=
  ⟨(lim >>> 12 &&& 0xFFFF).setWidth 16, (base &&& 0xFFFF).setWidth 16,
    (base >>> 16 &&& 0xFF).setWidth 8, type, 1, dpl, 1, (lim >>> 28).setWidth 4, 0, 0, 1, 1,
    (base >>> 24).setWidth 8⟩

/-- `SEG16`. -/
def seg16 (type : BitVec 4) (base lim : BitVec 32) (dpl : BitVec 2) : Segdesc :=
  ⟨(lim &&& 0xFFFF).setWidth 16, (base &&& 0xFFFF).setWidth 16,
    (base >>> 16 &&& 0xFF).setWidth 8, type, 1, dpl, 1, (lim >>> 16).setWidth 4, 0, 0, 1, 0,
    (base >>> 24).setWidth 8⟩

/-- A `.word` of the assembler. -/
def asmWord (v : BitVec 32) : List Byte :=
  [v.setWidth 8, (v >>> 8).setWidth 8]

/-- A `.byte`. -/
def asmByte (v : BitVec 32) : Byte :=
  v.setWidth 8

/-- `SEG_NULL` of the assembler. -/
def asmSegNull : List Byte :=
  asmWord 0 ++ asmWord 0 ++ [asmByte 0, asmByte 0, asmByte 0, asmByte 0]

/-- `SEG` of the assembler. -/
def asmSeg (type : BitVec 4) (base lim : BitVec 32) : List Byte :=
  asmWord (lim >>> 12 &&& 0xFFFF) ++ asmWord (base &&& 0xFFFF) ++
    [asmByte (base >>> 16 &&& 0xFF), asmByte (0x90 ||| type.setWidth 32),
      asmByte ((0xC0 : BitVec 32) ||| (lim >>> 28 &&& 0xF)), asmByte (base >>> 24 &&& 0xFF)]

/-- The bytes of flags that the assembler builds. -/
theorem asmByte_access : ∀ type : BitVec 4, asmByte (0x90 ||| type.setWidth 32) =
    ((1 : BitVec 1) ++ (0 : BitVec 2) ++ (1 : BitVec 1) ++ type : BitVec (1 + 2 + 1 + 4)) := by
  decide

theorem asmByte_granularity : ∀ lim : BitVec 4, asmByte (0xC0 ||| lim.setWidth 32) =
    ((1 : BitVec 1) ++ (1 : BitVec 1) ++ (0 : BitVec 1) ++ (0 : BitVec 1) ++ lim :
      BitVec (1 + 1 + 1 + 1 + 4)) := by
  decide

/-- **The two macros `SEG`** build one descriptor, of privilege level 0. -/
theorem asmSeg_bytes (type : BitVec 4) (base lim : BitVec 32) :
    asmSeg type base lim = (seg type base lim 0).bytes := by
  have hlim : asmByte ((0xC0 : BitVec 32) ||| (lim >>> 28 &&& 0xF)) =
      asmByte ((0xC0 : BitVec 32) ||| ((lim >>> 28).setWidth 4).setWidth 32) := by
    refine congrArg (fun v : BitVec 32 => asmByte (0xC0 ||| v))
      (BitVec.eq_of_getLsbD_eq fun i hi => ?_)
    interval_cases i <;> simp
  simp only [asmSeg, seg, Segdesc.bytes, asmWord, hlim, asmByte_access, asmByte_granularity,
    List.cons_append, List.nil_append, List.cons.injEq, and_true, true_and]
  -- what is left are the words and the last byte, bit by bit
  refine ⟨?_, ?_, ?_, ?_, rfl, ?_⟩ <;>
    refine BitVec.eq_of_getLsbD_eq fun i hi => ?_ <;>
    interval_cases i <;> simp [asmByte]

/-- So are the two macros `SEG_NULL`. -/
theorem asmSegNull_bytes : asmSegNull = segNull.bytes := rfl

/-! ### What the processor reads -/

/-- The bytes stand in memory from an address on. -/
def Mem.Holds (m : Mem) (a : Addr) (bytes : List Byte) : Prop :=
  ∀ i b, bytes[i]? = some b → m.byte (a + BitVec.ofNat 32 i) = b

/-- The parts of what stands in memory. -/
theorem Mem.Holds.left {m : Mem} {a : Addr} {xs ys : List Byte} (h : m.Holds a (xs ++ ys)) :
    m.Holds a xs := by
  intro i b hb
  refine h i b ?_
  rwa [List.getElem?_append_left (List.getElem?_eq_some_iff.mp hb).1]

theorem Mem.Holds.right {m : Mem} {a : Addr} {xs ys : List Byte} (h : m.Holds a (xs ++ ys)) :
    m.Holds (a + BitVec.ofNat 32 xs.length) ys := by
  intro i b hb
  rw [add_assoc, ← BitVec.ofNat_add]
  refine h (xs.length + i) b ?_
  rwa [List.getElem?_append_right (Nat.le_add_right _ _), Nat.add_sub_cancel_left]

/-- The descriptor at an address. -/
def Mem.segdesc (m : Mem) (a : Addr) : Segdesc where
  sdLim15_0 := m.load16 a
  sdBase15_0 := m.load16 (a + 2)
  sdBase23_16 := m.byte (a + 4)
  sdType := (m.byte (a + 5)).setWidth 4
  sdS := (m.byte (a + 5) >>> 4).setWidth 1
  sdDpl := (m.byte (a + 5) >>> 5).setWidth 2
  sdP := (m.byte (a + 5) >>> 7).setWidth 1
  sdLim19_16 := (m.byte (a + 6)).setWidth 4
  sdAvl := (m.byte (a + 6) >>> 4).setWidth 1
  sdRsv1 := (m.byte (a + 6) >>> 5).setWidth 1
  sdDb := (m.byte (a + 6) >>> 6).setWidth 1
  sdG := (m.byte (a + 6) >>> 7).setWidth 1
  sdBase31_24 := m.byte (a + 7)

/-- The base that a descriptor gives. -/
def Segdesc.base (d : Segdesc) : Addr :=
  d.sdBase31_24 ++ d.sdBase23_16 ++ d.sdBase15_0

/-- The last offset of the segment. -/
def Segdesc.limit (d : Segdesc) : BitVec 32 :=
  let lim : BitVec 20 := d.sdLim19_16 ++ d.sdLim15_0
  if d.sdG = 1 then lim ++ (0xFFF : BitVec 12) else lim.setWidth 32

/-- The bit fields of a byte. -/
theorem access_fields : ∀ (p : BitVec 1) (dpl : BitVec 2) (s : BitVec 1) (type : BitVec 4),
    let b : Byte := p ++ dpl ++ s ++ type
    b.setWidth 4 = type ∧ (b >>> 4).setWidth 1 = s ∧ (b >>> 5).setWidth 2 = dpl ∧
      (b >>> 7).setWidth 1 = p := by
  decide

theorem granularity_fields : ∀ (g db rsv avl : BitVec 1) (lim : BitVec 4),
    let b : Byte := g ++ db ++ rsv ++ avl ++ lim
    b.setWidth 4 = lim ∧ (b >>> 4).setWidth 1 = avl ∧ (b >>> 5).setWidth 1 = rsv ∧
      (b >>> 6).setWidth 1 = db ∧ (b >>> 7).setWidth 1 = g := by
  decide

/-- **A descriptor is read back** as it was written. -/
theorem segdesc_bytes {m : Mem} {a : Addr} {d : Segdesc} (h : m.Holds a d.bytes) :
    m.segdesc a = d := by
  have h0 : m.byte a = d.sdLim15_0.setWidth 8 := by
    have h0 := h 0 _ rfl
    rwa [BitVec.add_zero] at h0
  have h1 : m.byte (a + 1) = (d.sdLim15_0 >>> 8).setWidth 8 := h 1 _ rfl
  have h2 : m.byte (a + 2) = d.sdBase15_0.setWidth 8 := h 2 _ rfl
  have h3 : m.byte (a + 2 + 1) = (d.sdBase15_0 >>> 8).setWidth 8 := by
    rw [add_assoc]
    exact h 3 _ rfl
  have h4 : m.byte (a + 4) = d.sdBase23_16 := h 4 _ rfl
  have h5 : m.byte (a + 5) = d.sdP ++ d.sdDpl ++ d.sdS ++ d.sdType := h 5 _ rfl
  have h6 : m.byte (a + 6) = d.sdG ++ d.sdDb ++ d.sdRsv1 ++ d.sdAvl ++ d.sdLim19_16 := h 6 _ rfl
  have h7 : m.byte (a + 7) = d.sdBase31_24 := h 7 _ rfl
  obtain ⟨htype, hs, hdpl, hp⟩ := access_fields d.sdP d.sdDpl d.sdS d.sdType
  obtain ⟨hlim, havl, hrsv, hdb, hg⟩ :=
    granularity_fields d.sdG d.sdDb d.sdRsv1 d.sdAvl d.sdLim19_16
  simp only [Mem.segdesc, Mem.load16, h0, h1, h2, h3, h4, h5, h6, h7, Mem.append_bytes, htype, hs,
    hdpl, hp, hlim, havl, hrsv, hdb, hg]

/-- An address put together from the parts that a descriptor has of it. -/
theorem append_base (v : BitVec 32) : ((v >>> 24).setWidth 8 ++ (v >>> 16 &&& 0xFF).setWidth 8 ++
    (v &&& 0xFFFF).setWidth 16 : BitVec (8 + 8 + 16)) = v := by
  refine BitVec.eq_of_getLsbD_eq fun i hi => ?_
  simp only [BitVec.getLsbD_append, BitVec.getLsbD_setWidth, BitVec.getLsbD_ushiftRight,
    BitVec.getLsbD_and]
  interval_cases i <;> simp

/-- A limit in pages. -/
theorem append_pages (v : BitVec 32) : ((v >>> 28).setWidth 4 ++
    (v >>> 12 &&& 0xFFFF).setWidth 16 ++ (0xFFF : BitVec 12) : BitVec (4 + 16 + 12)) =
      v ||| 0xFFF := by
  refine BitVec.eq_of_getLsbD_eq fun i hi => ?_
  simp only [BitVec.getLsbD_append, BitVec.getLsbD_setWidth, BitVec.getLsbD_ushiftRight,
    BitVec.getLsbD_and]
  interval_cases i <;> simp

/-- A limit in bytes. -/
theorem append_bytes16 (v : BitVec 32) : ((v >>> 16).setWidth 4 ++ (v &&& 0xFFFF).setWidth 16 :
    BitVec (4 + 16)).setWidth 32 = v &&& 0xFFFFF := by
  refine BitVec.eq_of_getLsbD_eq fun i hi => ?_
  rw [BitVec.getLsbD_setWidth, BitVec.getLsbD_append]
  interval_cases i <;> simp

section

variable (type : BitVec 4) (base lim : BitVec 32) (dpl : BitVec 2)

/-- **The base** is the one that was given. -/
theorem base_seg : (seg type base lim dpl).base = base :=
  append_base base

/-- So it is by `SEG16`. -/
theorem base_seg16 : (seg16 type base lim dpl).base = base :=
  append_base base

/-- **The limit** is rounded up to whole pages. -/
theorem limit_seg : (seg type base lim dpl).limit = lim ||| 0xFFF :=
  append_pages lim

/-- Without the granularity bit it loses its upper bits. -/
theorem limit_seg16 : (seg16 type base lim dpl).limit = lim &&& 0xFFFFF :=
  append_bytes16 lim

/-- **`SEG16` keeps the limit** if and only if it is below one megabyte. -/
theorem seg16_limit_iff : (seg16 type base lim dpl).limit = lim ↔ lim.toNat < 2 ^ 20 := by
  have hmask : (lim &&& 0xFFFFF).toNat = lim.toNat % 2 ^ 20 := by
    rw [BitVec.toNat_and]
    exact Nat.and_two_pow_sub_one_eq_mod _ 20
  rw [limit_seg16]
  constructor
  · intro h
    rw [h] at hmask
    omega
  · intro h
    refine BitVec.eq_of_toNat_eq ?_
    rw [hmask, Nat.mod_eq_of_lt h]

end

/-! ### Segment registers -/

/-- What the processor keeps of a segment: `big` is for 32-bit code and stacks. -/
structure Segment where
  base : Addr
  limit : BitVec 32
  executable : Bool
  writable : Bool
  big : Bool
deriving DecidableEq

/-- The segment of a descriptor. -/
def Segdesc.segment (d : Segdesc) : Segment where
  base := d.base
  limit := d.limit
  executable := d.sdType.getLsbD 3
  writable := !d.sdType.getLsbD 3 && d.sdType.getLsbD 1
  big := d.sdDb = 1

/-- The linear address of an access to `n` bytes, unless it is beyond the limit. -/
def Segment.linear (s : Segment) (off : BitVec 32) (n : ℕ) : Option Addr :=
  if off.toNat + n ≤ s.limit.toNat + 1 then some (s.base + off) else none

/-- **A segment of all addresses** takes each to itself. -/
theorem flat_linear {s : Segment} (hbase : s.base = 0) (hlimit : s.limit = 0xFFFFFFFF)
    (off : BitVec 32) {n : ℕ} (hn : off.toNat + n ≤ 2 ^ 32) : s.linear off n = some off := by
  have hmax : (0xFFFFFFFF : BitVec 32).toNat + 1 = 2 ^ 32 := rfl
  rw [Segment.linear, hbase, hlimit, hmax, if_pos hn, zero_add]

/-- **From the macro of the assembler to the processor**: what `SEG` has written to memory is a
present 32-bit segment of the base that was given, and of the limit rounded up to pages. -/
theorem seg_loaded {m : Mem} {a : Addr} (type : BitVec 4) (base lim : BitVec 32)
    (h : m.Holds a (asmSeg type base lim)) :
    (m.segdesc a).sdS = 1 ∧ (m.segdesc a).sdP = 1 ∧ (m.segdesc a).sdDpl = 0 ∧
      (m.segdesc a).sdType = type ∧ (m.segdesc a).segment =
        ⟨base, lim ||| 0xFFF, type.getLsbD 3, !type.getLsbD 3 && type.getLsbD 1, true⟩ := by
  rw [asmSeg_bytes] at h
  rw [segdesc_bytes h]
  refine ⟨rfl, rfl, rfl, rfl, ?_⟩
  rw [Segdesc.segment, base_seg, limit_seg]
  rfl

/-- A code segment of all addresses. -/
theorem seg_loaded_code : (Mem.segdesc ⟨fun a => (asmSeg (staX ||| staR) 0 0xFFFFFFFF).getD
    (a.toNat - 0x7C54) 0, []⟩ 0x7C54).segment = ⟨0, 0xFFFFFFFF, true, false, true⟩ := by
  have hheld : Mem.Holds ⟨fun a => (asmSeg (staX ||| staR) 0 0xFFFFFFFF).getD
      (a.toNat - 0x7C54) 0, []⟩ 0x7C54 (asmSeg (staX ||| staR) 0 0xFFFFFFFF) := by
    intro i b hb
    have hi : i < 8 := (List.getElem?_eq_some_iff.mp hb).1
    have hoff : ((0x7C54 : Addr) + BitVec.ofNat 32 i).toNat - 0x7C54 = i := by
      rw [toNat_add_ofNat (by change 0x7C54 + i < 2 ^ 32; omega)]
      change 0x7C54 + i - 0x7C54 = i
      omega
    dsimp only
    rw [hoff, List.getD_eq_getElem?_getD, hb, Option.getD_some]
  exact (seg_loaded _ _ _ hheld).2.2.2.2

end Jos
