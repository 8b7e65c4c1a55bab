import Jos.Console

/-!
# Bytes on the Screen

`cga_putc` is given an int and looks at its low byte, its other bits being an attribute if
there are any. For a byte there are none, so the current attribute is added and the low
byte is still the character: the lemmas below are the bit arithmetic of this, and
`cgaSwitch_byte` is the switch of `cga_putc` without it.
-/

namespace Jos

open Console

/-! ### The low byte -/

/-- The rest of a character, where a caller may have put an attribute. -/
theorem getLsbD_and_not_0xFF (c : BitVec 32) {i : ℕ} (hi : i < 32) :
    (c &&& ~~~0xFF).getLsbD i = (c.getLsbD i && !decide (i < 8)) := by
  rw [BitVec.getLsbD_and, BitVec.getLsbD_not, getLsbD_0xFF i hi, decide_eq_true hi,
    Bool.true_and]

/-! ### Glyphs -/

/-- The screen cell of the byte `b` in the attribute `attr`. -/
def glyph (attr : BitVec 16) (b : Byte) : BitVec 16 :=
  attr ||| b.setWidth 16

/-- A byte has no attribute of its own and gets the current one. -/
theorem withAttr_byte (b : Byte) (s : Console) :
    withAttr (b.setWidth 32) s = (glyph s.crtAttr b).setWidth 32 := by
  have hnone : (b.setWidth 32 : BitVec 32) &&& ~~~0xFF = 0 := by
    apply BitVec.eq_of_getLsbD_eq
    intro i hi
    rw [getLsbD_and_not_0xFF _ hi]
    by_cases h : i < 8 <;> simp [h, hi]
    exact BitVec.getLsbD_of_ge b i (by omega)
  rw [withAttr, if_pos hnone, glyph]
  apply BitVec.eq_of_getLsbD_eq
  intro i hi
  have hb : b.getLsbD i = true → i < 16 := fun h => by
    have := BitVec.lt_of_getLsbD h
    omega
  simp only [BitVec.getLsbD_or, BitVec.getLsbD_setWidth, hi, decide_true, Bool.true_and]
  by_cases h : i < 16
  · simp [h, Bool.or_comm]
  · have hb' : b.getLsbD i = false := BitVec.getLsbD_of_ge b i (by omega)
    have ha' : s.crtAttr.getLsbD i = false := BitVec.getLsbD_of_ge _ i (by omega)
    simp [hb', ha']

/-- An attribute has no low bits. -/
theorem getLsbD_attr {attr : BitVec 16} (hattr : attr.setWidth 8 = (0 : Byte)) {i : ℕ}
    (hi : i < 8) : attr.getLsbD i = false := by
  have := congrArg (fun v => BitVec.getLsbD v i) hattr
  simpa [hi] using this

/-- The low byte of a glyph is the character. -/
theorem setWidth_glyph {attr : BitVec 16} (hattr : attr.setWidth 8 = (0 : Byte)) (b : Byte) :
    (glyph attr b).setWidth 8 = b := by
  apply BitVec.eq_of_getLsbD_eq
  intro i hi
  rw [glyph, BitVec.getLsbD_setWidth, BitVec.getLsbD_or, getLsbD_attr hattr hi,
    BitVec.getLsbD_setWidth, decide_eq_true hi, decide_eq_true (show i < 16 by omega)]
  simp only [Bool.true_and, Bool.false_or]

/-- What the switch sees of a byte. -/
theorem glyph_and_0xFF {attr : BitVec 16} (hattr : attr.setWidth 8 = (0 : Byte)) (b : Byte) :
    (glyph attr b).setWidth 32 &&& 0xFF = b.setWidth 32 := by
  have hlow : ((glyph attr b).setWidth 32 : BitVec 32).setWidth 8 = (glyph attr b).setWidth 8 := by
    simp
  rw [and_0xFF, hlow, setWidth_glyph hattr b]

/-- What a backspace writes: a blank in the current attribute. -/
theorem glyph_blank {attr : BitVec 16} (hattr : attr.setWidth 8 = (0 : Byte)) (b : Byte) :
    ((glyph attr b).setWidth 32 &&& ~~~0xFF ||| 0x20).setWidth 16 = attr ||| 0x20 := by
  apply BitVec.eq_of_getLsbD_eq
  intro i hi
  have h32 : i < 32 := by omega
  have hblank : (0x20 : BitVec 32).getLsbD i = (0x20 : BitVec 16).getLsbD i := by
    revert i
    decide
  rw [BitVec.getLsbD_setWidth, BitVec.getLsbD_or, getLsbD_and_not_0xFF _ h32,
    BitVec.getLsbD_or, hblank, glyph, BitVec.getLsbD_setWidth, BitVec.getLsbD_or,
    BitVec.getLsbD_setWidth]
  by_cases h : i < 8
  · rw [getLsbD_attr hattr h]
    simp only [h, hi, decide_true, Bool.not_true, Bool.and_false, Bool.true_and]
  · have hb : b.getLsbD i = false := BitVec.getLsbD_of_ge b i (by omega)
    simp only [h, hi, h32, hb, decide_true, decide_false, Bool.not_false, Bool.and_true,
      Bool.true_and, Bool.and_false, Bool.or_false]

/-- Bytes are told apart as ints. -/
theorem setWidth_byte_inj (b k : Byte) : b.setWidth 32 = (k.setWidth 32 : BitVec 32) ↔ b = k := by
  refine ⟨fun h => ?_, fun h => by rw [h]⟩
  have := congrArg (BitVec.setWidth 8) h
  simpa using this

/-! ### The switch -/

/-- The switch of `cga_putc` on a byte. -/
theorem cgaSwitch_byte (f : BitVec 32 → Console → Console) {s : Console}
    (hattr : s.crtAttr.setWidth 8 = (0 : Byte)) (b : Byte) :
    cgaSwitch f (withAttr (b.setWidth 32) s) s =
      if b = 0x08 then
        if 0 < s.crtPos then
          ({ s with crtPos := s.crtPos - 1 } : Console).setCell (s.crtPos - 1).toNat
            (s.crtAttr ||| 0x20)
        else s
      else if b = 0x0A then
        { s with
          crtPos := s.crtPos + BitVec.ofNat 16 crtCols -
            (s.crtPos + BitVec.ofNat 16 crtCols) % BitVec.ofNat 16 crtCols }
      else if b = 0x0D then
        { s with crtPos := s.crtPos - s.crtPos % BitVec.ofNat 16 crtCols }
      else if b = 0x09 then (f 0x20)^[5] s
      else { s.setCell s.crtPos.toNat (glyph s.crtAttr b) with crtPos := s.crtPos + 1 } := by
  have hk : ∀ k : Byte, (withAttr (b.setWidth 32) s &&& 0xFF = k.setWidth 32) = (b = k) := by
    intro k
    rw [withAttr_byte, glyph_and_0xFF hattr b]
    exact propext (setWidth_byte_inj b k)
  have h08 := hk 0x08
  have h0A := hk 0x0A
  have h0D := hk 0x0D
  have h09 := hk 0x09
  have hcell : (withAttr (b.setWidth 32) s).setWidth 16 = glyph s.crtAttr b := by
    rw [withAttr_byte]
    simp
  have hblank : (withAttr (b.setWidth 32) s &&& ~~~0xFF ||| 0x20).setWidth 16 =
      s.crtAttr ||| 0x20 := by
    rw [withAttr_byte, glyph_blank hattr b]
  simp only [cgaSwitch, hcell, hblank]
  exact if_congr (iff_of_eq h08) rfl (if_congr (iff_of_eq h0A) rfl
    (if_congr (iff_of_eq h0D) rfl (if_congr (iff_of_eq h09) rfl rfl)))

end Jos
