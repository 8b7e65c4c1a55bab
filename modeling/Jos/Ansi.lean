import Jos.Literal
import Jos.Palette
import Jos.UpToMem

/-!
# The Console is an ANSI Terminal

What the output side of `kern/console.c` is for, as a whole: a terminal of endless rows with a
pen, which reads control sequences, sends on what is not part of one, and writes it in the
colours of the pen. The console follows it on every run of ints, whatever their high bits:
the screen in memory is the view of the terminal, the attribute its pen, and both ports have
been sent the same bytes (`Renders`).

The terminal has no memory, no registers and no array of four slots: its parameters are a list
of numbers, of which the first four are applied.

## Main results

* `emit_int_shown`: any int outside escape sequences, on the screen.
* `consPutc_renders`: **the step**, one int.
* `consPuts_renders`: hence the run, from the console as it comes up.
-/

namespace Jos

open Console

/-! ### The terminal -/

/-- The cell of an int in these colours. What it has above its low byte is an attribute of its
own. -/
def Colours.cell (pen : Colours) (c : BitVec 32) : BitVec 16 :=
  if c < 0x100 then glyph pen.attr (c.setWidth 8) else c.setWidth 16

/-- What an int does to the screen. A backspace keeps its own attribute in the cell. -/
def Colours.type (pen : Colours) (c : BitVec 32) (t : CrtTerm) : CrtTerm :=
  if c.setWidth 8 = (0x08 : Byte) then t.backspace (pen.cell (c &&& ~~~0xFF ||| 0x20))
  else typeCell (pen.cell 0x20) (pen.cell c) (c.setWidth 8) t

/-- Where the terminal is in its input: in running text, after an ESC, or in a control sequence,
with the parameters that have been read and the value of the one that has not been ended. -/
inductive Scanner
  | text
  | esc
  | csi (vs : List ℕ) (v : ℕ)

def Scanner.mode : Scanner → Mode
  | text => .text
  | esc => .esc
  | csi _ _ => .csi

/-- The terminal, and the bytes it has sent on. It departs from ANSI where `cons_putc` does: a
parameter is what its digits leave in 32 bits (`wrapDigit`), and only four are applied; any byte
that is no parameter byte ends a sequence, and `m` alone has an effect; an ESC behind an ESC is
typed, with the one before; the blanks of a tab are sent on behind it (`tabBlanks`); and red and
blue are swapped, as are yellow and cyan (`vgaBasic`). -/
structure AnsiTerm where
  scanner : Scanner
  pen : Colours
  screen : CrtTerm
  sent : List Byte

namespace AnsiTerm

/-- Running text. -/
def type (c : BitVec 32) (a : AnsiTerm) : AnsiTerm :=
  { a with
    screen := a.pen.type c a.screen
    sent := a.sent ++ c.setWidth 8 :: tabBlanks (c.setWidth 8) }

/-- A byte of a control sequence. -/
def parameter (vs : List ℕ) (v : ℕ) (b : Byte) (a : AnsiTerm) : AnsiTerm :=
  if 0x30 ≤ b ∧ b ≤ 0x39 then { a with scanner := .csi vs (wrapDigit v (digit b)) }
  else if b = 0x3B then { a with scanner := .csi (vs ++ [v]) 0 }
  else if b = 0x6D then
    { a with scanner := .text, pen := select vgaBasic ((vs ++ [v]).take 4) a.pen }
  else { a with scanner := .text }

/-- The terminal on one int. -/
def step (a : AnsiTerm) (c : BitVec 32) : AnsiTerm :=
  match a.scanner with
  | .text => if c.setWidth 8 = (0x1B : Byte) then { a with scanner := .esc } else a.type c
  | .esc =>
      if c.setWidth 8 = (0x5B : Byte) then { a with scanner := .csi [] 0 }
      else ({ a with scanner := .text }.type 0x1B).type c
  | .csi vs v => a.parameter vs v (c.setWidth 8)

/-- The terminal on a text. -/
def text (text : List (BitVec 32)) (a : AnsiTerm) : AnsiTerm :=
  text.foldl step a

/-- What the parser alone knows of it. -/
def passed (a : AnsiTerm) : Passed where
  mode := a.scanner.mode
  out := a.sent

end AnsiTerm

/-- The parser's variables hold the parameters. -/
def Scanner.Scans : Scanner → Console → Prop
  | csi vs v, s => Collected s vs s ∧ (settle s.param).toNat = v
  | _, _ => True

/-- The console `s`, reached from `s₀`, shows the terminal, has its pen, is where it is in its
input, and has sent on to both ports what it has sent on. -/
structure Renders (s₀ s : Console) (a : AnsiTerm) : Prop where
  passes : Passes s₀ s a.passed
  pen : s.crtAttr = a.pen.attr
  shown : s.Shown a.screen
  scans : a.scanner.Scans s

/-! ### Any int on the screen -/

/-- An int without high bits is a byte. -/
theorem byte_of_lt {c : BitVec 32} (hc : c < 0x100) : (c.setWidth 8 : Byte).setWidth 32 = c := by
  apply BitVec.eq_of_toNat_eq
  have hlt : c.toNat < 0x100 := hc
  rw [BitVec.toNat_setWidth, BitVec.toNat_setWidth]
  omega

/-- The test of `cga_putc` for an attribute. -/
theorem high_eq_zero_iff (c : BitVec 32) : c &&& ~~~0xFF = 0 ↔ c < 0x100 := by
  have hbits : c &&& ~~~0xFF = 0 ↔ (c.setWidth 8 : Byte).setWidth 32 = c := by
    rw [← and_0xFF]
    constructor
    · intro h
      apply BitVec.eq_of_getLsbD_eq
      intro i hi
      have hbit := congrArg (fun v => BitVec.getLsbD v i) h
      simp only [getLsbD_and_not_0xFF c hi] at hbit
      rw [BitVec.getLsbD_and, getLsbD_0xFF i hi]
      by_cases h8 : i < 8 <;> simp_all
    · intro h
      rw [← h, BitVec.and_assoc]
      exact BitVec.and_zero
  rw [hbits]
  refine ⟨fun h => ?_, byte_of_lt⟩
  have hlt := (c.setWidth 8 : Byte).isLt
  rw [← h]
  change ((c.setWidth 8 : Byte).setWidth 32 : BitVec 32).toNat < 0x100
  rw [BitVec.toNat_setWidth]
  omega

/-- A blank in the attribute of an int is in that attribute. -/
theorem high_blank (c : BitVec 32) : (c &&& ~~~0xFF ||| 0x20) &&& ~~~0xFF = c &&& ~~~0xFF := by
  have hblank : ∀ i < 32, ((0x20 : BitVec 32).getLsbD i && !decide (i < 8)) = false := by decide
  apply BitVec.eq_of_getLsbD_eq
  intro i hi
  rw [getLsbD_and_not_0xFF _ hi, BitVec.getLsbD_or, getLsbD_and_not_0xFF c hi,
    Bool.and_or_distrib_right, hblank i hi, Bool.or_false, Bool.and_assoc, Bool.and_self]

theorem byte_lt (b : Byte) : (b.setWidth 32 : BitVec 32) < 0x100 := by
  change (b.setWidth 32 : BitVec 32).toNat < 0x100
  have := b.isLt
  rw [BitVec.toNat_setWidth]
  omega

theorem lowByte_byte (b : Byte) : ((b.setWidth 32 : BitVec 32).setWidth 8 : Byte) = b := by
  rw [BitVec.setWidth_setWidth_of_le _ (by decide), BitVec.setWidth_eq]

section

variable (pen : Colours)

/-- To a byte the current attribute is added. -/
theorem Colours.cell_byte (b : Byte) : pen.cell (b.setWidth 32) = glyph pen.attr b := by
  rw [Colours.cell, if_pos (byte_lt b), lowByte_byte]

/-- On a byte nothing is new. -/
theorem Colours.type_byte (b : Byte) (t : CrtTerm) :
    pen.type (b.setWidth 32) t = typeByte pen.attr b t := by
  have hblank : pen.cell 0x20 = glyph pen.attr 0x20 := pen.cell_byte 0x20
  have hback : (b.setWidth 32 : BitVec 32) &&& ~~~0xFF ||| 0x20 = 0x20 := by
    rw [(high_eq_zero_iff _).mpr (byte_lt b)]
    exact BitVec.zero_or
  rw [Colours.type, lowByte_byte, hback, hblank, pen.cell_byte,
    typeByte_eq, typeCell]
  split <;> rfl

end

/-- The switch of `cga_putc` on an int with an attribute of its own, by its low byte. -/
theorem cgaSwitch_own (f : BitVec 32 → Console → Console) {c : BitVec 32} (hc : ¬ c < 0x100)
    (s : Console) : cgaSwitch f (withAttr c s) s =
      if c.setWidth 8 = (0x08 : Byte) then
        if 0 < s.crtPos then
          ({ s with crtPos := s.crtPos - 1 } : Console).setCell (s.crtPos - 1).toNat
            ((c &&& ~~~0xFF ||| 0x20).setWidth 16)
        else s
      else if c.setWidth 8 = (0x0A : Byte) then
        { s with
          crtPos := s.crtPos + BitVec.ofNat 16 crtCols -
            (s.crtPos + BitVec.ofNat 16 crtCols) % BitVec.ofNat 16 crtCols }
      else if c.setWidth 8 = (0x0D : Byte) then
        { s with crtPos := s.crtPos - s.crtPos % BitVec.ofNat 16 crtCols }
      else if c.setWidth 8 = (0x09 : Byte) then (f 0x20)^[5] s
      else { s.setCell s.crtPos.toNat (c.setWidth 16) with crtPos := s.crtPos + 1 } := by
  have hk : ∀ k : Byte, (c &&& 0xFF = k.setWidth 32) = (c.setWidth 8 = k) := by
    intro k
    rw [and_0xFF]
    exact propext (setWidth_byte_inj _ k)
  rw [withAttr, if_neg fun h => hc ((high_eq_zero_iff c).mp h), cgaSwitch]
  exact if_congr (iff_of_eq (hk 0x08)) rfl (if_congr (iff_of_eq (hk 0x0A)) rfl
    (if_congr (iff_of_eq (hk 0x0D)) rfl (if_congr (iff_of_eq (hk 0x09)) rfl rfl)))

section

variable {s : Console} {t : CrtTerm} (hv : s.Video) {pen : Colours} (hpen : s.crtAttr = pen.attr)
  (he : s.esc = 0) (h : s.Shown t)
include hv hpen he h

/-- An int with an attribute of its own on the display. -/
theorem cgaPutc_own_shown {c : BitVec 32} (hc : ¬ c < 0x100) :
    (cgaPutc c s).Shown (pen.type c t) := by
  have hattr : s.crtAttr.setWidth 8 = (0 : Byte) := hpen ▸ setWidth_attr_colours pen
  have hblank : pen.cell 0x20 = glyph s.crtAttr 0x20 := hpen ▸ pen.cell_byte 0x20
  have hcell : pen.cell c = c.setWidth 16 := if_neg hc
  rw [cgaPutc_eq, cgaPutcBody]
  apply moveCursor_shown
  rw [cgaSwitch_own _ hc, Colours.type, typeCell, hblank, hcell]
  by_cases h08 : c.setWidth 8 = (0x08 : Byte)
  · have hback := shown_backspace h ((c &&& ~~~0xFF ||| 0x20).setWidth 16)
    rw [← scrollCheck_of_lt hback.pos] at hback
    have hkept : pen.cell (c &&& ~~~0xFF ||| 0x20) = (c &&& ~~~0xFF ||| 0x20).setWidth 16 := by
      refine if_neg fun hlt => hc ((high_eq_zero_iff c).mp ?_)
      rw [← high_blank]
      exact (high_eq_zero_iff _).mpr hlt
    rw [if_pos h08, if_pos h08, hkept]
    exact hback
  rw [if_neg h08, if_neg h08, if_neg h08]
  by_cases h0A : c.setWidth 8 = (0x0A : Byte)
  · rw [if_pos h0A, if_pos h0A]
    exact shown_newline hv h
  rw [if_neg h0A, if_neg h0A]
  by_cases h0D : c.setWidth 8 = (0x0D : Byte)
  · have hcr := shown_carriageReturn h
    rw [← scrollCheck_of_lt hcr.pos] at hcr
    rw [if_pos h0D, if_pos h0D]
    exact hcr
  rw [if_neg h0D, if_neg h0D]
  by_cases h09 : c.setWidth 8 = (0x09 : Byte)
  · have htab := iterate_blank_shown 5 hv hattr he h
    rw [if_pos h09, if_pos h09, scrollCheck_of_lt htab.pos]
    exact htab
  rw [if_neg h09, if_neg h09]
  exact shown_put hv h _

/-- **Any int outside escape sequences**, on the screen. -/
theorem emit_int_shown (c : BitVec 32) : (emit c s).Shown (pen.type c t) := by
  by_cases hc : c < 0x100
  · have hbyte := emit_shown hv (hpen ▸ setWidth_attr_colours pen) he h (c.setWidth 8)
    rwa [hpen, ← pen.type_byte, byte_of_lt hc] at hbyte
  · exact cgaPutc_own_shown (s := lptPutc c (serialPutc c s)) hv hpen he h hc

end

/-! ### The parser -/

/-- The parser alone is a step of the terminal. -/
theorem passed_step (a : AnsiTerm) (c : BitVec 32) :
    (a.step c).passed = a.passed.step (c.setWidth 8) := by
  obtain ⟨scanner, pen, screen, sent⟩ := a
  cases scanner with
  | text => exact apply_ite AnsiTerm.passed _ _ _
  | esc =>
      refine (apply_ite AnsiTerm.passed _ _ _).trans (if_congr Iff.rfl rfl ?_)
      exact congrArg (Passed.mk .text) (List.append_assoc sent [0x1B] _)
  | csi vs v =>
      change AnsiTerm.passed (AnsiTerm.parameter vs v (c.setWidth 8) _) =
        if isParam (c.setWidth 8) then _ else _
      by_cases hdigit : 0x30 ≤ (c.setWidth 8 : Byte) ∧ c.setWidth 8 ≤ (0x39 : Byte)
      · have hparam : isParam (c.setWidth 8) := Or.inl hdigit
        rw [AnsiTerm.parameter, if_pos hdigit, if_pos hparam]
        rfl
      by_cases hsep : c.setWidth 8 = (0x3B : Byte)
      · have hparam : isParam (c.setWidth 8) := Or.inr hsep
        rw [AnsiTerm.parameter, if_neg hdigit, if_pos hsep, if_pos hparam]
        rfl
      · have hparam : ¬ isParam (c.setWidth 8) := fun h => h.elim hdigit hsep
        rw [AnsiTerm.parameter, if_neg hdigit, if_neg hsep, if_neg hparam]
        exact (apply_ite AnsiTerm.passed _ _ _).trans (ite_self _)

/-- What has been collected stays so when one starts to look from here. -/
theorem Collected.self {s₀ s : Console} {vs : List ℕ} (h : Collected s₀ vs s) :
    Collected s vs s where
  parses := Parses.refl s
  crtAttr := rfl
  esc := h.esc
  nparams := h.nparams
  params := h.params

section

variable {s₀ s : Console} {a : AnsiTerm}

/-- **A byte of a control sequence.** -/
theorem csiPutc_renders {vs : List ℕ} {v : ℕ} (h : Collected s vs s)
    (hv : (settle s.param).toNat = v) (hpen : s.crtAttr = a.pen.attr) (hshown : s.Shown a.screen)
    (b : Byte) :
    (consPutc (b.setWidth 32) s).crtAttr = (a.parameter vs v b).pen.attr ∧
      (consPutc (b.setWidth 32) s).Shown (a.parameter vs v b).screen ∧
      (a.parameter vs v b).scanner.Scans (consPutc (b.setWidth 32) s) := by
  rw [AnsiTerm.parameter]
  by_cases hdigit : 0x30 ≤ b ∧ b ≤ 0x39
  · have hstep : consPutc (b.setWidth 32) s =
        { s with param := settle s.param * 10 + (b.setWidth 32 - 0x30) } := by
      rw [consPutc_csi h.esc, csiPutc, if_pos ((digit_iff b).mpr hdigit)]
      rfl
    rw [if_pos hdigit, hstep]
    exact ⟨hpen, hshown, (h.setParam _).self, by rw [settle_digit hdigit, hv]⟩
  have hnone : ¬ (0x30 ≤ (b.setWidth 32 : BitVec 32).toInt ∧
      (b.setWidth 32 : BitVec 32).toInt ≤ 0x39) := fun hd => hdigit ((digit_iff b).mp hd)
  by_cases hsep : b = 0x3B
  · have hstep : consPutc (b.setWidth 32) s = { pushParam s with param := -1 } := by
      have hb : (b.setWidth 32 : BitVec 32) = 0x3B := (setWidth_byte_inj b 0x3B).mpr hsep
      rw [consPutc_csi h.esc, csiPutc, if_neg hnone, if_pos hb]
    have hpush := (h.push hv).setParam (-1)
    rw [if_neg hdigit, if_pos hsep, hstep]
    exact ⟨hpush.crtAttr.trans hpen, hpush.parses.shown hshown, hpush.self, settle_neg_one⟩
  rw [if_neg hdigit, if_neg hsep]
  by_cases hm : b = 0x6D
  · obtain ⟨hparses, -, hattr⟩ := h.final hv hpen
    obtain rfl := hm
    rw [if_pos rfl]
    exact ⟨hattr, hparses.shown hshown, trivial⟩
  · have hstep : consPutc (b.setWidth 32) s = { s with esc := 0 } := by
      rw [consPutc_csi h.esc, csiPutc_final (fun hb => hb.elim hdigit hsep), if_neg hm]
    rw [if_neg hm, hstep]
    exact ⟨hpen, (setEsc_parses s 0).shown hshown, trivial⟩

/-- **The step.** The console on any int is the terminal on it. -/
theorem consPutc_renders (h : Renders s₀ s a) (c : BitVec 32) :
    Renders s₀ (consPutc c s) (a.step c) := by
  have hpasses : Passes s₀ (consPutc c s) (a.step c).passed := by
    rw [passed_step]
    exact consPutc_passes_int h.passes c
  obtain ⟨hp, hpen, hshown, hscans⟩ := h
  have hlow : ∀ k : Byte, (c &&& 0xFF = k.setWidth 32) ↔ (c.setWidth 8 = k) := by
    intro k
    rw [and_0xFF]
    exact setWidth_byte_inj _ k
  obtain ⟨scanner, pen, screen, sent⟩ := a
  cases scanner with
  | text =>
      have he : s.esc = 0 := hp.esc
      rw [AnsiTerm.step] at hpasses ⊢
      by_cases h1B : c.setWidth 8 = (0x1B : Byte)
      · have hint : c &&& 0xFF = 0x1B := (hlow 0x1B).mpr h1B
        simp only [if_pos h1B] at hpasses ⊢
        rw [consPutc_eq, consPutcBody_text _ _ he, if_pos hint] at hpasses ⊢
        exact ⟨hpasses, hpen, (setEsc_parses s 1).shown hshown, trivial⟩
      · simp only [if_neg h1B] at hpasses ⊢
        rw [consPutc_ground he fun hc => h1B ((hlow 0x1B).mp hc)] at hpasses ⊢
        exact ⟨hpasses, (emit_drawn c he hshown.pos).crtAttr.trans hpen,
          emit_int_shown hp.video hpen he hshown c, trivial⟩
  | esc =>
      have he : s.esc = 1 := hp.esc
      rw [AnsiTerm.step] at hpasses ⊢
      by_cases h5B : c.setWidth 8 = (0x5B : Byte)
      · have hint : c &&& 0xFF = 0x5B := (hlow 0x5B).mpr h5B
        simp only [if_pos h5B] at hpasses ⊢
        rw [consPutc_eq, consPutcBody_esc _ _ he, if_pos hint] at hpasses ⊢
        refine ⟨hpasses, hpen, (startCsi_parses s).shown hshown, ?_, settle_neg_one⟩
        exact ⟨Parses.refl _, rfl, rfl, rfl, fun i v hi => absurd hi (by simp)⟩
      · have hint : ¬ c &&& 0xFF = 0x5B := fun hc => h5B ((hlow 0x5B).mp hc)
        simp only [if_neg h5B] at hpasses ⊢
        rw [consPutc_eq, consPutcBody_esc _ _ he, if_neg hint] at hpasses ⊢
        -- the ESC that has been held, and then the character
        have hshown₀ : ({ s with esc := 0 } : Console).Shown screen :=
          (setEsc_parses s 0).shown hshown
        have hheld := emit_drawn 0x1B (s := { s with esc := 0 }) rfl hshown₀.pos
        have hshown₁ := emit_int_shown (s := { s with esc := 0 }) hp.video hpen rfl hshown₀ 0x1B
        exact ⟨hpasses, (emit_drawn c hheld.esc hheld.pos).crtAttr.trans (hheld.crtAttr.trans hpen),
          emit_int_shown (hheld.video hp.video) (hheld.crtAttr.trans hpen) hheld.esc hshown₁ c,
          trivial⟩
  | csi vs v =>
      obtain ⟨hcollected, hv⟩ := hscans
      have hbyte : consPutc c s = consPutc ((c.setWidth 8 : Byte).setWidth 32) s := by
        rw [consPutc_csi hcollected.esc, consPutc_eq, consPutcBody_csi _ _ hcollected.esc, and_0xFF]
      obtain ⟨hpen', hshown', hscans'⟩ := csiPutc_renders (a := ⟨.csi vs v, pen, screen, sent⟩)
        hcollected hv hpen hshown (c.setWidth 8)
      rw [← hbyte] at hpen' hshown' hscans'
      exact ⟨hpasses, hpen', hshown', hscans'⟩

/-- **The run.** -/
theorem foldl_renders (h : Renders s₀ s a) (cs : List (BitVec 32)) :
    Renders s₀ (consPuts cs s) (a.text cs) :=
  List.foldl_rel h fun c _ _ _ h => consPutc_renders h c

/-- Any console outside escape sequences is a terminal with a screen on it. -/
theorem renders_start (hv : s.Video) (he : s.esc = 0) (hattr : s.crtAttr.setWidth 8 = (0 : Byte))
    (hpos : s.crtPos.toNat < crtSize) :
    Renders s s ⟨.text, colours s.crtAttr, Term.ofScreen s.cell s.crtPos.toNat hpos, []⟩ where
  passes := passes_start hv hattr he
  pen := (attr_colours hattr).symm
  shown := Shows.ofScreen s.cell s.crtPos.toNat hpos
  scans := trivial

end

/-- The terminal that the console is when it comes up: light grey on black, with what is on the
screen, and the cursor where the display controller has it. -/
def AnsiTerm.start (screen : ℕ → BitVec 16) (crtc : Crtc) (hcur : crtc.cursor.toNat < crtSize) :
    AnsiTerm where
  scanner := .text
  pen := ⟨7, 0⟩
  screen := Term.ofScreen screen crtc.cursor.toNat hcur
  sent := []

/-- **The console is an ANSI terminal.** After `cga_init` with the hardware cursor inside the
screen, and after every run of `cons_putc` on any ints, the screen cells are the view of the
terminal that has been given the same ints, cursor and cursor registers are its cursor, the
attribute is its pen, and both ports have been sent what it has sent on. -/
theorem consPuts_renders (readback : BitVec 16) (mem : Mem) (crtc : Crtc)
    (hcur : crtc.cursor.toNat < crtSize) (cs : List (BitVec 32)) :
    let s := cgaInit readback (statics mem crtc)
    let s' := consPuts cs s
    let a := (AnsiTerm.start s.cell crtc hcur).text cs
    (∀ i < crtSize, s'.cell i = a.screen.cell (crtCols * a.screen.top + i)) ∧
      crtCols * a.screen.top + s'.crtPos.toNat = a.screen.cur ∧ s'.crtc.cursor = s'.crtPos ∧
      s'.crtAttr = a.pen.attr ∧ s'.esc = a.scanner.mode.code ∧
      s'.serialOut = s.serialOut ++ a.sent ∧ s'.lptOut = s.lptOut ++ a.sent := by
  intro s s' a
  have hinv : s.Inv := cgaInit_inv readback mem crtc hcur
  obtain ⟨hv, hpos, -, hattr, he, -⟩ := cgaInit_eq readback (statics mem crtc)
  have hstart : Renders s s (AnsiTerm.start s.cell crtc hcur) := by
    have hshown : Shows s.cell s.crtPos.toNat (AnsiTerm.start s.cell crtc hcur).screen := by
      rw [hpos]
      exact Shows.ofScreen s.cell crtc.cursor.toNat hcur
    have hpen : (0x0700 : BitVec 16) = (⟨7, 0⟩ : Colours).attr := by decide
    exact ⟨passes_start hv hinv.attr he, hattr.trans hpen, hshown, trivial⟩
  have hrun : Renders s s' a := foldl_renders hstart cs
  exact ⟨hrun.shown.cell, hrun.shown.cur, (consPuts_inv cs hinv).cursor, hrun.pen, hrun.passes.esc,
    hrun.passes.serialOut, hrun.passes.lptOut⟩

/-- A letter in green, and one that brings its own attribute. -/
theorem consPuts_renders_green :
    let s := cgaInit 0xA55A (statics ⟨fun _ => 0, []⟩ ⟨0, fun _ => 0⟩)
    let s' := consPuts [0x1B, 0x5B, 0x33, 0x32, 0x6D, 0x41, 0x1E42] s
    s'.cell 0 = 0x0241 ∧ s'.cell 1 = 0x1E42 ∧ s'.crtAttr = 0x0200 := by
  obtain ⟨hcell, -, -, hattr, -⟩ := consPuts_renders 0xA55A ⟨fun _ => 0, []⟩ ⟨0, fun _ => 0⟩
    (by decide) [0x1B, 0x5B, 0x33, 0x32, 0x6D, 0x41, 0x1E42]
  exact ⟨(hcell 0 (by decide)).trans (by decide), (hcell 1 (by decide)).trans (by decide),
    hattr.trans (by decide)⟩

end Jos
