import Jos.Console

/-!
# What the Display Does

Specification lemmas for the display half of the console, so that the modules above never
unfold `cgaPutc` again. Two kinds of facts are kept apart:

* `Draws s s'`, the frame: a step that touches only memory inside the screen, the ports
  and the cursor, and leaves the parser, the attribute and the adapter alone;
* what the 2000 cells and the cursor become, one lemma per operation.

## Main results

* `cell_setCell`, `cell_scroll`: the cells after a store and after a scroll.
* `cgaSwitch_draws`, `cgaPutc_drawn`: the display only draws, and the cursor is back inside
  the screen afterwards, with the cursor registers in step.
* `emit_drawn`: so does the normal output of a character to all three devices.
-/

namespace Jos

open Console

/-! ### The screen in memory -/

/-- The adapter `cga_init` settles on: the colour or the monochrome one. -/
def Console.Video (s : Console) : Prop :=
  (s.crtBuf = kernbase + cgaBuf ∧ s.addr6845 = cgaBase) ∨
    (s.crtBuf = kernbase + monoBuf ∧ s.addr6845 = monoBase)

/-- The addresses of the cells of a screen at `buf`. -/
def OnScreen (buf a : Addr) : Prop :=
  ∃ i < crtSize, a = buf + BitVec.ofNat 32 (2 * i) ∨ a = buf + BitVec.ofNat 32 (2 * i) + 1

/-- The screen lies inside the address space, on a doubleword boundary or not. -/
theorem Console.Video.room {s : Console} (h : s.Video) : s.crtBuf.toNat + 2 * crtSize ≤ 2 ^ 32 := by
  rcases h with ⟨h, -⟩ | ⟨h, -⟩ <;> rw [h] <;> decide

/-- Distinct cells of the screen are two or more bytes apart. -/
theorem Console.cellAddr_apart (s : Console) {i j : ℕ} (hi : i < crtSize) (hj : j < crtSize)
    (hne : i ≠ j) : 2 ≤ (s.cellAddr i - s.cellAddr j).toNat := by
  have hsub : s.cellAddr i - s.cellAddr j = BitVec.ofNat 32 (2 * i) - BitVec.ofNat 32 (2 * j) := by
    simp only [cellAddr]
    ring
  simp only [crtSize] at hi hj
  rw [hsub, BitVec.toNat_sub, BitVec.toNat_ofNat, BitVec.toNat_ofNat,
    Nat.mod_eq_of_lt (show 2 * i < 2 ^ 32 by omega),
    Nat.mod_eq_of_lt (show 2 * j < 2 ^ 32 by omega)]
  omega

/-- The cells after a store to one of them. -/
theorem Console.cell_setCell (s : Console) (v : BitVec 16) {i j : ℕ} (hi : i < crtSize)
    (hj : j < crtSize) : (s.setCell j v).cell i = if i = j then v else s.cell i := by
  by_cases h : i = j
  · subst h
    rw [if_pos rfl]
    exact Mem.load16_store16 s.mem _ v
  · rw [if_neg h]
    exact Mem.load16_store16_of_apart s.mem v (s.cellAddr_apart hj hi (Ne.symm h))
      (s.cellAddr_apart hi hj h)

/-- Moving the cursor changes no cell. -/
@[simp] theorem cell_crtPos (s : Console) (p : BitVec 16) (i : ℕ) :
    ({ s with crtPos := p } : Console).cell i = s.cell i := rfl

/-! ### Drawing -/

/-- A step that only draws: it stores inside the screen and may move the cursor and write
to ports, and everything else is as before. -/
structure Draws (s s' : Console) : Prop where
  addr6845 : s'.addr6845 = s.addr6845
  crtBuf : s'.crtBuf = s.crtBuf
  crtAttr : s'.crtAttr = s.crtAttr
  esc : s'.esc = s.esc
  param : s'.param = s.param
  params : s'.params = s.params
  nparams : s'.nparams = s.nparams
  uses : s'.uses = s.uses
  mem : Mem.Within (OnScreen s.crtBuf) s.mem s'.mem

/-- Nothing is drawn while nothing is done. -/
theorem Draws.refl (s : Console) : Draws s s :=
  ⟨rfl, rfl, rfl, rfl, rfl, rfl, rfl, rfl, Mem.Within.refl _ _⟩

/-- Drawing, one step after the other. -/
theorem Draws.trans {s₁ s₂ s₃ : Console} (h₁ : Draws s₁ s₂) (h₂ : Draws s₂ s₃) : Draws s₁ s₃ where
  addr6845 := h₂.addr6845.trans h₁.addr6845
  crtBuf := h₂.crtBuf.trans h₁.crtBuf
  crtAttr := h₂.crtAttr.trans h₁.crtAttr
  esc := h₂.esc.trans h₁.esc
  param := h₂.param.trans h₁.param
  params := h₂.params.trans h₁.params
  nparams := h₂.nparams.trans h₁.nparams
  uses := h₂.uses.trans h₁.uses
  mem := h₁.mem.trans (h₁.crtBuf ▸ h₂.mem)

/-- Drawing leaves the adapter where it is. -/
theorem Draws.video {s s' : Console} (h : Draws s s') (hv : s.Video) : s'.Video := by
  rw [Video, h.crtBuf, h.addr6845]
  exact hv

/-- A byte for a port stores nothing. -/
theorem outb_draws (port : BitVec 32) (data : Byte) (s : Console) : Draws s (s.outb port data) :=
  ⟨rfl, rfl, rfl, rfl, rfl, rfl, rfl, rfl, Mem.Within.refl _ _⟩

/-- A new cursor position stores nothing. -/
theorem crtPos_draws (s : Console) (p : BitVec 16) : Draws s { s with crtPos := p } :=
  ⟨rfl, rfl, rfl, rfl, rfl, rfl, rfl, rfl, Mem.Within.refl _ _⟩

/-- A cell on the screen is drawn. -/
theorem setCell_draws {i : ℕ} (hi : i < crtSize) (v : BitVec 16) (s : Console) :
    Draws s (s.setCell i v) :=
  ⟨rfl, rfl, rfl, rfl, rfl, rfl, rfl, rfl,
    Mem.within_store16 s.mem v ⟨i, hi, Or.inl rfl⟩ ⟨i, hi, Or.inr rfl⟩⟩

/-- Blanking a run of cells, as the scroll does for the last row. -/
theorem foldl_setCell_draws (l : List ℕ) (hl : ∀ i ∈ l, i < crtSize) (s : Console) :
    Draws s (l.foldl (fun s i => s.setCell i (s.crtAttr ||| 0x20)) s) :=
  List.foldlRecOn (motive := fun s' => Draws s s') l _ (Draws.refl s)
    fun _ h i hi => h.trans (setCell_draws (hl i hi) _ _)

/-! ### Scrolling -/

/-- Blanking cells moves no cursor. -/
theorem crtPos_foldl_setCell (l : List ℕ) (s : Console) :
    (l.foldl (fun s i => s.setCell i (s.crtAttr ||| 0x20)) s).crtPos = s.crtPos :=
  List.foldlRecOn (motive := fun s' : Console => s'.crtPos = s.crtPos) l _ rfl fun _ h _ _ => h

/-- The cells after blanking the `n` cells from `a` on. -/
theorem cell_foldl_setCell (n : ℕ) {a : ℕ} (ha : a + n ≤ crtSize) (s : Console) {i : ℕ}
    (hi : i < crtSize) :
    ((List.range' a n).foldl (fun s i => s.setCell i (s.crtAttr ||| 0x20)) s).cell i =
      if a ≤ i ∧ i < a + n then s.crtAttr ||| 0x20 else s.cell i := by
  induction n generalizing a s with
  | zero => rw [if_neg (by omega)]; rfl
  | succ n ih =>
      rw [List.range'_succ, List.foldl_cons, ih (by omega), s.cell_setCell _ hi (by omega)]
      have hattr : (s.setCell a (s.crtAttr ||| 0x20)).crtAttr = s.crtAttr := rfl
      rw [hattr]
      by_cases hia : i = a
      · rw [if_neg (by omega), if_pos hia, if_pos (by omega)]
      · rw [if_neg hia]
        exact if_congr (by omega) rfl rfl

/-- The memory after the move of the scroll: the upper rows hold the rows below them. -/
theorem load16_memmove_scroll {s : Console} (hv : s.Video) {i : ℕ} (hi : i < crtSize - crtCols) :
    (memmove s.mem s.crtBuf (s.cellAddr crtCols)
      (BitVec.ofNat 32 ((crtSize - crtCols) * 2))).load16 (s.cellAddr i) =
        s.cell (i + crtCols) := by
  have hroom := hv.room
  simp only [crtSize, crtCols] at hi hroom
  have hsrc : (s.cellAddr crtCols).toNat = s.crtBuf.toNat + 160 := by
    rw [cellAddr, BitVec.toNat_add]
    exact Nat.mod_eq_of_lt (show s.crtBuf.toNat + 160 < 2 ^ 32 by omega)
  have hn : (BitVec.ofNat 32 ((crtSize - crtCols) * 2)).toNat = 3840 := rfl
  have hbyte : ∀ k : ℕ, k < 3840 →
      (memmove s.mem s.crtBuf (s.cellAddr crtCols)
        (BitVec.ofNat 32 ((crtSize - crtCols) * 2))).byte (s.crtBuf + BitVec.ofNat 32 k) =
          s.mem.byte (s.crtBuf + BitVec.ofNat 32 (k + 160)) := by
    intro k hk
    rw [byte_memmove _ (by rw [hsrc, hn]; omega) (by rw [hn]; omega), hn, Mem.copied,
      show s.crtBuf + BitVec.ofNat 32 k - s.crtBuf = BitVec.ofNat 32 k by ring, if_pos,
      cellAddr, add_assoc, ← BitVec.ofNat_add, Nat.add_comm]
    · rfl
    · rw [BitVec.toNat_ofNat, Nat.mod_eq_of_lt (by omega)]
      exact hk
  have haddr : s.cellAddr (i + crtCols) = s.crtBuf + BitVec.ofNat 32 (2 * i + 160) := by
    rw [cellAddr, Nat.mul_add]
    rfl
  rw [cell, haddr, show s.cellAddr i = s.crtBuf + BitVec.ofNat 32 (2 * i) from rfl, Mem.load16,
    Mem.load16, Mem.add_ofNat_add_one, Mem.add_ofNat_add_one, hbyte _ (by omega),
    hbyte _ (by omega), Nat.add_right_comm]

/-- The cells after a scroll: every row moved up by one, the last row blank in the
current attribute. -/
theorem cell_scroll {s : Console} (hv : s.Video) {i : ℕ} (hi : i < crtSize) :
    (scroll s).cell i =
      if i < crtSize - crtCols then s.cell (i + crtCols) else s.crtAttr ||| 0x20 := by
  rw [scroll, cell_crtPos, cell_foldl_setCell crtCols (by simp only [crtSize, crtCols]; omega) _ hi]
  by_cases hlow : i < crtSize - crtCols
  · rw [if_neg (by omega), if_pos hlow]
    exact load16_memmove_scroll hv hlow
  · rw [if_pos ⟨by omega, by simp only [crtSize, crtCols] at hi ⊢; omega⟩, if_neg hlow]

/-- The cursor after a scroll: up by one row. -/
theorem crtPos_scroll (s : Console) :
    (scroll s).crtPos = s.crtPos - BitVec.ofNat 16 crtCols := by
  simp only [scroll, crtPos_foldl_setCell]

/-- The move of a scroll stays on the screen. -/
theorem onScreen_of_span {buf a : Addr} (h : Mem.Span buf ((crtSize - crtCols) * 2) a) :
    OnScreen buf a := by
  simp only [Mem.Span, crtSize, crtCols] at h
  have ha : ∀ k : ℕ, k = (a - buf).toNat → a = buf + BitVec.ofNat 32 k := by
    intro k hk
    rw [hk, Mem.add_ofNat_toNat_sub]
  refine ⟨(a - buf).toNat / 2, by simp only [crtSize]; omega, ?_⟩
  rcases Nat.mod_two_eq_zero_or_one (a - buf).toNat with hpar | hpar
  · exact Or.inl (ha _ (by omega))
  · right
    rw [Mem.add_ofNat_add_one]
    exact ha _ (by omega)

/-- A scroll draws the rows that move, and the blank one. -/
theorem scroll_draws (s : Console) : Draws s (scroll s) := by
  have hmove : Draws s { s with
      mem := memmove s.mem s.crtBuf (s.cellAddr crtCols)
        (BitVec.ofNat 32 ((crtSize - crtCols) * 2)) } :=
    ⟨rfl, rfl, rfl, rfl, rfl, rfl, rfl, rfl,
      (memmove_within s.mem s.crtBuf (s.cellAddr crtCols)
        (BitVec.ofNat 32 ((crtSize - crtCols) * 2))).mono fun _ ha => onScreen_of_span ha⟩
  have hblank := foldl_setCell_draws (List.range' (crtSize - crtCols) crtCols)
    (fun i hi => by
      obtain ⟨-, hlt⟩ := List.mem_range'_1.mp hi
      exact hlt) { s with
      mem := memmove s.mem s.crtBuf (s.cellAddr crtCols)
        (BitVec.ofNat 32 ((crtSize - crtCols) * 2)) }
  exact (hmove.trans hblank).trans (crtPos_draws _ _)

/-! ### The cursor -/

/-- The start of the cursor's row. -/
theorem toNat_rowStart (p : BitVec 16) :
    (p - p % BitVec.ofNat 16 crtCols).toNat = p.toNat - p.toNat % crtCols := by
  have hcols : (BitVec.ofNat 16 crtCols).toNat = 80 := rfl
  rw [BitVec.toNat_sub, BitVec.toNat_umod, hcols, crtCols]
  have := p.isLt
  omega

/-- One row further down. -/
theorem toNat_add_cols {p : BitVec 16} (hp : p.toNat < crtSize) :
    (p + BitVec.ofNat 16 crtCols).toNat = p.toNat + crtCols := by
  simp only [crtSize, crtCols] at hp ⊢
  rw [BitVec.toNat_add, BitVec.toNat_ofNat]
  omega

/-- One row further up. -/
theorem toNat_sub_cols {p : BitVec 16} (hp : crtCols ≤ p.toNat) :
    (p - BitVec.ofNat 16 crtCols).toNat = p.toNat - crtCols := by
  have hcols : (BitVec.ofNat 16 crtCols).toNat = 80 := rfl
  simp only [crtCols] at hp hcols ⊢
  have := p.isLt
  rw [BitVec.toNat_sub, hcols]
  omega

/-- The cursor steps on without a wrap. -/
theorem toNat_add_one {p : BitVec 16} (hp : p.toNat < crtSize) : (p + 1).toNat = p.toNat + 1 := by
  simp only [crtSize] at hp
  rw [BitVec.toNat_add, show (1 : BitVec 16).toNat = 1 from rfl]
  omega

/-- It steps back without one. -/
theorem toNat_sub_one {p : BitVec 16} (hp : 0 < p) : (p - 1).toNat = p.toNat - 1 := by
  have hpos : 0 < p.toNat := hp
  have := p.isLt
  rw [BitVec.toNat_sub, show (1 : BitVec 16).toNat = 1 from rfl]
  omega

/-- A step that only draws and leaves the cursor inside the screen, with the cursor
registers in step. -/
structure Drawn (s s' : Console) : Prop extends Draws s s' where
  pos : s'.crtPos.toNat < crtSize
  cursor : s'.crtc.cursor = s'.crtPos

/-- The four port writes put the cursor position into the cursor registers. -/
theorem cursor_moveCursor (s : Console) : (moveCursor s).crtc.cursor = s.crtPos := by
  have hne : ∀ b : BitVec 32, b + 1 ≠ b := by
    intro b h
    have h1 : b + 1 - b = b - b := by rw [h]
    ring_nf at h1
    exact absurd h1 (by decide)
  have hreg : (15 : Byte) ≠ 14 := by decide
  simp only [moveCursor, outb, Crtc.outb, Crtc.cursor, if_true, if_neg (hne _),
    Function.update_self, Function.update_of_ne hreg.symm]
  exact Mem.append_bytes s.crtPos

/-- The writes that move the cursor store nothing. -/
theorem moveCursor_draws (s : Console) : Draws s (moveCursor s) :=
  (((outb_draws _ _ s).trans (outb_draws _ _ _)).trans (outb_draws _ _ _)).trans
    (outb_draws _ _ _)

/-- Moving the cursor ends a step that only draws. -/
theorem moveCursor_drawn {s s' : Console} (h : Draws s s') (hp : s'.crtPos.toNat < crtSize) :
    Drawn s (moveCursor s') :=
  ⟨h.trans (moveCursor_draws s'), hp, cursor_moveCursor s'⟩

/-- The scroll check brings the cursor back from the row below the screen. -/
theorem scrollCheck_draws {s : Console} (hp : s.crtPos.toNat < crtSize + crtCols) :
    Draws s (scrollCheck s) ∧ (scrollCheck s).crtPos.toNat < crtSize := by
  rw [scrollCheck]
  split
  · rename_i h
    have hcols : crtCols ≤ s.crtPos.toNat := le_trans (by decide) h
    refine ⟨scroll_draws s, ?_⟩
    rw [crtPos_scroll, toNat_sub_cols hcols]
    omega
  · rename_i h
    exact ⟨Draws.refl s, Nat.lt_of_not_le h⟩

/-- **The switch draws.** Every case stays inside the screen with what it writes, and
moves the cursor at most one row past the end; the tab case is as good as the blanks it
prints. -/
theorem cgaSwitch_draws {f : BitVec 32 → Console → Console} (c : BitVec 32) {s : Console}
    (hp : s.crtPos.toNat < crtSize)
    (htab : Draws s ((f 0x20)^[5] s) ∧ ((f 0x20)^[5] s).crtPos.toNat < crtSize) :
    Draws s (cgaSwitch f c s) ∧ (cgaSwitch f c s).crtPos.toNat < crtSize + crtCols := by
  rw [cgaSwitch]
  split
  · split
    · rename_i hpos
      have hlt : (s.crtPos - 1).toNat < crtSize := by rw [toNat_sub_one hpos]; omega
      exact ⟨(crtPos_draws s _).trans (setCell_draws hlt _ _), by simp only [setCell]; omega⟩
    · exact ⟨Draws.refl s, by omega⟩
  split
  · refine ⟨(crtPos_draws s _).trans (crtPos_draws _ _), ?_⟩
    rw [toNat_rowStart, toNat_add_cols hp]
    omega
  split
  · refine ⟨crtPos_draws s _, ?_⟩
    rw [toNat_rowStart]
    omega
  split
  · exact ⟨htab.1, by omega⟩
  · refine ⟨(setCell_draws hp _ s).trans (crtPos_draws _ _), ?_⟩
    have hnext : (s.crtPos + 1).toNat = s.crtPos.toNat + 1 := toNat_add_one hp
    exact lt_of_eq_of_lt hnext (by simp only [crtCols]; omega)

/-- Drawing a character, over any `cons_putc` whose blanks draw. -/
theorem cgaPutcBody_drawn {f : BitVec 32 → Console → Console} (c : BitVec 32) {s : Console}
    (hp : s.crtPos.toNat < crtSize)
    (htab : Draws s ((f 0x20)^[5] s) ∧ ((f 0x20)^[5] s).crtPos.toNat < crtSize) :
    Drawn s (cgaPutcBody f c s) := by
  obtain ⟨hsw, hpsw⟩ := cgaSwitch_draws (withAttr c s) hp htab
  obtain ⟨hsc, hpsc⟩ := scrollCheck_draws hpsw
  rw [cgaPutcBody]
  exact moveCursor_drawn (hsw.trans hsc) hpsc

/-! ### Normal output -/

/-- The normal output of a character: `cons_putc` outside escape sequences. -/
def emit : BitVec 32 → Console → Console :=
  emitBody cgaPutc

/-- The serial port has nothing to do with the screen. -/
theorem serialPutc_draws (c : BitVec 32) (s : Console) : Draws s (serialPutc c s) :=
  outb_draws _ _ s

/-- Nor has the printer. -/
theorem lptPutc_draws (c : BitVec 32) (s : Console) : Draws s (lptPutc c s) :=
  ((outb_draws _ _ s).trans (outb_draws _ _ _)).trans (outb_draws _ _ _)

/-- In the parser's ground state every character but ESC is normal output. -/
theorem consPutc_ground {c : BitVec 32} {s : Console} (he : s.esc = 0) (hc : c &&& 0xFF ≠ 0x1B) :
    consPutc c s = emit c s := by
  rw [consPutc_eq, consPutcBody_text _ _ he, if_neg hc, emit]

/-- A blank draws: it reaches no tab case. -/
theorem emit_blank_drawn {s : Console} (hp : s.crtPos.toNat < crtSize) :
    Drawn s (emit 0x20 s) := by
  have hport := (serialPutc_draws 0x20 s).trans (lptPutc_draws 0x20 _)
  have hcga : Drawn (lptPutc 0x20 (serialPutc 0x20 s)) (cgaPutc 0x20
      (lptPutc 0x20 (serialPutc 0x20 s))) := by
    rw [cgaPutc, cgaPutcBody_congr (Or.inr (by decide)) consPutcBlank fun _ s => s]
    exact cgaPutcBody_drawn 0x20 hp ⟨Draws.refl _, hp⟩
  exact ⟨hport.trans hcga.toDraws, hcga.pos, hcga.cursor⟩

/-- The blanks of a tab draw. -/
theorem iterate_blank_draws (n : ℕ) {s : Console} (he : s.esc = 0)
    (hp : s.crtPos.toNat < crtSize) :
    Draws s ((consPutc 0x20)^[n] s) ∧ ((consPutc 0x20)^[n] s).crtPos.toNat < crtSize := by
  induction n with
  | zero => exact ⟨Draws.refl s, hp⟩
  | succ n ih =>
      rw [Function.iterate_succ_apply', consPutc_ground (ih.1.esc.trans he) (by decide)]
      have hblank := emit_blank_drawn ih.2
      exact ⟨ih.1.trans hblank.toDraws, hblank.pos⟩

/-- **The display draws.** In the parser's ground state `cga_putc` touches only the
screen, the ports and the cursor, and leaves the cursor inside the screen. -/
theorem cgaPutc_drawn (c : BitVec 32) {s : Console} (he : s.esc = 0)
    (hp : s.crtPos.toNat < crtSize) : Drawn s (cgaPutc c s) := by
  rw [cgaPutc_eq]
  exact cgaPutcBody_drawn c hp (iterate_blank_draws 5 he hp)

/-- Normal output draws. -/
theorem emit_drawn (c : BitVec 32) {s : Console} (he : s.esc = 0)
    (hp : s.crtPos.toNat < crtSize) : Drawn s (emit c s) := by
  have hcga := cgaPutc_drawn c (s := lptPutc c (serialPutc c s)) he hp
  exact ⟨((serialPutc_draws c s).trans (lptPutc_draws c _)).trans hcga.toDraws, hcga.pos,
    hcga.cursor⟩

end Jos
