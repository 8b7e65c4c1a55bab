import Jos.ConsoleInv
import Jos.Glyph
import Jos.Terminal

/-!
# The Screen Refines the Unbounded Terminal

The 2000 cells of video memory and `crt_pos` are, at every step, exactly the visible rows
of an unbounded terminal (`Jos.Terminal`) of 25 rows by 80 columns and its cursor relative
to the first of them. `typeByte` says what a byte does to the terminal; `cgaPutc_shown` is
the step of the simulation and `cgaPutc_run_shown` the run.

## Main results

* `shown_put`, `shown_newline`, `shown_carriageReturn`, `shown_backspace`: the cases of
  the switch of `cga_putc`, each with the scroll check behind it.
* `cgaPutc_shown`: `cga_putc` on a byte refines `typeByte`.
* `cgaPutc_run_shown`: so does every sequence of bytes, from any screen and cursor.
-/

namespace Jos

open Console

/-! ### The terminal behind the screen -/

/-- The terminal of which the screen shows 25 rows of 80 cells. -/
abbrev CrtTerm := Term (BitVec 16) 25 crtCols

/-- What a byte does to the terminal, in the attribute `attr`. -/
def typeByte (attr : BitVec 16) (b : Byte) (t : CrtTerm) : CrtTerm :=
  if b = 0x08 then t.backspace (glyph attr 0x20)
  else if b = 0x0A then t.newline (glyph attr 0x20)
  else if b = 0x0D then t.carriageReturn
  else if b = 0x09 then (Term.put (glyph attr 0x20) (glyph attr 0x20))^[5] t
  else t.put (glyph attr 0x20) (glyph attr b)

/-- What a byte does to a terminal of any cells: `v` is its own cell, `blank` that of a
blank. -/
def typeCell {α : Type} (blank v : α) (b : Byte) (t : Term α 25 crtCols) : Term α 25 crtCols :=
  if b = 0x08 then t.backspace blank
  else if b = 0x0A then t.newline blank
  else if b = 0x0D then t.carriageReturn
  else if b = 0x09 then (Term.put blank blank)^[5] t
  else t.put blank v

/-- A printable character on such a terminal. -/
def putCell {α : Type} (blank v : α) (t : Term α 25 crtCols) : Term α 25 crtCols :=
  t.put blank v

/-- A byte is typed in cells of its attribute. -/
theorem typeByte_eq (attr : BitVec 16) (b : Byte) (t : CrtTerm) :
    typeByte attr b t = typeCell (glyph attr 0x20) (glyph attr b) b t :=
  rfl

/-- Cells are mapped before or after a character is typed. -/
theorem map_typeCell {α β : Type} (f : α → β) (blank v : α) (b : Byte)
    (t : Term α 25 crtCols) :
    (typeCell blank v b t).map f = typeCell (f blank) (f v) b (t.map f) := by
  rw [typeCell, typeCell]
  split
  · exact Term.map_backspace f blank t
  split
  · exact Term.map_newline f blank t
  split
  · rfl
  split
  · exact Term.map_iterate_put f blank blank 5 t
  · exact Term.map_put f blank v t

/-- The screen in memory shows a terminal. -/
def Console.Shown (s : Console) (t : CrtTerm) : Prop :=
  Shows s.cell s.crtPos.toNat t

/-- The cursor that is shown is on the screen. -/
theorem Console.Shown.pos {s : Console} {t : CrtTerm} (h : s.Shown t) :
    s.crtPos.toNat < crtSize :=
  Shows.pos_lt h

/-- The scroll check does to the screen what settling does to the terminal. -/
theorem scrollCheck_shown {s : Console} (hv : s.Video) {cell : ℕ → BitVec 16} {cur top : ℕ}
    (habove : crtCols * top ≤ cur) (hbelow : cur < crtCols * (top + 25 + 1))
    (hcell : ∀ i < crtSize, s.cell i = cell (crtCols * top + i))
    (hcur : crtCols * top + s.crtPos.toNat = cur) :
    (scrollCheck s).Shown (Term.settle (glyph s.crtAttr 0x20) cell cur top habove hbelow) := by
  rw [scrollCheck]
  split
  · rename_i hout
    have hcols : crtCols ≤ s.crtPos.toNat := le_trans (by decide) hout
    rw [Shown, crtPos_scroll, toNat_sub_cols hcols]
    exact Shows.settle_scroll hcell hcur hout fun i hi => cell_scroll hv hi
  · rename_i hin
    exact Shows.settle_stay hcell hcur (Nat.lt_of_not_le hin)

/-- A cursor inside the screen makes the scroll check do nothing. -/
theorem scrollCheck_of_lt {s : Console} (h : s.crtPos.toNat < crtSize) : scrollCheck s = s := by
  rw [scrollCheck, if_neg (Nat.not_le_of_lt h)]

/-- Moving the hardware cursor changes nothing that is shown. -/
theorem moveCursor_shown {s : Console} {t : CrtTerm} (h : s.Shown t) : (moveCursor s).Shown t :=
  h

/-! ### The simulation -/

/-- Writing a cell at the cursor, then the scroll check. -/
theorem shown_put {s : Console} {t : CrtTerm} (hv : s.Video) (h : s.Shown t) (v : BitVec 16) :
    (scrollCheck { s.setCell s.crtPos.toNat v with crtPos := s.crtPos + 1 }).Shown
      (t.put (glyph s.crtAttr 0x20) v) := by
  refine scrollCheck_shown (s := { s.setCell s.crtPos.toNat v with crtPos := s.crtPos + 1 })
    hv _ _ (fun i hi => ?_) ?_
  · rw [cell_crtPos, s.cell_setCell v hi h.pos, Function.update_apply, ← h.cur, h.cell i hi]
    exact if_congr (by omega) rfl rfl
  · have hcur := h.cur
    have hnext := toNat_add_one h.pos
    simp only [hnext]
    omega

/-- Going to the next row, then the scroll check. -/
theorem shown_newline {s : Console} {t : CrtTerm} (hv : s.Video) (h : s.Shown t) :
    (scrollCheck { s with
      crtPos := s.crtPos + BitVec.ofNat 16 crtCols -
        (s.crtPos + BitVec.ofNat 16 crtCols) % BitVec.ofNat 16 crtCols }).Shown
      (t.newline (glyph s.crtAttr 0x20)) := by
  refine scrollCheck_shown (s := { s with
    crtPos := s.crtPos + BitVec.ofNat 16 crtCols -
      (s.crtPos + BitVec.ofNat 16 crtCols) % BitVec.ofNat 16 crtCols }) hv _ _ h.cell ?_
  have hcur := h.cur
  rw [toNat_rowStart, toNat_add_cols h.pos, ← hcur]
  simp only [crtCols]
  omega

/-- Going back to the start of the row. -/
theorem shown_carriageReturn {s : Console} {t : CrtTerm} (h : s.Shown t) :
    ({ s with crtPos := s.crtPos - s.crtPos % BitVec.ofNat 16 crtCols } : Console).Shown
      t.carriageReturn := by
  refine ⟨h.cell, ?_⟩
  have hcur := h.cur
  simp only [Term.carriageReturn]
  rw [toNat_rowStart, ← hcur]
  simp only [crtCols]
  omega

/-- Stepping back. -/
theorem shown_backspace {s : Console} {t : CrtTerm} (h : s.Shown t) (v : BitVec 16) :
    (if 0 < s.crtPos then
      ({ s with crtPos := s.crtPos - 1 } : Console).setCell (s.crtPos - 1).toNat v
    else s).Shown (t.backspace v) := by
  have hcur := h.cur
  by_cases hpos : 0 < s.crtPos
  · have hpos' : 0 < s.crtPos.toNat := hpos
    have hprev := toNat_sub_one hpos
    have hlt := h.pos
    rw [if_pos hpos, Term.backspace, dif_pos (by omega)]
    refine ⟨fun i hi => ?_, ?_⟩
    · change _ = Function.update t.cell (t.cur - 1) v (crtCols * t.top + i)
      rw [Console.cell_setCell _ v hi (by omega), cell_crtPos, h.cell i hi,
        Function.update_apply, hprev]
      exact if_congr (by omega) rfl rfl
    · change crtCols * t.top + (s.crtPos - 1).toNat = t.cur - 1
      omega
  · have hpos' : ¬ 0 < s.crtPos.toNat := hpos
    rw [if_neg hpos, Term.backspace, dif_neg (by omega)]
    exact h

/-- **The step, up to tabs.** Over any `cons_putc` whose five blanks are the terminal's. -/
theorem cgaPutcBody_shown {f : BitVec 32 → Console → Console} {s : Console} {t : CrtTerm}
    (hv : s.Video) (hattr : s.crtAttr.setWidth 8 = (0 : Byte)) (h : s.Shown t) (b : Byte)
    (htab : b = 0x09 → ((f 0x20)^[5] s).Shown
      ((Term.put (glyph s.crtAttr 0x20) (glyph s.crtAttr 0x20))^[5] t)) :
    (cgaPutcBody f (b.setWidth 32) s).Shown (typeByte s.crtAttr b t) := by
  rw [cgaPutcBody]
  apply moveCursor_shown
  rw [cgaSwitch_byte f hattr b, typeByte]
  by_cases h08 : b = 0x08
  · simp only [if_pos h08]
    have hback := shown_backspace h (glyph s.crtAttr 0x20)
    rw [← scrollCheck_of_lt hback.pos] at hback
    exact hback
  by_cases h0A : b = 0x0A
  · simp only [if_neg h08, if_pos h0A]
    exact shown_newline hv h
  by_cases h0D : b = 0x0D
  · simp only [if_neg h08, if_neg h0A, if_pos h0D]
    have hcr := shown_carriageReturn h
    rw [← scrollCheck_of_lt hcr.pos] at hcr
    exact hcr
  by_cases h09 : b = 0x09
  · simp only [if_neg h08, if_neg h0A, if_neg h0D, if_pos h09]
    rw [scrollCheck_of_lt (htab h09).pos]
    exact htab h09
  · simp only [if_neg h08, if_neg h0A, if_neg h0D, if_neg h09]
    exact shown_put hv h _

/-- One blank through the whole console, on the screen. -/
theorem emit_blank_shown {s : Console} {t : CrtTerm} (hv : s.Video)
    (hattr : s.crtAttr.setWidth 8 = (0 : Byte)) (h : s.Shown t) :
    (emit 0x20 s).Shown (t.put (glyph s.crtAttr 0x20) (glyph s.crtAttr 0x20)) := by
  change (cgaPutc 0x20 (lptPutc 0x20 (serialPutc 0x20 s))).Shown _
  rw [cgaPutc, cgaPutcBody_congr (Or.inr (by decide)) consPutcBlank fun _ s => s]
  exact cgaPutcBody_shown (s := lptPutc 0x20 (serialPutc 0x20 s)) hv hattr h 0x20
    fun h09 => absurd h09 (by decide)

/-- The blanks of a tab, on the screen. -/
theorem iterate_blank_shown (n : ℕ) {s : Console} {t : CrtTerm} (hv : s.Video)
    (hattr : s.crtAttr.setWidth 8 = (0 : Byte)) (he : s.esc = 0) (h : s.Shown t) :
    ((consPutc 0x20)^[n] s).Shown
      ((Term.put (glyph s.crtAttr 0x20) (glyph s.crtAttr 0x20))^[n] t) := by
  induction n with
  | zero => exact h
  | succ n ih =>
      have hd := (iterate_blank_draws n he h.pos).1
      rw [Function.iterate_succ_apply', Function.iterate_succ_apply',
        consPutc_ground (hd.esc.trans he) (by decide), ← hd.crtAttr]
      rw [← hd.crtAttr] at ih hattr
      exact emit_blank_shown (hd.video hv) hattr ih

/-- **The step.** `cga_putc` on a byte does to the screen what the byte does to the
terminal the screen shows. -/
theorem cgaPutc_shown {s : Console} {t : CrtTerm} (hv : s.Video)
    (hattr : s.crtAttr.setWidth 8 = (0 : Byte)) (he : s.esc = 0) (h : s.Shown t) (b : Byte) :
    (cgaPutc (b.setWidth 32) s).Shown (typeByte s.crtAttr b t) := by
  rw [cgaPutc_eq]
  exact cgaPutcBody_shown hv hattr h b fun _ => iterate_blank_shown 5 hv hattr he h

/-- What the run keeps: the adapter, the attribute and the parser's ground state. -/
theorem cgaPutc_run_keeps (bs : List Byte) {s : Console} (he : s.esc = 0)
    (hpos : s.crtPos.toNat < crtSize) :
    Draws s (bs.foldl (fun s b => cgaPutc (b.setWidth 32) s) s) ∧
      (bs.foldl (fun s b => cgaPutc (b.setWidth 32) s) s).crtPos.toNat < crtSize :=
  List.foldlRecOn (motive := fun s' => Draws s s' ∧ s'.crtPos.toNat < crtSize) bs _
    ⟨Draws.refl s, hpos⟩ fun s' hs' b _ => by
      have hd := cgaPutc_drawn (b.setWidth 32) (hs'.1.esc.trans he) hs'.2
      exact ⟨hs'.1.trans hd.toDraws, hd.pos⟩

/-- **The screen refines the unbounded terminal.** From any screen content and any cursor
inside the screen, after any sequence of bytes given to `cga_putc` in the parser's ground
state, `crt_buf` is exactly the visible rows of the terminal that has been given the same
bytes, and `crt_pos` is its cursor relative to the first visible cell. -/
theorem cgaPutc_run_shown {s : Console} (hv : s.Video)
    (hattr : s.crtAttr.setWidth 8 = (0 : Byte)) (he : s.esc = 0)
    (hpos : s.crtPos.toNat < crtSize) (bs : List Byte) :
    let s' := bs.foldl (fun s b => cgaPutc (b.setWidth 32) s) s
    let t' := bs.foldl (fun t b => typeByte s.crtAttr b t)
      (Term.ofScreen s.cell s.crtPos.toNat hpos)
    (∀ i < crtSize, s'.cell i = t'.cell (crtCols * t'.top + i)) ∧
      crtCols * t'.top + s'.crtPos.toNat = t'.cur := by
  intro s' t'
  have hrun : s'.Shown t' := by
    induction bs using List.reverseRecOn with
    | nil => exact Shows.ofScreen _ _ _
    | append_singleton bs b ih =>
        have hkeep := (cgaPutc_run_keeps bs he hpos).1
        have hstep := cgaPutc_shown (hkeep.video hv) (hkeep.crtAttr ▸ hattr)
          (hkeep.esc.trans he) ih b
        rw [hkeep.crtAttr] at hstep
        simp only [s', t', List.foldl_append, List.foldl_cons, List.foldl_nil]
        exact hstep
  exact ⟨hrun.cell, hrun.cur⟩

/-- A letter and a newline on the colour adapter, from an empty screen. -/
theorem cgaPutc_run_shown_letter :
    let s : Console := { statics ⟨fun _ => 0, []⟩ ⟨0, fun _ => 0⟩ with
      crtBuf := kernbase + cgaBuf
      addr6845 := cgaBase }
    let s' := [0x41, 0x0A].foldl (fun s (b : Byte) => cgaPutc (b.setWidth 32) s) s
    let t' := [0x41, 0x0A].foldl (fun t b => typeByte s.crtAttr b t)
      (Term.ofScreen s.cell s.crtPos.toNat (by decide))
    (∀ i < crtSize, s'.cell i = t'.cell (crtCols * t'.top + i)) ∧
      crtCols * t'.top + s'.crtPos.toNat = t'.cur :=
  cgaPutc_run_shown (Or.inl ⟨rfl, rfl⟩) (by decide) rfl (by decide) [0x41, 0x0A]

end Jos
