import Jos.Echo

/-!
# Literal Text and `%s`

`vprintfmt` reads the characters of its format through `unsigned char *`, and those of the
argument of `%s` through `char *`, which is signed. From 0x80 on the two are different ints,
and `cga_putc` takes the high bits of the second for an attribute: the cell is written in
white on white, in place of the current attribute.

Two runs of `cons_putc` over the same bytes, one for each reading, are compared through one
terminal of pairs of cells: either screen shows its half of it (`Twin`). Where the two
halves differ is what `marks` follows, over the parser alone.

## Main results

* `glyph_ne_signedGlyph_iff`: the two readings of a character, on the screen.
* `consPutc_twin`, `consPutc_run_twin`: one byte, and a run, through both readings.
* `printsAlike_iff`: **literal and `%s` text print alike** exactly when every cell that has
  lost its attribute is gone from the screen at the end, and the width of `%s` has not
  wrapped around.
-/

namespace Jos

open Console

/-! ### Characters from 0x80 on -/

/-- A character below 0x80 is the same int, read either way. -/
theorem signExtend_of_lt {b : Byte} (h : b < 0x80) : b.signExtend 32 = b.setWidth 32 := by
  refine BitVec.signExtend_eq_setWidth_of_msb_false ?_
  rw [BitVec.msb_eq_false_iff_two_mul_lt]
  have hlt : b.toNat < 0x80 := h
  omega

theorem signExtend_and_0xFF (b : Byte) :
    (b.signExtend 32 : BitVec 32) &&& 0xFF = b.setWidth 32 := by
  rw [and_0xFF, lowByte_signExtend]

/-- From 0x80 on a plain `char` has all its high bits set. -/
theorem getLsbD_signExtend_of_le {b : Byte} (h : 0x80 ≤ b) {w i : ℕ} (hi : i < w)
    (hhigh : 8 ≤ i) : (b.signExtend w).getLsbD i = true := by
  have hle : 0x80 ≤ b.toNat := h
  rw [BitVec.getLsbD_signExtend, decide_eq_true hi, if_neg (Nat.not_lt.mpr hhigh),
    Bool.true_and, BitVec.msb_eq_true_iff_two_mul_ge]
  omega

theorem getLsbD_0xFF00 : ∀ i < 16, (0xFF00 : BitVec 16).getLsbD i = decide (8 ≤ i) := by
  decide

/-- The cell of such a `char` is the character, white on white. -/
theorem signExtend_of_le {b : Byte} (h : 0x80 ≤ b) :
    b.signExtend 16 = 0xFF00 ||| b.setWidth 16 := by
  apply BitVec.eq_of_getLsbD_eq
  intro i hi
  rw [BitVec.getLsbD_or, getLsbD_0xFF00 i hi]
  by_cases hlow : i < 8
  · simp [BitVec.getElem_signExtend, hlow, hi, Nat.not_le.mpr hlow]
  · simp [getLsbD_signExtend_of_le h hi (Nat.not_lt.mp hlow), Nat.not_lt.mp hlow]

theorem ne_of_high {b k : Byte} (hb : 0x80 ≤ b) (hk : k < 0x80) : b ≠ k := by
  rintro rfl
  exact BitVec.not_le.mpr hk hb

/-- The screen cell of the plain `char` `b`, in the attribute `attr`. -/
def signedGlyph (attr : BitVec 16) (b : Byte) : BitVec 16 :=
  if b < 0x80 then glyph attr b else b.signExtend 16

/-- The character `b` loses the attribute `attr` when it is printed as a plain `char`. -/
def LosesAttr (attr : BitVec 16) (b : Byte) : Prop :=
  0x80 ≤ b ∧ attr ≠ 0xFF00

instance (attr : BitVec 16) (b : Byte) : Decidable (LosesAttr attr b) :=
  inferInstanceAs (Decidable (_ ∧ _))

/-- **The two readings of a character**, on the screen. -/
theorem glyph_ne_signedGlyph_iff {attr : BitVec 16} (hattr : attr.setWidth 8 = (0 : Byte))
    (b : Byte) : glyph attr b ≠ signedGlyph attr b ↔ LosesAttr attr b := by
  rw [LosesAttr, signedGlyph]
  by_cases hb : b < 0x80
  · rw [if_pos hb]
    exact iff_of_false (fun h => h rfl) fun h => BitVec.not_le.mpr hb h.1
  have hle : 0x80 ≤ b := BitVec.not_lt.mp hb
  rw [if_neg hb, signExtend_of_le hle, glyph]
  refine ⟨fun h => ⟨hle, fun hwhite => h (by rw [hwhite])⟩, fun h heq => h.2 ?_⟩
  apply BitVec.eq_of_getLsbD_eq
  intro i hi
  by_cases hlow : i < 8
  · rw [getLsbD_attr hattr hlow, getLsbD_0xFF00 i hi, decide_eq_false (Nat.not_le.mpr hlow)]
  · have hbit := congrArg (fun v => BitVec.getLsbD v i) heq
    have hzero : b.getLsbD i = false := BitVec.getLsbD_of_ge b i (by omega)
    simpa [hzero] using hbit

/-- The switch of the display on a plain `char` from 0x80 on: it brings an attribute of its
own, and is none of the characters that move the cursor. -/
theorem cgaSwitch_of_le (f : BitVec 32 → Console → Console) {b : Byte} (hb : 0x80 ≤ b)
    (s : Console) : cgaSwitch f (withAttr (b.signExtend 32) s) s =
      { s.setCell s.crtPos.toNat (b.signExtend 16) with crtPos := s.crtPos + 1 } := by
  have hattr : (b.signExtend 32 : BitVec 32) &&& ~~~0xFF ≠ 0 := by
    intro h
    have hbit := congrArg (fun v => BitVec.getLsbD v 31) h
    simp only [getLsbD_and_not_0xFF _ (show 31 < 32 by omega),
      getLsbD_signExtend_of_le hb (show 31 < 32 by omega) (by omega)] at hbit
    exact absurd hbit (by decide)
  have hne : ∀ k : Byte, k < 0x80 → ¬ (b.setWidth 32 : BitVec 32) = k.setWidth 32 :=
    fun k hk h => ne_of_high hb hk ((setWidth_byte_inj b k).mp h)
  have h08 : ¬ (b.setWidth 32 : BitVec 32) = 0x08 := hne 0x08 (by decide)
  have h0A : ¬ (b.setWidth 32 : BitVec 32) = 0x0A := hne 0x0A (by decide)
  have h0D : ¬ (b.setWidth 32 : BitVec 32) = 0x0D := hne 0x0D (by decide)
  have h09 : ¬ (b.setWidth 32 : BitVec 32) = 0x09 := hne 0x09 (by decide)
  rw [withAttr, if_neg hattr, cgaSwitch, signExtend_and_0xFF, if_neg h08, if_neg h0A, if_neg h0D,
    if_neg h09, setWidth_signExtend (by omega)]
  rfl

/-! ### A plain `char` through the devices -/

/-- A plain `char` from 0x80 on, on the screen. -/
theorem cgaPutc_signed_shown {s : Console} {t : CrtTerm} (hv : s.Video) (h : s.Shown t) {b : Byte}
    (hb : 0x80 ≤ b) :
    (cgaPutc (b.signExtend 32) s).Shown (t.put (glyph s.crtAttr 0x20) (b.signExtend 16)) := by
  rw [cgaPutc, cgaPutcBody, cgaSwitch_of_le _ hb]
  exact moveCursor_shown (shown_put hv h (b.signExtend 16))

/-- It sends nothing of its own accord. -/
theorem cgaPutc_signed_sends {s : Console} (hv : s.Video) {b : Byte} (hb : 0x80 ≤ b) :
    Sends s (cgaPutc (b.signExtend 32) s) [] [] := by
  refine cgaPutcBody_sends hv ?_
  rw [cgaSwitch_of_le _ hb]
  exact ⟨(List.append_nil _).symm, (List.append_nil _).symm, rfl, rfl, rfl, rfl⟩

/-- A plain `char` outside escape sequences, on the screen. -/
theorem emit_signed_shown {s : Console} {t : CrtTerm} (hv : s.Video)
    (hattr : s.crtAttr.setWidth 8 = (0 : Byte)) (he : s.esc = 0) (h : s.Shown t) (b : Byte) :
    (emit (b.signExtend 32) s).Shown
      (typeCell (glyph s.crtAttr 0x20) (signedGlyph s.crtAttr b) b t) := by
  rw [signedGlyph]
  by_cases hb : b < 0x80
  · rw [if_pos hb, signExtend_of_lt hb, ← typeByte_eq]
    exact emit_shown hv hattr he h b
  · have hle : 0x80 ≤ b := BitVec.not_lt.mp hb
    rw [if_neg hb, typeCell, if_neg (ne_of_high hle (by decide)),
      if_neg (ne_of_high hle (by decide)), if_neg (ne_of_high hle (by decide)),
      if_neg (ne_of_high hle (by decide))]
    exact cgaPutc_signed_shown (s := lptPutc (b.signExtend 32) (serialPutc (b.signExtend 32) s))
      hv h hle

/-- What it sends to the ports: the same as the byte. -/
theorem emit_signed_sends {s : Console} (hv : s.Video)
    (hattr : s.crtAttr.setWidth 8 = (0 : Byte)) (he : s.esc = 0) (b : Byte) :
    Sends s (emit (b.signExtend 32) s) (b :: tabBlanks b) (b :: tabBlanks b) := by
  by_cases hb : b < 0x80
  · rw [signExtend_of_lt hb]
    exact emit_sends hv hattr he b
  · have hle : 0x80 ≤ b := BitVec.not_lt.mp hb
    have hports := (serialPutc_sends (b.signExtend 32) s).trans (lptPutc_sends (b.signExtend 32) _)
    rw [lowByte_signExtend] at hports
    rw [tabBlanks, if_neg (ne_of_high hle (by decide))]
    exact hports.trans (cgaPutc_signed_sends
      (s := lptPutc (b.signExtend 32) (serialPutc (b.signExtend 32) s)) hv hle)

/-! ### The parser alone -/

/-- The variables of the parser of `cons_putc`. -/
@[ext]
structure EscState where
  crtAttr : BitVec 16
  esc : BitVec 32
  param : BitVec 32
  params : ℤ → BitVec 32
  nparams : BitVec 32
  uses : List ParamUse

def Console.escState (s : Console) : EscState where
  crtAttr := s.crtAttr
  esc := s.esc
  param := s.param
  params := s.params
  nparams := s.nparams
  uses := s.uses

/-- `cons_putc` without the display: what is left of it is the parser. -/
def parsePutc (c : BitVec 32) (s : Console) : Console :=
  consPutcBody (fun _ s => s) c s

/-- Drawing leaves the parser alone. -/
theorem Draws.escState {s s' : Console} (h : Draws s s') : s'.escState = s.escState :=
  EscState.ext h.crtAttr h.esc h.param h.params h.nparams h.uses

section

variable {q s : Console} (h : q.escState = s.escState)

include h

/-- Setting the parser's state is seen there only. -/
theorem setEsc_escState (e : BitVec 32) :
    ({ q with esc := e } : Console).escState = ({ s with esc := e } : Console).escState :=
  congrArg (fun x : EscState => { x with esc := e }) h

/-- Storing a parameter looks at the parser only. -/
theorem pushParam_escState : (pushParam q).escState = (pushParam s).escState := by
  have hn : q.nparams = s.nparams := congrArg EscState.nparams h
  rw [pushParam, pushParam]
  by_cases hlt : s.nparams.toInt < 4
  · have hlt' : q.nparams.toInt < 4 := hn ▸ hlt
    rw [if_pos hlt, if_pos hlt']
    exact congrArg (fun e : EscState => { e with
      params := Function.update e.params e.nparams.toInt
        (if e.param.toInt < 0 then 0 else e.param)
      nparams := e.nparams + 1
      uses := .fill e.nparams.toInt :: e.uses }) h
  · have hlt' : ¬ q.nparams.toInt < 4 := hn ▸ hlt
    rw [if_neg hlt, if_neg hlt']
    exact h

/-- So does setting a colour. -/
theorem setVgaFg_escState (fg : BitVec 32) :
    (setVgaFg fg q).escState = (setVgaFg fg s).escState := by
  have hattr : q.crtAttr = s.crtAttr := congrArg EscState.crtAttr h
  rw [setVgaFg, hattr]
  exact congrArg (fun e : EscState => { e with crtAttr := (setVgaFg fg s).crtAttr }) h

theorem setVgaBg_escState (bg : BitVec 32) :
    (setVgaBg bg q).escState = (setVgaBg bg s).escState := by
  have hattr : q.crtAttr = s.crtAttr := congrArg EscState.crtAttr h
  rw [setVgaBg, hattr]
  exact congrArg (fun e : EscState => { e with crtAttr := (setVgaBg bg s).crtAttr }) h

/-- So does an SGR parameter. -/
theorem applySgr_escState (p : BitVec 32) : (applySgr p q).escState = (applySgr p s).escState := by
  have hattr : q.crtAttr = s.crtAttr := congrArg EscState.crtAttr h
  rw [applySgr, applySgr, hattr]
  split
  · exact congrArg (fun e : EscState => { e with crtAttr := 0x0700 }) h
  split
  · dsimp only
    split
    · exact setVgaFg_escState h _
    · exact h
  split
  · exact setVgaFg_escState h _
  split
  · exact setVgaBg_escState h _
  split
  · exact setVgaFg_escState h _
  split
  · exact setVgaBg_escState h _
  · exact h

theorem sgrRound_escState (i : ℕ) : (sgrRound q i).escState = (sgrRound s i).escState := by
  have hslot : q.params i = s.params i := congrArg (fun e => e.params i) h
  have hread : ({ q with uses := .read i q.nparams.toInt :: q.uses } : Console).escState =
      ({ s with uses := .read i s.nparams.toInt :: s.uses } : Console).escState :=
    congrArg (fun e : EscState => { e with uses := .read i e.nparams.toInt :: e.uses }) h
  rw [sgrRound, sgrRound, applySgr_escState hread, hslot]

/-- So does a character inside a sequence. -/
theorem csiPutc_escState (ch : BitVec 32) : (csiPutc ch q).escState = (csiPutc ch s).escState := by
  have hpush := pushParam_escState h
  rw [csiPutc, csiPutc]
  split
  · exact congrArg (fun e : EscState => { e with
      param := (if e.param.toInt < 0 then 0 else e.param) * 10 + (ch - 0x30) }) h
  split
  · exact congrArg (fun e : EscState => { e with param := -1 }) hpush
  split
  · have hn : (pushParam q).nparams = (pushParam s).nparams := congrArg EscState.nparams hpush
    have hloop : ((List.range (pushParam q).nparams.toInt.toNat).foldl sgrRound
          (pushParam q)).escState =
        ((List.range (pushParam s).nparams.toInt.toNat).foldl sgrRound (pushParam s)).escState := by
      rw [hn]
      exact List.foldl_rel (r := fun q s : Console => q.escState = s.escState) hpush
        fun i _ _ _ h => sgrRound_escState h i
    exact setEsc_escState hloop 0
  · exact setEsc_escState h 0

end

/-- Without a display, normal output leaves the parser alone too. -/
theorem emitBody_escState (c : BitVec 32) (s : Console) :
    (emitBody (fun _ s => s) c s).escState = s.escState :=
  rfl

/-- The console `s` satisfies the invariant, and its parser is where that of `q` is. -/
structure SameParse (q s : Console) : Prop where
  inv : s.Inv
  escState : s.escState = q.escState

/-- **The parser is the same** whatever is drawn beside it, and reads low bytes only. -/
theorem consPutc_sameParse {q s : Console} (h : SameParse q s) {c d : BitVec 32}
    (hcd : c &&& 0xFF = d &&& 0xFF) : SameParse (parsePutc d q) (consPutc c s) := by
  refine ⟨(consPutc_step c h.inv).2, ?_⟩
  have hq : q.esc = s.esc := (congrArg EscState.esc h.escState).symm
  rw [consPutc_eq, parsePutc]
  rcases h.inv.esc with hesc | hesc | hesc
  · rw [consPutcBody_text _ _ hesc, consPutcBody_text _ _ (hq.trans hesc), hcd]
    split
    · exact setEsc_escState h.escState 1
    · rw [emitBody_escState, ← h.escState]
      exact (emit_drawn c hesc h.inv.pos).toDraws.escState
  · rw [consPutcBody_esc _ _ hesc, consPutcBody_esc _ _ (hq.trans hesc), hcd]
    split
    · exact congrArg (fun e : EscState => { e with esc := 2, param := -1, nparams := 0 }) h.escState
    · have hheld := emit_drawn 0x1B (s := { s with esc := 0 }) rfl h.inv.pos
      have hdraw := hheld.toDraws.trans (emit_drawn c (hheld.esc.trans rfl) hheld.pos).toDraws
      rw [emitBody_escState, emitBody_escState, ← setEsc_escState h.escState 0]
      exact hdraw.escState
  · rw [consPutcBody_csi _ _ hesc, consPutcBody_csi _ _ (hq.trans hesc), hcd]
    exact csiPutc_escState h.escState _

/-! ### Two readings of one text -/

/-- A terminal whose cells are marked where the two readings differ. -/
abbrev Marks := Term Bool 25 crtCols

/-- The two halves of a cell differ. -/
def differs (p : BitVec 16 × BitVec 16) : Bool :=
  decide (p.1 ≠ p.2)

/-- The consoles `s` and `s'` have sent the same bytes to the ports, and their screens are
the two halves of one terminal, which differ where the marks are. -/
structure Twin (m : Marks) (s s' : Console) : Prop where
  serialOut : s'.serialOut = s.serialOut
  lptOut : s'.lptOut = s.lptOut
  shown : ∃ t : Term (BitVec 16 × BitVec 16) 25 crtCols,
    s.Shown (t.map Prod.fst) ∧ s'.Shown (t.map Prod.snd) ∧ t.map differs = m

/-- A console and itself. -/
theorem twin_refl (s : Console) (hpos : s.crtPos.toNat < crtSize) :
    Twin (Term.ofScreen (fun _ => false) s.crtPos.toNat hpos) s s := by
  refine ⟨rfl, rfl, Term.ofScreen (fun i => (s.cell i, s.cell i)) _ hpos,
    Shows.ofScreen s.cell _ hpos, Shows.ofScreen s.cell _ hpos, ?_⟩
  simp only [Term.map, Term.ofScreen, differs, ne_eq, not_true_eq_false, decide_false]

/-- The cells are the same where there is no mark. -/
theorem Twin.cell_eq_iff {m : Marks} {s s' : Console} (h : Twin m s s') {i : ℕ} (hi : i < crtSize) :
    s'.cell i = s.cell i ↔ m.cell (crtCols * m.top + i) = false := by
  obtain ⟨t, ht, ht', rfl⟩ := h.shown
  rw [ht.cell i hi, ht'.cell i hi]
  simp only [Term.map, differs, ne_eq, decide_eq_false_iff_not, not_not]
  exact eq_comm

/-- The cursor is the same. -/
theorem Twin.crtPos {m : Marks} {s s' : Console} (h : Twin m s s') : s'.crtPos = s.crtPos := by
  obtain ⟨t, ht, ht', -⟩ := h.shown
  have hcur : crtCols * t.top + s.crtPos.toNat = t.cur := ht.cur
  have hcur' : crtCols * t.top + s'.crtPos.toNat = t.cur := ht'.cur
  apply BitVec.eq_of_toNat_eq
  omega

/-- A step of the parser shows what was shown before. -/
theorem Parses.shown {s s' : Console} (h : Parses s s') {t : CrtTerm} (ht : s.Shown t) :
    s'.Shown t := by
  rw [Shown, h.crtPos]
  refine ht.congr fun i _ => ?_
  rw [cell, cell, cellAddr, cellAddr, h.mem, h.crtBuf]

/-- Steps of the two parsers. -/
theorem Twin.parses {m : Marks} {s s' s₁ s₁' : Console} (h : Twin m s s') (hp : Parses s s₁)
    (hp' : Parses s' s₁') : Twin m s₁ s₁' := by
  obtain ⟨t, ht, ht', hm⟩ := h.shown
  refine ⟨?_, ?_, t, hp.shown ht, hp'.shown ht', hm⟩
  · rw [Console.serialOut, Console.serialOut, hp.out, hp'.out]
    exact h.serialOut
  · rw [Console.lptOut, Console.lptOut, hp.out, hp'.out]
    exact h.lptOut

/-- The console is outside escape sequences, and its attribute is `attr`. -/
structure Console.Ground (attr : BitVec 16) (s : Console) : Prop where
  video : s.Video
  crtAttr : s.crtAttr = attr
  esc : s.esc = 0

theorem Console.Ground.sends {attr : BitVec 16} {s s' : Console} {w v : List Byte}
    (h : s.Ground attr) (hs : Sends s s' w v) : s'.Ground attr :=
  ⟨hs.video h.video, hs.crtAttr.trans h.crtAttr, hs.esc.trans h.esc⟩

/-- The marks after the character `b` in the attribute `attr`. -/
def markByte (attr : BitVec 16) (b : Byte) (m : Marks) : Marks :=
  typeCell false (decide (LosesAttr attr b)) b m

/-- **One character outside escape sequences**, through both readings. -/
theorem Twin.emitted {attr : BitVec 16} (hattr : attr.setWidth 8 = (0 : Byte)) {m : Marks}
    {s s' : Console} (hs : s.Ground attr) (hs' : s'.Ground attr) (h : Twin m s s') (b : Byte) :
    Twin (markByte attr b m) (emit (b.setWidth 32) s) (emit (b.signExtend 32) s') := by
  obtain ⟨hv, hsattr, he⟩ := hs
  obtain ⟨hv', hsattr', he'⟩ := hs'
  obtain ⟨t, ht, ht', hm⟩ := h.shown
  have hlow : s.crtAttr.setWidth 8 = (0 : Byte) := hsattr ▸ hattr
  have hlow' : s'.crtAttr.setWidth 8 = (0 : Byte) := hsattr' ▸ hattr
  have hsend := emit_sends hv hlow he b
  have hsend' := emit_signed_sends hv' hlow' he' b
  refine ⟨?_, ?_,
    typeCell (glyph attr 0x20, glyph attr 0x20) (glyph attr b, signedGlyph attr b) b t, ?_, ?_, ?_⟩
  · rw [hsend.serialOut, hsend'.serialOut, h.serialOut]
  · rw [hsend.lptOut, hsend'.lptOut, h.lptOut]
  · rw [map_typeCell, ← hsattr, ← typeByte_eq]
    exact emit_shown hv hlow he ht b
  · rw [map_typeCell, ← hsattr']
    exact emit_signed_shown hv' hlow' he' ht' b
  · have hblank : differs (glyph attr 0x20, glyph attr 0x20) = false := by simp [differs]
    have hchar : differs (glyph attr b, signedGlyph attr b) = decide (LosesAttr attr b) :=
      decide_eq_decide.mpr (glyph_ne_signedGlyph_iff hattr b)
    rw [map_typeCell, hblank, hchar, hm, markByte]

/-- The marks after the byte `b`, with the parser as it is in `q`. -/
def markPutc (b : Byte) (q : Console) (m : Marks) : Marks :=
  if q.esc = 0 then
    if b = 0x1B then m else markByte q.crtAttr b m
  else if q.esc = 1 then
    if b = 0x5B then m else markByte q.crtAttr b (markByte q.crtAttr 0x1B m)
  else m

/-- The marks after the text `t`, which the parser reads from where it is in `q`. -/
def marks : List Byte → Console → Marks → Marks
  | [], _, m => m
  | b :: t, q, m => marks t (parsePutc (b.setWidth 32) q) (markPutc b q m)

/-- **One byte** through both readings. -/
theorem consPutc_twin {q s s' : Console} {m : Marks} (hs : SameParse q s) (hs' : SameParse q s')
    (h : Twin m s s') (b : Byte) :
    Twin (markPutc b q m) (consPutc (b.setWidth 32) s) (consPutc (b.signExtend 32) s') := by
  have hesc : s.esc = q.esc := congrArg EscState.esc hs.escState
  have hesc' : s'.esc = q.esc := congrArg EscState.esc hs'.escState
  have hattr : s.crtAttr = q.crtAttr := congrArg EscState.crtAttr hs.escState
  have hattr' : s'.crtAttr = q.crtAttr := congrArg EscState.crtAttr hs'.escState
  have hlow : q.crtAttr.setWidth 8 = (0 : Byte) := hattr ▸ hs.inv.attr
  have hESC : (b.setWidth 32 : BitVec 32) = 0x1B ↔ b = 0x1B := setWidth_byte_inj b 0x1B
  have hbracket : (b.setWidth 32 : BitVec 32) = 0x5B ↔ b = 0x5B := setWidth_byte_inj b 0x5B
  rw [consPutc_eq, consPutc_eq, markPutc]
  rcases hs.inv.esc with he | he | he
  · have hq : q.esc = 0 := hesc.symm.trans he
    rw [consPutcBody_text _ _ he, consPutcBody_text _ _ (hesc'.trans hq), byte_and_0xFF,
      signExtend_and_0xFF, if_pos hq]
    by_cases h1B : b = 0x1B
    · rw [if_pos (hESC.mpr h1B), if_pos (hESC.mpr h1B), if_pos h1B]
      exact h.parses (setEsc_parses s 1) (setEsc_parses s' 1)
    · rw [if_neg (mt hESC.mp h1B), if_neg (mt hESC.mp h1B), if_neg h1B]
      exact h.emitted hlow ⟨hs.inv.video, hattr, he⟩ ⟨hs'.inv.video, hattr', hesc'.trans hq⟩ b
  · have hq : q.esc = 1 := hesc.symm.trans he
    have hne : q.esc ≠ 0 := by
      rw [hq]
      decide
    rw [consPutcBody_esc _ _ he, consPutcBody_esc _ _ (hesc'.trans hq), byte_and_0xFF,
      signExtend_and_0xFF, if_neg hne, if_pos hq]
    by_cases h5B : b = 0x5B
    · rw [if_pos (hbracket.mpr h5B), if_pos (hbracket.mpr h5B), if_pos h5B]
      exact h.parses (startCsi_parses s) (startCsi_parses s')
    · rw [if_neg (mt hbracket.mp h5B), if_neg (mt hbracket.mp h5B), if_neg h5B]
      have hg : Ground q.crtAttr { s with esc := 0 } := ⟨hs.inv.video, hattr, rfl⟩
      have hg' : Ground q.crtAttr { s' with esc := 0 } := ⟨hs'.inv.video, hattr', rfl⟩
      have h₀ := h.parses (setEsc_parses s 0) (setEsc_parses s' 0)
      have hheld := h₀.emitted hlow hg hg' 0x1B
      have hsend := emit_sends hg.video (hg.crtAttr ▸ hlow) rfl 0x1B
      have hsend' := emit_signed_sends hg'.video (hg'.crtAttr ▸ hlow) rfl 0x1B
      exact hheld.emitted hlow (hg.sends hsend) (hg'.sends hsend') b
  · have hq : q.esc = 2 := hesc.symm.trans he
    have hne : q.esc ≠ 0 ∧ q.esc ≠ 1 := by
      rw [hq]
      decide
    rw [consPutcBody_csi _ _ he, consPutcBody_csi _ _ (hesc'.trans hq), byte_and_0xFF,
      signExtend_and_0xFF, if_neg hne.1, if_neg hne.2]
    exact h.parses (csiPutc_parses b hs.inv.attr).1 (csiPutc_parses b hs'.inv.attr).1

/-- A run of `cons_putc` on plain `char`s. -/
def consChars (t : List Byte) (s : Console) : Console :=
  t.foldl (fun s b => consPutc (b.signExtend 32) s) s

/-- **A run** through both readings. -/
theorem consPutc_run_twin {q s s' : Console} {m : Marks} (hs : SameParse q s) (hs' : SameParse q s')
    (h : Twin m s s') (t : List Byte) :
    Twin (marks t q m) (consBytes t s) (consChars t s') ∧
      ∃ q', SameParse q' (consBytes t s) ∧ SameParse q' (consChars t s') := by
  induction t generalizing q s s' m with
  | nil => exact ⟨h, q, hs, hs'⟩
  | cons b t ih =>
      have hlow : (b.signExtend 32 : BitVec 32) &&& 0xFF = b.setWidth 32 &&& 0xFF := by
        rw [signExtend_and_0xFF, byte_and_0xFF]
      exact ih (consPutc_sameParse hs rfl) (consPutc_sameParse hs' hlow) (consPutc_twin hs hs' h b)

/-! ### What is left on the console -/

/-- The consoles have sent the same bytes to both ports, and have the same screen cells,
cursor, attribute and parser state. -/
structure SameOutput (s s' : Console) : Prop where
  serialOut : s'.serialOut = s.serialOut
  lptOut : s'.lptOut = s.lptOut
  cell : ∀ i < crtSize, s'.cell i = s.cell i
  crtPos : s'.crtPos = s.crtPos
  cursor : s'.crtc.cursor = s.crtc.cursor
  crtAttr : s'.crtAttr = s.crtAttr
  esc : s'.esc = s.esc
  param : s'.param = s.param
  params : s'.params = s.params
  nparams : s'.nparams = s.nparams

/-- The two readings leave the same output when no visible cell is marked. -/
theorem sameOutput_iff {q s s' : Console} {m : Marks} (hs : SameParse q s) (hs' : SameParse q s')
    (h : Twin m s s') :
    SameOutput s s' ↔ ∀ i < crtSize, m.cell (crtCols * m.top + i) = false := by
  refine ⟨fun hsame i hi => (h.cell_eq_iff hi).mp (hsame.cell i hi), fun hm => ?_⟩
  have hparser : s'.escState = s.escState := hs'.escState.trans hs.escState.symm
  exact
    { serialOut := h.serialOut
      lptOut := h.lptOut
      cell := fun i hi => (h.cell_eq_iff hi).mpr (hm i hi)
      crtPos := h.crtPos
      cursor := by rw [hs'.inv.cursor, hs.inv.cursor, h.crtPos]
      crtAttr := congrArg EscState.crtAttr hparser
      esc := congrArg EscState.esc hparser
      param := congrArg EscState.param hparser
      params := congrArg EscState.params hparser
      nparams := congrArg EscState.nparams hparser }

/-- Blanks in running text are passed on. -/
theorem foldl_step_blanks (n : ℕ) (out : List Byte) :
    (List.replicate n (0x20 : Byte)).foldl Passed.step ⟨.text, out⟩ =
      ⟨.text, out ++ List.replicate n 0x20⟩ := by
  induction n generalizing out with
  | zero => rw [List.replicate_zero, List.foldl_nil, List.append_nil]
  | succ n ih =>
      have hstep : Passed.step ⟨.text, out⟩ 0x20 = ⟨.text, out ++ [0x20]⟩ := by
        simp [Passed.step, tabBlanks]
      rw [List.replicate_succ, List.foldl_cons, hstep, ih, List.append_assoc, List.singleton_append]

/-- Blanks do not go unnoticed: either the ports receive something, or a sequence ends. -/
theorem foldl_step_blanks_ne {n : ℕ} (hn : 0 < n) (mode : Mode) :
    ((List.replicate n (0x20 : Byte)).foldl Passed.step ⟨mode, []⟩).out ≠ [] ∨
      ((List.replicate n (0x20 : Byte)).foldl Passed.step ⟨mode, []⟩).mode.code ≠ mode.code := by
  obtain ⟨k, rfl⟩ := Nat.exists_eq_succ_of_ne_zero hn.ne'
  rw [List.replicate_succ, List.foldl_cons]
  cases mode with
  | text =>
      have hstep : Passed.step ⟨.text, []⟩ 0x20 = ⟨.text, [0x20]⟩ := rfl
      rw [hstep, foldl_step_blanks]
      exact Or.inl (List.cons_ne_nil _ _)
  | esc =>
      have hstep : Passed.step ⟨.esc, []⟩ 0x20 = ⟨.text, [0x1B, 0x20]⟩ := rfl
      rw [hstep, foldl_step_blanks]
      exact Or.inl (List.cons_ne_nil _ _)
  | csi =>
      have hstep : Passed.step ⟨.csi, []⟩ 0x20 = ⟨.text, []⟩ := rfl
      rw [hstep, foldl_step_blanks]
      have hcode : Mode.text.code ≠ Mode.csi.code := by decide
      exact Or.inr hcode

/-- The invariant names the mode of the parser. -/
theorem Console.Inv.mode {s : Console} (hs : s.Inv) : ∃ m : Mode, s.esc = m.code := by
  rcases hs.esc with he | he | he
  · exact ⟨.text, he⟩
  · exact ⟨.esc, he⟩
  · exact ⟨.csi, he⟩

/-- Blanks printed on one of the consoles make a difference. -/
theorem not_sameOutput_blanks {s s' : Console} (hs' : s'.Inv) (hout : s'.serialOut = s.serialOut)
    (hesc : s'.esc = s.esc) {n : ℕ} (hn : 0 < n) :
    ¬ SameOutput s (consBytes (List.replicate n 0x20) s') := by
  intro hsame
  obtain ⟨mode, hm⟩ := hs'.mode
  have hstart : Passes s' s' ⟨mode, []⟩ :=
    ⟨hs'.video, hs'.attr, hm, (List.append_nil _).symm, (List.append_nil _).symm⟩
  have h := consBytes_passes hstart (List.replicate n 0x20)
  rcases foldl_step_blanks_ne hn mode with hne | hne
  · have hsent := h.serialOut
    rw [hsame.serialOut, ← hout] at hsent
    exact hne (List.self_eq_append_right.mp hsent)
  · exact hne (by rw [← h.esc, hsame.esc, ← hesc, hm])

/-! ### Both calls -/

theorem consBytes_nil (s : Console) : consBytes [] s = s :=
  rfl

/-- Blanks one after the other. -/
theorem consBytes_blanks (n : ℕ) (s : Console) :
    consBytes (List.replicate n 0x20) s = (cputchar 0x20)^[n] s := by
  induction n generalizing s with
  | zero => rfl
  | succ n ih =>
      rw [List.replicate_succ, Function.iterate_succ_apply]
      exact ih (cputchar 0x20 s)

/-- `cprintf(t)` and `cprintf("%s", t)`, each from the console `s`, print alike. -/
def PrintsAlike (t : List Byte) (s : Console) : Prop :=
  ∃ r r', cprintf (t ++ [0]) [] s = .ok r ∧ cprintf (cstr "%s") [.str (t ++ [0])] s = .ok r' ∧
    SameOutput r.1 r'.1

/-- What is compared: the bytes of the text, and its plain `char`s with the blanks that `%s`
prints while its width is positive. -/
theorem printsAlike_iff_sameOutput {t : List Byte} (ht : ∀ b ∈ t, b ≠ chr '%' ∧ b ≠ 0)
    (s : Console) :
    PrintsAlike t s ↔ SameOutput (consBytes t s)
      (consBytes (List.replicate (-1 - BitVec.ofNat 32 t.length).toInt.toNat 0x20)
        (consChars t s)) := by
  have hnul : (0 : Byte) ∉ t := fun h => (ht 0 h).2 rfl
  have hlit : cprintf (t ++ [0]) [] s = .ok (consBytes t s, 0) := cprintf_literal ht [] s
  have hstr := cprintf_string hnul s
  have hchars : t.foldl (fun s b => cputchar (b.signExtend 32) s) s = consChars t s := rfl
  rw [← consBytes_blanks, hchars] at hstr
  generalize consBytes (List.replicate (-1 - BitVec.ofNat 32 t.length).toInt.toNat 0x20)
    (consChars t s) = s₂ at hstr ⊢
  rw [PrintsAlike, hlit, hstr]
  constructor
  · rintro ⟨r, r', hr, hr', hsame⟩
    rw [← Except.ok.inj hr, ← Except.ok.inj hr'] at hsame
    exact hsame
  · exact fun hsame => ⟨_, _, rfl, rfl, hsame⟩

/-- As long as the width does not end positive, the blanks are none. -/
theorem printsAlike_iff_chars {t : List Byte} (ht : ∀ b ∈ t, b ≠ chr '%' ∧ b ≠ 0)
    (hwidth : (-1 - BitVec.ofNat 32 t.length).toInt ≤ 0) (s : Console) :
    PrintsAlike t s ↔ SameOutput (consBytes t s) (consChars t s) := by
  rw [printsAlike_iff_sameOutput ht, Int.toNat_of_nonpos hwidth, List.replicate_zero, consBytes_nil]

/-- The text `t` keeps its attributes on the screen: after it, no visible cell holds a
character from 0x80 on that was printed in an attribute other than white on white. -/
def KeepsAttrs (t : List Byte) (s : Console) (hpos : s.crtPos.toNat < crtSize) : Prop :=
  let m := marks t s (Term.ofScreen (fun _ => false) s.crtPos.toNat hpos)
  ∀ i < crtSize, m.cell (crtCols * m.top + i) = false

/-- Below 0x80 nothing is marked. -/
theorem markByte_of_lt (attr : BitVec 16) {b : Byte} (hb : b < 0x80) {m : Marks}
    (hm : m.map (fun _ => false) = m) :
    (markByte attr b m).map (fun _ => false) = markByte attr b m := by
  have hkeeps : decide (LosesAttr attr b) = false :=
    decide_eq_false fun h => BitVec.not_le.mpr hb h.1
  rw [markByte, hkeeps, map_typeCell, hm]

/-- Nor by a run. -/
theorem marks_of_lt {t : List Byte} (ht : ∀ b ∈ t, b < 0x80) (q : Console) {m : Marks}
    (hm : m.map (fun _ => false) = m) :
    (marks t q m).map (fun _ => false) = marks t q m := by
  induction t generalizing q m with
  | nil => exact hm
  | cons b t ih =>
      have hb : b < 0x80 := ht b List.mem_cons_self
      rw [marks]
      refine ih (fun b h => ht b (List.mem_cons_of_mem _ h)) _ ?_
      rw [markPutc]
      split
      · split
        · exact hm
        · exact markByte_of_lt _ hb hm
      split
      · split
        · exact hm
        · exact markByte_of_lt _ hb (markByte_of_lt _ (by decide) hm)
      · exact hm

/-- Text of characters below 0x80 keeps its attributes, from whatever console. -/
theorem keepsAttrs_of_lt {t : List Byte} (ht : ∀ b ∈ t, b < 0x80) (s : Console)
    (hpos : s.crtPos.toNat < crtSize) : KeepsAttrs t s hpos := by
  intro i _
  rw [← marks_of_lt ht s (m := Term.ofScreen (fun _ => false) s.crtPos.toNat hpos) rfl]
  rfl

/-- The width of `%s` starts at minus one and goes down by one for each of `n` characters.
It ends positive when the count has wrapped around. -/
theorem width_nonpos_iff (n : ℕ) :
    (-1 - BitVec.ofNat 32 n).toInt ≤ 0 ↔ n % 2 ^ 32 < 2 ^ 31 ∨ n % 2 ^ 32 = 2 ^ 32 - 1 := by
  have hone : (-1 : BitVec 32).toNat = 2 ^ 32 - 1 := rfl
  have hlt : n % 2 ^ 32 < 2 ^ 32 := Nat.mod_lt n (by omega)
  rw [BitVec.toInt_eq_toNat_cond, BitVec.toNat_sub, BitVec.toNat_ofNat, hone]
  omega

/-- **Literal and `%s` text print alike** exactly when the text keeps its attributes on the
screen, and is not so long that the width of `%s` wraps around to a positive one. -/
theorem printsAlike_iff {t : List Byte} (ht : ∀ b ∈ t, b ≠ chr '%' ∧ b ≠ 0) {s : Console}
    (hs : s.Inv) : PrintsAlike t s ↔ KeepsAttrs t s hs.pos ∧
      (t.length % 2 ^ 32 < 2 ^ 31 ∨ t.length % 2 ^ 32 = 2 ^ 32 - 1) := by
  have hparse : SameParse s s := ⟨hs, rfl⟩
  obtain ⟨htwin, q, hbytes, hchars⟩ :=
    consPutc_run_twin hparse hparse (twin_refl s hs.pos) t
  rw [← width_nonpos_iff]
  by_cases hwidth : (-1 - BitVec.ofNat 32 t.length).toInt ≤ 0
  · rw [printsAlike_iff_chars ht hwidth, and_iff_left hwidth]
    exact sameOutput_iff hbytes hchars htwin
  · rw [printsAlike_iff_sameOutput ht]
    refine iff_of_false ?_ fun h => hwidth h.2
    refine not_sameOutput_blanks hchars.inv htwin.serialOut ?_ (by omega)
    exact congrArg EscState.esc (hchars.escState.trans hbytes.escState.symm)

/-- A letter and a newline on the console as it comes up. -/
theorem printsAlike_letter :
    PrintsAlike [0x41, 0x0A] (cgaInit 0xA55A (statics ⟨fun _ => 0, []⟩ ⟨0, fun _ => 0⟩)) :=
  (printsAlike_iff (t := [0x41, 0x0A]) (by decide)
    (cgaInit_inv 0xA55A ⟨fun _ => 0, []⟩ ⟨0, fun _ => 0⟩ (by decide))).mpr
    ⟨keepsAttrs_of_lt (by decide) _ _, by decide⟩

/-- The first character that a plain `char` makes negative does not: as literal text it is
written in the current attribute, and through `%s` white on white. -/
theorem not_printsAlike_high :
    ¬ PrintsAlike [0x80] (cgaInit 0xA55A (statics ⟨fun _ => 0, []⟩ ⟨0, fun _ => 0⟩)) := by
  set s := cgaInit 0xA55A (statics ⟨fun _ => 0, []⟩ ⟨0, fun _ => 0⟩)
  have hs : s.Inv := cgaInit_inv 0xA55A ⟨fun _ => 0, []⟩ ⟨0, fun _ => 0⟩ (by decide)
  have hparse : SameParse s s := ⟨hs, rfl⟩
  obtain ⟨htwin, -⟩ := consPutc_run_twin hparse hparse (twin_refl s hs.pos) [0x80]
  intro h
  have hsame := (printsAlike_iff_chars (t := [0x80]) (by decide) (by decide) s).mp h
  have hmark := (htwin.cell_eq_iff (i := 0) (by decide)).mp (hsame.cell 0 (by decide))
  have hfalse : true = false := hmark
  exact Bool.noConfusion hfalse

end Jos
