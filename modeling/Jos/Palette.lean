import Jos.Literal
import Jos.Sgr

/-!
# Colours by Name

SGR parameters name the basic colours in the order black, red, green, yellow, blue, magenta,
cyan, white. On the adapter red and blue, and yellow and cyan, stand in each other's places.
`ansi_to_vga_basic` takes the one number for the other, so that a cell printed in a colour by
name is in the colour of that number.

A stream of characters and SGR sequences paints a terminal whose cells are the colours by
name (`Painted`); the screen shows the same cells in the numbers (`Paints`).

## Main results

* `paints_step`, `paints_run`: the screen follows the stream.
* `appearAsNamed_iff`: **colours appear as named** exactly when no character is printed while
  red, yellow, blue or cyan is selected.
-/

namespace Jos

open Console

/-! ### Names and numbers -/

/-- The number on the adapter of a basic colour by name. -/
def vgaNamed (n : ℕ) : BitVec 4 :=
  [0, 4, 2, 6, 1, 5, 3, 7].getD n 0

/-- The colour by name for which the adapter is given a number. Bit 3 is brightness. -/
def byName (n : BitVec 4) : BitVec 4 :=
  vgaNamed (n &&& 7).toNat ||| n &&& 8

/-- Foreground and background by name. -/
def Colours.byName (c : Colours) : Colours where
  fg := Jos.byName c.fg
  bg := Jos.byName c.bg

/-- Black, green, magenta and white, plain or bright, have one number in both orders. -/
def sameNumber (n : BitVec 4) : Prop :=
  n &&& 7 ∈ ([0, 2, 5, 7] : List (BitVec 4))

instance (n : BitVec 4) : Decidable (sameNumber n) :=
  inferInstanceAs (Decidable (_ ∈ _))

/-- So have both colours of a cell. -/
def Colours.Same (c : Colours) : Prop :=
  sameNumber c.fg ∧ sameNumber c.bg

instance (c : Colours) : Decidable c.Same :=
  inferInstanceAs (Decidable (_ ∧ _))

theorem byName_eq_iff : ∀ n : BitVec 4, byName n = n ↔ sameNumber n := by
  decide

theorem sameNumber_byName : ∀ n : BitVec 4, sameNumber (byName n) ↔ sameNumber n := by
  decide

/-- The colours of a cell are those by name, if they have one number in both orders. -/
theorem eq_byName_iff (c : Colours) : c = c.byName ↔ c.byName.Same := by
  obtain ⟨fg, bg⟩ := c
  rw [Colours.Same, Colours.byName, Colours.mk.injEq, sameNumber_byName, sameNumber_byName,
    ← byName_eq_iff, ← byName_eq_iff, eq_comm, eq_comm (a := bg)]

/-- **A parameter selects alike** by name and by number. -/
theorem sgr_byName (v : ℕ) (c : Colours) :
    sgr vgaNamed v c.byName = (sgr vgaBasic v c).byName := by
  have hbasic : ∀ n < 8, vgaNamed n = byName (vgaBasic n) := by decide
  have hbright : ∀ n : BitVec 4, byName n ||| 8 = byName (n ||| 8) := by decide
  obtain ⟨fg, bg⟩ := c
  simp only [sgr, Colours.byName, hbright]
  split
  · decide
  split
  · rfl
  split
  · rw [hbasic _ (by omega)]
  split
  · rw [hbasic _ (by omega)]
  split
  · rw [hbasic _ (by omega), hbright]
  split
  · rw [hbasic _ (by omega), hbright]
  · rfl

theorem select_byName (vs : List ℕ) (c : Colours) :
    select vgaNamed vs c.byName = (select vgaBasic vs c).byName := by
  induction vs generalizing c with
  | nil => rfl
  | cons v vs ih =>
      change select vgaNamed vs (sgr vgaNamed v c.byName) = _
      rw [sgr_byName]
      exact ih _

/-! ### Streams -/

/-- A part of a stream: a character, or an SGR sequence with its parameters. -/
inductive Piece
  | char (b : Byte)
  | sgr (ps : List (List Byte))

/-- An ordinary printable character, or a sequence of at most four parameters below 108. -/
def Piece.Ordinary : Piece → Prop
  | char b => 0x20 ≤ b ∧ b ≤ 0x7E
  | sgr ps => ps ≠ [] ∧ ps.length ≤ 4 ∧
      ∀ p ∈ ps, (∀ b ∈ p, 0x30 ≤ b ∧ b ≤ 0x39) ∧ decimal p < 108

instance : DecidablePred Piece.Ordinary
  | .char _ => inferInstanceAs (Decidable (_ ∧ _))
  | .sgr _ => inferInstanceAs (Decidable (_ ∧ _))

/-- The bytes of a part of a stream. -/
def Piece.bytes : Piece → List Byte
  | char b => [b]
  | sgr ps => sgrSequence ps

/-- What a stream has painted: the colours selected last, and a terminal whose cells are the
colours they were printed in, if they were printed. -/
structure Painted where
  selected : Colours
  term : Term (Option Colours) 25 crtCols

/-- A character is printed in the colours selected last, by name. -/
def Painted.step (p : Painted) : Piece → Painted
  | .char _ => { p with term := putCell none (some p.selected) p.term }
  | .sgr ps => { p with selected := select vgaNamed (ps.map decimal) p.selected }

/-- Light grey on black, and nothing printed, with the cursor at `pos`. -/
def Painted.start (pos : ℕ) (h : pos < crtSize) : Painted where
  selected := ⟨7, 0⟩
  term := Term.ofScreen (fun _ => none) pos h

/-- Every cell on the screen that was printed is in the colours it was printed in, by name. -/
def AsNamed (p : Painted) (s : Console) : Prop :=
  ∀ i < crtSize, ∀ c, p.term.cell (crtCols * p.term.top + i) = some c → colours (s.cell i) = c

/-- Colours appear as named, after every part of the stream. -/
def AppearAsNamed (ts : List Piece) (s : Console) (hpos : s.crtPos.toNat < crtSize) : Prop :=
  ∀ ts', ts' <+: ts → AsNamed (ts'.foldl Painted.step (.start s.crtPos.toNat hpos))
    (consBytes (ts'.flatMap Piece.bytes) s)

/-- No character is printed while a colour is selected that has two numbers. -/
def PrintsSame : List Piece → Colours → Prop
  | [], _ => True
  | .char _ :: ts, c => c.Same ∧ PrintsSame ts c
  | .sgr ps :: ts, c => PrintsSame ts (select vgaNamed (ps.map decimal) c)

instance : ∀ (ts : List Piece) (c : Colours), Decidable (PrintsSame ts c)
  | [], _ => .isTrue trivial
  | .char _ :: ts, c => @instDecidableAnd _ _ _ (instDecidablePrintsSame ts c)
  | .sgr _ :: ts, _ => instDecidablePrintsSame ts _

/-! ### The screen follows the stream -/

/-- The cell of a character keeps the colours of the attribute. -/
theorem colours_glyph (c : Colours) (b : Byte) : colours (glyph c.attr b) = c := by
  have hhigh : ∀ (start : ℕ), 8 ≤ start →
      (glyph c.attr b).extractLsb' start 4 = c.attr.extractLsb' start 4 := by
    intro start hstart
    apply BitVec.eq_of_getLsbD_eq
    intro i hi
    have hzero : (b.setWidth 16 : BitVec 16).getLsbD (start + i) = false := by
      rw [BitVec.getLsbD_setWidth, BitVec.getLsbD_of_ge b _ (by omega), Bool.and_false]
    rw [BitVec.getLsbD_extractLsb', BitVec.getLsbD_extractLsb', glyph, BitVec.getLsbD_or, hzero,
      Bool.or_false]
  have hattr := colours_attr c
  rw [colours] at hattr ⊢
  rw [hhigh 8 (by omega), hhigh 12 (by omega), hattr]

/-- The attribute of any colours leaves room for the character. -/
theorem setWidth_attr_colours (c : Colours) : c.attr.setWidth 8 = (0 : Byte) := by
  apply BitVec.eq_of_getLsbD_eq
  intro i hi
  rw [BitVec.getLsbD_setWidth, getLsbD_attr_colours, if_pos hi, Bool.and_false]
  exact BitVec.getLsbD_zero.symm

/-- The console `s` is outside escape sequences, its attribute is, by number, what the stream
has selected by name, and so are the colours of every cell that was printed. -/
structure Paints (p : Painted) (s : Console) : Prop where
  video : s.Video
  esc : s.esc = 0
  selected : ∃ c : Colours, s.crtAttr = c.attr ∧ p.selected = c.byName
  shown : ∃ t : Term (BitVec 16 × Option Colours) 25 crtCols,
    s.Shown (t.map Prod.fst) ∧ t.map Prod.snd = p.term ∧
      ∀ j c, (t.cell j).2 = some c → c = (colours (t.cell j).1).byName

/-- The start of a stream. -/
theorem paints_start {s : Console} (hv : s.Video) (he : s.esc = 0) (hattr : s.crtAttr = 0x0700)
    (hpos : s.crtPos.toNat < crtSize) : Paints (.start s.crtPos.toNat hpos) s where
  video := hv
  esc := he
  selected := ⟨⟨7, 0⟩, hattr, (by decide : (⟨7, 0⟩ : Colours) = Colours.byName ⟨7, 0⟩)⟩
  shown := ⟨Term.ofScreen (fun i => (s.cell i, none)) s.crtPos.toNat hpos,
    Shows.ofScreen s.cell _ hpos, rfl, fun j c h => by cases h⟩

/-- **A character.** -/
theorem Paints.char {p : Painted} {s : Console} (h : Paints p s) {b : Byte}
    (hb : 0x20 ≤ b ∧ b ≤ 0x7E) : Paints (p.step (.char b)) (consPutc (b.setWidth 32) s) := by
  obtain ⟨c, hattr, hsel⟩ := h.selected
  obtain ⟨t, hshown, hterm, hcells⟩ := h.shown
  have hlow : s.crtAttr.setWidth 8 = (0 : Byte) := hattr ▸ setWidth_attr_colours c
  have hne : ∀ k : Byte, k < 0x20 → b ≠ k := by
    rintro k hk rfl
    exact absurd hb.1 (BitVec.not_le.mpr hk)
  have hground : consPutc (b.setWidth 32) s = emit (b.setWidth 32) s :=
    consPutc_ground h.esc fun hesc => hne 0x1B (by decide) ((byte_and_0xFF_eq b 0x1B).mp hesc)
  have hdraw := (emit_drawn (b.setWidth 32) h.esc hshown.pos).toDraws
  have hemit := emit_shown h.video hlow h.esc hshown b
  rw [typeByte, if_neg (hne _ (by decide)), if_neg (hne _ (by decide)),
    if_neg (hne _ (by decide)), if_neg (hne _ (by decide))] at hemit
  rw [hground]
  refine ⟨hdraw.video h.video, hdraw.esc.trans h.esc, ⟨c, hdraw.crtAttr.trans hattr, hsel⟩,
    t.put (glyph s.crtAttr 0x20, none) (glyph s.crtAttr b, some p.selected), ?_, ?_, ?_⟩
  · rw [Term.map_put]
    exact hemit
  · rw [Term.map_put, hterm]
    rfl
  · intro j d hd
    rw [Term.put, Term.cell_settle] at hd ⊢
    split at hd
    · cases hd
    rename_i hold
    rw [if_neg hold]
    rw [Function.update_apply] at hd ⊢
    split at hd
    · rename_i hlast
      rw [if_pos hlast]
      cases hd
      rw [hattr, colours_glyph, hsel]
    · rename_i hlast
      rw [if_neg hlast]
      exact hcells j d hd

/-- **A sequence.** -/
theorem Paints.sgr {p : Painted} {s : Console} (h : Paints p s) {ps : List (List Byte)}
    (hps : (Piece.sgr ps).Ordinary) :
    Paints (p.step (.sgr ps)) (consBytes (sgrSequence ps) s) := by
  obtain ⟨hne, hlen, hvals⟩ := hps
  obtain ⟨c, hattr, hsel⟩ := h.selected
  obtain ⟨t, hshown, hterm, hcells⟩ := h.shown
  have hlow : s.crtAttr.setWidth 8 = (0 : Byte) := hattr ▸ setWidth_attr_colours c
  obtain ⟨hpar, hesc, hcode⟩ := consBytes_sgr hne (fun q hq => (hvals q hq).1) h.esc hlow
  have hread : (ps.take 4).map wrapped = ps.map decimal := by
    rw [List.take_of_length_le hlen]
    refine List.map_congr_left fun q hq => wrapped_of_lt ?_
    have hval := (hvals q hq).2
    omega
  rw [hread, hattr, colours_attr] at hcode
  refine ⟨?_, hesc, ⟨_, hcode, ?_⟩, t, hpar.shown hshown, hterm, hcells⟩
  · rw [Video, hpar.crtBuf, hpar.addr6845]
    exact h.video
  · rw [Painted.step, hsel]
    exact select_byName _ c

/-- **One part of a stream.** -/
theorem paints_step {p : Painted} {s : Console} (h : Paints p s) {a : Piece} (ha : a.Ordinary) :
    Paints (p.step a) (consBytes a.bytes s) := by
  cases a with
  | char b => exact h.char ha
  | sgr ps => exact h.sgr ha

/-- **A stream.** The screen shows what it paints. -/
theorem paints_run {ts : List Piece} (hts : ∀ a ∈ ts, a.Ordinary) {p : Painted} {s : Console}
    (h : Paints p s) : Paints (ts.foldl Painted.step p) (consBytes (ts.flatMap Piece.bytes) s) := by
  induction ts generalizing p s with
  | nil => exact h
  | cons a ts ih =>
      rw [List.flatMap_cons, consBytes_append]
      exact ih (fun x hx => hts x (List.mem_cons_of_mem a hx))
        (paints_step h (hts a List.mem_cons_self))

/-! ### The right colours -/

/-- The cells on the screen are in the colours by name if and only if these have one number in
both orders. -/
theorem asNamed_iff {p : Painted} {s : Console} (h : Paints p s) :
    AsNamed p s ↔
      ∀ i < crtSize, ∀ c, p.term.cell (crtCols * p.term.top + i) = some c → c.Same := by
  obtain ⟨t, hshown, hterm, hcells⟩ := h.shown
  have hcell : ∀ i < crtSize, ∀ c, p.term.cell (crtCols * p.term.top + i) = some c →
      c = (colours (s.cell i)).byName := by
    intro i hi c hc
    rw [← hterm] at hc
    rw [hshown.cell i hi]
    exact hcells _ c hc
  refine forall₂_congr fun i hi => forall₂_congr fun c hc => ?_
  rw [hcell i hi c hc]
  exact eq_byName_iff _

/-- What has been printed in colours of one number stays so, and so does what is printed. -/
theorem same_of_printsSame {ts : List Piece} {p : Painted}
    (hp : ∀ j c, p.term.cell j = some c → c.Same) (hts : PrintsSame ts p.selected)
    {ts' : List Piece} (hpre : ts' <+: ts) :
    ∀ j c, (ts'.foldl Painted.step p).term.cell j = some c → c.Same := by
  induction ts generalizing p ts' with
  | nil =>
      obtain rfl := List.prefix_nil.mp hpre
      exact hp
  | cons a ts ih =>
      obtain rfl | ⟨ts', rfl, hrest⟩ := List.prefix_cons_iff.mp hpre
      · exact hp
      cases a with
      | sgr ps => exact ih (p := p.step (.sgr ps)) hp hts hrest
      | char b =>
          refine ih (p := p.step (.char b)) (fun j c hc => ?_) hts.2 hrest
          change (p.term.put none (some p.selected)).cell j = some c at hc
          rw [Term.put, Term.cell_settle, Function.update_apply] at hc
          split at hc
          · cases hc
          split at hc
          · cases hc
            exact hts.1
          · exact hp j c hc

/-- A character that has just been printed is on the screen. -/
theorem visible_put {p : Painted} (b : Byte) :
    ∃ i < crtSize, (p.step (.char b)).term.cell
      (crtCols * (p.step (.char b)).term.top + i) = some p.selected := by
  have hroom : ([] : List (Option Colours)).length + 1 + crtCols ≤ crtCols * 25 := by decide
  have htyped := (Term.typed_nil id p.term).put hroom none (some p.selected)
  have hcur : (p.step (.char b)).term.cur = p.term.cur + 1 := htyped.cur
  have hvisible : crtCols * (p.step (.char b)).term.top ≤ p.term.cur := htyped.visible
  have hbelow := (p.step (.char b)).term.below
  have hend := Nat.mul_add crtCols (p.step (.char b)).term.top 25
  refine ⟨p.term.cur - crtCols * (p.step (.char b)).term.top, ?_, ?_⟩
  · change _ < crtCols * 25
    omega
  · rw [Nat.add_sub_cancel' hvisible]
    exact htyped.cell 0 Nat.one_pos

/-- A stream whose printed cells have one number in both orders, whenever they are on the
screen, prints no others. -/
theorem printsSame_of_visible {ts : List Piece} {p : Painted}
    (h : ∀ ts', ts' <+: ts → ∀ i < crtSize, ∀ c,
      (ts'.foldl Painted.step p).term.cell
        (crtCols * (ts'.foldl Painted.step p).term.top + i) = some c → c.Same) :
    PrintsSame ts p.selected := by
  induction ts generalizing p with
  | nil => exact trivial
  | cons a ts ih =>
      have hrest := ih (p := p.step a) fun ts' hpre =>
        h (a :: ts') (List.cons_prefix_cons.mpr ⟨rfl, hpre⟩)
      cases a with
      | sgr ps => exact hrest
      | char b =>
          obtain ⟨i, hi, hcell⟩ := visible_put (p := p) b
          exact ⟨h [.char b] (List.cons_prefix_cons.mpr ⟨rfl, List.nil_prefix⟩) i hi _ hcell, hrest⟩

section

variable {ts : List Piece} (hts : ∀ a ∈ ts, a.Ordinary) {s : Console} (hv : s.Video)
  (he : s.esc = 0) (hattr : s.crtAttr = 0x0700) (hpos : s.crtPos.toNat < crtSize)

include hts hv he hattr

/-- The screen shows what every first part of the stream paints. -/
theorem paints_initial {ts' : List Piece} (hpre : ts' <+: ts) :
    Paints (ts'.foldl Painted.step (.start s.crtPos.toNat hpos))
      (consBytes (ts'.flatMap Piece.bytes) s) :=
  paints_run (fun a ha => hts a (hpre.subset ha)) (paints_start hv he hattr hpos)

/-- Colours that appear as named have one number in both orders. -/
theorem AppearAsNamed.printsSame (h : AppearAsNamed ts s hpos) : PrintsSame ts ⟨7, 0⟩ :=
  printsSame_of_visible (p := .start s.crtPos.toNat hpos) fun ts' hpre =>
    (asNamed_iff (paints_initial hts hv he hattr hpos hpre)).mp (h ts' hpre)

/-- **When colours appear as named.** If and only if no character of the stream is printed
while red, yellow, blue or cyan is the foreground or the background selected last. -/
theorem appearAsNamed_iff : AppearAsNamed ts s hpos ↔ PrintsSame ts ⟨7, 0⟩ := by
  refine ⟨AppearAsNamed.printsSame hts hv he hattr hpos, fun h ts' hpre => ?_⟩
  refine (asNamed_iff (paints_initial hts hv he hattr hpos hpre)).mpr fun i _ c hc => ?_
  exact same_of_printsSame (p := .start s.crtPos.toNat hpos) (fun j d hd => by cases hd) h
    hpre _ c hc

end

/-- A character in magenta, on the console as it comes up. -/
theorem appearAsNamed_iff_magenta :
    let ts : List Piece := [.sgr [[0x33, 0x35]], .char 0x41]
    AppearAsNamed ts (cgaInit 0xA55A (statics ⟨fun _ => 0, []⟩ ⟨0, fun _ => 0⟩))
        (cgaInit_inv 0xA55A ⟨fun _ => 0, []⟩ ⟨0, fun _ => 0⟩ (by decide)).pos ↔
      PrintsSame ts ⟨7, 0⟩ :=
  appearAsNamed_iff (by decide)
    (cgaInit_inv 0xA55A ⟨fun _ => 0, []⟩ ⟨0, fun _ => 0⟩ (by decide)).video rfl rfl _

/-- **Red does not appear as named.** A character in red is blue on the screen. -/
theorem not_appearAsNamed_red :
    ¬ ∀ (ts : List Piece) (s : Console) (hpos : s.crtPos.toNat < crtSize),
      (∀ a ∈ ts, a.Ordinary) → s.Video → s.esc = 0 → s.crtAttr = 0x0700 →
        AppearAsNamed ts s hpos := by
  intro h
  have hinv := cgaInit_inv 0xA55A ⟨fun _ => 0, []⟩ ⟨0, fun _ => 0⟩ (by decide)
  have hts : ∀ a ∈ ([.sgr [[0x33, 0x31]], .char 0x41] : List Piece), a.Ordinary := by decide
  have happear := h _ _ hinv.pos hts hinv.video rfl rfl
  exact absurd (happear.printsSame hts hinv.video rfl rfl hinv.pos) (by decide)

end Jos
