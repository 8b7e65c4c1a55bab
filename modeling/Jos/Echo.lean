import Jos.Escape
import Jos.Readline
import Jos.ScreenRefinement

/-!
# The Echo of a Line

`readline` keeps the line in its buffer, and echoes every key it acts on. On the terminal
behind the screen the line is the text right before the cursor (`Term.Typed`): a key that is
kept puts a cell, a key that erases steps back over one, and the window that moves on when
the cursor leaves it moves past no cell of the line, since the line is shorter than the
screen by more than a row.

## Main results

* `readlineKey_echoes`: one key acts alike on the buffer and on the terminal.
* `readline_shows`: **the echo shows the line**, after every key.
-/

namespace Jos

open Console

/-! ### Echoing one character -/

/-- A character outside escape sequences, on the screen. -/
theorem emit_shown {s : Console} {t : CrtTerm} (hv : s.Video)
    (hattr : s.crtAttr.setWidth 8 = (0 : Byte)) (he : s.esc = 0) (h : s.Shown t) (b : Byte) :
    (emit (b.setWidth 32) s).Shown (typeByte s.crtAttr b t) :=
  cgaPutc_shown (s := lptPutc (b.setWidth 32) (serialPutc (b.setWidth 32) s)) hv hattr he h b

/-- The echo is on, in this kernel. -/
theorem echo_eq (c : BitVec 32) (s : Line) :
    echo c s = { s with console := cputchar c s.console } := by
  rw [echo, if_pos (by decide)]

/-- The state of `readline` in which the line `l`, which began at the cell `start` of the
terminal, is in the buffer and before the cursor. -/
structure Echoes (start : ℕ) (l : List Byte) (s : Line) : Prop where
  holds : Holds s l
  video : s.console.Video
  attr : s.console.crtAttr.setWidth 8 = (0 : Byte)
  esc : s.console.esc = 0
  typed : ∃ t : CrtTerm, s.console.Shown t ∧ t.Typed (BitVec.setWidth 8) start l

/-- Echoing a character: the line in the buffer stays, and the terminal gets the byte. -/
theorem Echoes.cputchar {start : ℕ} {l : List Byte} {s : Line} (h : Echoes start l s) {b : Byte}
    (hb : b ≠ 0x1B) {l' : List Byte}
    (htyped : ∀ (t : CrtTerm) (attr : BitVec 16), attr.setWidth 8 = (0 : Byte) →
      t.Typed (BitVec.setWidth 8) start l →
      (typeByte attr b t).Typed (BitVec.setWidth 8) start l')
    {s' : Line} (hs' : s'.console = Jos.cputchar (b.setWidth 32) s.console) (hl' : Holds s' l') :
    Echoes start l' s' := by
  obtain ⟨t, hshown, ht⟩ := h.typed
  have hground : Jos.cputchar (b.setWidth 32) s.console = emit (b.setWidth 32) s.console :=
    consPutc_ground h.esc fun hesc => hb ((byte_and_0xFF_eq b 0x1B).mp hesc)
  rw [hground] at hs'
  have hdraw := emit_drawn (b.setWidth 32) h.esc hshown.pos
  refine ⟨hl', ?_, ?_, ?_, typeByte s.console.crtAttr b t, ?_, htyped t _ h.attr ht⟩
  · rw [hs']
    exact hdraw.toDraws.video h.video
  · rw [hs', hdraw.crtAttr]
    exact h.attr
  · rw [hs', hdraw.esc]
    exact h.esc
  · rw [hs']
    exact emit_shown h.video h.attr h.esc hshown b

/-! ### One key -/

/-- A character that is kept is put at the cursor. -/
theorem typeByte_kept {attr : BitVec 16} (hattr : attr.setWidth 8 = (0 : Byte)) {b : Byte}
    (hb : 0x20 ≤ b) {start : ℕ} {l : List Byte} (hl : l.length < bufLen - 1) {t : CrtTerm}
    (ht : t.Typed (BitVec.setWidth 8) start l) :
    (typeByte attr b t).Typed (BitVec.setWidth 8) start (l ++ [b]) := by
  have hne : ∀ c : Byte, c < 0x20 → b ≠ c := by
    rintro c hc rfl
    exact absurd hb (BitVec.not_le.mpr hc)
  have hroom : l.length + 1 + crtCols ≤ crtCols * 25 := by
    simp only [bufLen, crtCols] at hl ⊢
    omega
  have hput := ht.put hroom (glyph attr 0x20) (glyph attr b)
  rw [setWidth_glyph hattr] at hput
  rw [typeByte, if_neg (hne _ (by decide)), if_neg (hne _ (by decide)),
    if_neg (hne _ (by decide)), if_neg (hne _ (by decide))]
  exact hput

/-- **One key**, accepted, refused or erasing, acts alike on the buffer and on the terminal. -/
theorem readlineKey_echoes {c : Byte} (hc : ¬ isNewline c) {start : ℕ} {l : List Byte} {s : Line}
    (h : Echoes start l s) :
    ∃ s', readlineKey (c.setWidth 32) s = .ok (.more s') ∧ Echoes start (typeKey l c) s' := by
  have hi := h.holds.i
  rw [readlineKey_byte, typeKey, ← hi]
  split
  · rename_i herase
    refine ⟨_, rfl, h.cputchar (b := 0x08) (by decide) (fun t attr _ ht => ?_) ?_
      (h.holds.echo 0x08).dropLast⟩
    · rw [typeByte, if_pos rfl]
      exact ht.backspace (hi ▸ herase.2) _
    · rw [echo_eq]
      rfl
  split
  · rename_i hkept
    have hlt : l.length < bufLen - 1 := hi ▸ hkept.2
    refine ⟨_, rfl, h.cputchar (b := c) ?_ (fun t attr hattr ht => ?_) ?_
      ((h.holds.echo (c.setWidth 32)).concat hlt c)⟩
    · rintro rfl
      exact absurd hkept.1 (by decide)
    · exact typeByte_kept hattr hkept.1 hlt ht
    · rw [echo_eq]
      rfl
  · exact ⟨s, rfl, h⟩

/-- **A run of keys.** -/
theorem readlineLoop_echoes {ks : List Byte} (hks : ∀ c ∈ ks, ¬ isNewline c) {start : ℕ}
    {l : List Byte} {s : Line} (h : Echoes start l s) :
    ∃ s', readlineLoop (keys ks) s = .ok (.more s') ∧ Echoes start (ks.foldl typeKey l) s' :=
  readlineLoop_run (R := fun s l => Echoes start l s) (fun _ hc _ _ h => readlineKey_echoes hc h)
    hks h

/-! ### The screen -/

/-- The `i` cells before the cursor hold, as low bytes, the line in the buffer. -/
def Line.Echoed (s : Line) : Prop :=
  s.i ≤ s.console.crtPos.toNat ∧
    ∀ j < s.i, (s.console.cell (s.console.crtPos.toNat - s.i + j)).setWidth 8 = s.buf j

/-- What the terminal shows, the screen has in its cells. -/
theorem Echoes.echoed {start : ℕ} {l : List Byte} {s : Line} (h : Echoes start l s) :
    s.Echoed := by
  obtain ⟨t, hshown, ht⟩ := h.typed
  obtain ⟨hpos, hcell⟩ := Shows.text hshown ht
  rw [Line.Echoed, h.holds.i]
  exact ⟨hpos, fun j hj => (hcell j hj).trans (h.holds.byte j hj).symm⟩

/-- The console that the prompt leaves. -/
def Prompted (prompt : Option (List Byte)) (s s' : Console) : Prop :=
  match prompt with
  | none => s' = s
  | some p => ∃ rc, cprintf (cstr "%s") [.str p] s = .ok (s', rc)

/-- **The echo shows the line.** Let the prompt leave the cursor anywhere on the screen and
the parser in its ground state, on a console that satisfies `Console.Inv` otherwise. Then
after every key but a newline, `i` and the buffer are the line that the keys have edited,
`crt_pos` is at least `i`, and the `i` cells before it hold the line in the buffer: over rows,
after a scroll, after erasing back over the start of a row, and after keys that are refused. -/
theorem readline_shows {prompt : Option (List Byte)} {s₀ s : Console}
    (hprompt : Prompted prompt s₀ s) (hv : s.Video) (hattr : s.crtAttr.setWidth 8 = (0 : Byte))
    (he : s.esc = 0) (hpos : s.crtPos.toNat < crtSize) {ks : List Byte}
    (hks : ∀ c ∈ ks, ¬ isNewline c) (buf : ℕ → Byte) :
    ∃ s', readline prompt (keys ks) s₀ buf = .ok (.more s') ∧
      Holds s' (ks.foldl typeKey []) ∧ s'.Echoed := by
  have hstart : Echoes s.crtPos.toNat [] { console := s, buf := buf, writes := [], i := 0 } :=
    ⟨holds_nil s buf, hv, hattr, he, Term.ofScreen s.cell _ hpos, Shows.ofScreen s.cell _ hpos,
      Term.typed_nil _ (Term.ofScreen s.cell _ hpos : CrtTerm)⟩
  obtain ⟨s', hloop, h'⟩ := readlineLoop_echoes hks hstart
  refine ⟨s', ?_, h'.holds, h'.echoed⟩
  cases prompt with
  | none =>
      obtain rfl : s = s₀ := hprompt
      exact hloop
  | some p =>
      obtain ⟨rc, hp⟩ := hprompt
      rw [readline, hp, ok_bind]
      exact hloop

/-- A letter, a DEL, another letter and a control character, without a prompt, on the console
as it comes up with the cursor at the last cell of the screen. -/
theorem readline_shows_letter :
    ∃ s', readline none (keys [0x61, 0x7F, 0x62, 0x01])
      (cgaInit 0xA55A (statics ⟨fun _ => 0, []⟩ ⟨0, fun i => if i = 14 then 0x07 else 0xCF⟩))
      (fun _ => 0) = .ok (.more s') ∧ Holds s' [0x62] ∧ s'.Echoed := by
  obtain ⟨hv, hpos, -, hattr, he, -⟩ := cgaInit_eq 0xA55A
    (statics ⟨fun _ => 0, []⟩ ⟨0, fun i => if i = 14 then 0x07 else 0xCF⟩)
  refine readline_shows (show Prompted none _ _ from rfl) hv ?_ he ?_ (by decide) _
  · rw [hattr]
    decide
  · rw [hpos]
    decide

end Jos
