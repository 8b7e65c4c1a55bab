import Jos.ConsoleInv
import Jos.Glyph

/-!
# What the Ports Receive

`cons_putc` sends what it prints to the serial port, to the parallel port and to the
display, and the display talks to a port of its own when it moves the cursor. `Sends`
records what a step sends to the two ports and what it leaves alone.

A tab is the one character for which the ports receive more than they are sent: the
display prints its five blanks through `cons_putc`, and so through the ports as well.

## Main results

* `cgaSwitch_sends`: the display sends nothing but the blanks of a tab.
* `emit_sends`: what normal output of a byte sends.
-/

namespace Jos

open Console

/-! ### Sending -/

/-- A step that sends `serial` to the serial port and `lpt` to the parallel port, and
leaves the parser state, the attribute and the adapter alone. -/
structure Sends (s s' : Console) (serial lpt : List Byte) : Prop where
  serialOut : s'.serialOut = s.serialOut ++ serial
  lptOut : s'.lptOut = s.lptOut ++ lpt
  addr6845 : s'.addr6845 = s.addr6845
  crtBuf : s'.crtBuf = s.crtBuf
  crtAttr : s'.crtAttr = s.crtAttr
  esc : s'.esc = s.esc

/-- What is sent in turn is sent one behind the other. -/
theorem Sends.trans {s₁ s₂ s₃ : Console} {w₁ w₂ v₁ v₂ : List Byte} (h₁ : Sends s₁ s₂ w₁ v₁)
    (h₂ : Sends s₂ s₃ w₂ v₂) : Sends s₁ s₃ (w₁ ++ w₂) (v₁ ++ v₂) where
  serialOut := by rw [h₂.serialOut, h₁.serialOut, List.append_assoc]
  lptOut := by rw [h₂.lptOut, h₁.lptOut, List.append_assoc]
  addr6845 := h₂.addr6845.trans h₁.addr6845
  crtBuf := h₂.crtBuf.trans h₁.crtBuf
  crtAttr := h₂.crtAttr.trans h₁.crtAttr
  esc := h₂.esc.trans h₁.esc

/-- Sending leaves the adapter where it is. -/
theorem Sends.video {s s' : Console} {w v : List Byte} (h : Sends s s' w v) (hv : s.Video) :
    s'.Video := by
  rw [Video, h.crtBuf, h.addr6845]
  exact hv

/-- Drawing that writes to no port sends nothing. -/
theorem Draws.sends {s s' : Console} (h : Draws s s') (hout : s'.out = s.out) :
    Sends s s' [] [] where
  serialOut := by rw [serialOut, hout, List.append_nil]; rfl
  lptOut := by rw [lptOut, hout, List.append_nil]; rfl
  addr6845 := h.addr6845
  crtBuf := h.crtBuf
  crtAttr := h.crtAttr
  esc := h.esc

/-- A port write, seen from the two data ports. -/
theorem outb_sends (port : BitVec 32) (data : Byte) (s : Console) :
    Sends s (s.outb port data) (if port = com1 + 0 then [data] else [])
      (if port = 0x378 + 0 then [data] else []) where
  serialOut := by
    simp only [serialOut, outb, List.filter_append, List.map_append, List.filter_singleton]
    split <;> simp_all
  lptOut := by
    simp only [lptOut, outb, List.filter_append, List.map_append, List.filter_singleton]
    split <;> simp_all
  addr6845 := rfl
  crtBuf := rfl
  crtAttr := rfl
  esc := rfl

/-- `serial_putc` sends its byte on the serial port. -/
theorem serialPutc_sends (c : BitVec 32) (s : Console) :
    Sends s (serialPutc c s) [c.setWidth 8] [] :=
  outb_sends _ _ s

/-- `lpt_putc` sends its byte to the printer. -/
theorem lptPutc_sends (c : BitVec 32) (s : Console) : Sends s (lptPutc c s) [] [c.setWidth 8] :=
  ((outb_sends (0x378 + 0) _ s).trans (outb_sends (0x378 + 2) _ _)).trans
    (outb_sends (0x378 + 2) _ _)

/-- The ports of the display controller are neither of the two. -/
theorem outb_crtc_sends {s : Console} (hv : s.Video) {port : BitVec 32}
    (hport : port = s.addr6845 ∨ port = s.addr6845 + 1) (data : Byte) :
    Sends s (s.outb port data) [] [] := by
  have h := outb_sends port data s
  have hne : port ≠ com1 + 0 ∧ port ≠ 0x378 + 0 := by
    rcases hv with ⟨-, ha⟩ | ⟨-, ha⟩ <;> rw [ha] at hport <;> rcases hport with rfl | rfl <;>
      decide
  rw [if_neg hne.1, if_neg hne.2] at h
  exact h

/-- The writes that move the cursor are none to a device. -/
theorem moveCursor_sends {s : Console} (hv : s.Video) : Sends s (moveCursor s) [] [] := by
  have h₁ := outb_crtc_sends hv (Or.inl rfl) 14
  have h₂ := outb_crtc_sends (h₁.video hv) (Or.inr rfl) ((s.crtPos >>> 8).setWidth 8)
  have h₃ := outb_crtc_sends ((h₁.trans h₂).video hv) (Or.inl rfl) 15
  exact ((h₁.trans h₂).trans h₃).trans
    (outb_crtc_sends (((h₁.trans h₂).trans h₃).video hv) (Or.inr rfl) (s.crtPos.setWidth 8))

/-- Blanking cells writes to no port. -/
theorem out_foldl_setCell (l : List ℕ) (s : Console) :
    (l.foldl (fun s i => s.setCell i (s.crtAttr ||| 0x20)) s).out = s.out :=
  List.foldlRecOn (motive := fun s' : Console => s'.out = s.out) l _ rfl fun _ h _ _ => h

/-- Scrolling writes to no port. -/
theorem out_scroll (s : Console) : (scroll s).out = s.out := by
  simp only [scroll, out_foldl_setCell]

/-- A scroll sends nothing. -/
theorem scrollCheck_sends (s : Console) : Sends s (scrollCheck s) [] [] := by
  rw [scrollCheck]
  split
  · exact (scroll_draws s).sends (out_scroll s)
  · exact (Draws.refl s).sends rfl

/-- A character that is no tab is drawn without sending anything. -/
theorem cgaPutcBody_sends {f : BitVec 32 → Console → Console} {c : BitVec 32} {s : Console}
    (hv : s.Video) {w v : List Byte} (h : Sends s (cgaSwitch f (withAttr c s) s) w v) :
    Sends s (cgaPutcBody f c s) w v := by
  have hcheck := h.trans (scrollCheck_sends _)
  have hmove := hcheck.trans (moveCursor_sends (hcheck.video hv))
  simp only [List.append_nil] at hmove
  exact hmove

/-- The bytes `cga_putc` makes `cons_putc` send of its own accord. -/
def tabBlanks (b : Byte) : List Byte :=
  if b = 0x09 then List.replicate 5 0x20 else []

/-- The switch of the display sends nothing but the blanks of a tab. -/
theorem cgaSwitch_sends {f : BitVec 32 → Console → Console} {s : Console}
    (hattr : s.crtAttr.setWidth 8 = (0 : Byte)) (b : Byte)
    (htab : b = 0x09 → Sends s ((f 0x20)^[5] s) (tabBlanks b) (tabBlanks b)) :
    Sends s (cgaSwitch f (withAttr (b.setWidth 32) s) s) (tabBlanks b) (tabBlanks b) := by
  rw [cgaSwitch_byte f hattr b]
  by_cases h09 : b = 0x09
  · rw [if_neg (by rw [h09]; decide), if_neg (by rw [h09]; decide), if_neg (by rw [h09]; decide),
      if_pos h09]
    exact htab h09
  have hkeep : ∀ s' : Console, s'.out = s.out → s'.addr6845 = s.addr6845 →
      s'.crtBuf = s.crtBuf → s'.crtAttr = s.crtAttr → s'.esc = s.esc →
      Sends s s' (tabBlanks b) (tabBlanks b) := by
    intro s' hout ha hb hc he
    rw [tabBlanks, if_neg h09]
    exact ⟨by rw [serialOut, hout, List.append_nil]; rfl,
      by rw [lptOut, hout, List.append_nil]; rfl, ha, hb, hc, he⟩
  simp only [if_neg h09]
  split
  · split
    · exact hkeep _ rfl rfl rfl rfl rfl
    · exact hkeep _ rfl rfl rfl rfl rfl
  split
  · exact hkeep _ rfl rfl rfl rfl rfl
  split
  · exact hkeep _ rfl rfl rfl rfl rfl
  · exact hkeep _ rfl rfl rfl rfl rfl

/-- The three devices in turn, over any display that sends `w` after the character. -/
theorem emitBody_sends {g : BitVec 32 → Console → Console} {s : Console} (b : Byte)
    {w : List Byte}
    (h : Sends (lptPutc (b.setWidth 32) (serialPutc (b.setWidth 32) s))
      (g (b.setWidth 32) (lptPutc (b.setWidth 32) (serialPutc (b.setWidth 32) s))) w w) :
    Sends s (emitBody g (b.setWidth 32) s) (b :: w) (b :: w) := by
  have hbyte : ((b.setWidth 32 : BitVec 32).setWidth 8 : Byte) = b := by simp
  have hports := (serialPutc_sends (b.setWidth 32) s).trans (lptPutc_sends (b.setWidth 32) _)
  rw [hbyte] at hports
  exact hports.trans h

/-- A blank through the whole console. -/
theorem emit_blank_sends {s : Console} (hv : s.Video)
    (hattr : s.crtAttr.setWidth 8 = (0 : Byte)) : Sends s (emit 0x20 s) [0x20] [0x20] := by
  refine emitBody_sends (g := cgaPutc) (0x20 : Byte) (w := []) ?_
  rw [cgaPutc, cgaPutcBody_congr (Or.inr (by decide)) consPutcBlank fun _ s => s]
  exact cgaPutcBody_sends (s := lptPutc 0x20 (serialPutc 0x20 s)) hv
    (cgaSwitch_sends (s := lptPutc 0x20 (serialPutc 0x20 s)) hattr 0x20
      fun h => absurd h (by decide))

/-- The blanks of a tab. -/
theorem iterate_blank_sends (n : ℕ) {s : Console} (hv : s.Video)
    (hattr : s.crtAttr.setWidth 8 = (0 : Byte)) (he : s.esc = 0) :
    Sends s ((consPutc 0x20)^[n] s) (List.replicate n 0x20) (List.replicate n 0x20) := by
  induction n with
  | zero => exact (Draws.refl s).sends rfl
  | succ n ih =>
      rw [Function.iterate_succ_apply', consPutc_ground (ih.esc.trans he) (by decide),
        List.replicate_succ']
      exact ih.trans (emit_blank_sends (ih.video hv) (ih.crtAttr ▸ hattr))

/-- **What normal output sends**: the byte, and after a tab five blanks, to both ports. -/
theorem emit_sends {s : Console} (hv : s.Video) (hattr : s.crtAttr.setWidth 8 = (0 : Byte))
    (he : s.esc = 0) (b : Byte) :
    Sends s (emit (b.setWidth 32) s) (b :: tabBlanks b) (b :: tabBlanks b) := by
  refine emitBody_sends (g := cgaPutc) b ?_
  set s' := lptPutc (b.setWidth 32) (serialPutc (b.setWidth 32) s)
  rw [cgaPutc_eq]
  refine cgaPutcBody_sends (s := s') hv (cgaSwitch_sends (s := s') hattr b fun h09 => ?_)
  rw [tabBlanks, if_pos h09]
  exact iterate_blank_sends 5 (s := s') hv hattr he

end Jos
