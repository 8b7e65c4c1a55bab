import Jos.Escape
import Jos.Fallible

/-!
# The Console and the Rest of the Memory

The rest of the kernel stores to the memory between two characters. The output side reads it
for nothing but scrolling: the ports, the cursor, the attribute and the parser are the same
whatever is in there (`UpToMem`). Nor do they see more of a character than its low byte.

## Main results

* `consPutc_upToMem`: `cons_putc` does the same, whatever is in the memory.
* `consPutc_passes_int`: what the parser and the ports see of any int.
-/

namespace Jos

open Console

/-! ### The memory does not matter -/

/-- Another memory. -/
def Console.withMem (m : Mem) (s : Console) : Console :=
  { s with mem := m }

/-- The same console, on another memory. -/
def UpToMem (s s' : Console) : Prop :=
  ∃ m, s' = s.withMem m

/-- A console is like itself. -/
theorem UpToMem.refl (s : Console) : UpToMem s s :=
  ⟨s.mem, rfl⟩

/-- Consoles that are like one another in turn are alike. -/
theorem UpToMem.trans {s₁ s₂ s₃ : Console} (h₁ : UpToMem s₁ s₂) (h₂ : UpToMem s₂ s₃) :
    UpToMem s₁ s₃ := by
  obtain ⟨m, rfl⟩ := h₁
  obtain ⟨m', rfl⟩ := h₂
  exact ⟨m', rfl⟩

/-- A run of steps, none of which looks at the memory. -/
theorem foldl_upToMem {α : Type} {f : Console → α → Console}
    (hf : ∀ a s s', UpToMem s s' → UpToMem (f s a) (f s' a)) (l : List α) {s s' : Console}
    (h : UpToMem s s') : UpToMem (l.foldl f s) (l.foldl f s') :=
  List.foldl_rel h fun a _ s s' h => hf a s s' h

section

variable {s s' : Console} (h : UpToMem s s')
include h

/-- A move of the cursor position keeps two consoles alike. -/
theorem crtPos_upToMem (p : BitVec 16 → BitVec 16) :
    UpToMem { s with crtPos := p s.crtPos } { s' with crtPos := p s'.crtPos } := by
  obtain ⟨m, rfl⟩ := h
  exact ⟨m, rfl⟩

/-- Scrolling reads the memory, but only to store to it. -/
theorem scroll_upToMem : UpToMem (scroll s) (scroll s') := by
  have hblank : ∀ i (s s' : Console), UpToMem s s' →
      UpToMem (s.setCell i (s.crtAttr ||| 0x20)) (s'.setCell i (s'.crtAttr ||| 0x20)) := by
    rintro i s s' ⟨m, rfl⟩
    exact ⟨_, rfl⟩
  have hmoved : ∀ n, UpToMem { s with mem := memmove s.mem s.crtBuf (s.cellAddr crtCols) n }
      { s' with mem := memmove s'.mem s'.crtBuf (s'.cellAddr crtCols) n } := by
    obtain ⟨m, rfl⟩ := h
    exact fun n => ⟨_, rfl⟩
  rw [scroll, scroll]
  exact crtPos_upToMem (foldl_upToMem hblank _ (hmoved _)) (· - BitVec.ofNat 16 crtCols)

/-- The four writes that move the cursor do. -/
theorem moveCursor_upToMem : UpToMem (moveCursor s) (moveCursor s') := by
  obtain ⟨m, rfl⟩ := h
  exact ⟨m, rfl⟩

/-- The scroll does. -/
theorem scrollCheck_upToMem : UpToMem (scrollCheck s) (scrollCheck s') := by
  have hpos : s'.crtPos = s.crtPos := by
    obtain ⟨m, rfl⟩ := h
    rfl
  rw [scrollCheck, scrollCheck, hpos]
  split
  · exact scroll_upToMem h
  · exact h

/-- The switch of the display, over any `cons_putc` that does not look at the memory. -/
theorem cgaSwitch_upToMem {f : BitVec 32 → Console → Console}
    (hf : ∀ s s', UpToMem s s' → UpToMem (f 0x20 s) (f 0x20 s')) (c : BitVec 32) :
    UpToMem (cgaSwitch f c s) (cgaSwitch f c s') := by
  have htab : UpToMem ((f 0x20)^[5] s) ((f 0x20)^[5] s') := rel_iterate hf 5 h
  obtain ⟨m, rfl⟩ := h
  rw [cgaSwitch, cgaSwitch]
  split
  · change UpToMem (if 0 < s.crtPos then _ else s) (if 0 < s.crtPos then _ else s.withMem m)
    split
    · exact ⟨_, rfl⟩
    · exact ⟨m, rfl⟩
  split
  · exact ⟨m, rfl⟩
  split
  · exact ⟨m, rfl⟩
  split
  · exact htab
  · exact ⟨_, rfl⟩

/-- The display does, if the blanks of a tab do. -/
theorem cgaPutcBody_upToMem {f : BitVec 32 → Console → Console}
    (hf : ∀ s s', UpToMem s s' → UpToMem (f 0x20 s) (f 0x20 s')) (c : BitVec 32) :
    UpToMem (cgaPutcBody f c s) (cgaPutcBody f c s') := by
  have hattr : withAttr c s' = withAttr c s := by
    obtain ⟨m, rfl⟩ := h
    rfl
  rw [cgaPutcBody, cgaPutcBody, hattr]
  exact moveCursor_upToMem (scrollCheck_upToMem (cgaSwitch_upToMem h hf _))

/-- A parameter that is stored does. -/
theorem pushParam_upToMem : UpToMem (pushParam s) (pushParam s') := by
  obtain ⟨m, rfl⟩ := h
  refine ⟨m, ?_⟩
  rw [pushParam, pushParam]
  change (if s.nparams.toInt < 4 then _ else s.withMem m) = _
  split <;> rfl

/-- A parameter that is applied does. -/
theorem applySgr_upToMem (p : BitVec 32) : UpToMem (applySgr p s) (applySgr p s') := by
  obtain ⟨m, rfl⟩ := h
  obtain ⟨a, ha, -⟩ := applySgr_eq p s
  have hattr : (applySgr p (s.withMem m)).crtAttr = (applySgr p s).crtAttr := by
    simp only [applySgr, apply_ite Console.crtAttr]
    rfl
  obtain ⟨a', ha', -⟩ := applySgr_eq p (s.withMem m)
  rw [ha, ha'] at hattr ⊢
  have haa : a' = a := hattr
  exact ⟨m, by rw [haa]; rfl⟩

/-- A byte inside a control sequence does. -/
theorem csiPutc_upToMem (ch : BitVec 32) : UpToMem (csiPutc ch s) (csiPutc ch s') := by
  have hpush := pushParam_upToMem h
  have hn : (pushParam s').nparams = (pushParam s).nparams := by
    obtain ⟨m, hm⟩ := hpush
    rw [hm]
    rfl
  have hloop := foldl_upToMem (f := sgrRound) (fun i s s' h => by
    have huses : UpToMem { s with uses := .read i s.nparams.toInt :: s.uses }
        { s' with uses := .read i s'.nparams.toInt :: s'.uses } := by
      obtain ⟨m, rfl⟩ := h
      exact ⟨m, rfl⟩
    have happly := applySgr_upToMem huses (s.params i)
    obtain ⟨m, rfl⟩ := h
    exact happly) (List.range (pushParam s).nparams.toInt.toNat) hpush
  rw [csiPutc, csiPutc]
  split
  · obtain ⟨m, rfl⟩ := h
    exact ⟨m, rfl⟩
  split
  · obtain ⟨m, hm⟩ := hpush
    exact ⟨m, by rw [hm]; rfl⟩
  split
  · dsimp only
    rw [hn]
    obtain ⟨m, hm⟩ := hloop
    exact ⟨m, congrArg (fun x : Console => { x with esc := 0 }) hm⟩
  · obtain ⟨m, rfl⟩ := h
    exact ⟨m, rfl⟩

/-- `cons_putc`, over any display that does not look at the memory. -/
theorem consPutcBody_upToMem {g : BitVec 32 → Console → Console}
    (hg : ∀ c s s', UpToMem s s' → UpToMem (g c s) (g c s')) (c : BitVec 32) :
    UpToMem (consPutcBody g c s) (consPutcBody g c s') := by
  have hemit : ∀ c s s', UpToMem s s' → UpToMem (emitBody g c s) (emitBody g c s') := by
    rintro c s s' ⟨m, rfl⟩
    exact hg _ _ _ ⟨m, rfl⟩
  have hcsi := csiPutc_upToMem h (c &&& 0xFF)
  have hesc : s'.esc = s.esc := by
    obtain ⟨m, rfl⟩ := h
    rfl
  rw [consPutcBody, consPutcBody, hesc]
  split
  · split
    · obtain ⟨m, rfl⟩ := h
      exact ⟨m, rfl⟩
    · exact hemit _ _ _ h
  split
  · split
    · obtain ⟨m, rfl⟩ := h
      exact ⟨m, rfl⟩
    · refine hemit _ _ _ (hemit _ _ _ ?_)
      obtain ⟨m, rfl⟩ := h
      exact ⟨m, rfl⟩
  split
  · exact hcsi
  · exact hemit _ _ _ h

end

/-- **`cons_putc` does not look at the memory.** -/
theorem consPutc_upToMem (c : BitVec 32) {s s' : Console} (h : UpToMem s s') :
    UpToMem (consPutc c s) (consPutc c s') := by
  have hblank : ∀ s s', UpToMem s s' → UpToMem (consPutcBlank 0x20 s) (consPutcBlank 0x20 s') :=
    fun s s' h => consPutcBody_upToMem h (fun c s s' h =>
      cgaPutcBody_upToMem (f := fun _ s => s) h (fun _ _ h => h) c) 0x20
  exact consPutcBody_upToMem h (fun c s s' h => cgaPutcBody_upToMem h hblank c) c

/-! ### Any int -/

/-- A character keeps its low byte when it gets the current attribute. -/
theorem withAttr_and_0xFF (c : BitVec 32) {s : Console}
    (hattr : s.crtAttr.setWidth 8 = (0 : Byte)) : withAttr c s &&& 0xFF = c &&& 0xFF := by
  rw [withAttr]
  split
  · rw [and_0xFF, and_0xFF, BitVec.setWidth_or, BitVec.setWidth_setWidth_of_le _ (by decide),
      hattr]
    exact congrArg (BitVec.setWidth 32) BitVec.or_zero
  · rfl

/-- The switch of the display, by the low byte: the rest of the character is in the cell only. -/
theorem cgaSwitch_upToMem_of_low (f : BitVec 32 → Console → Console) {c d : BitVec 32}
    (hcd : c &&& 0xFF = d &&& 0xFF) (s : Console) :
    UpToMem (cgaSwitch f c s) (cgaSwitch f d s) := by
  rw [cgaSwitch, cgaSwitch, hcd]
  split
  · dsimp only
    split
    · exact ⟨_, rfl⟩
    · exact .refl s
  split
  · exact .refl _
  split
  · exact .refl _
  split
  · exact .refl _
  · exact ⟨_, rfl⟩

/-- Normal output, by the low byte. -/
theorem emit_upToMem_of_low {c d : BitVec 32} (hcd : c &&& 0xFF = d &&& 0xFF) {s : Console}
    (hattr : s.crtAttr.setWidth 8 = (0 : Byte)) : UpToMem (emit c s) (emit d s) := by
  have hbyte : c.setWidth 8 = (d.setWidth 8 : Byte) := by
    rwa [and_0xFF, and_0xFF, setWidth_byte_inj] at hcd
  have hports : lptPutc d (serialPutc d s) = lptPutc c (serialPutc c s) := by
    rw [lptPutc, serialPutc, lptPutc, serialPutc, hbyte]
  change UpToMem (cgaPutc c (lptPutc c (serialPutc c s))) (cgaPutc d (lptPutc d (serialPutc d s)))
  rw [hports]
  have hlow := (withAttr_and_0xFF c (s := lptPutc c (serialPutc c s)) hattr).trans
    (hcd.trans (withAttr_and_0xFF d (s := lptPutc c (serialPutc c s)) hattr).symm)
  exact moveCursor_upToMem (scrollCheck_upToMem (cgaSwitch_upToMem_of_low _ hlow _))

/-- The console of another memory has passed on the same. -/
theorem Passes.upToMem {s₀ s s' : Console} {p : Passed} (h : Passes s₀ s p) (hs : UpToMem s' s) :
    Passes s₀ s' p := by
  obtain ⟨m, rfl⟩ := hs
  exact ⟨h.video, h.attr, h.esc, h.serialOut, h.lptOut⟩

/-- **Any int**: the parser and the ports see its low byte. -/
theorem consPutc_passes_int {s₀ s : Console} {p : Passed} (h : Passes s₀ s p) (c : BitVec 32) :
    Passes s₀ (consPutc c s) (p.step (c.setWidth 8)) := by
  refine (consPutc_passes h (c.setWidth 8)).upToMem ?_
  have hlow : c &&& 0xFF = ((c.setWidth 8 : Byte).setWidth 32) &&& 0xFF := by
    rw [byte_and_0xFF, and_0xFF]
  rw [consPutc_eq, consPutc_eq]
  obtain ⟨mode, out⟩ := p
  cases mode with
  | text =>
      rw [consPutcBody_text _ _ h.esc, consPutcBody_text _ _ h.esc, hlow]
      split
      · exact .refl _
      · exact emit_upToMem_of_low hlow h.attr
  | esc =>
      rw [consPutcBody_esc _ _ h.esc, consPutcBody_esc _ _ h.esc, hlow]
      split
      · exact .refl _
      · have hg : Passes s₀ { s with esc := 0 } ⟨.text, out⟩ :=
          h.parses (m := .text) (setEsc_parses s 0) h.attr rfl
        have hheld := emit_sends hg.video hg.attr rfl 0x1B
        exact emit_upToMem_of_low hlow (hheld.crtAttr.symm ▸ hg.attr)
  | csi =>
      rw [consPutcBody_csi _ _ h.esc, consPutcBody_csi _ _ h.esc, hlow]
      exact .refl _

end Jos
