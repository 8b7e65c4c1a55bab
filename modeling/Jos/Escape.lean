import Jos.Devices

/-!
# The Escape Parser

The parser of `cons_putc` as a transducer on bytes: `Passed` is its mode and the bytes it
has passed on so far, and `Passes` relates it to the console. The transducer is the code's
own: a held ESC followed by a byte other than `[` is passed on together with that byte,
*whatever the byte is*, and inside a sequence any byte that is no parameter byte ends it.
An ESC that arrives in either place therefore starts nothing.

## Main results

* `consPutc_passes`: one byte through the console is one step of the transducer.
* `consBytes_passes`: a run is a run.
* `resyncs_iff`: `ESC [ 0 m` resets the colours exactly when its ESC arrives in the
  parser's ground state, that is, in running text.
-/

namespace Jos

open Console

/-! ### The transducer -/

/-- Where the parser is: in running text, after an ESC, or inside `ESC [`. -/
inductive Mode
  | text
  | esc
  | csi
deriving DecidableEq

/-- The variable `esc` of the source. -/
def Mode.code : Mode → BitVec 32
  | text => 0
  | esc => 1
  | csi => 2

/-- A parameter byte: a digit or a semicolon. -/
def isParam (b : Byte) : Prop :=
  0x30 ≤ b ∧ b ≤ 0x39 ∨ b = 0x3B

instance (b : Byte) : Decidable (isParam b) :=
  inferInstanceAs (Decidable (_ ∨ _))

/-- The parser's mode, and the bytes it has passed on to the devices. -/
structure Passed where
  mode : Mode
  out : List Byte

/-- The parser on one byte. -/
def Passed.step (p : Passed) (b : Byte) : Passed :=
  match p.mode with
  | .text =>
      if b = 0x1B then { p with mode := .esc }
      else { p with out := p.out ++ b :: tabBlanks b }
  | .esc =>
      if b = 0x5B then { p with mode := .csi }
      else { mode := .text, out := p.out ++ 0x1B :: b :: tabBlanks b }
  | .csi =>
      if isParam b then p else { p with mode := .text }

/-- Where the parser starts. -/
def Passed.start : Passed where
  mode := .text
  out := []

/-! ### Inside a sequence -/

/-- A byte as an int. -/
theorem toInt_byte (b : Byte) : (b.setWidth 32 : BitVec 32).toInt = b.toNat := by
  have hlt := b.isLt
  rw [BitVec.toInt_eq_toNat_of_lt (by rw [BitVec.toNat_setWidth]; omega), BitVec.toNat_setWidth,
    Nat.mod_eq_of_lt (by omega)]

/-- The digit test of the source. -/
theorem digit_iff (b : Byte) :
    (0x30 ≤ (b.setWidth 32 : BitVec 32).toInt ∧ (b.setWidth 32 : BitVec 32).toInt ≤ 0x39) ↔
      0x30 ≤ b ∧ b ≤ 0x39 := by
  rw [toInt_byte, BitVec.le_def, BitVec.le_def]
  norm_cast

/-- Storing a parameter is a parser step that keeps the attribute and the mode. -/
theorem pushParam_parses (s : Console) :
    Parses s (pushParam s) ∧ (pushParam s).crtAttr = s.crtAttr ∧ (pushParam s).esc = s.esc := by
  rw [pushParam]
  split <;> exact ⟨⟨rfl, rfl, rfl, rfl, rfl, rfl⟩, rfl, rfl⟩

/-- Applying the parameters keeps the low byte of the attribute. -/
theorem sgrLoop_parses (l : List ℕ) {s : Console}
    (hattr : s.crtAttr.setWidth 8 = (0 : Byte)) :
    Parses s (l.foldl sgrRound s) ∧ (l.foldl sgrRound s).crtAttr.setWidth 8 = (0 : Byte) := by
  refine List.foldlRecOn (motive := fun s' => Parses s s' ∧ s'.crtAttr.setWidth 8 = (0 : Byte))
    l sgrRound ⟨Parses.refl s, hattr⟩ ?_
  rintro s' ⟨hpar, hlow'⟩ i -
  obtain ⟨a, ha, hlow⟩ := sgrRound_eq s' i
  rw [ha]
  exact ⟨hpar.trans ⟨rfl, rfl, rfl, rfl, rfl, rfl⟩, hlow hlow'⟩

/-- A parameter byte keeps the sequence going. -/
theorem csiPutc_param {b : Byte} (hb : isParam b) (s : Console) :
    Parses s (csiPutc (b.setWidth 32) s) ∧ (csiPutc (b.setWidth 32) s).crtAttr = s.crtAttr ∧
      (csiPutc (b.setWidth 32) s).esc = s.esc := by
  have hsemi : (b.setWidth 32 : BitVec 32) = 0x3B ↔ b = 0x3B := setWidth_byte_inj b 0x3B
  rw [csiPutc]
  by_cases hdigit : 0x30 ≤ b ∧ b ≤ 0x39
  · rw [if_pos ((digit_iff b).mpr hdigit)]
    exact ⟨⟨rfl, rfl, rfl, rfl, rfl, rfl⟩, rfl, rfl⟩
  · obtain ⟨hpush, hattr, hesc⟩ := pushParam_parses s
    rw [if_neg (mt (digit_iff b).mp hdigit), if_pos (hsemi.mpr (hb.resolve_left hdigit))]
    exact ⟨hpush.trans ⟨rfl, rfl, rfl, rfl, rfl, rfl⟩, hattr, hesc⟩

/-- Any other byte ends it: only `m` applies the parameters. -/
theorem csiPutc_final {b : Byte} (hb : ¬ isParam b) (s : Console) :
    csiPutc (b.setWidth 32) s = { (if b = 0x6D then
      (List.range (pushParam s).nparams.toInt.toNat).foldl sgrRound (pushParam s) else s) with
      esc := 0 } := by
  have hsemi : (b.setWidth 32 : BitVec 32) = 0x3B ↔ b = 0x3B := setWidth_byte_inj b 0x3B
  have hm : (b.setWidth 32 : BitVec 32) = 0x6D ↔ b = 0x6D := setWidth_byte_inj b 0x6D
  obtain ⟨hdigit, h3B⟩ := not_or.mp hb
  rw [csiPutc, if_neg (mt (digit_iff b).mp hdigit), if_neg (mt hsemi.mp h3B)]
  by_cases h6D : b = 0x6D
  · rw [if_pos (hm.mpr h6D), if_pos h6D]
  · rw [if_neg (mt hm.mp h6D), if_neg h6D]

/-- A byte inside a sequence: nothing is printed, and the sequence goes on exactly after a
parameter byte. -/
theorem csiPutc_parses (b : Byte) {s : Console} (hattr : s.crtAttr.setWidth 8 = (0 : Byte)) :
    Parses s (csiPutc (b.setWidth 32) s) ∧
      (csiPutc (b.setWidth 32) s).crtAttr.setWidth 8 = (0 : Byte) ∧
      (csiPutc (b.setWidth 32) s).esc = if isParam b then s.esc else 0 := by
  by_cases hb : isParam b
  · obtain ⟨hpar, hkeep, hesc⟩ := csiPutc_param hb s
    rw [if_pos hb, hkeep]
    exact ⟨hpar, hattr, hesc⟩
  rw [if_neg hb, csiPutc_final hb]
  refine ⟨?_, ?_, rfl⟩
  all_goals split
  · obtain ⟨hpush, hkeep, -⟩ := pushParam_parses s
    exact (hpush.trans (sgrLoop_parses _ (hkeep ▸ hattr)).1).trans (setEsc_parses _ 0)
  · exact setEsc_parses s 0
  · exact (sgrLoop_parses _ ((pushParam_parses s).2.1 ▸ hattr)).2
  · exact hattr

/-! ### The console follows the transducer -/

/-- The console `s`, reached from `s₀`, has sent to both ports what the parser passed on
and is in the parser's mode. -/
structure Passes (s₀ s : Console) (p : Passed) : Prop where
  video : s.Video
  attr : s.crtAttr.setWidth 8 = (0 : Byte)
  esc : s.esc = p.mode.code
  serialOut : s.serialOut = s₀.serialOut ++ p.out
  lptOut : s.lptOut = s₀.lptOut ++ p.out

/-- Sending the same bytes to both ports. -/
theorem Passes.sends {s₀ s s' : Console} {p : Passed} {w : List Byte} (h : Passes s₀ s p)
    (hs : Sends s s' w w) : Passes s₀ s' { p with out := p.out ++ w } where
  video := hs.video h.video
  attr := hs.crtAttr ▸ h.attr
  esc := hs.esc.trans h.esc
  serialOut := by rw [hs.serialOut, h.serialOut, List.append_assoc]
  lptOut := by rw [hs.lptOut, h.lptOut, List.append_assoc]

/-- A step of the parser alone. -/
theorem Passes.parses {s₀ s s' : Console} {p : Passed} (h : Passes s₀ s p) (hp : Parses s s')
    (hattr : s'.crtAttr.setWidth 8 = (0 : Byte)) {m : Mode} (hm : s'.esc = m.code) :
    Passes s₀ s' { p with mode := m } where
  video := by rw [Video, hp.crtBuf, hp.addr6845]; exact h.video
  attr := hattr
  esc := hm
  serialOut := by rw [Console.serialOut, hp.out]; exact h.serialOut
  lptOut := by rw [Console.lptOut, hp.out]; exact h.lptOut

/-- The low byte of a byte is itself. -/
theorem byte_and_0xFF (b : Byte) : (b.setWidth 32 : BitVec 32) &&& 0xFF = b.setWidth 32 := by
  rw [and_0xFF]
  simp

/-- A byte is tested for as an int. -/
theorem byte_and_0xFF_eq (b k : Byte) :
    (b.setWidth 32 : BitVec 32) &&& 0xFF = k.setWidth 32 ↔ b = k := by
  rw [byte_and_0xFF, setWidth_byte_inj]

/-- **One byte.** `cons_putc` on a byte is a step of the transducer. -/
theorem consPutc_passes {s₀ s : Console} {p : Passed} (h : Passes s₀ s p) (b : Byte) :
    Passes s₀ (consPutc (b.setWidth 32) s) (p.step b) := by
  obtain ⟨mode, out⟩ := p
  have hesc : (b.setWidth 32 : BitVec 32) &&& 0xFF = 0x1B ↔ b = 0x1B := byte_and_0xFF_eq b 0x1B
  have hbracket : (b.setWidth 32 : BitVec 32) &&& 0xFF = 0x5B ↔ b = 0x5B :=
    byte_and_0xFF_eq b 0x5B
  rw [consPutc_eq]
  cases mode with
  | text =>
      have he : s.esc = 0 := h.esc
      rw [consPutcBody_text _ _ he]
      by_cases h1B : b = 0x1B
      · rw [if_pos (hesc.mpr h1B), Passed.step, if_pos h1B]
        have hp := setEsc_parses s 1
        exact h.parses (m := .esc) hp h.attr rfl
      · rw [if_neg (mt hesc.mp h1B), Passed.step, if_neg h1B]
        exact h.sends (emit_sends h.video h.attr he b)
  | esc =>
      have he : s.esc = 1 := h.esc
      rw [consPutcBody_esc _ _ he]
      by_cases h5B : b = 0x5B
      · rw [if_pos (hbracket.mpr h5B), Passed.step, if_pos h5B]
        have hp := startCsi_parses s
        exact h.parses (m := .csi) hp h.attr rfl
      · rw [if_neg (mt hbracket.mp h5B), Passed.step, if_neg h5B]
        have hp := setEsc_parses s 0
        have hg : Passes s₀ { s with esc := 0 } ⟨.text, out⟩ :=
          h.parses (m := .text) hp h.attr rfl
        have hheld := emit_sends hg.video hg.attr rfl 0x1B
        have hbyte := emit_sends (hheld.video hg.video) (hheld.crtAttr.symm ▸ hg.attr)
          (hheld.esc.trans rfl) b
        exact hg.sends (hheld.trans hbyte)
  | csi =>
      have he : s.esc = 2 := h.esc
      rw [consPutcBody_csi _ _ he, byte_and_0xFF]
      obtain ⟨hpar, hattr, hmode⟩ := csiPutc_parses b h.attr
      rw [Passed.step]
      by_cases hb : isParam b
      · rw [if_pos hb] at hmode
        rw [if_pos hb]
        exact h.parses hpar hattr (hmode.trans he)
      · rw [if_neg hb] at hmode
        rw [if_neg hb]
        exact h.parses hpar hattr hmode

/-- A run of `cons_putc` on bytes. -/
def consBytes (bs : List Byte) (s : Console) : Console :=
  bs.foldl (fun s b => consPutc (b.setWidth 32) s) s

/-- **A run.** The console follows the transducer. -/
theorem consBytes_passes {s₀ s : Console} {p : Passed} (h : Passes s₀ s p) (bs : List Byte) :
    Passes s₀ (consBytes bs s) (bs.foldl Passed.step p) := by
  induction bs generalizing s p with
  | nil => exact h
  | cons b bs ih => exact ih (consPutc_passes h b)

/-- The console in its ground state has passed on nothing yet. -/
theorem passes_start {s : Console} (hv : s.Video) (hattr : s.crtAttr.setWidth 8 = (0 : Byte))
    (he : s.esc = 0) : Passes s s .start :=
  ⟨hv, hattr, he, (List.append_nil _).symm, (List.append_nil _).symm⟩

/-- So has the console that `cga_init` leaves. -/
theorem cgaInit_passes (readback : BitVec 16) (mem : Mem) (crtc : Crtc) :
    Passes (cgaInit readback (statics mem crtc)) (cgaInit readback (statics mem crtc)) .start := by
  obtain ⟨hvideo, -, -, hattr, hesc, -⟩ := cgaInit_eq readback (statics mem crtc)
  have hlow : (0x0700 : BitVec 16).setWidth 8 = (0 : Byte) := by decide
  exact passes_start hvideo (by rw [hattr]; exact hlow) hesc

/-! ### Resynchronisation -/

/-- The bytes `ESC [ 0 m` leave the parser in its ground state with the default colours,
and none of the last three reaches a port or the screen. -/
def Console.Resyncs (s : Console) : Prop :=
  let s₁ := consPutc 0x1B s
  let s₄ := consPutc 0x6D (consPutc 0x30 (consPutc 0x5B s₁))
  s₄.esc = 0 ∧ s₄.crtAttr = 0x0700 ∧
    s₄.serialOut = s₁.serialOut ∧ s₄.lptOut = s₁.lptOut ∧ s₄.mem = s₁.mem

/-- In the ground state the sequence is read as one. -/
theorem resyncs_of_ground {s : Console} (he : s.esc = 0) : s.Resyncs := by
  have h₁ : consPutc 0x1B s = { s with esc := 1 } := by
    rw [consPutc_eq, consPutcBody_text _ _ he, if_pos (by decide)]
  have h₂ : consPutc 0x5B { s with esc := 1 } = { s with esc := 2, param := -1, nparams := 0 } :=
    rfl
  have h₃ : consPutc 0x30 { s with esc := 2, param := -1, nparams := 0 } =
      { s with esc := 2, param := 0, nparams := 0 } := rfl
  have h₄ : consPutc 0x6D { s with esc := 2, param := 0, nparams := 0 } =
      { s with
        esc := 0, param := 0, nparams := 1, crtAttr := 0x0700
        params := Function.update s.params 0 0
        uses := .read 0 1 :: .fill 0 :: s.uses } := by
    rfl
  simp only [Resyncs, h₁, h₂, h₃, h₄, serialOut, lptOut, and_self]

/-- Inside an escape sequence the ESC starts nothing, and the other three bytes are text. -/
theorem not_resyncs_of_sequence {s₀ s : Console} {p : Passed} (h : Passes s₀ s p)
    (hm : p.mode ≠ .text) : ¬ s.Resyncs := by
  rintro ⟨-, -, hserial, -⟩
  have h₁ := consPutc_passes h 0x1B
  have h₂ := consPutc_passes h₁ 0x5B
  have h₄ := consPutc_passes (consPutc_passes h₂ 0x30) 0x6D
  obtain ⟨mode, out⟩ := p
  have hsent := h₄.serialOut.symm.trans (hserial.trans h₁.serialOut)
  have hlen := congrArg List.length (List.append_cancel_left hsent)
  cases mode with
  | text => exact hm rfl
  | esc => simp [Passed.step, tabBlanks] at hlen
  | csi => simp [Passed.step, tabBlanks, isParam] at hlen

/-- **When an escape sequence resynchronises.** After `cga_init` and any stream of bytes,
the four bytes `ESC [ 0 m` do what they say exactly when the parser is in its ground
state, that is, when the stream, read by the transducer from its start, ends in running text
and not inside an escape sequence. -/
theorem resyncs_iff (readback : BitVec 16) (mem : Mem) (crtc : Crtc) (bs : List Byte) :
    let s := consBytes bs (cgaInit readback (statics mem crtc))
    (s.Resyncs ↔ s.esc = 0) ∧ (s.Resyncs ↔ (bs.foldl Passed.step .start).mode = .text) := by
  intro s
  have h : Passes _ s _ := consBytes_passes (cgaInit_passes readback mem crtc) bs
  have hmode : s.Resyncs → (bs.foldl Passed.step .start).mode = .text := by
    intro hr
    by_contra hm
    exact not_resyncs_of_sequence h hm hr
  have hesc : (bs.foldl Passed.step .start).mode = .text → s.esc = 0 := by
    intro hm
    rw [h.esc, hm]
    rfl
  exact ⟨⟨fun hr => hesc (hmode hr), resyncs_of_ground⟩,
    ⟨hmode, fun hm => resyncs_of_ground (hesc hm)⟩⟩

/-- A stream that ends in an ESC swallows the next sequence: the ESC is printed twice, and
`[0m` after it. -/
theorem not_resyncs_after_esc :
    ¬ (consBytes [0x1B] (cgaInit 0xA55A (statics ⟨fun _ => 0, []⟩ ⟨0, fun _ => 0⟩))).Resyncs :=
  not_resyncs_of_sequence
    (consBytes_passes (cgaInit_passes 0xA55A ⟨fun _ => 0, []⟩ ⟨0, fun _ => 0⟩) [0x1B])
    (by decide)

end Jos
