import Jos.Screen

/-!
# The Console Invariant

What holds of the console after every call of `cons_putc`, whatever ints it is given, and
what each call may touch on the way. The four pieces of state that interact — cursor,
attribute, parser state and parameter list — are one invariant (`Console.Inv`); the
accesses of a call are `Call`.

## Main results

* `cgaInit_inv`: the invariant holds when the console comes up, provided the hardware
  cursor is inside the screen.
* `consPutc_step`: one call preserves it, and accesses the screen and `params` in bounds.
* `consPutc_run`: hence so does every call of every run.
* `consPutc_confined`: a call from any state, also outside the invariant, stores only where a
  cursor of 16 bits can be.
-/

namespace Jos

open Console

/-- A use of `params` in bounds: a slot that is filled is one of the four, a slot that is
read has been filled. -/
def ParamUse.InBounds : ParamUse → Prop
  | fill i => 0 ≤ i ∧ i < 4
  | read i n => 0 ≤ i ∧ i < n

/-- The console invariant. -/
structure Console.Inv (s : Console) : Prop where
  video : s.Video
  pos : s.crtPos.toNat < crtSize
  attr : s.crtAttr.setWidth 8 = (0 : Byte)
  nparams : 0 ≤ s.nparams.toInt ∧ s.nparams.toInt ≤ 4
  esc : s.esc = 0 ∨ s.esc = 1 ∨ s.esc = 2
  cursor : s.crtc.cursor = s.crtPos

/-- What a call may touch: memory inside the screen, and `params` in bounds. -/
structure Call (s s' : Console) : Prop where
  crtBuf : s'.crtBuf = s.crtBuf
  mem : Mem.Within (OnScreen s.crtBuf) s.mem s'.mem
  uses : ∃ u, s'.uses = u ++ s.uses ∧ ∀ x ∈ u, x.InBounds

/-- Nothing happens in a call that does nothing. -/
theorem Call.refl (s : Console) : Call s s :=
  ⟨rfl, Mem.Within.refl _ _, [], rfl, by simp⟩

/-- Calls, one after the other. -/
theorem Call.trans {s₁ s₂ s₃ : Console} (h₁ : Call s₁ s₂) (h₂ : Call s₂ s₃) : Call s₁ s₃ := by
  obtain ⟨u₁, hu₁, hok₁⟩ := h₁.uses
  obtain ⟨u₂, hu₂, hok₂⟩ := h₂.uses
  refine ⟨h₂.crtBuf.trans h₁.crtBuf, h₁.mem.trans (h₁.crtBuf ▸ h₂.mem), u₂ ++ u₁, ?_, ?_⟩
  · rw [hu₂, hu₁, List.append_assoc]
  · intro x hx
    rcases List.mem_append.mp hx with h | h
    · exact hok₂ x h
    · exact hok₁ x h

/-- Drawing is within what a call may touch. -/
theorem Drawn.call {s s' : Console} (h : Drawn s s') : Call s s' :=
  ⟨h.crtBuf, h.mem, [], h.uses, by simp⟩

/-- Drawing preserves the invariant. -/
theorem Drawn.inv {s s' : Console} (h : Drawn s s') (hs : s.Inv) : s'.Inv where
  video := h.toDraws.video hs.video
  pos := h.pos
  attr := h.crtAttr ▸ hs.attr
  nparams := h.nparams ▸ hs.nparams
  esc := h.esc ▸ hs.esc
  cursor := h.cursor

/-! ### The attribute -/

/-- An attribute byte moved into the high half leaves the low half zero. -/
theorem setWidth_attr (a : Byte) : ((a.setWidth 16 : BitVec 16) <<< 8).setWidth 8 = (0 : Byte) := by
  apply BitVec.eq_of_getLsbD_eq
  intro i hi
  simp [hi]

/-- An SGR parameter changes the attribute only, and keeps its low byte zero. -/
theorem applySgr_eq (p : BitVec 32) (s : Console) :
    ∃ a : BitVec 16, applySgr p s = { s with crtAttr := a } ∧
      (s.crtAttr.setWidth 8 = (0 : Byte) → a.setWidth 8 = (0 : Byte)) := by
  have hfg : ∀ fg, ∃ a : BitVec 16, setVgaFg fg s = { s with crtAttr := a } ∧
      (s.crtAttr.setWidth 8 = (0 : Byte) → a.setWidth 8 = (0 : Byte)) :=
    fun fg => ⟨_, rfl, fun _ => setWidth_attr _⟩
  have hbg : ∀ bg, ∃ a : BitVec 16, setVgaBg bg s = { s with crtAttr := a } ∧
      (s.crtAttr.setWidth 8 = (0 : Byte) → a.setWidth 8 = (0 : Byte)) :=
    fun bg => ⟨_, rfl, fun _ => setWidth_attr _⟩
  have hnone : ∃ a : BitVec 16, s = { s with crtAttr := a } ∧
      (s.crtAttr.setWidth 8 = (0 : Byte) → a.setWidth 8 = (0 : Byte)) :=
    ⟨s.crtAttr, rfl, id⟩
  rw [applySgr]
  split
  · exact ⟨0x0700, rfl, fun _ => by decide⟩
  split
  · dsimp only
    split
    · exact hfg _
    · exact hnone
  split
  · exact hfg _
  split
  · exact hbg _
  split
  · exact hfg _
  split
  · exact hbg _
  · exact hnone

/-- A round of the SGR loop reads one slot and may change the attribute. -/
theorem sgrRound_eq (s : Console) (i : ℕ) :
    ∃ a : BitVec 16,
      sgrRound s i = { s with crtAttr := a, uses := .read i s.nparams.toInt :: s.uses } ∧
      (s.crtAttr.setWidth 8 = (0 : Byte) → a.setWidth 8 = (0 : Byte)) := by
  obtain ⟨a, ha, hlow⟩ := applySgr_eq (s.params i)
    { s with uses := .read i s.nparams.toInt :: s.uses }
  exact ⟨a, ha, hlow⟩

/-! ### The parser steps -/

/-- A parser step: no memory, no cursor and no adapter, only the parser's own variables,
the attribute and the uses of `params`. -/
structure Parses (s s' : Console) : Prop where
  crtBuf : s'.crtBuf = s.crtBuf
  addr6845 : s'.addr6845 = s.addr6845
  mem : s'.mem = s.mem
  crtc : s'.crtc = s.crtc
  crtPos : s'.crtPos = s.crtPos
  out : s'.out = s.out

/-- The invariant after a parser step, from the parts the step may change. -/
theorem Parses.inv {s s' : Console} (h : Parses s s') (hs : s.Inv)
    (hattr : s'.crtAttr.setWidth 8 = (0 : Byte))
    (hn : 0 ≤ s'.nparams.toInt ∧ s'.nparams.toInt ≤ 4)
    (he : s'.esc = 0 ∨ s'.esc = 1 ∨ s'.esc = 2) : s'.Inv where
  video := by rw [Video, h.crtBuf, h.addr6845]; exact hs.video
  pos := by rw [h.crtPos]; exact hs.pos
  attr := hattr
  nparams := hn
  esc := he
  cursor := by rw [h.crtc, h.crtPos]; exact hs.cursor

/-- A step of the parser is a call, if it stays inside its array. -/
theorem Parses.call {s s' : Console} (h : Parses s s')
    (hu : ∃ u, s'.uses = u ++ s.uses ∧ ∀ x ∈ u, x.InBounds) : Call s s' :=
  ⟨h.crtBuf, h.mem ▸ Mem.Within.refl _ _, hu⟩

/-- Steps of the parser, one after the other. -/
theorem Parses.trans {s₁ s₂ s₃ : Console} (h₁ : Parses s₁ s₂) (h₂ : Parses s₂ s₃) :
    Parses s₁ s₃ where
  crtBuf := h₂.crtBuf.trans h₁.crtBuf
  addr6845 := h₂.addr6845.trans h₁.addr6845
  mem := h₂.mem.trans h₁.mem
  crtc := h₂.crtc.trans h₁.crtc
  crtPos := h₂.crtPos.trans h₁.crtPos
  out := h₂.out.trans h₁.out

/-- No step of the parser is one. -/
theorem Parses.refl (s : Console) : Parses s s :=
  ⟨rfl, rfl, rfl, rfl, rfl, rfl⟩

/-- Going into another state of the parser. -/
theorem setEsc_parses (s : Console) (e : BitVec 32) : Parses s { s with esc := e } :=
  ⟨rfl, rfl, rfl, rfl, rfl, rfl⟩

/-- Starting a sequence. -/
theorem startCsi_parses (s : Console) : Parses s { s with esc := 2, param := -1, nparams := 0 } :=
  ⟨rfl, rfl, rfl, rfl, rfl, rfl⟩

/-- Storing a parameter: into one of the four slots, or not at all. -/
theorem pushParam_step {s : Console} (hs : s.Inv) :
    Parses s (pushParam s) ∧ Call s (pushParam s) ∧ (pushParam s).Inv ∧
      (pushParam s).esc = s.esc := by
  obtain ⟨hlo, hhi⟩ := hs.nparams
  rw [pushParam]
  split
  · rename_i hlt
    have hsucc : (s.nparams + 1).toInt = s.nparams.toInt + 1 := by
      rw [BitVec.toInt_add, show (1 : BitVec 32).toInt = 1 from rfl]
      exact Int.bmod_eq_of_le (by omega) (by omega)
    have hp : Parses s { s with
        params := Function.update s.params s.nparams.toInt
          (if s.param.toInt < 0 then 0 else s.param)
        nparams := s.nparams + 1
        uses := .fill s.nparams.toInt :: s.uses } := ⟨rfl, rfl, rfl, rfl, rfl, rfl⟩
    refine ⟨hp, hp.call ⟨[.fill s.nparams.toInt], rfl, ?_⟩,
      hp.inv hs hs.attr ⟨?_, ?_⟩ hs.esc, rfl⟩
    · intro x hx
      rw [List.mem_singleton.mp hx]
      exact ⟨hlo, hlt⟩
    · rw [hsucc]; omega
    · rw [hsucc]; omega
  · exact ⟨Parses.refl s, Call.refl s, hs, rfl⟩

/-- The loop over the SGR parameters: it reads filled slots only. -/
theorem sgrLoop_step {s : Console} (hs : s.Inv) (l : List ℕ)
    (hl : ∀ i ∈ l, (i : ℤ) < s.nparams.toInt) :
    Parses s (l.foldl sgrRound s) ∧ Call s (l.foldl sgrRound s) ∧ (l.foldl sgrRound s).Inv ∧
      (l.foldl sgrRound s).nparams = s.nparams := by
  refine List.foldlRecOn (motive := fun s' => Parses s s' ∧ Call s s' ∧ s'.Inv ∧
    s'.nparams = s.nparams) l sgrRound ?_ ?_
  · exact ⟨Parses.refl s, Call.refl s, hs, rfl⟩
  · rintro s' ⟨hpar, hcall, hinv, hn⟩ i hi
    obtain ⟨a, ha, hlow⟩ := sgrRound_eq s' i
    have hp : Parses s' { s' with
        crtAttr := a
        uses := .read i s'.nparams.toInt :: s'.uses } := ⟨rfl, rfl, rfl, rfl, rfl, rfl⟩
    rw [ha]
    refine ⟨hpar.trans hp, hcall.trans (hp.call ⟨[.read i s'.nparams.toInt], rfl, ?_⟩),
      hp.inv hinv (hlow hinv.attr) hinv.nparams hinv.esc, hn⟩
    intro x hx
    rw [List.mem_singleton.mp hx]
    exact ⟨Int.natCast_nonneg i, by rw [hn]; exact hl i hi⟩

/-- One character inside a CSI sequence. -/
theorem csiPutc_step (ch : BitVec 32) {s : Console} (hs : s.Inv) :
    Call s (csiPutc ch s) ∧ (csiPutc ch s).Inv := by
  rw [csiPutc]
  split
  · have hp : Parses s { s with
        param := (if s.param.toInt < 0 then 0 else s.param) * 10 + (ch - 0x30) } :=
      ⟨rfl, rfl, rfl, rfl, rfl, rfl⟩
    exact ⟨hp.call ⟨[], rfl, by simp⟩, hp.inv hs hs.attr hs.nparams hs.esc⟩
  split
  · obtain ⟨-, hcall, hinv, -⟩ := pushParam_step hs
    have hp : Parses (pushParam s) { pushParam s with param := -1 } :=
      ⟨rfl, rfl, rfl, rfl, rfl, rfl⟩
    exact ⟨hcall.trans (hp.call ⟨[], rfl, by simp⟩), hp.inv hinv hinv.attr hinv.nparams hinv.esc⟩
  split
  · obtain ⟨-, hcall, hinv, -⟩ := pushParam_step hs
    obtain ⟨-, hcall', hinv', -⟩ := sgrLoop_step hinv
      (List.range (pushParam s).nparams.toInt.toNat) fun i hi => by
        have := List.mem_range.mp hi
        omega
    set s' := (List.range (pushParam s).nparams.toInt.toNat).foldl sgrRound (pushParam s)
    have hp := setEsc_parses s' 0
    exact ⟨(hcall.trans hcall').trans (hp.call ⟨[], rfl, by simp⟩),
      hp.inv hinv' hinv'.attr hinv'.nparams (Or.inl rfl)⟩
  · have hp := setEsc_parses s 0
    exact ⟨hp.call ⟨[], rfl, by simp⟩, hp.inv hs hs.attr hs.nparams (Or.inl rfl)⟩

/-! ### The whole call -/

/-- **One call.** From any state that satisfies the invariant and for any int, `cons_putc`
ends in a state that satisfies it, and stays inside the screen and inside `params`. -/
theorem consPutc_step (c : BitVec 32) {s : Console} (hs : s.Inv) :
    Call s (consPutc c s) ∧ (consPutc c s).Inv := by
  rw [consPutc_eq]
  rcases hs.esc with he | he | he
  · rw [consPutcBody_text _ _ he]
    split
    · have hp := setEsc_parses s 1
      exact ⟨hp.call ⟨[], rfl, by simp⟩, hp.inv hs hs.attr hs.nparams (Or.inr (Or.inl rfl))⟩
    · have hd := emit_drawn c he hs.pos
      exact ⟨hd.call, hd.inv hs⟩
  · rw [consPutcBody_esc _ _ he]
    split
    · have hp := startCsi_parses s
      have hn : 0 ≤ (0 : BitVec 32).toInt ∧ (0 : BitVec 32).toInt ≤ 4 := by decide
      exact ⟨hp.call ⟨[], rfl, by simp⟩, hp.inv hs hs.attr hn (Or.inr (Or.inr rfl))⟩
    · have hp := setEsc_parses s 0
      have hinv := hp.inv hs hs.attr hs.nparams (Or.inl rfl)
      have hd := emit_drawn 0x1B (s := { s with esc := 0 }) rfl hs.pos
      have hd' := emit_drawn c (hd.esc.trans rfl) hd.pos
      exact ⟨((hp.call ⟨[], rfl, by simp⟩).trans hd.call).trans hd'.call,
        hd'.inv (hd.inv hinv)⟩
  · rw [consPutcBody_csi _ _ he]
    exact csiPutc_step _ hs

/-- Two bytes read one after the other, as the source joins them. -/
theorem shiftLeft_or_eq_append (hi lo : Byte) :
    ((BitVec.setWidth 32 hi <<< (8 : ℕ)) ||| BitVec.setWidth 32 lo).setWidth 16 =
      (hi ++ lo : BitVec 16) := by
  apply BitVec.eq_of_getLsbD_eq
  intro i hi'
  rw [BitVec.getLsbD_append]
  by_cases h : i < 8
  · simp [h, hi']
  · have hlo : lo.getLsbD i = false := BitVec.getLsbD_of_ge lo i (by omega)
    simp [h, hi', hlo]

/-- What `cga_init` finds: one of the two adapters, and the cursor where the controller
has it. The other statics are as before. -/
theorem cgaInit_eq (readback : BitVec 16) (s : Console) :
    (cgaInit readback s).Video ∧
      (cgaInit readback s).crtPos = s.crtc.cursor ∧
      (cgaInit readback s).crtc.cursor = s.crtc.cursor ∧
      (cgaInit readback s).crtAttr = s.crtAttr ∧
      (cgaInit readback s).esc = s.esc ∧
      (cgaInit readback s).nparams = s.nparams := by
  by_cases h : readback ≠ 0xA55A
  · simp only [Video, cgaInit, if_pos h]
    exact ⟨Or.inr ⟨rfl, rfl⟩, shiftLeft_or_eq_append _ _, rfl, rfl, rfl, rfl⟩
  · simp only [Video, cgaInit, if_neg h]
    exact ⟨Or.inl ⟨rfl, rfl⟩, shiftLeft_or_eq_append _ _, rfl, rfl, rfl, rfl⟩

/-- **The console comes up in the invariant** when the hardware cursor is inside the
screen, whichever adapter is found. -/
theorem cgaInit_inv (readback : BitVec 16) (mem : Mem) (crtc : Crtc)
    (hcur : crtc.cursor.toNat < crtSize) : (cgaInit readback (statics mem crtc)).Inv := by
  obtain ⟨hvideo, hpos, hcursor, hattr, hesc, hn⟩ := cgaInit_eq readback (statics mem crtc)
  have hzero : 0 ≤ (0 : BitVec 32).toInt ∧ (0 : BitVec 32).toInt ≤ 4 := by decide
  have hlow : (0x0700 : BitVec 16).setWidth 8 = (0 : Byte) := by decide
  exact
    { video := hvideo
      pos := hpos ▸ hcur
      attr := by rw [hattr]; exact hlow
      nparams := by rw [hn]; exact hzero
      esc := Or.inl hesc
      cursor := hcursor.trans hpos.symm }

/-- A run of `cons_putc` calls. -/
def consPuts (cs : List (BitVec 32)) (s : Console) : Console :=
  cs.foldl (fun s c => consPutc c s) s

/-- The invariant along a run. -/
theorem consPuts_inv (cs : List (BitVec 32)) {s : Console} (hs : s.Inv) : (consPuts cs s).Inv :=
  List.foldlRecOn (motive := Console.Inv) cs _ hs fun _ h c _ => (consPutc_step c h).2

/-- **The console invariant.** After `cga_init` with the hardware cursor inside the screen,
every call of every run of `cons_putc` leaves the cursor inside the screen and in step
with the cursor registers, the low byte of the attribute zero, at most four parameters
and one of the three parser states; it stores to cells of the screen only, and every use
it makes of `params` is in bounds. -/
theorem consPutc_run (readback : BitVec 16) (mem : Mem) (crtc : Crtc)
    (hcur : crtc.cursor.toNat < crtSize) (cs : List (BitVec 32)) (c : BitVec 32) :
    let s := consPuts cs (cgaInit readback (statics mem crtc))
    let s' := consPutc c s
    s'.crtPos.toNat < crtSize ∧
      s'.crtAttr.setWidth 8 = (0 : Byte) ∧
      (0 ≤ s'.nparams.toInt ∧ s'.nparams.toInt ≤ 4) ∧
      (s'.esc = 0 ∨ s'.esc = 1 ∨ s'.esc = 2) ∧
      (∃ w, s'.mem.stores = w ++ s.mem.stores ∧ ∀ a ∈ w, OnScreen s.crtBuf a) ∧
      (∃ u, s'.uses = u ++ s.uses ∧ ∀ x ∈ u, x.InBounds) ∧
      s'.crtc.cursor = s'.crtPos := by
  intro s s'
  have hs : s.Inv := consPuts_inv cs (cgaInit_inv readback mem crtc hcur)
  obtain ⟨hcall, hinv⟩ := consPutc_step c hs
  exact ⟨hinv.pos, hinv.attr, hinv.nparams, hinv.esc, hcall.mem.stored, hcall.uses, hinv.cursor⟩

/-- A letter on a console that has just come up on the colour adapter. -/
theorem consPutc_run_letter :
    let s := cgaInit 0xA55A (statics ⟨fun _ => 0, []⟩ ⟨0, fun _ => 0⟩)
    (consPutc 0x41 s).crtPos.toNat < crtSize ∧
      (consPutc 0x41 s).crtc.cursor = (consPutc 0x41 s).crtPos := by
  have h := consPutc_run 0xA55A ⟨fun _ => 0, []⟩ ⟨0, fun _ => 0⟩ (by decide) [] 0x41
  exact ⟨h.1, h.2.2.2.2.2.2⟩

/-! ### From any state -/

/-- A step that stores only where a cursor of 16 bits can be, and keeps the adapter. -/
structure Confined (s s' : Console) : Prop where
  crtBuf : s'.crtBuf = s.crtBuf
  mem : Mem.Within (Mem.Span s.crtBuf (2 ^ 17)) s.mem s'.mem

/-- What does nothing is confined. -/
theorem Confined.refl (s : Console) : Confined s s :=
  ⟨rfl, Mem.Within.refl _ _⟩

/-- Confined steps, one after the other. -/
theorem Confined.trans {s₁ s₂ s₃ : Console} (h₁ : Confined s₁ s₂) (h₂ : Confined s₂ s₃) :
    Confined s₁ s₃ :=
  ⟨h₂.crtBuf.trans h₁.crtBuf, h₁.mem.trans (h₁.crtBuf ▸ h₂.mem)⟩

/-- Confined steps, again and again. -/
theorem Confined.iterate {f : Console → Console} (hf : ∀ s, Confined s (f s)) (n : ℕ)
    (s : Console) : Confined s (f^[n] s) := by
  induction n with
  | zero => exact .refl s
  | succ n ih =>
      rw [Function.iterate_succ_apply']
      exact ih.trans (hf _)

/-- A step of the parser stores nothing to memory. -/
theorem Parses.confined {s s' : Console} (h : Parses s s') : Confined s s' :=
  ⟨h.crtBuf, h.mem ▸ Mem.Within.refl _ _⟩

/-- The bytes from the adapter's buffer on. -/
theorem span_add_ofNat (buf : Addr) {k n : ℕ} (hk : k < n) (hn : n ≤ 2 ^ 32) :
    Mem.Span buf n (buf + BitVec.ofNat 32 k) := by
  rw [Mem.Span, show buf + BitVec.ofNat 32 k - buf = BitVec.ofNat 32 k by ring,
    BitVec.toNat_ofNat, Nat.mod_eq_of_lt (by omega)]
  exact hk

/-- A cell that a cursor of 16 bits can be at. -/
theorem setCell_confined (p : BitVec 16) (v : BitVec 16) (s : Console) :
    Confined s (s.setCell p.toNat v) := by
  have hp := p.isLt
  refine ⟨rfl, Mem.within_store16 s.mem v ?_ ?_⟩
  · exact span_add_ofNat _ (by omega) (by decide)
  · rw [cellAddr, Mem.add_ofNat_add_one]
    exact span_add_ofNat _ (by omega) (by decide)

/-- Drawing on the screen. -/
theorem Draws.confined {s s' : Console} (h : Draws s s') : Confined s s' := by
  refine ⟨h.crtBuf, h.mem.mono ?_⟩
  rintro a ⟨i, hi, rfl | rfl⟩
  · exact span_add_ofNat _ (by simp only [crtSize] at hi; omega) (by decide)
  · rw [Mem.add_ofNat_add_one]
    exact span_add_ofNat _ (by simp only [crtSize] at hi; omega) (by decide)

/-- The display, over any `cons_putc` whose blanks are confined. -/
theorem cgaPutcBody_confined {f : BitVec 32 → Console → Console}
    (hf : ∀ s, Confined s (f 0x20 s)) (c : BitVec 32) (s : Console) :
    Confined s (cgaPutcBody f c s) := by
  have hpos : ∀ (s : Console) (p : BitVec 16), Confined s { s with crtPos := p } :=
    fun s p => (crtPos_draws s p).confined
  have hswitch : ∀ c s, Confined s (cgaSwitch f c s) := by
    intro c s
    rw [cgaSwitch]
    split
    · split
      · exact (hpos s _).trans (setCell_confined _ _ _)
      · exact .refl s
    split
    · exact (hpos s _).trans (hpos _ _)
    split
    · exact hpos s _
    split
    · exact .iterate hf 5 s
    · exact (setCell_confined _ _ s).trans (hpos _ _)
  have hscroll : ∀ s, Confined s (scrollCheck s) := by
    intro s
    rw [scrollCheck]
    split
    · exact (scroll_draws s).confined
    · exact .refl s
  exact ((hswitch _ s).trans (hscroll _)).trans (moveCursor_draws _).confined

/-- The loop over the SGR parameters stores nothing. -/
theorem sgrLoop_confined (l : List ℕ) (s : Console) : Confined s (l.foldl sgrRound s) :=
  List.foldlRecOn (motive := Confined s) l sgrRound (.refl s) fun s' h i _ => by
    obtain ⟨a, ha, -⟩ := sgrRound_eq s' i
    rw [ha]
    exact h.trans ⟨rfl, Mem.Within.refl _ _⟩

/-- Neither does a character inside a CSI sequence. -/
theorem csiPutc_confined (ch : BitVec 32) (s : Console) : Confined s (csiPutc ch s) := by
  have hpush : Confined s (pushParam s) := by
    rw [pushParam]
    split
    · exact ⟨rfl, Mem.Within.refl _ _⟩
    · exact .refl s
  have hkeep : ∀ s s' : Console, s'.crtBuf = s.crtBuf → s'.mem = s.mem → Confined s s' :=
    fun s s' hbuf hmem => ⟨hbuf, hmem ▸ Mem.Within.refl _ _⟩
  rw [csiPutc]
  split
  · exact hkeep _ _ rfl rfl
  split
  · exact hpush.trans (hkeep _ _ rfl rfl)
  split
  · exact (hpush.trans (sgrLoop_confined _ _)).trans (hkeep _ _ rfl rfl)
  · exact hkeep _ _ rfl rfl

/-- `cons_putc`, over any display that is confined. -/
theorem consPutcBody_confined {g : BitVec 32 → Console → Console} (hg : ∀ c s, Confined s (g c s))
    (c : BitVec 32) (s : Console) : Confined s (consPutcBody g c s) := by
  have hemit : ∀ c s, Confined s (emitBody g c s) := fun c s =>
    ((serialPutc_draws c s).confined.trans (lptPutc_draws c _).confined).trans (hg c _)
  have hesc : ∀ (s : Console) (e : BitVec 32), Confined s { s with esc := e } :=
    fun s e => (setEsc_parses s e).confined
  rw [consPutcBody]
  split
  · split
    · exact hesc s 1
    · exact hemit c s
  split
  · split
    · exact (startCsi_parses s).confined
    · exact ((hesc s 0).trans (hemit 0x1B _)).trans (hemit c _)
  split
  · exact csiPutc_confined _ s
  · exact hemit c s

/-- **From any state**, wherever the cursor is, `cons_putc` stores in reach of a cursor of 16
bits only. -/
theorem consPutc_confined (c : BitVec 32) (s : Console) : Confined s (consPutc c s) := by
  have hblank : ∀ c s, Confined s (consPutcBlank c s) :=
    consPutcBody_confined (cgaPutcBody_confined fun s => .refl s)
  exact consPutcBody_confined (cgaPutcBody_confined (hblank 0x20)) c s

end Jos
