import Jos.Exec
import Jos.Linked
import Jos.Messages

/-!
# The Stack Backtrace

`mon_backtrace` of `kern/monitor.c`: it follows the frame pointers that the calls of the kernel
have saved on the stack, and prints what it finds at each of them, with the line of the source
that the call returns to.

## Main results

* `prints_frame`: the line for a frame, `prints_info`: and that for the function.
* `backtraceRound_step`: a round of the loop prints both for one active call.
* `monBacktrace_prints`: `mon_backtrace` prints them **for all active calls**.
-/

namespace Jos

/-! ### The function -/

/-- What `mon_backtrace` reads of a frame. -/
structure Frame where
  ebp : BitVec 32
  eip : BitVec 32
  arg1 : BitVec 32
  arg2 : BitVec 32
  arg3 : BitVec 32
  arg4 : BitVec 32
  arg5 : BitVec 32

/-- The frame at a frame pointer. -/
def Frame.load (m : Mem) (ebp : Addr) : Frame where
  ebp := ebp
  -- location of eip will be one location higher than ebp in mem
  eip := m.load32 (ebp + 4)
  -- arguments will be higher than eip
  arg1 := m.load32 (ebp + 8)
  arg2 := m.load32 (ebp + 12)
  arg3 := m.load32 (ebp + 16)
  arg4 := m.load32 (ebp + 20)
  arg5 := m.load32 (ebp + 24)

/-- Its words, in order. -/
def Frame.words (f : Frame) : List (BitVec 32) :=
  [f.ebp, f.eip, f.arg1, f.arg2, f.arg3, f.arg4, f.arg5]

/-- The format of the line for a frame. -/
def frameFmt : List Byte :=
  cstr "  ebp %08x eip %08x args %08x %08x %08x %08x %08x\n"

/-- The format of the line for its function. -/
def infoFmt : List Byte :=
  cstr "         %s:%d: %.*s+%d\n"

/-- The arguments for it. -/
def infoArgs (stabstr : List Byte) (eip : BitVec 32) (info : Eipdebuginfo) : Args :=
  [.str (info.eipFile.bytes stabstr), .word (BitVec.ofInt 32 info.eipLine),
    .word (BitVec.ofInt 32 info.eipFnNamelen), .str (info.eipFnName.bytes stabstr),
    .word (eip - info.eipFnAddr)]

namespace Image

variable (i : Image)

/-- `debuginfo_eip`. -/
def debuginfo (fuel : ℕ) (eip : BitVec 32) : Except Crash Eipdebuginfo :=
  match debuginfoEip fuel i.stabs i.stabstr eip with
  | .error e => .error (.lookup e)
  | .ok (_, info) => .ok info

/-- A round of the loop of `mon_backtrace`, on `ebp` and the machine. -/
def backtraceRound (fuel : ℕ) (s : Addr × Exec) : Except Crash (Round (Addr × Exec) Exec) :=
  if 0 < s.1 then do
    let f := Frame.load s.2.mem s.1
    let x ← i.cprintf frameFmt (f.words.map .word) s.2
    let info ← i.debuginfo fuel f.eip
    let x ← i.cprintf infoFmt (infoArgs i.stabstr f.eip info) x
    pure (.next (x.mem.load32 s.1, x))
  else .ok (.leave s.2)

/-- `mon_backtrace`. -/
def monBacktrace (fuel : ℕ) (x : Exec) : Except Crash Exec := do
  let x ← i.cprintf (cstr "Stack backtrace:\n") [] x
  loop .fuel (i.backtraceRound fuel) fuel (x.ebp, x)

end Image

/-! ### What is printed -/

/-- A word in eight hexadecimal digits. -/
def hexText (v : BitVec 32) : List (BitVec 32) :=
  (List.replicate (8 - (numeral 16 v.toNat).length) (chr '0') ++
    numeralText 16 v.toNat).map (·.signExtend 32)

/-- What stands in front of the words of a frame. -/
def frameLabels : List String :=
  ["  ebp ", " eip ", " args ", " ", " ", " ", " "]

/-- The line for a frame: each word in hexadecimal, behind its label. -/
def Frame.text (f : Frame) : List (BitVec 32) :=
  ((frameLabels.zip f.words).flatMap fun p => printedText p.1 ++ hexText p.2) ++ printedText "\n"

/-- The line for the function that a frame returns to. -/
def Image.infoText (i : Image) (fuel : ℕ) (eip : BitVec 32) : List (BitVec 32) :=
  match i.debuginfo fuel eip with
  | .error _ => []
  | .ok info =>
      match output infoFmt (infoArgs i.stabstr eip info) with
      | .error _ => []
      | .ok (text, _) => text

/-- The two lines for an active call with this frame pointer. -/
def Image.callText (i : Image) (fuel : ℕ) (m : Mem) (ebp : Addr) : List (BitVec 32) :=
  (Frame.load m ebp).text ++ i.infoText fuel (Frame.load m ebp).eip

/-- A word in eight digits. -/
theorem prints_hex (v : BitVec 32) : Prints ("%08x".toList.map chr) [.word v] (hexText v) := by
  have height : numeralText 10 8 = [chr '8'] := by
    rw [numeralText, numeral_of_lt (by decide)]
    rfl
  have hfmt : (numberDirective ⟨[chr '0'], by decide, by decide⟩
      (.digits 8 (by decide) (by decide)) .int).fmt (chr 'x') = "%08x".toList.map chr ++ [0] := by
    simp only [Directive.fmt, Directive.body, numberDirective, Width.bytes, height]
    rfl
  have hnumber : ∀ v : BitVec Length.int.bits, number ⟨[chr '0'], by decide, by decide⟩
      (.digits 8 (by decide) (by decide)) .int .x v = .ok (hexText v, []) := by
    intro v
    rw [number_eq]
    rfl
  refine ⟨by decide, by decide, ?_⟩
  rw [← hfmt]
  exact hnumber v

/-- Words behind their labels. -/
theorem prints_labelled {ps : List (String × BitVec 32)}
    (hps : ∀ p ∈ ps, plainText p.1 = true) :
    Prints (ps.flatMap fun p => p.1.toList.map chr ++ "%08x".toList.map chr)
      (ps.map fun p => .word p.2) (ps.flatMap fun p => printedText p.1 ++ hexText p.2) := by
  induction ps with
  | nil => exact ⟨by decide, by decide, rfl⟩
  | cons p ps ih =>
      have hfirst := (prints_text (hps p (List.mem_cons_self ..))).append (prints_hex p.2)
      exact hfirst.append (ih fun q hq => hps q (List.mem_cons_of_mem p hq))

/-- **The line for a frame.** -/
theorem prints_frame (f : Frame) :
    Prints ("  ebp %08x eip %08x args %08x %08x %08x %08x %08x\n".toList.map chr)
      (f.words.map .word) f.text := by
  have hlabels : ∀ p ∈ frameLabels.zip f.words, plainText p.1 = true := fun p hp =>
    List.all_eq_true.mp (rfl : frameLabels.all plainText = true) p.1 (List.of_mem_zip hp).1
  have hline := (prints_labelled hlabels).append (prints_text (s := "\n") rfl)
  have hfmt : (frameLabels.zip f.words).flatMap (fun p => p.1.toList.map chr ++
      "%08x".toList.map chr) ++ "\n".toList.map chr =
        "  ebp %08x eip %08x args %08x %08x %08x %08x %08x\n".toList.map chr := by
    simp only [frameLabels, Frame.words, List.zip_cons_cons, List.flatMap_cons]
    rfl
  have hargs : (frameLabels.zip f.words).map (fun p => Arg.word p.2) ++ [] =
      f.words.map .word := rfl
  rw [hfmt, hargs] at hline
  exact hline

/-- **The line for a function** can be printed if its names are strings. -/
theorem prints_info {stabstr : List Byte} (eip : BitVec 32) {info : Eipdebuginfo}
    (hfile : 0 ∈ info.eipFile.bytes stabstr) (hname : 0 ∈ info.eipFnName.bytes stabstr) :
    ∃ text, Prints ("         %s:%d: %.*s+%d\n".toList.map chr) (infoArgs stabstr eip info)
      text := by
  obtain ⟨file, hprints⟩ := prints_string hfile
  obtain ⟨name, hname⟩ := prints_precision (BitVec.ofInt 32 info.eipFnNamelen) hname
  obtain ⟨line, hline⟩ := prints_number .d (BitVec.ofInt 32 info.eipLine)
  obtain ⟨offset, hoffset⟩ := prints_number .d (eip - info.eipFnAddr)
  have hall := (prints_text (s := "         ") rfl).append <| hprints.append <|
    (prints_text (s := ":") rfl).append <| hline.append <|
    (prints_text (s := ": ") rfl).append <| hname.append <|
    (prints_text (s := "+") rfl).append <| hoffset.append <|
    prints_text (s := "\n") rfl
  exact ⟨_, hall⟩

/-! ### The loop -/

section

variable {i : Image} {x x' : Exec}

/-- The words that the backtrace reads of a frame stay, also those beyond the stack. -/
theorem Exec.Sound.frame_eq (h : x.Sound i) (hquiet : Quiet i x x') {c : Activation Fn}
    (hc : c ∈ x.calls) : Frame.load x'.mem c.ebp = Frame.load x.mem c.ebp ∧
      x'.mem.load32 c.ebp = x.mem.load32 c.ebp := by
  have hebp := (h.holds.inside c hc).1
  have hword : ∀ k : ℕ, k ≤ 24 →
      x'.mem.load32 (c.ebp + BitVec.ofNat 32 k) = x.mem.load32 (c.ebp + BitVec.ofNat 32 k) := by
    intro k hk
    refine Mem.load32_congr fun j hj => h.byte_eq hquiet ?_
    rw [add_assoc, ← BitVec.ofNat_add, BitVec.toNat_add, BitVec.toNat_ofNat]
    change x.ebp.toNat ≤ c.ebp.toNat at hebp
    have hlt := c.ebp.isLt
    omega
  have hfirst := hword 0 (by decide)
  rw [BitVec.add_zero] at hfirst
  refine ⟨?_, hfirst⟩
  rw [Frame.load, Frame.load, Frame.mk.injEq]
  exact ⟨rfl, hword 4 (by decide), hword 8 (by decide), hword 12 (by decide),
    hword 16 (by decide), hword 20 (by decide), hword 24 (by decide)⟩

end

section

variable {i : Image} {fuel : ℕ} (hfuel : 2 * i.stabs.length + 1 < fuel)
include hfuel

/-- **The lookup** of an address in the kernel finds strings. -/
theorem debuginfo_ok {eip : Addr} (heip : ulim ≤ eip) :
    ∃ info, i.debuginfo fuel eip = .ok info ∧ 0 ∈ info.eipFile.bytes i.stabstr ∧
      0 ∈ info.eipFnName.bytes i.stabstr := by
  have hhead : ∀ stab, i.stabs[0]? = some stab →
      stab.nType ≠ nSO ∧ stab.nType ≠ nFUN ∧ stab.nType ≠ nSLINE := by
    intro stab hstab
    rw [i.header stab hstab]
    decide
  obtain ⟨⟨rc, info⟩, hlookup, hwell, hends⟩ :
      Returns _ (debuginfoEip fuel i.stabs i.stabstr eip) :=
    debuginfoEip_wellFormed hhead hfuel heip
  refine ⟨info, by rw [Image.debuginfo, hlookup], ?_⟩
  have hunknown : 0 ∈ Text.unknown.bytes i.stabstr := by
    rw [Text.bytes]
    decide
  rcases hends with hlast | ⟨hfile, hname⟩
  · refine ⟨hwell.file.nul hlast, ?_⟩
    rcases hwell.named with ⟨hname, -⟩ | ⟨off, len, hname, -, hlt, -⟩
    · rw [hname]
      exact hunknown
    · have hinside : (Text.stabstr off).Inside i.stabstr := by
        rw [Text.Inside]
        omega
      rw [hname]
      exact hinside.nul hlast
  · dsimp only at hfile hname
    rw [hfile, hname]
    exact ⟨hunknown, hunknown⟩

/-- **A round of the loop** prints the lines for one active call. -/
theorem backtraceRound_step {x₀ x : Exec} (h : x₀.Sound i) (hquiet : Quiet i x₀ x)
    {c : Activation Fn} (hc : c ∈ x₀.calls) (hne : c.ebp ≠ 0) :
    ∃ x', i.backtraceRound fuel (c.ebp, x) = .ok (.next (x₀.mem.load32 c.ebp, x')) ∧
      Quiet i x₀ x' ∧ x'.printed = x.printed ++ i.callText fuel x₀.mem c.ebp := by
  have hpos : 0 < c.ebp := by bv_omega
  have hframe := (h.frame_eq hquiet hc).1
  have heip : (Frame.load x₀.mem c.ebp).eip = c.ret := (h.holds.stored c hc).ret
  obtain ⟨x₁, hprint₁, hquiet₁, htext₁⟩ :=
    cprintf_quiet (i := i) (prints_frame (Frame.load x₀.mem c.ebp)) x
  obtain ⟨info, hlookup, hfile, hname⟩ := debuginfo_ok hfuel (h.ret c hc)
  obtain ⟨text, hinfo⟩ := prints_info c.ret hfile hname
  obtain ⟨x₂, hprint₂, hquiet₂, htext₂⟩ := cprintf_quiet (i := i) hinfo x₁
  have hall := (hquiet.trans hquiet₁).trans hquiet₂
  have hinfoText : i.infoText fuel c.ret = text := by
    have hout : output infoFmt (infoArgs i.stabstr c.ret info) = .ok (text, []) := hinfo.output
    rw [Image.infoText, hlookup]
    simp only [hout]
  refine ⟨x₂, ?_, hall, ?_⟩
  · have hlink := (h.frame_eq hall hc).2
    have hframeLine : i.cprintf frameFmt ((Frame.load x.mem c.ebp).words.map .word) x = .ok x₁ := by
      rw [hframe]
      exact hprint₁
    have hlookup' : i.debuginfo fuel (Frame.load x.mem c.ebp).eip = .ok info := by
      rw [hframe, heip, hlookup]
    have hinfoLine : i.cprintf infoFmt (infoArgs i.stabstr (Frame.load x.mem c.ebp).eip info) x₁ =
        .ok x₂ := by
      rw [hframe, heip]
      exact hprint₂
    rw [Image.backtraceRound, if_pos hpos]
    simp only [hframeLine, hlookup', hinfoLine, ok_bind, hlink]
    rfl
  · rw [htext₂, htext₁, List.append_assoc, Image.callText, heip, hinfoText]

/-- **`mon_backtrace`** prints the lines for all active calls, from the innermost on. -/
theorem monBacktrace_prints {x : Exec} (h : x.Sound i) (hcalls : x.calls.length < fuel) :
    ∃ x', i.monBacktrace fuel x = .ok x' ∧ Quiet i x x' ∧
      x'.printed = x.printed ++ (printedText "Stack backtrace:\n" ++
        x.calls.flatMap fun c => i.callText fuel x.mem c.ebp) := by
  obtain ⟨x₁, hprint, hquiet, htext⟩ :=
    cprintf_quiet (i := i) (prints_text (s := "Stack backtrace:\n") rfl) x
  obtain ⟨x₂, hloop, hall, hlines⟩ : ∃ x₂,
      loop .fuel (i.backtraceRound fuel) fuel (x.ebp, x₁) = .ok x₂ ∧ Quiet i x x₂ ∧
        x₂.printed = x₁.printed ++
          (x.calls.map Activation.ebp).flatMap (i.callText fuel x.mem) := by
    have hnull : ¬ (0 : Addr) < 0 := by decide
    refine loop_linked h.holds.linked ?_ (fun _ _ => if_neg hnull) ?_ hquiet
    · intro b hb hne s hs
      obtain ⟨c, hc, rfl⟩ := List.mem_map.mp hb
      exact backtraceRound_step hfuel h hs hc hne
    · rwa [List.length_map]
  refine ⟨x₂, ?_, hall, ?_⟩
  · have hheader : i.cprintf (cstr "Stack backtrace:\n") [] x = .ok x₁ := hprint
    rw [Image.monBacktrace, hheader, ok_bind, hquiet.ebp, hloop]
  · rw [hlines, htext, List.append_assoc, List.flatMap_map]

end

end Jos
