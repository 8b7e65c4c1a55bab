import Jos.Session
import Jos.TestBacktrace

/-!
# The Running Kernel

The monitor with the commands of the kernel: what is left open in `Jos.Session` is the
`mon_backtrace` of `Jos.Backtrace`, called with the frames of the kernel on the boot stack. So a
kernel that has come up and is typed to at the monitor can be followed as a whole.

## Main results

* `monBacktrace_tracks`: the characters that `mon_backtrace` prints are all that it does to the
  console.
* `handlers_work`: the commands work, whatever frames are on the stack.
* `kernel_session`: **the kernel serves every stream**, and the transcript is what the screen
  shows and the ports receive.
* `boot_session`: so does the kernel that `entry.S` has started.
-/

namespace Jos

open Console

/-! ### What is printed on the stack machine -/

/-- The kernel's own memory is not on the screen. -/
theorem Exec.OnAdapter.not_onScreen {x : Exec} (h : x.OnAdapter) {a : Addr}
    (ha : 0xF0100000 ≤ a.toNat) : ¬ OnScreen x.console.crtBuf a := by
  have hspan := h.not_span (Or.inl ha)
  rintro ⟨k, hk, rfl | rfl⟩
  · exact hspan (span_add_ofNat _ (by simp only [crtSize] at hk; omega) (by decide))
  · have hnext : x.console.crtBuf + BitVec.ofNat 32 (2 * k) + 1 =
        x.console.crtBuf + BitVec.ofNat 32 (2 * k + 1) := by
      rw [BitVec.ofNat_add, ← add_assoc]
      rfl
    rw [hnext] at hspan
    exact hspan (span_add_ofNat _ (by simp only [crtSize] at hk; omega) (by decide))

/-- All that has been done to the console is to print what the ledger says. -/
structure Exec.Tracks (s : Console) (x : Exec) : Prop where
  printed : Printed x.printed s x.console
  adapter : x.OnAdapter

section

variable {i : Image} {s : Console} {x : Exec}

/-- A character that is printed is tracked. -/
theorem Exec.Tracks.putch (h : x.Tracks s) (c : BitVec 32) : (x.putch c).Tracks s where
  printed := h.printed.append (printed_print [c] x.console)
  adapter := by
    have hbuf : (x.putch c).console.crtBuf = x.console.crtBuf :=
      (consPutc_confined c x.console).crtBuf
    rw [Exec.OnAdapter, hbuf]
    exact h.adapter

/-- Something has been stored to the kernel's own memory. -/
theorem Exec.Tracks.withMem (h : x.Tracks s) {m : Mem}
    (hm : Mem.Within (fun a => 0xF0100000 ≤ a.toNat) x.mem m) : (x.withMem m).Tracks s where
  printed := by
    have hnil := printed_nil fun a ha => hm.frame a fun hle => h.adapter.not_onScreen hle ha
    have hall := h.printed.append hnil
    rwa [List.append_nil] at hall
  adapter := h.adapter

/-- What is stored below the stack is not seen. -/
theorem Exec.Tracks.scribble (h : x.Tracks s) : (i.scribble x).Tracks s :=
  h.withMem ((i.scratch_within x).mono fun _ ha => i.linked.trans ha.1)

/-- A call, as far as its frame. -/
theorem Exec.Tracks.enter (h : x.Tracks s) (hx : x.Sound i) (site : Site) (fn : Fn)
    (args : List (BitVec 32))
    (hroom : i.bootstack.toNat + (site.room + (8 + 4 * args.length)) ≤ x.ebp.toNat) :
    ((x.reserve site.room).enter fn args site.ret).Tracks s := by
  obtain ⟨_, rfl, hsound, -⟩ := hx.enter site fn args hroom
  have hlinked := i.linked
  have hesp := hx.toNat_reserve site args hroom
  have hroom' : 8 + 4 * args.length < (x.reserve site.room).stack.esp.toNat := by omega
  have hstored := (enter_within hroom' site.ret).mono fun a ha =>
    (hlinked.trans hsound.above).trans ha.1
  have hall := h.withMem hstored
  exact ⟨hall.printed, hall.adapter⟩

/-- A message. -/
theorem cprintf_tracks {t : List Byte} (ht : 0 ∉ t) {ap : Args} {x x' : Exec}
    (h : i.cprintf (t ++ [0]) ap x = .ok x') (hx : x.Tracks s) : x'.Tracks s := by
  have hput : ∀ c x y, (x = y ∧ x.Tracks s) → (Exec.putch c x = Exec.putch c y ∧
      (Exec.putch c x).Tracks s) := by
    rintro c x _ ⟨rfl, hx⟩
    exact ⟨rfl, hx.putch c⟩
  have hrun := vprintfmt_agree (R := fun x y => x = y ∧ Exec.Tracks s x) hput ht ap ⟨rfl, hx⟩
  rw [Image.cprintf] at h
  generalize vprintfmt Exec.putch (t ++ [0]) ap x = r at h hrun
  cases hrun with
  | error e => cases h
  | ok hboth =>
      cases h
      exact hboth.1.2.scribble

/-- **`mon_backtrace`** does nothing to the console but print. -/
theorem monBacktrace_tracks {fuel : ℕ} {x x' : Exec} (h : i.monBacktrace fuel x = .ok x')
    (hx : x.Tracks s) : x'.Tracks s := by
  obtain ⟨x₁, hheader, hloop⟩ := ok_of_bind h
  have hx₁ : x₁.Tracks s := cprintf_tracks (t := "Stack backtrace:\n".toList.map chr) (by decide)
    hheader hx
  refine loop_keeps (I := fun s' => s'.2.Tracks s) (Q := fun x => x.Tracks s) ?_ hx₁ hloop
  rintro ⟨ebp, x⟩ o hx hround
  rw [Image.backtraceRound] at hround
  split at hround
  · obtain ⟨x₂, hframe, hround⟩ := ok_of_bind hround
    obtain ⟨info, -, hround⟩ := ok_of_bind hround
    obtain ⟨x₃, hinfo, hround⟩ := ok_of_bind hround
    cases hround
    exact cprintf_tracks (t := "         %s:%d: %.*s+%d\n".toList.map chr) (by decide) hinfo
      (cprintf_tracks (t := "  ebp %08x eip %08x args %08x %08x %08x %08x %08x\n".toList.map chr)
        (by decide) hframe hx)
  · cases hround
    exact hx

end

/-! ### The commands of the kernel -/

/-- The registers, and the active calls. -/
structure Cpu where
  ebp : Addr
  esp : Addr
  calls : List (Activation Fn)

/-- The machine with this console, before anything is printed. -/
def Cpu.exec (cpu : Cpu) (console : Console) : Exec where
  console := console
  ebp := cpu.ebp
  esp := cpu.esp
  printed := []
  calls := cpu.calls

/-- The machine without the console. -/
def Exec.cpu (x : Exec) : Cpu where
  ebp := x.ebp
  esp := x.esp
  calls := x.calls

/-- What goes wrong in a command, as it is told apart in `runcmd`. A lookup that leaves the
tables is an access outside the line, too. -/
def Crash.trap : Crash → Trap
  | message e => .message e
  | lookup _ => .line
  | fuel => .fuel

section

variable (i : Image) (y : Symbols) (site : Site) (argvAt : Addr) (fuel : ℕ)

/-- `mon_backtrace`, as `runcmd` calls it with the address of its `argv`. Until then something
has been stored below the frame that is the innermost now. -/
def Image.backtraceCommand : Handler (BitVec 32) Cpu := fun argc _ tf k =>
  let x := i.scribble (k.rest.exec k.console)
  match x.call site .monBacktrace [BitVec.ofNat 32 argc, argvAt, tf] (i.monBacktrace fuel) with
  | .error e => .error e.trap
  | .ok x => .ok (0, { k with console := x.console, rest := x.cpu })

/-- The commands. -/
def Image.handlers : Handlers (BitVec 32) Cpu where
  monHelp := monHelp
  monKerninfo := y.monKerninfo
  execHiddenCases := execHiddenCases
  monBacktrace := i.backtraceCommand site argvAt fuel

/-- What the commands reply, called from the machine `x`. The frame that `mon_backtrace` lists
first is its own; it returns to `runcmd`, and its first argument is the number of words. -/
inductive KernelReply (x : Exec) : List (List Byte) → List (BitVec 32) → Prop
  | help (ts : List (List Byte)) : KernelReply x ("help".toList.map chr :: ts)
      (commandTexts.flatMap commandText)
  | kerninfo (ts : List (List Byte)) : KernelReply x ("kerninfo".toList.map chr :: ts) y.infoText
  | hidden (ts : List (List Byte)) : KernelReply x ("hidden".toList.map chr :: ts)
      (printedText "Running a Hidden Test Case\n")
  | backtrace (ts : List (List Byte)) (f : Frame) (heip : f.eip = site.ret)
      (harg : f.arg1 = BitVec.ofNat 32 (ts.length + 1)) :
      KernelReply x ("backtrace".toList.map chr :: ts) (printedText "Stack backtrace:\n" ++
        ((f.text ++ i.infoText fuel f.eip) ++
          x.calls.flatMap fun c => i.callText fuel x.mem c.ebp))

end

/-- The machine is like `x`, but for what is printed and stored between two calls. -/
def Image.Like (i : Image) (x : Exec) (console : Console) (cpu : Cpu) : Prop :=
  cpu = x.cpu ∧ Quiet i x (cpu.exec console)

section

variable {i : Image} {x : Exec}

/-- The machine is like itself. -/
theorem like_refl (x : Exec) : i.Like x x.console x.cpu :=
  ⟨rfl, rfl, rfl, rfl, rfl, Mem.Within.refl _ _⟩

/-- A character is printed. -/
theorem Image.Like.cputchar {console : Console} {cpu : Cpu} (h : i.Like x console cpu)
    (c : BitVec 32) : i.Like x (Jos.cputchar c console) cpu := by
  have hall := h.2.trans (putch_quiet c (cpu.exec console))
  exact ⟨h.1, hall.ebp, hall.esp, hall.calls, hall.crtBuf, hall.mem⟩

/-- Printing keeps the machine alike. -/
theorem Image.Like.print {console : Console} {cpu : Cpu} (h : i.Like x console cpu)
    (text : List (BitVec 32)) : i.Like x (console.print text) cpu :=
  List.foldlRecOn (motive := fun c => i.Like x c cpu) text _ h fun _ h c _ => h.cputchar c

variable (site : Site) (argvAt : Addr) (fuel : ℕ) (h : x.Sound i)
  (hroom : i.bootstack.toNat + (site.room + 20) ≤ x.ebp.toNat)
  (hstabs : 2 * i.stabs.length + 1 < fuel) (hcalls : x.calls.length + 1 < fuel)
include h hroom hstabs hcalls

/-- **`mon_backtrace` as a command** lists its own frame, and those of the calls that have led
to the monitor. -/
theorem backtraceCommand_replies (argc : ℕ) (argv : Argv) (tf : BitVec 32) {k : Kernel Cpu}
    (hk : i.Like x k.console k.rest) :
    ∃ (k' : Kernel Cpu) (f : Frame),
      i.backtraceCommand site argvAt fuel argc argv tf k = .ok (0, k') ∧
      i.Like x k'.console k'.rest ∧ f.eip = site.ret ∧ f.arg1 = BitVec.ofNat 32 argc ∧
      Printed (printedText "Stack backtrace:\n" ++ ((f.text ++ i.infoText fuel f.eip) ++
        x.calls.flatMap fun c => i.callText fuel x.mem c.ebp)) k.console k'.console := by
  obtain ⟨line, console, cpu⟩ := k
  obtain ⟨rfl, hquiet⟩ := hk
  set args : List (BitVec 32) := [BitVec.ofNat 32 argc, argvAt, tf] with hargs
  set x₁ := i.scribble (x.cpu.exec console) with hx₁
  have hquiet₁ : Quiet i x x₁ := hquiet.trans (scribble_quiet _)
  have hsound₁ : x₁.Sound i := h.quiet hquiet₁
  have hroom₁ : i.bootstack.toNat + (site.room + (8 + 4 * args.length)) ≤ x₁.ebp.toNat := by
    rw [hquiet₁.ebp]
    exact hroom
  obtain ⟨y, hy, hsound, -, hycalls⟩ := hsound₁.enter site .monBacktrace args hroom₁
  have hlength : y.calls.length < fuel := by
    rw [hycalls, List.length_cons, hquiet₁.calls]
    exact hcalls
  -- the call, its body and its return
  obtain ⟨z, hbody, hquiet₂, hprinted⟩ := monBacktrace_prints hstabs hsound hlength
  have hback : Quiet i x₁ ((z.leave args.length).release site.room) :=
    hsound₁.leave site .monBacktrace args hroom₁ (hy ▸ hquiet₂)
  have hnone : Quiet i x₁ ((y.leave args.length).release site.room) :=
    hsound₁.leave site .monBacktrace args hroom₁ (by rw [hy]; exact .refl y)
  have hall := hquiet₁.trans hback
  have hstart : (x.cpu.exec console).Tracks console :=
    ⟨printed_print [] console, (h.quiet hquiet).adapter⟩
  have hystart : y.Tracks console := by
    rw [← hy]
    exact hstart.scribble.enter hsound₁ site .monBacktrace args hroom₁
  have hyprinted : y.printed = [] := by
    rw [← hy]
    rfl
  have htracks : Printed z.printed console z.console :=
    (monBacktrace_tracks hbody hystart).printed
  -- the frames of the calls are as they were
  have hframes : x.calls.flatMap (fun c => i.callText fuel y.mem c.ebp) =
      x.calls.flatMap fun c => i.callText fuel x.mem c.ebp := by
    refine congrArg List.flatten (List.map_congr_left fun c hc => ?_)
    have hframe := (h.frame_eq (hquiet₁.trans hnone) hc).1
    change Frame.load y.mem c.ebp = _ at hframe
    rw [Image.callText, Image.callText, hframe]
  have hown := hsound.holds.stored ⟨.monBacktrace, args, site.ret, y.ebp⟩ (by
    rw [hycalls]
    exact List.mem_cons_self)
  refine ⟨⟨line, z.console, ((z.leave args.length).release site.room).cpu⟩,
    Frame.load y.mem y.ebp, ?_, ⟨?_, ?_⟩, hown.ret, hown.arg1 (List.cons_ne_nil _ _), ?_⟩
  · rw [Image.backtraceCommand]
    simp only [← hx₁, ← hargs, Exec.call, hy, hbody, ok_bind]
    rfl
  · rw [Exec.cpu, Exec.cpu, Cpu.mk.injEq]
    exact ⟨hall.ebp, hall.esp, hall.calls⟩
  · exact ⟨hall.ebp, hall.esp, hall.calls, hall.crtBuf, hall.mem⟩
  · rw [hprinted, hyprinted, List.nil_append, hycalls, List.flatMap_cons, hquiet₁.calls,
      hframes] at htracks
    exact htracks

omit h hroom hstabs hcalls in
/-- A command that prints a text. -/
theorem printing_works {y : Symbols} {words : List (List Byte)} {text : List (BitVec 32)}
    {k : Kernel Cpu} (hk : i.Like x k.console k.rest)
    (hreply : KernelReply i y site fuel x words text)
    {run : Except Trap (BitVec 32 × Kernel Cpu)} (hrun : run = .ok (0, k.print text)) :
    ∃ r k' text, run = .ok (r, k') ∧ 0 ≤ r.toInt ∧ i.Like x k'.console k'.rest ∧
      KernelReply i y site fuel x words text ∧ Printed text k.console k'.console := by
  have hzero : 0 ≤ (0 : BitVec 32).toInt := by decide
  exact ⟨0, _, text, hrun, hzero, hk.print _, hreply, Kernel.printed_print _ k⟩

/-- **The commands work**, whatever the frames that the kernel has on the stack, as long as there
is room for one more. -/
theorem handlers_work (y : Symbols) (tf : BitVec 32) :
    Works (i.handlers y site argvAt fuel) tf (i.Like x) (KernelReply i y site fuel x) where
  cputchar := fun c _ _ hlike => hlike.cputchar c
  func := by
    intro cmd hcmd t ts argv k hname hk _ _
    have hzero : 0 ≤ (0 : BitVec 32).toInt := by decide
    have ht : ∀ u : List Byte, u ++ [0] = t ++ [0] → u = t := fun _ => List.append_cancel_right
    simp only [Handlers.commands, List.mem_cons, List.not_mem_nil, or_false] at hcmd
    rcases hcmd with rfl | rfl | rfl | rfl
    · obtain rfl := ht _ hname
      exact printing_works site fuel hk (.help ts) (monHelp_prints (ts.length + 1) argv tf k)
    · obtain rfl := ht _ hname
      exact printing_works site fuel hk (.kerninfo ts)
        (monKerninfo_prints y (ts.length + 1) argv tf k)
    · obtain rfl := ht _ hname
      exact printing_works site fuel hk (.hidden ts)
        (execHiddenCases_prints (ts.length + 1) argv tf k)
    · obtain rfl := ht _ hname
      obtain ⟨k', f, hrun, hlike, heip, harg, hprint⟩ :=
        backtraceCommand_replies site argvAt fuel h hroom hstabs hcalls _ argv tf hk
      exact ⟨0, k', _, hrun, hzero, hlike, .backtrace ts f heip harg, hprint⟩

end

/-! ### The kernel -/

/-- **The kernel serves every stream.** From any state in which the frames of the calls that led
to the monitor are on the boot stack, with room for one more, and on any bytes typed: no
command line makes the kernel go wrong or leave the monitor, the registers and the frames are
as before, the buffer holds the line that is being typed, the console gets the banner and
the transcript of the lines, and the screen and both ports are those of the terminal that has
been given that text. -/
theorem kernel_session (i : Image) (y : Symbols) (site : Site) (argvAt : Addr) (fuel : ℕ) {x : Exec}
    (h : x.Sound i) (hroom : i.bootstack.toNat + (site.room + 20) ≤ x.ebp.toNat)
    (hstabs : 2 * i.stabs.length + 1 < fuel) (hcalls : x.calls.length + 1 < fuel)
    (stack : Kernel Cpu → Argv) (tf : BitVec 32) (bs line : List Byte) (buf : ℕ → Byte) :
    ∃ s text, monitor (i.handlers y site argvAt fuel) stack tf (keys bs) buf
        ⟨line, x.console, x.cpu⟩ = .ok (.more s x.cpu) ∧
      (x.cpu.exec s.console).Sound i ∧
      Holds s ((openLine bs).foldl typeKey []) ∧
      Transcript (KernelReply i y site fuel x) (endedLines bs) text ∧
      Printed (welcomeText ++ text ++ lineText (openLine bs)) x.console s.console ∧
      ∀ s₀ a, Renders s₀ x.console a →
        Renders s₀ s.console (a.text (welcomeText ++ text ++ lineText (openLine bs))) := by
  have hwork := handlers_work site argvAt fuel h hroom hstabs hcalls y tf
  obtain ⟨s, w, text, hrun, hholds, ⟨rfl, hquiet⟩, htrans, hprint⟩ :=
    monitor_session hwork stack bs buf (k := ⟨line, x.console, x.cpu⟩) (like_refl x)
  exact ⟨s, text, hrun, h.quiet hquiet, hholds, htrans, hprint,
    fun _ _ ha => hprint.renders ha⟩

/-- The symbols of the kernel without debug information. -/
def bareSymbols : Symbols where
  entry := 0xF010000C
  etext := 0xF0101A75
  edata := 0xF0118300
  endAddr := 0xF0118944
  linked := Nat.le_of_ble_eq_true rfl
  text := Nat.le_of_ble_eq_true rfl
  data := Nat.le_of_ble_eq_true rfl
  bss := Nat.le_of_ble_eq_true rfl

/-- A line is typed as soon as the console is up. -/
theorem kernel_session_up : ∃ (x : Exec) (s : Line),
    x.Sound bareImage ∧ monitor (bareImage.handlers bareSymbols ⟨24, 0xF0100800, by decide⟩ 0 16)
      (fun _ => Vector.replicate maxArgs none) 0 (keys ("backtrace\rhe".toList.map chr))
      (fun _ => 0) ⟨[], x.console, x.cpu⟩ = .ok (.more s x.cpu) ∧
    Holds s ((openLine ("backtrace\rhe".toList.map chr)).foldl typeKey []) := by
  obtain ⟨x, h, hebp, hcalls, -⟩ := i386Init_reaches (i := bareImage) ⟨0xA55A, 0⟩
    (Console.statics ⟨fun _ => 0, []⟩ ⟨0, fun _ => 0⟩)
  have htop : bareImage.top = 0xF0118000 := rfl
  have hroom : bareImage.bootstack.toNat + (24 + 20) ≤ x.ebp.toNat := by
    change 0xF0110000 + (24 + 20) ≤ _
    omega
  obtain ⟨s, -, hrun, -, hholds, -⟩ := kernel_session bareImage bareSymbols
    ⟨24, 0xF0100800, by decide⟩ 0 16 h hroom (by decide)
    (by rw [hcalls, List.length_singleton]; decide)
    (fun _ => Vector.replicate maxArgs none) 0 ("backtrace\rhe".toList.map chr) [] fun _ => 0
  exact ⟨x, s, h, hrun, hholds⟩

section

variable {i : Image}

/-- From the call of `test_backtrace` the kernel comes back to `i386_init`, with the frame that it
had there. -/
theorem initCall_quiet {x : Exec} (h : x.Sound i) (hebp : x.ebp.toNat + 8 = i.top)
    (hcalls : x.calls = [⟨.i386Init, [], i.entryRet, x.ebp⟩]) {n fuel : ℕ}
    (hdepth : i.depth n ≤ kstksize) (hfuel : n + 3 < fuel)
    (hstabs : 2 * i.stabs.length + 1 < fuel) :
    ∃ x', x.call i.initCall .testBacktrace [BitVec.ofNat 32 n]
        (i.testBacktrace (i.monBacktrace fuel) fuel (BitVec.ofNat 32 n)) = .ok x' ∧
      Quiet i x x' := by
  rw [Image.depth] at hdepth
  rw [Image.top] at hebp
  have hroom : i.bootstack.toNat + (i.initCall.room + (8 + 4 * [BitVec.ofNat 32 n].length)) ≤
      x.ebp.toNat := by
    rw [List.length_singleton]
    omega
  obtain ⟨_, rfl, hsound₁, hebp₁, hcalls₁⟩ :=
    h.enter i.initCall .testBacktrace [BitVec.ofNat 32 n] hroom
  rw [List.length_singleton] at hebp₁
  obtain ⟨y, hbody, hsound, hcalls'⟩ :=
    testBacktrace_reaches (i := i) n (by omega : n < fuel) hsound₁ (by omega)
  obtain ⟨rest, hreach, hrest⟩ :=
    h.reaches i.initCall .testBacktrace [BitVec.ofNat 32 n] hroom hbody
  have hlength := congrArg List.length hcalls'
  rw [hcalls₁, hcalls] at hlength
  simp only [List.length_map, List.length_cons, List.length_append, List.length_range,
    List.length_nil] at hlength
  obtain ⟨z, hmon, hquiet, -⟩ := monBacktrace_prints hstabs hsound (by omega)
  obtain ⟨x', hx', hback⟩ := hrest z hquiet
  exact ⟨x', (hreach _).trans (by rw [hmon, ok_bind, hx']), hback⟩

/-- **The kernel comes up**, and is back in `i386_init` with the frame that it had there. -/
theorem relocated_quiet (hw : Hardware) (console : Console) {n fuel : ℕ}
    (hdepth : i.depth n ≤ kstksize) (hfuel : n + 3 < fuel)
    (hstabs : 2 * i.stabs.length + 1 < fuel) :
    ∃ x x', x.Sound i ∧ x.ebp.toNat + 8 = i.top ∧
      x.calls = [⟨.i386Init, [], i.entryRet, x.ebp⟩] ∧
      i.relocated hw (i.monBacktrace fuel) fuel (BitVec.ofNat 32 n) console = .ok x' ∧
      Quiet i x x' := by
  obtain ⟨x, h, hebp, hcalls, hrun⟩ := i386Init_reaches (i := i) hw console
  obtain ⟨x', hx', hquiet⟩ := initCall_quiet h hebp hcalls hdepth hfuel hstabs
  exact ⟨x, x', h, hebp, hcalls, (hrun ..).trans hx', hquiet⟩

end

/-- **From `entry.S` to the monitor.** The kernel comes up, `i386_init` calls the monitor, and the
monitor serves every stream; `backtrace` lists two frames behind its own, that of the monitor
and that of `i386_init`. -/
theorem boot_session (i : Image) (y : Symbols) (hw : Hardware) (console : Console) (n fuel : ℕ)
    (hdepth : i.depth n ≤ kstksize) (hfuel : n + 3 < fuel)
    (hstabs : 2 * i.stabs.length + 1 < fuel) (call site : Site)
    (hroom : 8 + (call.room + 12) + (site.room + 20) ≤ kstksize) (argvAt : Addr)
    (stack : Kernel Cpu → Argv) (tf : BitVec 32) (bs line : List Byte) (buf : ℕ → Byte) :
    ∃ x m s text,
      i.relocated hw (i.monBacktrace fuel) fuel (BitVec.ofNat 32 n) console = .ok x ∧
      (x.reserve call.room).enter .monitor [0] call.ret = m ∧
      m.calls.map (fun c => (c.fn, c.args, c.ret)) =
        [(.monitor, [0], call.ret), (.i386Init, [], i.entryRet)] ∧
      monitor (i.handlers y site argvAt fuel) stack tf (keys bs) buf ⟨line, m.console, m.cpu⟩ =
        .ok (.more s m.cpu) ∧
      (m.cpu.exec s.console).Sound i ∧
      Holds s ((openLine bs).foldl typeKey []) ∧
      Transcript (KernelReply i y site fuel m) (endedLines bs) text ∧
      Printed (welcomeText ++ text ++ lineText (openLine bs)) m.console s.console := by
  obtain ⟨x₀, x, hsound₀, hebp₀, hcalls₀, hrun, hquiet⟩ :=
    relocated_quiet hw console hdepth hfuel hstabs
  have hsound := hsound₀.quiet hquiet
  have hebp := hquiet.ebp
  rw [Image.top] at hebp₀
  have hmonitor : i.bootstack.toNat + (call.room + (8 + 4 * [(0 : BitVec 32)].length)) ≤
      x.ebp.toNat := by
    rw [hebp, List.length_singleton]
    omega
  obtain ⟨m, hm, hsoundₘ, hebpₘ, hcallsₘ⟩ := hsound.enter call .monitor [0] hmonitor
  rw [hebp, List.length_singleton] at hebpₘ
  rw [hquiet.calls, hcalls₀] at hcallsₘ
  have hwork := handlers_work site argvAt fuel hsoundₘ (by omega) hstabs
    (by rw [hcallsₘ, List.length_cons, List.length_singleton]; omega) y tf
  obtain ⟨s, w, text, hmon, hholds, ⟨rfl, hlike⟩, htrans, hprint⟩ :=
    monitor_session hwork stack bs buf (k := ⟨line, m.console, m.cpu⟩) (like_refl m)
  exact ⟨x, m, s, text, hrun, hm, by rw [hcallsₘ]; rfl, hmon, hsoundₘ.quiet hlike, hholds, htrans,
    hprint⟩

/-- A line is typed to the kernel as it stands. -/
theorem boot_session_five : ∃ (x m : Exec) (s : Line),
    bareImage.relocated ⟨0xA55A, 0⟩ (bareImage.monBacktrace 16) 16 (BitVec.ofNat 32 5)
      (Console.statics ⟨fun _ => 0, []⟩ ⟨0, fun _ => 0⟩) = .ok x ∧
    (x.reserve 24).enter .monitor [0] 0xF0100100 = m ∧
    monitor (bareImage.handlers bareSymbols ⟨24, 0xF0100800, by decide⟩ 0 16)
      (fun _ => Vector.replicate maxArgs none) 0 (keys ("backtrace\rhe".toList.map chr))
      (fun _ => 0) ⟨[], m.console, m.cpu⟩ = .ok (.more s m.cpu) ∧
    Holds s ((openLine ("backtrace\rhe".toList.map chr)).foldl typeKey []) := by
  obtain ⟨x, m, s, -, hup, hcall, -, hrun, -, hholds, -⟩ := boot_session bareImage bareSymbols
    ⟨0xA55A, 0⟩ (Console.statics ⟨fun _ => 0, []⟩ ⟨0, fun _ => 0⟩) 5 16 (by decide) (by decide)
    (by decide) ⟨24, 0xF0100100, by decide⟩ ⟨24, 0xF0100800, by decide⟩ (by decide) 0
    (fun _ => Vector.replicate maxArgs none) 0 ("backtrace\rhe".toList.map chr) [] fun _ => 0
  exact ⟨x, m, s, hup, hcall, hrun, hholds⟩

end Jos
