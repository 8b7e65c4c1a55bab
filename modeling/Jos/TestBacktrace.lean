import Jos.Backtrace

/-!
# The Backtrace of a Recursion

The way to `mon_backtrace`: `entry.S` from `relocated` on, `i386_init`, and the recursion of
`test_backtrace`, of any depth that the stack has room for.

## Main results

* `Reaches`: a run comes to `mon_backtrace`, and back from there; the rules for what is in front of
  it, behind it, and around it.
* `testBacktrace_reaches`: the calls that `test_backtrace` of `n` comes down to.
* `backtrace_lists`: the backtrace from there lists the `n + 3` active calls.
* `relocated_returns`: the run comes back from them.
-/

namespace Jos

/-! ### The functions -/

namespace Image

variable (i : Image)

/-- `test_backtrace`, to a depth of `fuel` calls, over the `mon_backtrace` it calls. -/
def testBacktrace (mon : Exec → Except Crash Exec) : ℕ → BitVec 32 → Exec → Except Crash Exec
  | 0, _, _ => .error .fuel
  | fuel + 1, v, x => do
      let x ← i.cprintf (cstr "entering test_backtrace %d\n") [.word v] x
      let called :=
        if 0 < v.toInt then
          x.call i.selfCall .testBacktrace [v - 1] (testBacktrace mon fuel (v - 1))
        else x.call i.monCall .monBacktrace [0, 0, 0] mon
      let x ← called
      i.cprintf (cstr "leaving test_backtrace %d\n") [.word v] x

end Image

/-- What the hardware answers while the console comes up: the volatile read of the first cell,
and the serial port's line status. -/
structure Hardware where
  readback : BitVec 16
  lsr : Byte

/-- `serial_init`, as far as it writes to ports. -/
def serialInit (s : Console) : Console :=
  -- turn off the FIFO
  let s := s.outb (com1 + 2) 0
  -- set speed
  let s := s.outb (com1 + 3) 0x80
  let s := s.outb (com1 + 0) (BitVec.ofNat 8 (115200 / 9600))
  let s := s.outb (com1 + 1) 0
  -- 8 data bits, 1 stop bit, parity off
  let s := s.outb (com1 + 3) (0x03 &&& ~~~0x80)
  -- no modem controls
  let s := s.outb (com1 + 4) 0
  -- enable rcv interrupts
  s.outb (com1 + 1) 0x01

namespace Image

variable (i : Image) (hw : Hardware)

/-- `cons_init`. -/
def consInit (x : Exec) : Except Crash Exec :=
  let x := { x with console := serialInit (cgaInit hw.readback x.console) }
  if hw.lsr = 0xFF then i.cprintf (cstr "Serial port does not exist!\n") [] x else .ok x

/-- `i386_init` up to the monitor, with the argument `v` for `test_backtrace`. -/
def i386Init (mon : Exec → Except Crash Exec) (fuel : ℕ) (v : BitVec 32) (x : Exec) :
    Except Crash Exec := do
  -- clear the uninitialized global data
  let x := x.withMem (memset x.mem i.edata 0 (i.endAddr - i.edata))
  let x ← i.consInit hw x
  let x ← i.cprintf (cstr "normal \x1b[31mred\x1b[0m normal\n") [] x
  let x ← i.cprintf (cstr "\x1b[44;97mblue-bg bright white fg\x1b[0m\n") [] x
  let x ← i.cprintf (cstr "%d decimal is %o octal!") [.word 444544, .word 444544] x
  x.call i.initCall .testBacktrace [v] (i.testBacktrace mon fuel v)

/-- `entry.S` from `relocated` on: no frame pointer, an empty stack, and the call of
`i386_init`. -/
def relocated (mon : Exec → Except Crash Exec) (fuel : ℕ) (v : BitVec 32) (console : Console) :
    Except Crash Exec :=
  let x : Exec := ⟨console, 0, i.bootstacktop, [], []⟩
  i.i386Init hw mon fuel v (x.enter .i386Init [] i.entryRet)

end Image

/-! ### Runs that come to `mon_backtrace` -/

/-- A run from `x` on, over the `mon_backtrace` that it calls, comes to that call in `y`, whatever
`mon_backtrace` does; and if it is like anything else between two calls, so is the run. -/
def Reaches (i : Image) (x : Exec) (run : (Exec → Except Crash Exec) → Except Crash Exec)
    (y : Exec) : Prop :=
  ∃ rest, (∀ mon, run mon = mon y >>= rest) ∧
    ∀ y', Quiet i y y' → ∃ x', rest y' = .ok x' ∧ Quiet i x x'

section

variable {i : Image} {x y : Exec} {run : (Exec → Except Crash Exec) → Except Crash Exec}

/-- The call itself. -/
theorem Reaches.refl (x : Exec) : Reaches i x (fun mon => mon x) x :=
  ⟨pure, fun mon => (bind_pure (mon x)).symm, fun y' hy' => ⟨y', rfl, hy'⟩⟩

/-- Something in front of it. -/
theorem Reaches.front {x₀ : Exec} (hquiet : Quiet i x₀ x) (h : Reaches i x run y) :
    Reaches i x₀ run y := by
  obtain ⟨rest, hrun, hrest⟩ := h
  refine ⟨rest, hrun, fun y' hy' => ?_⟩
  obtain ⟨x', hx', hback⟩ := hrest y' hy'
  exact ⟨x', hx', hquiet.trans hback⟩

/-- Something behind it. -/
theorem Reaches.behind (h : Reaches i x run y) {k : Exec → Except Crash Exec}
    (hk : ∀ z, ∃ z', k z = .ok z' ∧ Quiet i z z') : Reaches i x (fun mon => run mon >>= k) y := by
  obtain ⟨rest, hrun, hrest⟩ := h
  refine ⟨fun z => rest z >>= k, fun mon => ?_, fun y' hy' => ?_⟩
  · change run mon >>= k = _
    rw [hrun, bind_assoc]
  · obtain ⟨z, hz, hquiet⟩ := hrest y' hy'
    obtain ⟨z', hz', hquiet'⟩ := hk z
    refine ⟨z', ?_, hquiet.trans hquiet'⟩
    change rest y' >>= k = _
    rw [hz, ok_bind, hz']

/-- The body of another call. -/
theorem Exec.Sound.reaches (h : x.Sound i) (site : Site) (fn : Fn) (args : List (BitVec 32))
    (hroom : i.bootstack.toNat + (site.room + (8 + 4 * args.length)) ≤ x.ebp.toNat)
    {body : (Exec → Except Crash Exec) → Exec → Except Crash Exec}
    (hbody : Reaches i ((x.reserve site.room).enter fn args site.ret)
      (fun mon => body mon ((x.reserve site.room).enter fn args site.ret)) y) :
    Reaches i x (fun mon => x.call site fn args (body mon)) y := by
  obtain ⟨rest, hrun, hrest⟩ := hbody
  refine ⟨fun z => rest z >>= fun z => pure ((z.leave args.length).release site.room),
    fun mon => ?_, fun y' hy' => ?_⟩
  · have hbody : body mon ((x.reserve site.room).enter fn args site.ret) = mon y >>= rest :=
      hrun mon
    change x.call site fn args (body mon) = _
    rw [Exec.call, hbody, bind_assoc]
  · obtain ⟨z, hz, hquiet⟩ := hrest y' hy'
    refine ⟨(z.leave args.length).release site.room, ?_, h.leave site fn args hroom hquiet⟩
    change rest y' >>= _ = _
    rw [hz]
    rfl

end

/-! ### `test_backtrace` -/

/-- A number in decimal and in octal. -/
theorem prints_octal (v w : BitVec 32) : ∃ text,
    Prints ("%d decimal is %o octal!".toList.map chr) [.word v, .word w] text := by
  obtain ⟨decimal, hdecimal⟩ := prints_number .d v
  obtain ⟨octal, hoctal⟩ := prints_number .o w
  have hall := hdecimal.append <|
    prints_between (s := " decimal is ") (t := " octal!") rfl rfl hoctal
  exact ⟨_, hall⟩

section

variable {i : Image}

/-- The first line of `test_backtrace`. -/
theorem testBacktrace_entering (v : BitVec 32) (x : Exec) : ∃ x₁, Quiet i x x₁ ∧
    ∀ mon fuel, i.testBacktrace mon (fuel + 1) v x =
      (if 0 < v.toInt then
        x₁.call i.selfCall .testBacktrace [v - 1] (i.testBacktrace mon fuel (v - 1))
      else x₁.call i.monCall .monBacktrace [0, 0, 0] mon) >>=
        i.cprintf (cstr "leaving test_backtrace %d\n") [.word v] := by
  obtain ⟨digits, hdigits⟩ := prints_number .d v
  have hprints := prints_between (s := "entering test_backtrace ") (t := "\n") rfl rfl hdigits
  obtain ⟨x₁, hprint, hquiet, -⟩ := cprintf_quiet (i := i) hprints x
  have hentering : i.cprintf (cstr "entering test_backtrace %d\n") [.word v] x = .ok x₁ := hprint
  refine ⟨x₁, hquiet, fun mon fuel => ?_⟩
  rw [Image.testBacktrace, hentering, ok_bind]

/-- Its last line. -/
theorem testBacktrace_leaving (v : BitVec 32) (x : Exec) :
    ∃ x', i.cprintf (cstr "leaving test_backtrace %d\n") [.word v] x = .ok x' ∧ Quiet i x x' := by
  obtain ⟨digits, hdigits⟩ := prints_number .d v
  have hprints := prints_between (s := "leaving test_backtrace ") (t := "\n") rfl rfl hdigits
  obtain ⟨x', hprint, hquiet, -⟩ := cprintf_quiet (i := i) hprints x
  exact ⟨x', hprint, hquiet⟩

/-- **`test_backtrace`** of `n` comes to `mon_backtrace` by way of calls of itself with the
arguments `n - 1` to 0. Induction on `n`. -/
theorem testBacktrace_reaches (n : ℕ) : ∀ {fuel : ℕ}, n < fuel → ∀ {x : Exec}, x.Sound i →
    i.bootstack.toNat + (n * (i.selfCall.room + 12) + (i.monCall.room + 20)) ≤ x.ebp.toNat →
    ∃ y, Reaches i x (fun mon => i.testBacktrace mon fuel (BitVec.ofNat 32 n) x) y ∧ y.Sound i ∧
      y.calls.map (fun c => (c.fn, c.args)) = (.monBacktrace, [0, 0, 0]) ::
        (List.range n).map (fun k => (.testBacktrace, [BitVec.ofNat 32 k])) ++
          x.calls.map fun c => (c.fn, c.args) := by
  induction n with
  | zero =>
      intro fuel hfuel x h hroom
      obtain ⟨fuel, rfl⟩ : ∃ k, fuel = k + 1 := ⟨fuel - 1, by omega⟩
      have hnot : ¬ 0 < (BitVec.ofNat 32 0).toInt := by decide
      obtain ⟨x₁, hquiet, hrun⟩ := testBacktrace_entering (i := i) (BitVec.ofNat 32 0) x
      have h₁ := h.quiet hquiet
      have hroom₁ : i.bootstack.toNat + (i.monCall.room +
          (8 + 4 * ([0, 0, 0] : List (BitVec 32)).length)) ≤ x₁.ebp.toNat := by
        rw [hquiet.ebp]
        simp only [List.length_cons, List.length_nil]
        omega
      obtain ⟨_, rfl, hsound, -, hcalls⟩ := h₁.enter i.monCall .monBacktrace [0, 0, 0] hroom₁
      have hreach := (h₁.reaches i.monCall .monBacktrace [0, 0, 0] hroom₁ (.refl _)).behind
        (testBacktrace_leaving (BitVec.ofNat 32 0))
      refine ⟨_, ?_, hsound, by rw [hcalls, hquiet.calls]; rfl⟩
      simp only [hrun, if_neg hnot]
      exact hreach.front hquiet
  | succ n ih =>
      intro fuel hfuel x h hroom
      obtain ⟨fuel, rfl⟩ : ∃ k, fuel = k + 1 := ⟨fuel - 1, by omega⟩
      rw [Nat.succ_mul] at hroom
      have hlt := x.ebp.isLt
      have hmul : n ≤ n * (i.selfCall.room + 12) := Nat.le_mul_of_pos_right n (by omega)
      have hlinked := i.linked
      have hpos : 0 < (BitVec.ofNat 32 (n + 1)).toInt := by
        rw [toInt_ofNat_of_lt (by omega)]
        omega
      have hpred : BitVec.ofNat 32 (n + 1) - 1 = BitVec.ofNat 32 n := by
        rw [BitVec.ofNat_add]
        exact add_sub_cancel_right _ _
      obtain ⟨x₁, hquiet, hrun⟩ := testBacktrace_entering (i := i) (BitVec.ofNat 32 (n + 1)) x
      have h₁ := h.quiet hquiet
      have hroom₁ : i.bootstack.toNat + (i.selfCall.room +
          (8 + 4 * [BitVec.ofNat 32 n].length)) ≤ x₁.ebp.toNat := by
        rw [hquiet.ebp, List.length_singleton]
        omega
      obtain ⟨_, rfl, hsound₂, hebp₂, hcalls₂⟩ :=
        h₁.enter i.selfCall .testBacktrace [BitVec.ofNat 32 n] hroom₁
      rw [hquiet.ebp, List.length_singleton] at hebp₂
      obtain ⟨y, hbody, hsound, hcalls⟩ := ih (Nat.lt_of_succ_lt_succ hfuel) hsound₂ (by omega)
      have hreach := (h₁.reaches i.selfCall .testBacktrace [BitVec.ofNat 32 n] hroom₁ hbody).behind
        (testBacktrace_leaving (BitVec.ofNat 32 (n + 1)))
      refine ⟨y, ?_, hsound, ?_⟩
      · simp only [hrun, if_pos hpos, hpred]
        exact hreach.front hquiet
      · rw [hcalls, hcalls₂, hquiet.calls, List.range_succ, List.map_append]
        simp only [List.map_cons, List.map_nil, List.cons_append, List.append_assoc,
          List.nil_append]

end

/-! ### From `relocated` on -/

/-- The console comes up: on one of the two adapters, and the only cell that may be stored to is
the first one of the colour adapter. -/
theorem console_up (readback : BitVec 16) (s : Console) :
    ((serialInit (cgaInit readback s)).crtBuf = kernbase + cgaBuf ∨
      (serialInit (cgaInit readback s)).crtBuf = kernbase + monoBuf) ∧
      Mem.Within (Mem.Span (kernbase + cgaBuf) 2) s.mem (serialInit (cgaInit readback s)).mem := by
  have hstore : ∀ (m : Mem) (v : BitVec 16), Mem.Within (Mem.Span (kernbase + cgaBuf) 2) m
      (m.store16 (kernbase + cgaBuf) v) := fun m v =>
    Mem.within_store16 m v (by rw [Mem.Span]; decide) (by rw [Mem.Span]; decide)
  by_cases h : readback ≠ 0xA55A
  · rw [cgaInit, if_pos h]
    exact ⟨Or.inr rfl, hstore _ _⟩
  · rw [cgaInit, if_neg h]
    exact ⟨Or.inl rfl, (hstore _ _).trans (hstore _ _)⟩

section

variable {i : Image}

/-- **The call of `i386_init`**: its frame is the only one, at the top of the stack. -/
theorem entered (console : Console) : ∃ x : Exec,
    (⟨console, 0, i.bootstacktop, [], []⟩ : Exec).enter .i386Init [] i.entryRet = x ∧
      x.Framed i ∧ x.ebp.toNat + 8 = i.top ∧ x.calls = [⟨.i386Init, [], i.entryRet, x.ebp⟩] := by
  have htop := i.top_le
  set s : Stack := ⟨console.mem, 0, i.bootstacktop⟩
  have hesp : s.esp.toNat = i.top := i.toNat_bootstacktop
  have hroom : 8 + 4 * ([] : List (BitVec 32)).length < s.esp.toNat := by
    simp only [hesp, Image.top, kstksize, List.length_nil]
    omega
  have hempty : s.Holds i.top ([] : List (Activation Fn)) :=
    ⟨.nil, fun _ hc => absurd hc List.not_mem_nil, fun _ hc => absurd hc List.not_mem_nil, .nil⟩
  have hholds := hempty.enter htop.le hroom i.entryRet Fn.i386Init hesp.le
    fun _ hc => absurd hc List.not_mem_nil
  obtain ⟨hnew, hflat⟩ := toNat_enter_ebp hroom i.entryRet
  have hebp : (s.enter [] i.entryRet).ebp.toNat + 8 = i.top := hnew.trans hesp
  have habove : i.bootstack.toNat ≤ (s.enter [] i.entryRet).ebp.toNat := by
    simp only [Image.top, kstksize] at hebp
    omega
  refine ⟨_, rfl, ⟨hholds, hflat, fun c hc => ?_, habove, Nat.le.intro hebp⟩, hebp, rfl⟩
  obtain rfl := List.mem_singleton.mp hc
  exact i.ulim_le

/-- The console comes up: the zeroed data is behind the stack, and the screen in front of it. -/
theorem consInit_sound {x : Exec} (h : x.Framed i) (hw : Hardware) :
    ∃ y, i.consInit hw (x.withMem (memset x.mem i.edata 0 (i.endAddr - i.edata))) = .ok y ∧
      y.Sound i ∧ y.ebp = x.ebp ∧ y.calls = x.calls := by
  set x₁ := x.withMem (memset x.mem i.edata 0 (i.endAddr - i.edata))
  set x₂ : Exec := { x₁ with console := serialInit (cgaInit hw.readback x₁.console) }
  obtain ⟨hadapter, hcell⟩ := console_up hw.readback x₁.console
  have hsound : x₂.Sound i := by
    refine ⟨h.congr rfl rfl rfl fun a hlo hhi => ?_, hadapter⟩
    have habove := h.above
    have hdata := i.data
    have hbss := i.bss
    have hlinked := i.linked
    have hend := i.endAddr.isLt
    have hcga : (kernbase + cgaBuf).toNat = 0xF00B8000 := rfl
    rw [Image.top] at hhi
    have hscreen : ¬ Mem.Span (kernbase + cgaBuf) 2 a := by
      rw [Mem.Span, BitVec.toNat_sub, hcga]
      omega
    have hzeroed : ¬ Mem.Span i.edata (i.endAddr - i.edata).toNat a := by
      rw [Mem.Span, BitVec.toNat_sub, BitVec.toNat_sub]
      omega
    exact (hcell.frame a hscreen).trans ((memset_within ..).frame a hzeroed)
  by_cases hlsr : hw.lsr = 0xFF
  · obtain ⟨y, hprint, hquiet, -⟩ := cprintf_quiet (i := i)
      (prints_text (s := "Serial port does not exist!\n") rfl) x₂
    exact ⟨y, (if_pos hlsr).trans hprint, hsound.quiet hquiet, hquiet.ebp, hquiet.calls⟩
  · exact ⟨x₂, if_neg hlsr, hsound, rfl, rfl⟩

/-- Behind `cons_init`, `i386_init` prints, and calls `test_backtrace`. -/
theorem i386Init_prints {x y : Exec} {hw : Hardware}
    (hcons : i.consInit hw (x.withMem (memset x.mem i.edata 0 (i.endAddr - i.edata))) = .ok y) :
    ∃ z, Quiet i y z ∧ ∀ mon fuel v, i.i386Init hw mon fuel v x =
      z.call i.initCall .testBacktrace [v] (i.testBacktrace mon fuel v) := by
  obtain ⟨x₃, hprint₃, hquiet₃, -⟩ := cprintf_quiet (i := i)
    (prints_text (s := "normal \x1b[31mred\x1b[0m normal\n") rfl) y
  obtain ⟨x₄, hprint₄, hquiet₄, -⟩ := cprintf_quiet (i := i)
    (prints_text (s := "\x1b[44;97mblue-bg bright white fg\x1b[0m\n") rfl) x₃
  obtain ⟨text, hnumber⟩ := prints_octal 444544 444544
  obtain ⟨x₅, hprint₅, hquiet₅, -⟩ := cprintf_quiet (i := i) hnumber x₄
  have hred : i.cprintf (cstr "normal \x1b[31mred\x1b[0m normal\n") [] y = .ok x₃ := hprint₃
  have hblue : i.cprintf (cstr "\x1b[44;97mblue-bg bright white fg\x1b[0m\n") [] x₃ = .ok x₄ :=
    hprint₄
  have hnumbers : i.cprintf (cstr "%d decimal is %o octal!") [.word 444544, .word 444544] x₄ =
      .ok x₅ := hprint₅
  refine ⟨x₅, (hquiet₃.trans hquiet₄).trans hquiet₅, fun mon fuel v => ?_⟩
  rw [Image.i386Init]
  rw [hcons, ok_bind, hred, ok_bind, hblue, ok_bind, hnumbers, ok_bind]

/-- **`i386_init`** comes to `test_backtrace` with its own frame on the stack. -/
theorem i386Init_reaches (hw : Hardware) (console : Console) : ∃ x : Exec, x.Sound i ∧
    x.ebp.toNat + 8 = i.top ∧ x.calls = [⟨.i386Init, [], i.entryRet, x.ebp⟩] ∧
    ∀ mon fuel v, i.relocated hw mon fuel v console =
      x.call i.initCall .testBacktrace [v] (i.testBacktrace mon fuel v) := by
  obtain ⟨x₁, hx₁, hframed, hebp, hcalls⟩ := entered (i := i) console
  obtain ⟨x₂, hcons, hsound, hebp₂, hcalls₂⟩ := consInit_sound hframed hw
  obtain ⟨x, hquiet, hrun⟩ := i386Init_prints hcons
  have hebp₃ : x.ebp = x₁.ebp := hquiet.ebp.trans hebp₂
  refine ⟨x, hsound.quiet hquiet, by rw [hebp₃, hebp], ?_, fun mon fuel v => ?_⟩
  · rw [hquiet.calls, hcalls₂, hcalls, hebp₃]
  · rw [Image.relocated, hx₁, hrun]

/-- How much of the stack `test_backtrace` of `n` takes, down to the frame of `mon_backtrace`. -/
def Image.depth (i : Image) (n : ℕ) : ℕ :=
  8 + (i.initCall.room + 12) + (n * (i.selfCall.room + 12) + (i.monCall.room + 20))

/-- **The run** comes to `mon_backtrace` with the frames of the `n + 3` active calls on the
stack. -/
theorem relocated_reaches (hw : Hardware) (console : Console) {n fuel : ℕ}
    (hdepth : i.depth n ≤ kstksize) (hfuel : n < fuel) :
    ∃ x y, Reaches i x (fun mon => i.relocated hw mon fuel (BitVec.ofNat 32 n) console) y ∧
      x.Sound i ∧ x.calls.map (fun c => (c.fn, c.args)) = [(.i386Init, [])] ∧
      y.Sound i ∧ y.calls.length = n + 3 ∧
      y.calls.map (fun c => (c.fn, c.args)) = (.monBacktrace, [0, 0, 0]) ::
        (List.range (n + 1)).map (fun k => (.testBacktrace, [BitVec.ofNat 32 k])) ++
          [(.i386Init, [])] := by
  obtain ⟨x, h, hebp, hcalls, hrun⟩ := i386Init_reaches (i := i) hw console
  rw [Image.depth] at hdepth
  rw [Image.top] at hebp
  have hroom : i.bootstack.toNat + (i.initCall.room + (8 + 4 * [BitVec.ofNat 32 n].length)) ≤
      x.ebp.toNat := by
    rw [List.length_singleton]
    omega
  obtain ⟨_, rfl, hsound₁, hebp₁, hcalls₁⟩ :=
    h.enter i.initCall .testBacktrace [BitVec.ofNat 32 n] hroom
  rw [List.length_singleton] at hebp₁
  obtain ⟨y, hbody, hsound, hcalls'⟩ :=
    testBacktrace_reaches (i := i) n hfuel hsound₁ (by omega)
  have hall : y.calls.map (fun c => (c.fn, c.args)) = (.monBacktrace, [0, 0, 0]) ::
      (List.range (n + 1)).map (fun k => (.testBacktrace, [BitVec.ofNat 32 k])) ++
        [(.i386Init, [])] := by
    rw [hcalls', hcalls₁, hcalls, List.range_succ, List.map_append]
    simp only [List.map_cons, List.map_nil, List.cons_append, List.append_assoc, List.nil_append]
  have hlength := congrArg List.length hall
  simp only [List.length_map, List.length_cons, List.length_append, List.length_range,
    List.length_nil] at hlength
  refine ⟨x, y, ?_, h, by rw [hcalls]; rfl, hsound, by omega, hall⟩
  simp only [hrun]
  exact h.reaches i.initCall .testBacktrace [BitVec.ofNat 32 n] hroom hbody

/-- The first argument of a frame. -/
theorem Activation.Stored.arg1 {m : Mem} {c : Activation Fn} (h : c.Stored m) (hne : c.args ≠ []) :
    (Frame.load m c.ebp).arg1 = c.args.headD 0 := by
  obtain ⟨v, vs, hargs⟩ := List.exists_cons_of_ne_nil hne
  rw [hargs, List.headD_cons]
  exact h.args 0 v (by rw [hargs, List.getElem?_cons_zero])

/-- The first arguments of the frames: all calls but the outermost have some. -/
theorem first_arguments {m : Mem} {calls : List (Activation Fn)}
    (hstored : ∀ c ∈ calls, c.Stored m) {n : ℕ}
    (hcalls : calls.map (fun c => (c.fn, c.args)) = (.monBacktrace, [0, 0, 0]) ::
      (List.range (n + 1)).map (fun k => (.testBacktrace, [BitVec.ofNat 32 k])) ++
        [(.i386Init, [])]) :
    (calls.map fun c => (Frame.load m c.ebp).arg1).take (n + 2) =
      0 :: (List.range (n + 1)).map (BitVec.ofNat 32) := by
  obtain ⟨l, l', hsplit, hl, -⟩ := List.map_eq_append_iff.mp hcalls
  have hargs : l.map (fun c => c.args) =
      [0, 0, 0] :: (List.range (n + 1)).map fun k => [BitVec.ofNat 32 k] := by
    have h := congrArg (List.map Prod.snd) hl
    simpa only [List.map_map, List.map_cons, Function.comp_def] using h
  have hsize : l.length = n + 2 := by
    have h := congrArg List.length hargs
    simpa using h
  have hfirst : ∀ c ∈ l, (Frame.load m c.ebp).arg1 = c.args.headD 0 := by
    intro c hc
    refine (hstored c (hsplit ▸ List.mem_append_left l' hc)).arg1 ?_
    have hmem : c.args ∈ l.map (fun c => c.args) := List.mem_map_of_mem hc
    rw [hargs, List.mem_cons] at hmem
    rcases hmem with h | h
    · rw [h]
      exact List.cons_ne_nil _ _
    · obtain ⟨k, -, hk⟩ := List.mem_map.mp h
      rw [← hk]
      exact List.cons_ne_nil _ _
  have hheads := congrArg (List.map (List.headD · 0)) hargs
  rw [List.map_map, List.map_cons, List.map_map] at hheads
  rw [hsplit, List.map_append, List.take_left' (by rw [List.length_map, hsize]),
    List.map_congr_left hfirst]
  exact hheads

end

/-- **The backtrace lists every active call.** Whatever the kernel image, as long as its stack does
not overflow: the run from `relocated` on comes, by way of `test_backtrace` of `n`, to a call of
`mon_backtrace`, which returns, having printed a frame for each of the `n + 3` active calls, the
innermost first. The frames have the return addresses of the calls, and the first arguments are
those of `mon_backtrace` and of the calls of `test_backtrace`. -/
theorem backtrace_lists (i : Image) (hw : Hardware) (console : Console) {n fuel : ℕ}
    (hdepth : i.depth n ≤ kstksize) (hfuel : n + 3 < fuel)
    (hstabs : 2 * i.stabs.length + 1 < fuel) :
    ∃ x rest, (∀ mon, i.relocated hw mon fuel (BitVec.ofNat 32 n) console = mon x >>= rest) ∧
      x.calls.map (fun c => (c.fn, c.args)) = (.monBacktrace, [0, 0, 0]) ::
        (List.range (n + 1)).map (fun k => (.testBacktrace, [BitVec.ofNat 32 k])) ++
          [(.i386Init, [])] ∧
      x.calls.length = n + 3 ∧
      (∀ c ∈ x.calls, (Frame.load x.mem c.ebp).eip = c.ret) ∧
      (∃ x', i.monBacktrace fuel x = .ok x' ∧
        x'.printed = x.printed ++ (printedText "Stack backtrace:\n" ++
          x.calls.flatMap fun c => i.callText fuel x.mem c.ebp)) ∧
      (x.calls.map fun c => (Frame.load x.mem c.ebp).arg1).take (n + 2) =
        0 :: (List.range (n + 1)).map (BitVec.ofNat 32) := by
  obtain ⟨-, x, ⟨rest, hreach, -⟩, -, -, hsound, hlength, hcalls⟩ :=
    relocated_reaches (i := i) hw console hdepth (by omega : n < fuel)
  obtain ⟨x', hmon, -, hprinted⟩ := monBacktrace_prints hstabs hsound (by omega)
  refine ⟨x, rest, hreach, hcalls, hlength, fun c hc => (hsound.holds.stored c hc).ret,
    ⟨x', hmon, hprinted⟩, ?_⟩
  exact first_arguments hsound.holds.stored hcalls

/-- An image without debug information, that stores nothing below its frames. -/
def bareImage : Image where
  bootstack := 0xF0110000
  edata := 0xF0118300
  endAddr := 0xF0118944
  linked := by decide
  data := by decide
  bss := by decide
  stabs := []
  stabstr := []
  header := fun _ h => by cases h
  entryRet := 0xF010003E
  ulim_le := by decide
  initCall := ⟨24, 0xF01000F4, by decide⟩
  selfCall := ⟨24, 0xF0100069, by decide⟩
  monCall := ⟨24, 0xF0100087, by decide⟩
  scratch := Exec.mem
  scratch_within := fun x => Mem.Within.refl _ x.mem

/-- The backtrace of the kernel as it stands, to a depth of 5. -/
theorem backtrace_lists_five : ∃ x rest,
    (∀ mon, bareImage.relocated ⟨0xA55A, 0⟩ mon 16 (BitVec.ofNat 32 5)
      (Console.statics ⟨fun _ => 0, []⟩ ⟨0, fun _ => 0⟩) = mon x >>= rest) ∧
      x.calls.length = 8 ∧ (∃ x', bareImage.monBacktrace 16 x = .ok x') ∧
      (x.calls.map fun c => (Frame.load x.mem c.ebp).arg1).take 7 = [0, 0, 1, 2, 3, 4, 5] := by
  obtain ⟨x, rest, hreach, -, hlength, -, ⟨x', hmon, -⟩, hargs⟩ := backtrace_lists bareImage
    ⟨0xA55A, 0⟩ (Console.statics ⟨fun _ => 0, []⟩ ⟨0, fun _ => 0⟩) (n := 5)
    (by decide) (by decide : 5 + 3 < 16) (by decide)
  exact ⟨x, rest, hreach, hlength, ⟨x', hmon⟩, hargs⟩

/-- **The run returns** to `i386_init`, with the frames as they were before it called
`test_backtrace`. -/
theorem relocated_returns (i : Image) (hw : Hardware) (console : Console) {n fuel : ℕ}
    (hdepth : i.depth n ≤ kstksize) (hfuel : n + 3 < fuel)
    (hstabs : 2 * i.stabs.length + 1 < fuel) :
    ∃ y, i.relocated hw (i.monBacktrace fuel) fuel (BitVec.ofNat 32 n) console = .ok y ∧
      y.Sound i ∧ y.calls.map (fun c => (c.fn, c.args)) = [(.i386Init, [])] := by
  obtain ⟨x₀, x, ⟨rest, hreach, hrest⟩, hsound₀, hcalls₀, hsound, hlength, -⟩ :=
    relocated_reaches (i := i) hw console hdepth (by omega : n < fuel)
  obtain ⟨x', hmon, hquiet, -⟩ := monBacktrace_prints hstabs hsound (by omega)
  obtain ⟨y, hy, hback⟩ := hrest x' hquiet
  refine ⟨y, ?_, hsound₀.quiet hback, by rw [hback.calls, hcalls₀]⟩
  exact (hreach _).trans (by rw [hmon, ok_bind, hy])

end Jos
