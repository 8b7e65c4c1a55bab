import Jos.CallStack
import Jos.ConsoleInv
import Jos.FormatLaws
import Jos.Kdebug
import Jos.Printf

/-!
# The Kernel on its Stack

The machine while functions of the kernel call each other and print. Each call puts a frame on
the boot stack; a function stores to the screen, by way of `cprintf`, and below its own frame.

What the compiler and the linker decide is a parameter (`Image`): where the stack is, the
return addresses, how much room a function has taken below its frame when it makes a call, the
symbol tables, and what is stored in the stack below the frame of the running function
(its locals, saved registers, and the frames of functions that have returned). Beside the
machine's registers two ledgers are kept (`Exec`): the characters printed so far, and the
active calls.

## Main results

* `cprintf_quiet`: printing is `Quiet`, it stores to open addresses only.
* `Exec.Sound.quiet`: whatever a function does that is quiet, the frames of the active calls stay.
* `Exec.Sound.enter`, `Exec.Sound.leave`: a call puts a frame in front of them, and with its
  return it is quiet as a whole.
-/

namespace Jos

/-! ### The machine -/

/-- The functions on the way to the backtrace. `runcmd` is none of them: it is static and called
from one place, and the compiler puts its code into `monitor`. -/
inductive Fn
  | i386Init
  | testBacktrace
  | monitor
  | monBacktrace
deriving DecidableEq

/-- The machine while the kernel runs. -/
structure Exec where
  /-- the console, and with it the memory -/
  console : Console
  ebp : Addr
  esp : Addr
  /-- every character handed to `cputchar` so far -/
  printed : List (BitVec 32)
  /-- the active calls, the innermost first -/
  calls : List (Activation Fn)

namespace Exec

/-- The memory. -/
def mem (x : Exec) : Mem :=
  x.console.mem

/-- Another memory. -/
def withMem (m : Mem) (x : Exec) : Exec :=
  { x with console := { x.console with mem := m } }

/-- The stack. -/
def stack (x : Exec) : Stack where
  mem := x.mem
  ebp := x.ebp
  esp := x.esp

/-- Another stack. -/
def withStack (s : Stack) (x : Exec) : Exec :=
  { x.withMem s.mem with ebp := s.ebp, esp := s.esp }

/-- Room below the frame. -/
def reserve (room : ℕ) (x : Exec) : Exec :=
  { x with esp := x.esp - BitVec.ofNat 32 room }

/-- The room is given back. -/
def release (room : ℕ) (x : Exec) : Exec :=
  { x with esp := x.esp + BitVec.ofNat 32 room }

/-- A call, up to the first instruction of the function's body. -/
def enter (fn : Fn) (args : List (BitVec 32)) (ret : Addr) (x : Exec) : Exec :=
  let s := x.stack.enter args ret
  { x.withStack s with calls := ⟨fn, args, ret, s.ebp⟩ :: x.calls }

/-- Its return, and the removal of its arguments. -/
def leave (k : ℕ) (x : Exec) : Exec :=
  { x.withStack (x.stack.leave k) with calls := x.calls.tail }

/-- A character on its way to the console. -/
def putch (c : BitVec 32) (x : Exec) : Exec :=
  { x with console := cputchar c x.console, printed := x.printed ++ [c] }

end Exec

/-- `KSTKSIZE`. -/
abbrev kstksize : ℕ := 8 * 4096

/-- Why the kernel stops. -/
inductive Crash
  /-- a message that cannot be printed -/
  | message (e : Fault)
  /-- a lookup of debug information that goes wrong -/
  | lookup (e : LookupFault)
  /-- a loop or a recursion that does not end -/
  | fuel

/-- A place where a function makes a call: how much room is taken below its frame there, and
the address behind the call, in the kernel. -/
structure Site where
  room : ℕ
  ret : Addr
  ulim_le : ulim ≤ ret

/-- A call of `body`. -/
def Exec.call (site : Site) (fn : Fn) (args : List (BitVec 32))
    (body : Exec → Except Crash Exec) (x : Exec) : Except Crash Exec := do
  let x ← body ((x.reserve site.room).enter fn args site.ret)
  pure ((x.leave args.length).release site.room)

/-- The kernel image, as it is compiled and linked: from `0xF0100000` on, the stack with the
data and the zeroed data behind it. The first entry of a stab table is a header of type 0. -/
structure Image where
  bootstack : Addr
  edata : Addr
  endAddr : Addr
  linked : 0xF0100000 ≤ bootstack.toNat
  data : bootstack.toNat + kstksize ≤ edata.toNat
  bss : edata.toNat ≤ endAddr.toNat
  stabs : List Stab
  stabstr : List Byte
  header : ∀ stab, stabs[0]? = some stab → stab.nType = 0
  /-- behind `call i386_init` in `entry.S` -/
  entryRet : Addr
  ulim_le : ulim ≤ entryRet
  /-- the call of `test_backtrace` in `i386_init` -/
  initCall : Site
  /-- the call of `test_backtrace` in itself -/
  selfCall : Site
  /-- the call of `mon_backtrace` in `test_backtrace` -/
  monCall : Site
  /-- what is stored in the stack below the frame of the running function -/
  scratch : Exec → Mem
  scratch_within : ∀ x, Mem.Within
    (fun a => bootstack.toNat ≤ a.toNat ∧ a.toNat < x.ebp.toNat) x.mem (scratch x)

namespace Image

variable (i : Image)

/-- `bootstacktop`, the first address behind the stack. -/
def bootstacktop : Addr :=
  i.bootstack + BitVec.ofNat 32 kstksize

/-- The same as a number. -/
def top : ℕ :=
  i.bootstack.toNat + kstksize

/-- Something has been stored below the frame. -/
def scribble (x : Exec) : Exec :=
  x.withMem (i.scratch x)

/-- `cprintf`; the count it returns is not used. -/
def cprintf (fmt : List Byte) (ap : Args) (x : Exec) : Except Crash Exec :=
  match vprintfmt Exec.putch fmt ap x with
  | .error e => .error (.message e)
  | .ok (x, _) => .ok (i.scribble x)

end Image

/-! ### Between two calls -/

/-- The addresses that a function may store to without a call in between: in reach of the
cursor, and in the stack below its frame. -/
def Image.Open (i : Image) (x : Exec) (a : Addr) : Prop :=
  Mem.Span x.console.crtBuf (2 ^ 17) a ∨ i.bootstack.toNat ≤ a.toNat ∧ a.toNat < x.ebp.toNat

/-- What happens between two calls of a function: only the open addresses are stored to, and the
function's registers and the active calls stay. -/
structure Quiet (i : Image) (x x' : Exec) : Prop where
  ebp : x'.ebp = x.ebp
  esp : x'.esp = x.esp
  calls : x'.calls = x.calls
  crtBuf : x'.console.crtBuf = x.console.crtBuf
  mem : Mem.Within (i.Open x) x.mem x'.mem

section

variable {i : Image} {x x₁ x₂ : Exec}

theorem Quiet.refl (x : Exec) : Quiet i x x :=
  ⟨rfl, rfl, rfl, rfl, Mem.Within.refl _ _⟩

theorem Quiet.trans (h₁ : Quiet i x x₁) (h₂ : Quiet i x₁ x₂) : Quiet i x x₂ where
  ebp := h₂.ebp.trans h₁.ebp
  esp := h₂.esp.trans h₁.esp
  calls := h₂.calls.trans h₁.calls
  crtBuf := h₂.crtBuf.trans h₁.crtBuf
  mem := h₁.mem.trans (h₂.mem.mono fun _ ha => by
    rwa [Image.Open, h₁.crtBuf, h₁.ebp] at ha)

/-- A character is printed. -/
theorem putch_quiet (c : BitVec 32) (x : Exec) : Quiet i x (x.putch c) := by
  have h := consPutc_confined c x.console
  exact ⟨rfl, rfl, rfl, h.crtBuf, h.mem.mono fun _ => Or.inl⟩

/-- Something is stored below the frame. -/
theorem scribble_quiet (x : Exec) : Quiet i x (i.scribble x) :=
  ⟨rfl, rfl, rfl, rfl, (i.scratch_within x).mono fun _ => Or.inr⟩

/-- **A message** is printed, and nothing else happens. -/
theorem cprintf_quiet {t : List Byte} {ap : Args} {text : List (BitVec 32)} (h : Prints t ap text)
    (x : Exec) : ∃ x', i.cprintf (t ++ [0]) ap x = .ok x' ∧ Quiet i x x' ∧
      x'.printed = x.printed ++ text := by
  have hfold : ∀ (l : List (BitVec 32)) (x : Exec),
      Quiet i x (l.foldl (fun x c => x.putch c) x) ∧
        (l.foldl (fun x c => x.putch c) x).printed = x.printed ++ l := by
    intro l
    induction l with
    | nil => exact fun x => ⟨.refl x, (List.append_nil _).symm⟩
    | cons c l ih =>
        intro x
        obtain ⟨hquiet, hprinted⟩ := ih (x.putch c)
        exact ⟨(putch_quiet c x).trans hquiet, hprinted.trans (List.append_assoc ..)⟩
  obtain ⟨hquiet, hprinted⟩ := hfold text x
  refine ⟨_, ?_, hquiet.trans (scribble_quiet _), hprinted⟩
  rw [Image.cprintf, vprintfmt_eq_foldl Exec.putch h.nul h.output]

end

/-! ### The frames stay -/

/-- The buffer is that of one of the two adapters. -/
def Exec.OnAdapter (x : Exec) : Prop :=
  x.console.crtBuf = kernbase + cgaBuf ∨ x.console.crtBuf = kernbase + monoBuf

/-- The frames of the active calls are on the stack, and return into the kernel. -/
structure Exec.Framed (i : Image) (x : Exec) : Prop where
  holds : x.stack.Holds i.top x.calls
  esp : x.esp = x.ebp
  ret : ∀ c ∈ x.calls, ulim ≤ c.ret
  above : i.bootstack.toNat ≤ x.ebp.toNat
  below : x.ebp.toNat ≤ i.top

/-- And the console is up. -/
structure Exec.Sound (i : Image) (x : Exec) : Prop extends Exec.Framed i x where
  adapter : x.OnAdapter

/-- The stack ends inside the address space. -/
theorem Image.top_le (i : Image) : i.top < 2 ^ 32 := by
  have hdata := i.data
  have hlt := i.edata.isLt
  rw [Image.top]
  omega

theorem Image.toNat_bootstacktop (i : Image) : i.bootstacktop.toNat = i.top :=
  toNat_add_ofNat i.top_le

/-- No cursor reaches the kernel, or the first addresses. -/
theorem Exec.OnAdapter.not_span {x : Exec} (h : x.OnAdapter) {a : Addr}
    (ha : 0xF0100000 ≤ a.toNat ∨ a.toNat < 28) : ¬ Mem.Span x.console.crtBuf (2 ^ 17) a := by
  have hcga : (kernbase + cgaBuf).toNat = 0xF00B8000 := rfl
  have hmono : (kernbase + monoBuf).toNat = 0xF00B0000 := rfl
  have hlt := a.isLt
  rw [Mem.Span, BitVec.toNat_sub]
  rcases h with h | h
  · rw [h, hcga]
    omega
  · rw [h, hmono]
    omega

section

variable {i : Image} {x x' : Exec}

/-- Nothing from the frame pointer on is stored to, and none of the first addresses. -/
theorem Exec.Sound.byte_eq (h : x.Sound i) (hquiet : Quiet i x x') {a : Addr}
    (ha : x.ebp.toNat ≤ a.toNat ∨ a.toNat < 28) : x'.mem.byte a = x.mem.byte a := by
  have hlinked := i.linked
  have habove := h.above
  refine hquiet.mem.frame a fun hopen => ?_
  rcases hopen with hspan | hstack
  · exact h.adapter.not_span (by omega) hspan
  · omega

/-- The frames stay as long as nothing is stored there. -/
theorem Exec.Framed.congr (h : x.Framed i) (hebp : x'.ebp = x.ebp) (hesp : x'.esp = x.esp)
    (hcalls : x'.calls = x.calls)
    (hm : ∀ a, x.ebp.toNat ≤ a.toNat → a.toNat < i.top → x'.mem.byte a = x.mem.byte a) :
    x'.Framed i where
  holds := by
    rw [hcalls]
    exact h.holds.congr i.top_le.le hebp hm
  esp := by rw [hesp, hebp, h.esp]
  ret := by rw [hcalls]; exact h.ret
  above := by rw [hebp]; exact h.above
  below := by rw [hebp]; exact h.below

/-- **Between two calls** the frames stay. -/
theorem Exec.Sound.quiet (h : x.Sound i) (hquiet : Quiet i x x') : x'.Sound i where
  toFramed := h.congr hquiet.ebp hquiet.esp hquiet.calls fun _ ha _ => h.byte_eq hquiet (Or.inl ha)
  adapter := by rw [Exec.OnAdapter, hquiet.crtBuf]; exact h.adapter

end

/-! ### Calls -/

section

variable {i : Image} {x : Exec} (h : x.Sound i) (site : Site) (fn : Fn) (args : List (BitVec 32))
  (hroom : i.bootstack.toNat + (site.room + (8 + 4 * args.length)) ≤ x.ebp.toNat)
include h hroom

/-- The stack pointer at a call. -/
theorem Exec.Sound.toNat_reserve :
    (x.reserve site.room).stack.esp.toNat + site.room = x.ebp.toNat := by
  have hlt := x.ebp.isLt
  have hsmall : site.room % 2 ^ 32 = site.room := Nat.mod_eq_of_lt (by omega)
  change (x.esp - BitVec.ofNat 32 site.room).toNat + _ = _
  rw [h.esp, BitVec.toNat_sub, BitVec.toNat_ofNat, hsmall]
  omega

/-- **A call** from a function of the kernel, if there is room on the stack: its frame comes
below the caller's. -/
theorem Exec.Sound.enter : ∃ y, (x.reserve site.room).enter fn args site.ret = y ∧ y.Sound i ∧
    y.ebp.toNat + (site.room + (8 + 4 * args.length)) = x.ebp.toNat ∧
    y.calls = ⟨fn, args, site.ret, y.ebp⟩ :: x.calls := by
  have htop := i.top_le
  have hbelow := h.below
  have hlinked := i.linked
  have hesp := h.toNat_reserve site args hroom
  have hroom' : 8 + 4 * args.length < (x.reserve site.room).stack.esp.toNat := by omega
  obtain ⟨hebp, hflat⟩ := toNat_enter_ebp hroom' site.ret
  have hholds : (x.reserve site.room).stack.Holds i.top x.calls :=
    h.holds.congr htop.le rfl fun _ _ _ => rfl
  have hentered := hholds.enter htop.le hroom' site.ret fn (by omega) fun c hc => by
    have hlo := (h.holds.inside c hc).1
    change x.ebp.toNat ≤ c.ebp.toNat at hlo
    omega
  have hnew : ((x.reserve site.room).enter fn args site.ret).ebp.toNat +
      (8 + 4 * args.length) = (x.reserve site.room).stack.esp.toNat := hebp
  refine ⟨_, rfl, ⟨⟨hentered, hflat, fun c hc => ?_, by omega, by omega⟩, h.adapter⟩, by omega, rfl⟩
  obtain rfl | hc := List.mem_cons.mp hc
  · exact site.ulim_le
  · exact h.ret c hc

/-- **Its return**: a whole call is like anything else between two calls, if its body is. -/
theorem Exec.Sound.leave {y : Exec}
    (hquiet : Quiet i ((x.reserve site.room).enter fn args site.ret) y) :
    Quiet i x ((y.leave args.length).release site.room) := by
  obtain ⟨_, rfl, hsound, hnew, -⟩ := h.enter site fn args hroom
  have hlinked := i.linked
  have habove := hsound.above
  have hesp := h.toNat_reserve site args hroom
  have hroom' : 8 + 4 * args.length < (x.reserve site.room).stack.esp.toNat := by omega
  obtain ⟨hebp, hback⟩ := leave_of_enter hroom' site.ret y.stack hquiet.ebp
    fun a ha _ => hsound.byte_eq hquiet (Or.inl ha)
  have hstored := enter_within hroom' site.ret
  refine ⟨hebp, ?_, ?_, hquiet.crtBuf, ?_⟩
  · change (y.stack.leave args.length).esp + _ = _
    rw [hback]
    exact sub_add_cancel x.esp _
  · change y.calls.tail = _
    rw [hquiet.calls]
    rfl
  · refine (hstored.mono fun a ha => Or.inr ?_).trans (hquiet.mem.mono fun a ha => ?_)
    · exact ⟨habove.trans ha.1, by omega⟩
    · exact ha.imp id fun hin => ⟨hin.1, by omega⟩

end

end Jos
