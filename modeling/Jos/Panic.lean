import Jos.Running

/-!
# Panics

`_panic` and `_warn` of `kern/init.c`. A panic prints its message, unless there has been one
before, and then stays in the monitor; the flag is the variable `panicstr`.

## Main results

* `warn_prints`: a warning prints its message and returns.
* `panic_session`: **a panic never returns**, the monitor serves whatever is typed after it, and
  its message is printed exactly when it is the first one.
-/

namespace Jos

section

variable {τ ω : Type} (h : Handlers τ ω) (stack : Kernel ω → Argv) (tf : τ)

/-- `while (1) monitor(NULL);`, for at most `fuel` rounds. -/
def monitorForever : ℕ → List (BitVec 32) → (ℕ → Byte) → Kernel ω → Except Trap (Line × ω)
  | 0, _, _, _ => .error .fuel
  | fuel + 1, cs, buf, k => do
      match ← monitor h stack tf cs buf k with
      | .more s w => pure (s, w)
      | .done cs buf k => monitorForever fuel cs buf k

/-- The message of a panic or a warning: where it comes from, and what it says. -/
def Kernel.message (intro file : List Byte) (line : BitVec 32) (fmt : List Byte) (ap : Args)
    (k : Kernel ω) : Except Trap (Kernel ω) := do
  let k ← k.cprintf intro [.str file, .word line]
  let k ← k.cprintf fmt ap
  k.cprintf (cstr "\n") []

/-- `_warn`. -/
def warn (file : List Byte) (line : BitVec 32) (fmt : List Byte) (ap : Args) (k : Kernel ω) :
    Except Trap (Kernel ω) :=
  k.message (cstr "kernel warning at %s:%d: ") file line fmt ap

/-- `_panic`, with the variable `panicstr`, on the values of `getchar` from there on. -/
def panic (panicstr : Option (List Byte)) (file : List Byte) (line : BitVec 32)
    (fmt : List Byte) (ap : Args) (cs : List (BitVec 32)) (buf : ℕ → Byte) (k : Kernel ω) :
    Except Trap (Option (List Byte) × Line × ω) := do
  let (panicstr, k) ←
    match panicstr with
    | some first => pure (some first, k)
    | none => do
        let k ← k.message (cstr "kernel panic at %s:%d: ") file line fmt ap
        pure (some fmt, k)
  -- dead:
  let (s, w) ← monitorForever h stack tf (cs.length + 1) cs buf k
  pure (panicstr, s, w)

end

/-- What a panic or a warning says. -/
def messageText (intro : String) (file : List Byte) (line : BitVec 32)
    (text : List (BitVec 32)) : List (BitVec 32) :=
  (printedText intro ++ (charText file ++ (printedText ":" ++ (charText (signedText line.toInt) ++
    printedText ": ")))) ++ (text ++ printedText "\n")

section

variable {τ ω : Type} {file t : List Byte} {ap : Args} {text : List (BitVec 32)}

/-- Where it comes from. -/
theorem prints_place (intro : String) (hintro : plainText intro = true) (hfile : 0 ∉ file)
    (hlen : file.length < 2 ^ 31) (v : List Byte) (line : BitVec 32) :
    Prints (intro.toList.map chr ++ "%s:%d: ".toList.map chr) [.str (file ++ 0 :: v), .word line]
      (printedText intro ++ (charText file ++ (printedText ":" ++
        (charText (signedText line.toInt) ++ printedText ": ")))) := by
  have hnumber : Prints (":".toList.map chr ++ ("%d".toList.map chr ++ ": ".toList.map chr))
      [.word line] (printedText ":" ++ (charText (signedText line.toInt) ++ printedText ": ")) :=
    prints_between rfl rfl (prints_decimal line)
  exact (prints_text hintro).append ((prints_str hfile hlen v).append hnumber)

/-- The message. -/
theorem message_prints (intro : String) (hintro : plainText intro = true) (hfile : 0 ∉ file)
    (hlen : file.length < 2 ^ 31) (v : List Byte) (line : BitVec 32) (ht : Prints t ap text)
    (k : Kernel ω) :
    k.message (intro.toList.map chr ++ "%s:%d: ".toList.map chr ++ [0]) (file ++ 0 :: v) line
      (t ++ [0]) ap = .ok (k.print (messageText intro file line text)) := by
  have hend : ∀ k : Kernel ω, k.cprintf (cstr "\n") [] = .ok (k.print (printedText "\n")) :=
    Kernel.cprintf_text (prints_text (s := "\n") rfl)
  rw [Kernel.message, Kernel.cprintf_text (prints_place intro hintro hfile hlen v line), ok_bind,
    Kernel.cprintf_text ht, ok_bind, hend, Kernel.print_append, Kernel.print_append, messageText]

/-- **A warning** prints its message, and returns. -/
theorem warn_prints (hfile : 0 ∉ file) (hlen : file.length < 2 ^ 31) (v : List Byte)
    (line : BitVec 32) (ht : Prints t ap text) (k : Kernel ω) :
    warn (file ++ 0 :: v) line (t ++ [0]) ap k =
      .ok (k.print (messageText "kernel warning at " file line text)) :=
  message_prints "kernel warning at " rfl hfile hlen v line ht k

variable {h : Handlers τ ω} {tf : τ} {I : Console → ω → Prop}
  {reply : List (List Byte) → List (BitVec 32) → Prop}

/-- The monitor does not return, so there is one round only. -/
theorem monitorForever_session (hw : Works h tf I reply) (stack : Kernel ω → Argv) (bs : List Byte)
    (buf : ℕ → Byte) {k : Kernel ω} (hI : I k.console k.rest) :
    ∃ s w out, monitorForever h stack tf ((keys bs).length + 1) (keys bs) buf k = .ok (s, w) ∧
      Holds s ((openLine bs).foldl typeKey []) ∧ I s.console w ∧
      Transcript reply (endedLines bs) out ∧
      Printed (welcomeText ++ out ++ lineText (openLine bs)) k.console s.console := by
  obtain ⟨s, w, out, hrun, hsession⟩ := monitor_session hw stack bs buf hI
  refine ⟨s, w, out, ?_, hsession⟩
  rw [monitorForever, hrun]
  rfl

/-- **A panic never returns.** Its message is printed if it is the first one, and `panicstr` keeps
the message of the first one; after that the monitor serves every stream. -/
theorem panic_session (hw : Works h tf I reply) (stack : Kernel ω → Argv)
    (panicstr : Option (List Byte)) (file : List Byte) (hfile : 0 ∉ file)
    (hlen : file.length < 2 ^ 31) (line : BitVec 32) (ht : Prints t ap text)
    (bs : List Byte) (buf : ℕ → Byte) {k : Kernel ω} (hI : I k.console k.rest) :
    ∃ s w out, panic h stack tf panicstr (file ++ [0]) line (t ++ [0]) ap (keys bs) buf k =
        .ok (some (panicstr.getD (t ++ [0])), s, w) ∧
      Holds s ((openLine bs).foldl typeKey []) ∧ I s.console w ∧
      Transcript reply (endedLines bs) out ∧
      Printed ((if panicstr.isSome then [] else messageText "kernel panic at " file line text) ++
        (welcomeText ++ out ++ lineText (openLine bs))) k.console s.console := by
  cases panicstr with
  | some first =>
      obtain ⟨s, w, out, hrun, hsession⟩ := monitorForever_session hw stack bs buf hI
      refine ⟨s, w, out, ?_, hsession⟩
      simp only [panic, hrun, ok_bind, pure_bind]
      rfl
  | none =>
      have hmessage : k.message (cstr "kernel panic at %s:%d: ") (file ++ [0]) line (t ++ [0]) ap =
          .ok (k.print (messageText "kernel panic at " file line text)) :=
        message_prints "kernel panic at " rfl hfile hlen [] line ht k
      obtain ⟨s, w, out, hrun, hholds, hI', htrans, hprint⟩ :=
        monitorForever_session hw stack bs buf
          (hw.kernel_print (messageText "kernel panic at " file line text) hI)
      refine ⟨s, w, out, ?_, hholds, hI', htrans, (Kernel.printed_print _ k).append hprint⟩
      simp only [panic, hmessage, hrun, ok_bind, pure_bind]
      rfl

end

/-- The panic of `debuginfo_eip`, and a line typed after it. -/
theorem panic_session_user : ∃ (x : Exec) (s : Line), x.Sound bareImage ∧
    panic (bareImage.handlers bareSymbols ⟨24, 0xF0100800, by decide⟩ 0 16)
      (fun _ => Vector.replicate maxArgs none) 0 none (cstr "kern/kdebug.c") 127
      (cstr "User address") [] (keys ("help\rhe".toList.map chr)) (fun _ => 0)
      ⟨[], x.console, x.cpu⟩ = .ok (some (cstr "User address"), s, x.cpu) := by
  obtain ⟨x, h, hebp, hcalls, -⟩ := i386Init_reaches (i := bareImage) ⟨0xA55A, 0⟩
    (Console.statics ⟨fun _ => 0, []⟩ ⟨0, fun _ => 0⟩)
  have htop : bareImage.top = 0xF0118000 := rfl
  have hroom : bareImage.bootstack.toNat + (24 + 20) ≤ x.ebp.toNat := by
    change 0xF0110000 + (24 + 20) ≤ _
    omega
  have hwork := handlers_work ⟨24, 0xF0100800, by decide⟩ 0 16 h hroom (by decide)
    (by rw [hcalls, List.length_singleton]; decide) bareSymbols 0
  obtain ⟨s, _, -, hrun, -, ⟨rfl, -⟩, -⟩ := panic_session hwork
    (fun _ => Vector.replicate maxArgs none) none ("kern/kdebug.c".toList.map chr) (by decide)
    (by decide) 127 (prints_text (s := "User address") rfl) ("help\rhe".toList.map chr) (fun _ => 0)
    (k := ⟨[], x.console, x.cpu⟩) (like_refl x)
  exact ⟨x, s, h, hrun⟩

end Jos
