import Jos.Backtrace
import Jos.Monitor
import Jos.Transcript

/-!
# The Commands of the Monitor

`mon_help`, `mon_kerninfo` and `exec_hidden_cases` of `kern/monitor.c`, with the rounding
macros of `inc/types.h`. Each of them prints a text, and returns 0.

## Main results

* `toNat_roundUp`: `ROUNDUP` gives the least multiple from its argument on.
* `prints_str`: a string is printed as it is.
* `monHelp_prints`, `monKerninfo_prints`: what the commands print.
* `footprint_least`: the size that `mon_kerninfo` prints.
-/

namespace Jos

/-! ### Rounding -/

/-- `ROUNDDOWN`. -/
def roundDown (a n : BitVec 32) : BitVec 32 :=
  a - a % n

/-- `ROUNDUP`. -/
def roundUp (a n : BitVec 32) : BitVec 32 :=
  roundDown (a + n - 1) n

/-- Rounding down. -/
theorem toNat_roundDown (a n : BitVec 32) :
    (roundDown a n).toNat = n.toNat * (a.toNat / n.toNat) := by
  have hdiv := Nat.div_add_mod a.toNat n.toNat
  have hlt := a.isLt
  rw [roundDown, BitVec.toNat_sub, BitVec.toNat_umod]
  omega

/-- **Rounding up**, as long as it does not pass the end of the words. -/
theorem toNat_roundUp {a n : BitVec 32} (hn : 0 < n.toNat) (h : a.toNat + n.toNat ≤ 2 ^ 32) :
    (roundUp a n).toNat = n.toNat * ((a.toNat + n.toNat - 1) / n.toNat) := by
  have hsum : (a + n - 1).toNat = a.toNat + n.toNat - 1 := by
    have hone : (1 : BitVec 32).toNat = 1 := rfl
    rw [BitVec.toNat_sub, BitVec.toNat_add, hone]
    omega
  rw [roundUp, toNat_roundDown, hsum]

/-! ### The machine prints -/

section

variable {τ ω : Type}

/-- `cprintf`; the count it returns is not used. -/
def Kernel.cprintf (fmt : List Byte) (ap : Args) (k : Kernel ω) : Except Trap (Kernel ω) :=
  match Jos.cprintf fmt ap k.console with
  | .error e => .error (.message e)
  | .ok (console, _) => .ok { k with console := console }

/-- The characters of a text, each through `cputchar`. -/
def Kernel.print (text : List (BitVec 32)) (k : Kernel ω) : Kernel ω :=
  { k with console := k.console.print text }

/-- A format whose text is known is printed as that text. -/
theorem Kernel.cprintf_text {t : List Byte} {ap : Args} {text : List (BitVec 32)}
    (h : Prints t ap text) (k : Kernel ω) : k.cprintf (t ++ [0]) ap = .ok (k.print text) := by
  rw [Kernel.cprintf, Jos.cprintf_text h]
  rfl

/-- Two texts, one after the other. -/
theorem Kernel.print_append (t u : List (BitVec 32)) (k : Kernel ω) :
    (k.print t).print u = k.print (t ++ u) := by
  rw [Kernel.print, Kernel.print, Kernel.print, Console.print, Console.print, Console.print,
    List.foldl_append]

/-! ### The commands -/

/-- The texts of `commands`: the name of each command, and its description. -/
def commandTexts : List (String × String) :=
  [("help", "Display this list of commands"),
    ("kerninfo", "Display information about the kernel"),
    ("hidden", "Run hidden test cases"),
    ("backtrace", "lab1 ex10, stack backtrace function")]

/-- The texts of `mon_help` are those of the commands. -/
theorem commandTexts_name (h : Handlers τ ω) :
    commandTexts.map (fun c => cstr c.1) = h.commands.map Command.name :=
  rfl

/-- `mon_help`. -/
def monHelp : Handler τ ω := fun _ _ _ k => do
  let k ← commandTexts.foldlM
    (fun k c => k.cprintf (cstr "%s - %s\n") [.str (cstr c.1), .str (cstr c.2)]) k
  pure (0, k)

/-- The symbols of the kernel that `mon_kerninfo` prints, in the order of `kernel.ld`. -/
structure Symbols where
  entry : Addr
  etext : Addr
  edata : Addr
  endAddr : Addr
  linked : 0xF0100000 ≤ entry.toNat
  text : entry.toNat ≤ etext.toNat
  data : etext.toNat ≤ edata.toNat
  bss : edata.toNat ≤ endAddr.toNat

/-- `ROUNDUP(end - entry, 1024) / 1024`; the difference of the pointers is an int. -/
def Symbols.footprint (y : Symbols) : BitVec 32 :=
  (roundUp (y.endAddr - y.entry) 1024).sdiv 1024

/-- `mon_kerninfo`; `_start` is where `entry` is loaded. -/
def Symbols.monKerninfo (y : Symbols) : Handler τ ω := fun _ _ _ k => do
  let k ← k.cprintf (cstr "Special kernel symbols:\n") []
  let k ← k.cprintf (cstr "  _start                  %08x (phys)\n") [.word (y.entry - kernbase)]
  let k ← k.cprintf (cstr "  entry  %08x (virt)  %08x (phys)\n")
    [.word y.entry, .word (y.entry - kernbase)]
  let k ← k.cprintf (cstr "  etext  %08x (virt)  %08x (phys)\n")
    [.word y.etext, .word (y.etext - kernbase)]
  let k ← k.cprintf (cstr "  edata  %08x (virt)  %08x (phys)\n")
    [.word y.edata, .word (y.edata - kernbase)]
  let k ← k.cprintf (cstr "  end    %08x (virt)  %08x (phys)\n")
    [.word y.endAddr, .word (y.endAddr - kernbase)]
  let k ← k.cprintf (cstr "Kernel executable memory footprint: %dKB\n") [.word y.footprint]
  pure (0, k)

/-- `hidden_test_cases`. -/
def hiddenTestCases (k : Kernel ω) : Except Trap (Bool × Kernel ω) := do
  let k ← k.cprintf (cstr "Running a Hidden Test Case\n") []
  pure (true, k)

/-- `exec_hidden_cases`. -/
def execHiddenCases : Handler τ ω := fun _ _ _ k => do
  let (_, k) ← hiddenTestCases k
  pure (0, k)

/-! ### What they print -/

/-- The characters of a string, as `%s` prints them. -/
def charText (t : List Byte) : List (BitVec 32) :=
  t.map (·.signExtend 32)

/-- The line of `mon_help` for a command. -/
def commandText (c : String × String) : List (BitVec 32) :=
  charText (c.1.toList.map chr) ++ (printedText " - " ++
    (charText (c.2.toList.map chr) ++ printedText "\n"))

/-- The line of `mon_kerninfo` for a symbol. -/
def symbolText (label : String) (virt phys : BitVec 32) : List (BitVec 32) :=
  printedText label ++ (hexText virt ++ (printedText " (virt)  " ++ (hexText phys ++
    printedText " (phys)\n")))

/-- What `mon_kerninfo` prints. -/
def Symbols.infoText (y : Symbols) : List (BitVec 32) :=
  printedText "Special kernel symbols:\n" ++
    (printedText "  _start                  " ++ (hexText (y.entry - kernbase) ++
      printedText " (phys)\n")) ++
    symbolText "  entry  " y.entry (y.entry - kernbase) ++
    symbolText "  etext  " y.etext (y.etext - kernbase) ++
    symbolText "  edata  " y.edata (y.edata - kernbase) ++
    symbolText "  end    " y.endAddr (y.endAddr - kernbase) ++
    (printedText "Kernel executable memory footprint: " ++
      (charText (signedText y.footprint.toInt) ++ printedText "KB\n"))

/-- **A string** is printed as it is, unless its length is negative as an int. -/
theorem prints_str {t : List Byte} (ht : 0 ∉ t) (hlen : t.length < 2 ^ 31) (rest : List Byte) :
    Prints ("%s".toList.map chr) [.str (t ++ 0 :: rest)] (charText t) := by
  have hneg : (-1 - BitVec.ofNat 32 t.length : BitVec 32).toInt ≤ 0 := by
    have hone : (-1 : BitVec 32).toInt = -1 := rfl
    have hnat : (BitVec.ofNat 32 t.length).toInt = t.length := by
      rw [BitVec.toInt_eq_toNat_of_lt] <;> rw [BitVec.toNat_ofNat] <;> omega
    rw [BitVec.toInt_sub, hone, hnat, Int.bmod_eq_of_le (by omega) (by omega)]
    omega
  have hpad : padBefore (fun c out => out ++ [c]) .init (t ++ 0 :: rest) [] = .ok ([], -1) :=
    if_neg (by decide)
  have hchars : ∀ (l : List Byte) (out : List (BitVec 32)),
      l.foldl (fun out b => out ++ [b.signExtend 32]) out = out ++ charText l := by
    intro l
    induction l with
    | nil => exact fun out => (List.append_nil out).symm
    | cons b l ih => exact fun out => (ih _).trans (List.append_assoc ..)
  have hloop := strLoop_text (fun c out => out ++ [c]) false ht rest (-1) (-1) []
  have htaken : taken (-1) t = t := if_pos (by decide)
  rw [htaken, shown_false, hchars] at hloop
  have hstr : formatStr (fun c out => out ++ [c]) .init (t ++ 0 :: rest) [] =
      .ok (charText t) := by
    rw [formatStr, hpad, ok_bind]
    refine (congrArg (· >>= _) hloop).trans ?_
    rw [ok_bind]
    dsimp only
    rw [Int.toNat_of_nonpos hneg]
    rfl
  refine ⟨by decide, by decide, ?_⟩
  change output (stringFmt ++ [0]) [.str (t ++ 0 :: rest)] = _
  rw [output, vprintfmt_items _ (by decide), items_stringFmt]
  simp only [runItems, flags, ok_bind, Opts.flush, convert_s, vaStr, Option.getD_some, hstr]

/-- The line of `mon_help` for a command. -/
theorem prints_command {c : String × String} (hname : plainText c.1 = true)
    (hdesc : plainText c.2 = true) (hlen : c.1.length < 2 ^ 31 ∧ c.2.length < 2 ^ 31) :
    Prints ("%s - %s\n".toList.map chr) [.str (cstr c.1), .str (cstr c.2)]
      (commandText c) := by
  have hstr : ∀ s : String, plainText s = true → s.length < 2 ^ 31 →
      Prints ("%s".toList.map chr) [.str (cstr s)] (charText (s.toList.map chr)) := by
    intro s hs hlen
    refine prints_str ?_ (by rwa [List.length_map, String.length_toList]) []
    intro h
    obtain ⟨x, hx, hzero⟩ := List.mem_map.mp h
    have hplain := List.all_eq_true.mp hs x hx
    rw [Bool.and_eq_true, bne_iff_ne, bne_iff_ne] at hplain
    exact hplain.2 hzero
  exact (hstr c.1 hname hlen.1).append <| (prints_text (s := " - ") rfl).append <|
    (hstr c.2 hdesc hlen.2).append <| prints_text (s := "\n") rfl

/-- A run of messages. -/
theorem foldlM_prints {α : Type} {f : Kernel ω → α → Except Trap (Kernel ω)}
    (text : α → List (BitVec 32)) {l : List α} (h : ∀ a ∈ l, ∀ k, f k a = .ok (k.print (text a)))
    (k : Kernel ω) : l.foldlM f k = .ok (k.print (l.flatMap text)) := by
  induction l generalizing k with
  | nil => rfl
  | cons a l ih =>
      rw [List.foldlM_cons, h a List.mem_cons_self, ok_bind,
        ih (fun a ha => h a (List.mem_cons_of_mem _ ha)), Kernel.print_append]
      rfl

/-- **`mon_help`** prints a line for every command, in the order of the table. -/
theorem monHelp_prints (argc : ℕ) (argv : Argv) (tf : τ) (k : Kernel ω) :
    monHelp argc argv tf k = .ok (0, k.print (commandTexts.flatMap commandText)) := by
  have hplain : (commandTexts.all fun c => plainText c.1 && plainText c.2) = true := rfl
  have hlen : ∀ c ∈ commandTexts, c.1.length < 2 ^ 31 ∧ c.2.length < 2 ^ 31 := by
    decide
  rw [monHelp, foldlM_prints commandText ?_ k, ok_bind]
  · rfl
  · intro c hc k
    have h := List.all_eq_true.mp hplain c hc
    rw [Bool.and_eq_true] at h
    exact Kernel.cprintf_text (prints_command h.1 h.2 (hlen c hc)) k

/-- The line for a symbol. -/
theorem prints_symbol (label : String) (hlabel : plainText label = true) (virt phys : BitVec 32) :
    Prints (label.toList.map chr ++ "%08x (virt)  %08x (phys)\n".toList.map chr)
      [.word virt, .word phys] (symbolText label virt phys) :=
  (prints_text hlabel).append <| (prints_hex virt).append <|
    (prints_text (s := " (virt)  ") rfl).append <| (prints_hex phys).append <|
    prints_text (s := " (phys)\n") rfl

/-- A number. -/
theorem prints_decimal (v : BitVec 32) :
    Prints ("%d".toList.map chr) [.word v] (charText (signedText v.toInt)) :=
  ⟨by decide, by decide, output_decimal v⟩

/-- **`mon_kerninfo`** prints the symbols, each where it is linked and where it is loaded. -/
theorem monKerninfo_prints (y : Symbols) (argc : ℕ) (argv : Argv) (tf : τ) (k : Kernel ω) :
    y.monKerninfo argc argv tf k = .ok (0, k.print y.infoText) := by
  have hheader : ∀ k : Kernel ω, k.cprintf (cstr "Special kernel symbols:\n") [] =
      .ok (k.print (printedText "Special kernel symbols:\n")) :=
    Kernel.cprintf_text (prints_text rfl)
  have hstart : ∀ k : Kernel ω,
      k.cprintf (cstr "  _start                  %08x (phys)\n") [.word (y.entry - kernbase)] =
        .ok (k.print (printedText "  _start                  " ++
          (hexText (y.entry - kernbase) ++ printedText " (phys)\n"))) :=
    Kernel.cprintf_text (prints_between (s := "  _start                  ") (t := " (phys)\n")
      rfl rfl (prints_hex _))
  have hentry : ∀ k : Kernel ω, k.cprintf (cstr "  entry  %08x (virt)  %08x (phys)\n")
      [.word y.entry, .word (y.entry - kernbase)] =
        .ok (k.print (symbolText "  entry  " y.entry (y.entry - kernbase))) :=
    Kernel.cprintf_text (prints_symbol "  entry  " rfl _ _)
  have hetext : ∀ k : Kernel ω, k.cprintf (cstr "  etext  %08x (virt)  %08x (phys)\n")
      [.word y.etext, .word (y.etext - kernbase)] =
        .ok (k.print (symbolText "  etext  " y.etext (y.etext - kernbase))) :=
    Kernel.cprintf_text (prints_symbol "  etext  " rfl _ _)
  have hedata : ∀ k : Kernel ω, k.cprintf (cstr "  edata  %08x (virt)  %08x (phys)\n")
      [.word y.edata, .word (y.edata - kernbase)] =
        .ok (k.print (symbolText "  edata  " y.edata (y.edata - kernbase))) :=
    Kernel.cprintf_text (prints_symbol "  edata  " rfl _ _)
  have hend : ∀ k : Kernel ω, k.cprintf (cstr "  end    %08x (virt)  %08x (phys)\n")
      [.word y.endAddr, .word (y.endAddr - kernbase)] =
        .ok (k.print (symbolText "  end    " y.endAddr (y.endAddr - kernbase))) :=
    Kernel.cprintf_text (prints_symbol "  end    " rfl _ _)
  have hsize : ∀ k : Kernel ω,
      k.cprintf (cstr "Kernel executable memory footprint: %dKB\n") [.word y.footprint] =
        .ok (k.print (printedText "Kernel executable memory footprint: " ++
          (charText (signedText y.footprint.toInt) ++ printedText "KB\n"))) :=
    Kernel.cprintf_text (prints_between (s := "Kernel executable memory footprint: ")
      (t := "KB\n") rfl rfl (prints_decimal _))
  rw [Symbols.monKerninfo, hheader, ok_bind, hstart, ok_bind, hentry, ok_bind, hetext, ok_bind,
    hedata, ok_bind, hend, ok_bind, hsize, ok_bind]
  simp only [Kernel.print_append]
  rfl

/-- **`exec_hidden_cases`** prints its line. -/
theorem execHiddenCases_prints (argc : ℕ) (argv : Argv) (tf : τ) (k : Kernel ω) :
    execHiddenCases argc argv tf k =
      .ok (0, k.print (printedText "Running a Hidden Test Case\n")) := by
  have hline : k.cprintf (cstr "Running a Hidden Test Case\n") [] =
      .ok (k.print (printedText "Running a Hidden Test Case\n")) :=
    Kernel.cprintf_text (prints_text rfl) k
  rw [execHiddenCases, hiddenTestCases, hline]
  rfl

/-- **The footprint** is the least number of kilobytes that hold the kernel. -/
theorem footprint_least (y : Symbols) :
    ∃ n : ℕ, y.footprint.toInt = n ∧ y.endAddr.toNat ≤ y.entry.toNat + 1024 * n ∧
      ∀ m, y.endAddr.toNat ≤ y.entry.toNat + 1024 * m → n ≤ m := by
  have hlinked := y.linked
  have htext := y.text
  have hdata := y.data
  have hbss := y.bss
  have hlt := y.endAddr.isLt
  have hkb : (1024 : BitVec 32).toNat = 1024 := rfl
  have hkb' : (1024 : BitVec 32).toInt = 1024 := rfl
  have hsize : (y.endAddr - y.entry).toNat = y.endAddr.toNat - y.entry.toNat := by
    rw [BitVec.toNat_sub]
    omega
  have hround : (roundUp (y.endAddr - y.entry) 1024).toNat =
      1024 * ((y.endAddr.toNat - y.entry.toNat + 1023) / 1024) := by
    rw [toNat_roundUp (by decide) (by omega), hsize, hkb]
    congr 2
  have hint : (roundUp (y.endAddr - y.entry) 1024).toInt =
      (1024 * ((y.endAddr.toNat - y.entry.toNat + 1023) / 1024) : ℕ) := by
    rw [BitVec.toInt_eq_toNat_of_lt (by omega), hround]
  refine ⟨(y.endAddr.toNat - y.entry.toNat + 1023) / 1024, ?_, by omega, fun m hm => by omega⟩
  rw [Symbols.footprint, BitVec.toInt_sdiv, hint, hkb', Int.tdiv_eq_ediv_of_nonneg (by omega),
    Int.bmod_eq_of_le (by omega) (by omega)]
  omega

end

end Jos
