import Jos.Commands
import Jos.Readline

/-!
# The Monitor at Work

`monitor` of `kern/monitor.c`, over the values that `getchar` returns: `readline` takes a line
off them, `runcmd` acts on it, and what `readline` has not taken is left for the next round.

What a session is to look like is stated over the bytes typed (`Transcript`): the prompt, the
echo of the line, and the reply to it, line by line; the reply depends on the words of the
line (`task`). The functions of the commands are parameters here as they are in `runcmd`, and
`Works` is what a session needs of them.

## Main results

* `readlineFrom_line`, `readlineFrom_partial`: what `readline` takes off the stream.
* `runcmd_replies`: a line gets the reply to its words.
* `monitor_session`: **the monitor serves every stream**, line by line and in order, and never
  returns.
-/

namespace Jos

/-! ### Reading a line off a stream -/

/-- The loop of `readline`, with the values of `getchar` that it leaves. -/
def readlineFrom : List (BitVec 32) → Line → Except Fault (Reading × List (BitVec 32))
  | [], s => .ok (.more s, [])
  | c :: cs, s => do
      match ← readlineKey c s with
      | .more s => readlineFrom cs s
      | r => pure (r, cs)

/-- `readline`, with the values of `getchar` that it leaves. -/
def readlineRest (prompt : Option (List Byte)) (cs : List (BitVec 32)) (console : Console)
    (buf : ℕ → Byte) : Except Fault (Reading × List (BitVec 32)) := do
  let start : Line := { console := console, buf := buf, writes := [], i := 0 }
  match prompt with
  | none => readlineFrom cs start
  | some p =>
      let (console, _) ← cprintf (cstr "%s") [.str p] console
      readlineFrom cs { start with console := console }

/-- What is left does not matter to the loop. -/
theorem readlineLoop_eq (cs : List (BitVec 32)) (s : Line) :
    readlineLoop cs s = (readlineFrom cs s).map Prod.fst := by
  induction cs generalizing s with
  | nil => rfl
  | cons c cs ih =>
      rw [readlineLoop, readlineFrom]
      rcases readlineKey c s with e | r
      · rfl
      · cases r with
        | more s => exact ih s
        | null s => rfl
        | line s => rfl

/-- **It is `readline`**, but for what is left. -/
theorem readline_eq_rest (prompt : Option (List Byte)) (cs : List (BitVec 32)) (console : Console)
    (buf : ℕ → Byte) :
    readline prompt cs console buf = (readlineRest prompt cs console buf).map Prod.fst := by
  cases prompt with
  | none => exact readlineLoop_eq cs _
  | some p =>
      rw [readline, readlineRest]
      rcases cprintf (cstr "%s") [.str p] console with e | ⟨console', n⟩
      · rfl
      · exact readlineLoop_eq cs _

/-- The string in the buffer, when `readline` has returned it. -/
def Line.string (s : Line) : List Byte :=
  (List.range (s.i + 1)).map s.buf

/-- The buffer, with other bytes in place of that string. -/
def Line.rewritten (line : List Byte) (s : Line) : ℕ → Byte :=
  fun j => line.getD j (s.buf j)

/-! ### The monitor -/

/-- Where `monitor` is: in `readline`, waiting for a character, or returned, with what is left
of the stream. -/
inductive Monitoring (ω : Type)
  | more (s : Line) (rest : ω)
  | done (cs : List (BitVec 32)) (buf : ℕ → Byte) (k : Kernel ω)

section

variable {τ ω : Type} (h : Handlers τ ω) (stack : Kernel ω → Argv) (tf : τ)

/-- The loop of `monitor`, for at most `fuel` rounds. The `argv` of `runcmd` starts out with
what is on the stack. -/
def monitorLoop : ℕ → List (BitVec 32) → (ℕ → Byte) → Kernel ω → Except Trap (Monitoring ω)
  | 0, _, _, _ => .error .fuel
  | fuel + 1, cs, buf, k =>
      match readlineRest (some (cstr "K> ")) cs k.console buf with
      | .error e => .error (.message e)
      | .ok (.more s, _) => .ok (.more s k.rest)
      | .ok (.null s, cs) => monitorLoop fuel cs s.buf { k with console := s.console }
      | .ok (.line s, cs) => do
          let k : Kernel ω := ⟨s.string, s.console, k.rest⟩
          let (r, k) ← runcmd h (stack k) tf k
          if r.toInt < 0 then pure (.done cs (s.rewritten k.line) k)
          else monitorLoop fuel cs (s.rewritten k.line) k

/-- `monitor`, on the values of `getchar` so far. Every round takes one of them at least. -/
def monitor (cs : List (BitVec 32)) (buf : ℕ → Byte) (k : Kernel ω) :
    Except Trap (Monitoring ω) := do
  let k ← k.cprintf (cstr "Welcome to the JOS kernel monitor!\n") []
  let k ← k.cprintf (cstr "Type 'help' for a list of commands.\n") []
  monitorLoop h stack tf (cs.length + 1) cs buf k

end

/-! ### What a session looks like -/

/-- What a key shows, with the line as it is before the key. -/
def echoKey (l : List Byte) (c : Byte) : List (BitVec 32) :=
  if isErase c ∧ 0 < l.length then [0x08]
  else if 0x20 ≤ c ∧ l.length < bufLen - 1 then [c.setWidth 32]
  else []

/-- What a run of keys shows. -/
def echoText : List Byte → List Byte → List (BitVec 32)
  | _, [] => []
  | l, c :: ks => echoKey l c ++ echoText (typeKey l c) ks

/-- The prompt, and the echo of a line so far. -/
def lineText (ks : List Byte) : List (BitVec 32) :=
  printedText "K> " ++ echoText [] ks

/-- What a line asks for. -/
inductive Task
  | blank
  | tooMany
  | unknown (name : List Byte)
  | command (name : List Byte) (args : List (List Byte))
deriving DecidableEq

/-- The names of the commands. -/
def commandNames : List (List Byte) :=
  commandTexts.map fun c => c.1.toList.map chr

/-- What a text asks for, by its words. -/
def task (text : List Byte) : Task :=
  match words text with
  | [] => .blank
  | t :: ts =>
      if maxArgs - 1 < (t :: ts).length then .tooMany
      else if t ∈ commandNames then .command t ts
      else .unknown t

/-- The reply to a line of too many words. -/
def tooManyText : List (BitVec 32) :=
  printedText "Too many arguments (max 16)\n"

/-- The reply to a line whose first word names no command. -/
def unknownText (t : List Byte) : List (BitVec 32) :=
  printedText "Unknown command '" ++ (charText t ++ printedText "'\n")

/-- The reply to a task, when those of the commands are among `reply`. -/
inductive Reply (reply : List (List Byte) → List (BitVec 32) → Prop) :
    Task → List (BitVec 32) → Prop
  | blank : Reply reply .blank []
  | tooMany : Reply reply .tooMany tooManyText
  | unknown (t : List Byte) : Reply reply (.unknown t) (unknownText t)
  | command {t : List Byte} {ts : List (List Byte)} {text : List (BitVec 32)}
      (h : reply (t :: ts) text) : Reply reply (.command t ts) text

/-- What lines of keys look like, with the replies to them. -/
inductive Transcript (reply : List (List Byte) → List (BitVec 32) → Prop) :
    List (List Byte) → List (BitVec 32) → Prop
  | nil : Transcript reply [] []
  | line {ks : List Byte} {lines : List (List Byte)} {out text : List (BitVec 32)}
      (hreply : Reply reply (task (ks.foldl typeKey [])) out) (h : Transcript reply lines text) :
      Transcript reply (ks :: lines) (lineText ks ++ 0x0A :: (out ++ text))

/-- What a session needs of the commands: with its words in `argv`, each of them prints one of
its replies, keeps an invariant of the machine, and does not force the monitor to exit. -/
structure Works {τ ω : Type} (h : Handlers τ ω) (tf : τ) (I : Console → ω → Prop)
    (reply : List (List Byte) → List (BitVec 32) → Prop) : Prop where
  cputchar : ∀ c console w, I console w → I (Jos.cputchar c console) w
  func : ∀ cmd ∈ h.commands, ∀ t ts argv (k : Kernel ω), cmd.name = t ++ [0] →
    I k.console k.rest → Points argv 0 (t :: ts) k.line → argv[(t :: ts).length]? = some none →
    ∃ r k' text, cmd.func (t :: ts).length argv tf k = .ok (r, k') ∧ 0 ≤ r.toInt ∧
      I k'.console k'.rest ∧ reply (t :: ts) text ∧ Printed text k.console k'.console

/-! ### One line -/

/-- **One key**, in the buffer and on the console. -/
theorem readlineKey_types {c : Byte} (hc : ¬ isNewline c) {s : Line} {l : List Byte}
    (h : Holds s l) :
    ∃ s', readlineKey (c.setWidth 32) s = .ok (.more s') ∧ Holds s' (typeKey l c) ∧
      s'.console = s.console.print (echoKey l c) := by
  rw [readlineKey_byte, if_neg hc, typeKey, echoKey, ← h.i]
  split
  · exact ⟨_, rfl, (h.echo 0x08).dropLast, rfl⟩
  split
  · rename_i hkept
    exact ⟨_, rfl, (h.echo (c.setWidth 32)).concat (h.i ▸ hkept.2) c, rfl⟩
  · exact ⟨s, rfl, h, rfl⟩

/-- **The end of a line**: the string in the buffer is the line. -/
theorem readlineKey_ends {nl : Byte} (hnl : isNewline nl) {s : Line} {l : List Byte}
    (h : Holds s l) :
    ∃ s', readlineKey (nl.setWidth 32) s = .ok (.line s') ∧ s'.string = l ++ [0] ∧
      s'.console = s.console.print [0x0A] := by
  have herase : ¬ isErase nl := by
    rcases hnl with rfl | rfl <;> decide
  have hblank : ¬ 0x20 ≤ nl := by
    rcases hnl with rfl | rfl <;> decide
  rw [readlineKey_byte, if_neg fun h' => herase h'.1, if_neg fun h' => hblank h'.1, if_pos hnl]
  refine ⟨_, rfl, ?_, rfl⟩
  change (List.range (s.i + 1)).map (Function.update s.buf s.i 0) = _
  refine List.ext_getElem (by simp [h.i]) fun j hj hj' => ?_
  rw [List.getElem_map, List.getElem_range]
  rw [List.length_append, List.length_singleton] at hj'
  by_cases hlast : j = l.length
  · subst hlast
    rw [h.i, Function.update_self, List.getElem_concat_length rfl]
  · rw [Function.update_of_ne (by rw [h.i]; exact hlast), h.byte j (by omega),
      List.getElem_append_left]

theorem Console.print_append (t u : List (BitVec 32)) (s : Console) :
    s.print (t ++ u) = (s.print t).print u :=
  List.foldl_append

/-- **A run of keys** is taken off the stream. -/
theorem readlineFrom_types {ks : List Byte} (hks : ∀ c ∈ ks, ¬ isNewline c) {s : Line}
    {l : List Byte} (h : Holds s l) (cs : List (BitVec 32)) :
    ∃ s', readlineFrom (keys ks ++ cs) s = readlineFrom cs s' ∧ Holds s' (ks.foldl typeKey l) ∧
      s'.console = s.console.print (echoText l ks) := by
  induction ks generalizing s l with
  | nil => exact ⟨s, rfl, h, rfl⟩
  | cons c ks ih =>
      obtain ⟨s₁, hkey, h₁, hconsole₁⟩ := readlineKey_types (hks c List.mem_cons_self) h
      obtain ⟨s', hrun, h', hconsole⟩ := ih (fun c hc => hks c (List.mem_cons_of_mem _ hc)) h₁
      refine ⟨s', ?_, h', ?_⟩
      · change readlineFrom (c.setWidth 32 :: (keys ks ++ cs)) s = _
        rw [readlineFrom, hkey, ok_bind]
        exact hrun
      · rw [hconsole, hconsole₁, echoText, Console.print_append]

/-- The prompt. -/
theorem readlineRest_prompt (cs : List (BitVec 32)) (console : Console) (buf : ℕ → Byte) :
    ∃ s, readlineRest (some (cstr "K> ")) cs console buf = readlineFrom cs s ∧ Holds s [] ∧
      s.console = console.print (printedText "K> ") := by
  have hprompt : Prints ("%s".toList.map chr) [.str (cstr "K> ")] (printedText "K> ") :=
    prints_str (t := "K> ".toList.map chr) (by decide) (by decide) []
  have hprint : cprintf (cstr "%s") [.str (cstr "K> ")] console =
      .ok (console.print (printedText "K> "), 0) := cprintf_text hprompt console
  refine ⟨_, ?_, holds_nil (console.print (printedText "K> ")) buf, rfl⟩
  rw [readlineRest, hprint, ok_bind]

/-- **A line is taken off the stream**, and what comes behind it is left. -/
theorem readlineFrom_line {ks : List Byte} (hks : ∀ c ∈ ks, ¬ isNewline c) {nl : Byte}
    (hnl : isNewline nl) (cs : List (BitVec 32)) (console : Console) (buf : ℕ → Byte) :
    ∃ s, readlineRest (some (cstr "K> ")) (keys ks ++ nl.setWidth 32 :: cs) console buf =
        .ok (.line s, cs) ∧
      s.string = ks.foldl typeKey [] ++ [0] ∧
      s.console = console.print (lineText ks ++ [0x0A]) := by
  obtain ⟨s₀, hprompt, h₀, hconsole₀⟩ :=
    readlineRest_prompt (keys ks ++ nl.setWidth 32 :: cs) console buf
  obtain ⟨s₁, hrun, h₁, hconsole₁⟩ := readlineFrom_types hks h₀ (nl.setWidth 32 :: cs)
  obtain ⟨s₂, hkey, hstring, hconsole₂⟩ := readlineKey_ends hnl h₁
  refine ⟨s₂, ?_, hstring, ?_⟩
  · rw [hprompt, hrun, readlineFrom, hkey, ok_bind]
    rfl
  · rw [hconsole₂, hconsole₁, hconsole₀, lineText, Console.print_append, Console.print_append]

/-- **Before its end** a line is waited for. -/
theorem readlineFrom_partial {ks : List Byte} (hks : ∀ c ∈ ks, ¬ isNewline c) (console : Console)
    (buf : ℕ → Byte) :
    ∃ s, readlineRest (some (cstr "K> ")) (keys ks) console buf = .ok (.more s, []) ∧
      Holds s (ks.foldl typeKey []) ∧ s.console = console.print (lineText ks) := by
  obtain ⟨s₀, hprompt, h₀, hconsole₀⟩ := readlineRest_prompt (keys ks) console buf
  obtain ⟨s₁, hrun, h₁, hconsole₁⟩ := readlineFrom_types hks h₀ []
  rw [List.append_nil] at hrun
  refine ⟨s₁, by rw [hprompt, hrun]; rfl, h₁, ?_⟩
  rw [hconsole₁, hconsole₀, lineText, Console.print_append]

/-! ### One command -/

/-- The names of the commands are in the table. -/
theorem mem_commandNames {τ ω : Type} (h : Handlers τ ω) (t : List Byte) :
    t ∈ commandNames ↔ ∃ cmd ∈ h.commands, cmd.name = t ++ [0] := by
  have hnames : h.commands.map Command.name = commandNames.map (· ++ [0]) := rfl
  constructor
  · intro ht
    have hmem : t ++ [0] ∈ h.commands.map Command.name := by
      rw [hnames]
      exact List.mem_map_of_mem ht
    exact List.mem_map.mp hmem
  · rintro ⟨cmd, hcmd, hname⟩
    have hmem : t ++ [0] ∈ commandNames.map (· ++ [0]) := by
      rw [← hnames, ← hname]
      exact List.mem_map_of_mem hcmd
    obtain ⟨u, hu, heq⟩ := List.mem_map.mp hmem
    rwa [← List.append_cancel_right heq]

section

variable {τ ω : Type} {h : Handlers τ ω} {tf : τ} {I : Console → ω → Prop}
  {reply : List (List Byte) → List (BitVec 32) → Prop}

/-- Printing keeps the invariant. -/
theorem Works.print (hw : Works h tf I reply) (text : List (BitVec 32)) {console : Console} {w : ω}
    (hI : I console w) : I (console.print text) w :=
  List.foldlRecOn (motive := fun c => I c w) text _ hI fun _ h c _ => hw.cputchar c _ _ h

theorem Works.kernel_print (hw : Works h tf I reply) (text : List (BitVec 32)) {k : Kernel ω}
    (hI : I k.console k.rest) : I (k.print text).console (k.print text).rest :=
  hw.print text hI

theorem Kernel.printed_print (text : List (BitVec 32)) (k : Kernel ω) :
    Printed text k.console (k.print text).console :=
  Jos.printed_print text k.console

/-- A message of `runcmd`. -/
theorem say_prints {t : List Byte} {ap : Args} {text : List (BitVec 32)} (hp : Prints t ap text)
    (k : Kernel ω) : k.say (t ++ [0]) ap = .ok (0, k.print text) := by
  rw [Kernel.say, cprintf_text hp]
  rfl

/-- What is made of a command line: a reply is printed, and the monitor goes on. -/
def Replies (I : Console → ω → Prop) (reply : List (List Byte) → List (BitVec 32) → Prop)
    (t : Task) (console : Console) (run : Except Trap (BitVec 32 × Kernel ω)) : Prop :=
  ∃ r k' out, run = .ok (r, k') ∧ 0 ≤ r.toInt ∧ I k'.console k'.rest ∧ Reply reply t out ∧
    Printed out console k'.console

/-- A message is a reply. -/
theorem Works.replies (hw : Works h tf I reply) {k : Kernel ω} (hI : I k.console k.rest)
    {t : Task} {out : List (BitVec 32)} (hreply : Reply reply t out)
    {run : Except Trap (BitVec 32 × Kernel ω)} (hrun : run = .ok (0, k.print out)) :
    Replies I reply t k.console run :=
  ⟨0, k.print out, out, hrun, by decide, hw.print out hI, hreply, printed_print out k.console⟩

/-- The number of arguments, in the message about them. -/
theorem charText_maxArgs : charText (signedText (BitVec.ofNat 32 maxArgs).toInt) =
    printedText "16" := by
  decide

/-- The message about too many arguments. -/
theorem prints_tooMany : Prints ("Too many arguments (max %d)\n".toList.map chr)
    [.word (BitVec.ofNat 32 maxArgs)] tooManyText := by
  have hline := prints_between (s := "Too many arguments (max ") (t := ")\n") rfl rfl
    (prints_decimal (BitVec.ofNat 32 maxArgs))
  rw [charText_maxArgs] at hline
  exact hline

/-- The message about an unknown command. -/
theorem prints_unknown {t : List Byte} (ht : 0 ∉ t) (hlen : t.length < 2 ^ 31) (v : List Byte) :
    Prints ("Unknown command '%s'\n".toList.map chr) [.str (t ++ 0 :: v)] (unknownText t) :=
  prints_between (s := "Unknown command '") (t := "'\n") rfl rfl (prints_str ht hlen v)

/-- A word is no longer than its text. -/
theorem length_word_le {text t : List Byte} {ts : List (List Byte)}
    (hwords : words text = t :: ts) : t.length ≤ text.length := by
  obtain hblank | ⟨w, t', u, rfl, hw, hne, ht', hu⟩ := separates_or_word text
  · rw [← List.append_nil text, words_append_left hblank] at hwords
    cases hwords
  · rw [words_append_left hw, words_append_right hne ht' hu] at hwords
    cases hwords
    simp only [List.length_append]
    omega

/-- **One command line** gets the reply to its words, and the monitor goes on. -/
theorem runcmd_replies (hw : Works h tf I reply) (stack : Argv) {k : Kernel ω} {text : List Byte}
    (htext : 0 ∉ text) (hlen : text.length < bufLen) (hline : k.line = text ++ [0])
    (hI : I k.console k.rest) :
    Replies I reply (task text) k.console (runcmd h stack tf k) := by
  obtain ⟨line', argv, -, hmany, hfew⟩ := runcmd_scan h stack tf htext hline
  have hcut : ∀ {t : Task} {out : List (BitVec 32)}, Reply reply t out →
      ∀ {run : Except Trap (BitVec 32 × Kernel ω)},
        run = .ok (0, Kernel.print out { k with line := line' }) →
          Replies I reply t k.console run :=
    fun hreply _ hrun => hw.replies (k := { k with line := line' }) hI hreply hrun
  rw [task]
  rcases hwords : words text with _ | ⟨t, ts⟩
  · obtain ⟨-, -, hrun⟩ := hfew (by rw [hwords]; exact Nat.zero_le _)
    rw [hwords] at hrun
    exact hcut .blank hrun
  rw [hwords] at hmany hfew
  dsimp only
  split
  · rename_i hlt
    exact hcut .tooMany ((hmany hlt).trans (say_prints prints_tooMany _))
  rename_i hle
  obtain ⟨hpoints, hnull, hrun⟩ := hfew (Nat.not_lt.mp hle)
  rw [if_neg (show (t :: ts).length ≠ 0 from Nat.succ_ne_zero _)] at hrun
  obtain ⟨v, harg⟩ := arg0_of_points (k := { k with line := line' }) hpoints
  have ht : 0 ∉ t := nul_notMem_word htext hwords
  obtain ⟨hnames, hnodup⟩ := commands_names h
  split
  · rename_i hmem
    obtain ⟨cmd, hcmd, hname⟩ := (mem_commandNames h t).mp hmem
    obtain ⟨r, k', out, hfunc, hr, hI', hreply, hprint⟩ :=
      hw.func cmd hcmd t ts argv { k with line := line' } hname hI hpoints hnull
    refine ⟨r, k', out, ?_, hr, hI', .command hreply, hprint⟩
    rw [hrun, invoke_name harg ht _ tf hnames hnodup hcmd hname, hfunc]
  · rename_i hmem
    have hne : ∀ cmd ∈ h.commands, cmd.name ≠ t ++ [0] := fun cmd hcmd hname =>
      hmem ((mem_commandNames h t).mpr ⟨cmd, hcmd, hname⟩)
    have hshort : t.length < 2 ^ 31 :=
      ((length_word_le hwords).trans_lt hlen).trans (by decide)
    refine hcut (.unknown t) ?_
    rw [hrun, invoke_unknown harg ht _ tf hnames hne]
    exact say_prints (prints_unknown ht hshort v) _

/-! ### A session -/

/-- The lines of a stream of bytes that have been ended. -/
def endedLines (bs : List Byte) : List (List Byte) :=
  (bs.splitOnP (isNewline ·)).dropLast

/-- The line that has not been ended. -/
def openLine (bs : List Byte) : List Byte :=
  (bs.splitOnP (isNewline ·)).getLastD []

/-- Without a newline nothing has been ended. -/
theorem lines_of_open {bs : List Byte} (h : ∀ c ∈ bs, ¬ isNewline c) :
    endedLines bs = [] ∧ openLine bs = bs := by
  have hsplit : bs.splitOnP (isNewline ·) = [bs] :=
    List.splitOnP_eq_singleton fun c hc => decide_eq_false (h c hc)
  rw [endedLines, openLine, hsplit]
  exact ⟨rfl, rfl⟩

/-- The first newline ends the first line. -/
theorem lines_append {ks : List Byte} (h : ∀ c ∈ ks, ¬ isNewline c) {nl : Byte}
    (hnl : isNewline nl) (bs : List Byte) :
    endedLines (ks ++ nl :: bs) = ks :: endedLines bs ∧
      openLine (ks ++ nl :: bs) = openLine bs := by
  have hsplit : (ks ++ nl :: bs).splitOnP (isNewline ·) = ks :: bs.splitOnP (isNewline ·) :=
    List.splitOnP_append_cons_of_forall_mem (fun c hc => decide_eq_false (h c hc)) nl
      (decide_eq_true hnl) bs
  obtain ⟨l, ls, hrest⟩ := List.exists_cons_of_ne_nil (List.splitOnP_ne_nil (isNewline ·) bs)
  rw [endedLines, openLine, endedLines, openLine, hsplit, hrest]
  exact ⟨rfl, rfl⟩

/-- **The loop of the monitor**, on any bytes, given a round for each line. Induction on the
lines. -/
theorem monitorLoop_session (hw : Works h tf I reply) (stack : Kernel ω → Argv) {fuel : ℕ}
    {bs : List Byte} (hfuel : bs.length < fuel) (buf : ℕ → Byte) {k : Kernel ω}
    (hI : I k.console k.rest) :
    ∃ s w text, monitorLoop h stack tf fuel (keys bs) buf k = .ok (.more s w) ∧
      Holds s ((openLine bs).foldl typeKey []) ∧ I s.console w ∧
      Transcript reply (endedLines bs) text ∧
      Printed (text ++ lineText (openLine bs)) k.console s.console := by
  induction fuel generalizing bs buf k with
  | zero => exact absurd hfuel (Nat.not_lt_zero _)
  | succ fuel ih =>
      by_cases hopen : ∃ c ∈ bs, isNewline c
      · obtain ⟨ks, nl, rest, rfl, hks, hnl⟩ := exists_first isNewline hopen
        obtain ⟨hended, hlast⟩ := lines_append hks hnl rest
        -- the line is read
        obtain ⟨s, hread, hstring, hconsole⟩ :=
          readlineFrom_line hks hnl (keys rest) k.console buf
        obtain ⟨s₀, -, h₀, -⟩ := readlineFrom_partial hks k.console buf
        have htyped : (ks.foldl typeKey []).length < bufLen := Nat.lt_succ_of_le h₀.length
        have hprint₁ : Printed (lineText ks ++ [0x0A]) k.console s.console := by
          rw [hconsole]
          exact printed_print _ k.console
        have hI₁ : I s.console k.rest := by
          rw [hconsole]
          exact hw.print _ hI
        -- and replied to
        obtain ⟨r, k', out, hrun, hr, hI₂, hreply, hprint₂⟩ :=
          runcmd_replies hw (stack ⟨s.string, s.console, k.rest⟩)
            (k := ⟨s.string, s.console, k.rest⟩) (foldl_typeKey_nonzero ks) htyped hstring hI₁
        have hlen : rest.length < fuel := by
          simp only [List.length_append, List.length_cons] at hfuel
          omega
        obtain ⟨s', w, text, hloop, hholds, hI₃, htrans, hprint₃⟩ :=
          ih hlen (s.rewritten k'.line) hI₂
        rw [hended, hlast]
        refine ⟨s', w, _, ?_, hholds, hI₃, .line hreply htrans, ?_⟩
        · have hcs : keys (ks ++ nl :: rest) = keys ks ++ nl.setWidth 32 :: keys rest :=
            keys_append ks (nl :: rest)
          rw [monitorLoop, hcs, hread]
          simp only [hrun, ok_bind, if_neg (Int.not_lt.mpr hr)]
          exact hloop
        · have hall := (hprint₁.append hprint₂).append hprint₃
          simpa only [List.append_assoc, List.cons_append, List.nil_append] using hall
      · have hks : ∀ c ∈ bs, ¬ isNewline c := fun c hc hnl => hopen ⟨c, hc, hnl⟩
        obtain ⟨hended, hlast⟩ := lines_of_open hks
        obtain ⟨s, hread, hholds, hconsole⟩ := readlineFrom_partial hks k.console buf
        rw [hended, hlast]
        refine ⟨s, k.rest, [], ?_, hholds, ?_, .nil, ?_⟩
        · rw [monitorLoop, hread]
        · rw [hconsole]
          exact hw.print _ hI
        · rw [List.nil_append, hconsole]
          exact printed_print _ k.console

/-- The banner. -/
def welcomeText : List (BitVec 32) :=
  printedText "Welcome to the JOS kernel monitor!\n" ++
    printedText "Type 'help' for a list of commands.\n"

theorem monitor_welcome (stack : Kernel ω → Argv) (cs : List (BitVec 32)) (buf : ℕ → Byte)
    (k : Kernel ω) : monitor h stack tf cs buf k =
      monitorLoop h stack tf (cs.length + 1) cs buf (k.print welcomeText) := by
  have hfirst : ∀ k : Kernel ω, k.cprintf (cstr "Welcome to the JOS kernel monitor!\n") [] =
      .ok (k.print (printedText "Welcome to the JOS kernel monitor!\n")) :=
    Kernel.cprintf_text (prints_text (s := "Welcome to the JOS kernel monitor!\n") rfl)
  have hsecond : ∀ k : Kernel ω, k.cprintf (cstr "Type 'help' for a list of commands.\n") [] =
      .ok (k.print (printedText "Type 'help' for a list of commands.\n")) :=
    Kernel.cprintf_text (prints_text (s := "Type 'help' for a list of commands.\n") rfl)
  rw [monitor, hfirst, ok_bind, hsecond, ok_bind, Kernel.print_append, welcomeText]

/-- **The monitor serves every stream.** Let the commands work. Then on any bytes typed,
`monitor` neither goes wrong nor returns: the console gets the banner, the prompt, the echo
and the reply for every line that has been ended, in order, and the prompt and the echo of
the line that has not; and the buffer holds that line, as edited. -/
theorem monitor_session (hw : Works h tf I reply) (stack : Kernel ω → Argv) (bs : List Byte)
    (buf : ℕ → Byte) {k : Kernel ω} (hI : I k.console k.rest) :
    ∃ s w text, monitor h stack tf (keys bs) buf k = .ok (.more s w) ∧
      Holds s ((openLine bs).foldl typeKey []) ∧ I s.console w ∧
      Transcript reply (endedLines bs) text ∧
      Printed (welcomeText ++ text ++ lineText (openLine bs)) k.console s.console := by
  have hfuel : bs.length < (keys bs).length + 1 := by
    rw [keys, List.length_map]
    omega
  obtain ⟨s, w, text, hloop, hholds, hI', htrans, hprint⟩ :=
    monitorLoop_session hw stack hfuel buf (hw.kernel_print welcomeText hI)
  refine ⟨s, w, text, by rw [monitor_welcome, hloop], hholds, hI', htrans, ?_⟩
  rw [List.append_assoc]
  exact (Kernel.printed_print welcomeText k).append hprint

end

end Jos
