import Jos.Loop
import Jos.Messages

/-!
# The Command Line

`runcmd` of `kern/monitor.c`. The line is cut in place: the scan holds the bytes before `buf`
as they are now and those from it on, so that an access anywhere else is the fault
`Trap.line`; a pointer into the line is how far it lies past its start. `argv` has 16
elements, and an access past them is the fault `Trap.argv`.

The functions of the commands are parameters (`Handlers`): they get what `runcmd` calls them
with and the machine, of which `runcmd` itself sees the line and the console.

## Main results

* `parseRound_loop`: **the scan cuts the line into its words**, by induction on the bytes left.
* `runcmd_words`: what `runcmd` does with them.
-/

namespace Jos

/-- Why a command line goes wrong. -/
inductive Trap
  /-- an access outside the line, or through the null pointer -/
  | line
  /-- an access outside `argv` -/
  | argv
  /-- a loop that does not end -/
  | fuel
  /-- a message that cannot be printed -/
  | message (e : Fault)

/-- `MAXARGS`. -/
abbrev maxArgs : ℕ := 16

/-- A pointer to a byte of the line, or the null pointer. -/
abbrev Ptr : Type := Option ℕ

/-- `argv`. -/
abbrev Argv : Type := Vector Ptr maxArgs

/-- `argv[i] = p`. -/
def Argv.put (argv : Argv) (i : ℕ) (p : Ptr) : Except Trap Argv :=
  if h : i < maxArgs then .ok (argv.set i p h) else .error .argv

/-! ### Commands -/

/-- The machine: the line, the console, and the rest that the commands work on. -/
structure Kernel (ω : Type) where
  line : List Byte
  console : Console
  rest : ω

section

variable {τ ω : Type}

/-- The function of a command: it takes `argc`, `argv` and the trap frame, and returns -1 to
force the monitor to exit. -/
abbrev Handler (τ ω : Type) : Type :=
  ℕ → Argv → τ → Kernel ω → Except Trap (BitVec 32 × Kernel ω)

/-- The functions of the commands. -/
structure Handlers (τ ω : Type) where
  monHelp : Handler τ ω
  monKerninfo : Handler τ ω
  execHiddenCases : Handler τ ω
  monBacktrace : Handler τ ω

/-- `struct Command`. -/
structure Command (τ ω : Type) where
  name : List Byte
  func : Handler τ ω

/-- `commands`. -/
def Handlers.commands (h : Handlers τ ω) : List (Command τ ω) :=
  [⟨cstr "help", h.monHelp⟩, ⟨cstr "kerninfo", h.monKerninfo⟩,
    ⟨cstr "hidden", h.execHiddenCases⟩, ⟨cstr "backtrace", h.monBacktrace⟩]

/-! ### Scanning -/

/-- `strchr(WHITESPACE, c)`, as a condition. The constant has its NUL, and `strchr` does not
run past it. -/
def inWhitespace (c : Byte) : Bool :=
  ((strchr (cstr "\t\r\n ") c).getD none).isSome

/-- The line where `buf` points: the bytes before it as they are now, and those from it on. -/
structure Cursor where
  before : List Byte
  buf : List Byte

/-- `*buf`. -/
def Cursor.peek (s : Cursor) : Except Trap Byte :=
  match s.buf with
  | [] => .error .line
  | b :: _ => .ok b

/-- Gobble whitespace. -/
def gobbleWhitespace (before : List Byte) : List Byte → Except Trap Cursor
  | [] => .error .line
  | b :: buf =>
      if b ≠ 0 ∧ inWhitespace b then gobbleWhitespace (before ++ [0]) buf
      else .ok ⟨before, b :: buf⟩

/-- Scan past an argument. -/
def scanPast (before : List Byte) : List Byte → Except Trap Cursor
  | [] => .error .line
  | b :: buf =>
      if b ≠ 0 ∧ ¬ inWhitespace b then scanPast (before ++ [b]) buf
      else .ok ⟨before, b :: buf⟩

/-- The locals of `runcmd` between two rounds of its loop. -/
structure Parse where
  scan : Cursor
  argc : ℕ
  argv : Argv

/-- A round of the loop of `runcmd`. It leaves the loop at the end of the line, or because
there are too many arguments. -/
def parseRound (s : Parse) : Except Trap (Round Parse (Parse × Bool)) := do
  -- gobble whitespace
  let scan ← gobbleWhitespace s.scan.before s.scan.buf
  if (← scan.peek) = 0 then pure (.leave ({ s with scan := scan }, false))
  -- save and scan past next arg
  else if s.argc = maxArgs - 1 then pure (.leave ({ s with scan := scan }, true))
  else do
    let argv ← s.argv.put s.argc (some scan.before.length)
    let scan ← scanPast scan.before scan.buf
    pure (.next ⟨scan, s.argc + 1, argv⟩)

/-- The two messages of `runcmd` can be printed. -/
theorem cprintf_tooMany (c : Console) :
    ∃ r, cprintf (cstr "Too many arguments (max %d)\n") [.word (BitVec.ofNat 32 maxArgs)] c =
      .ok r := by
  obtain ⟨digits, hdigits⟩ := prints_number .d (BitVec.ofNat 32 maxArgs)
  exact cprintf_prints
    (prints_between (s := "Too many arguments (max ") (t := ")\n") rfl rfl hdigits) c

theorem cprintf_unknown {p : List Byte} (hp : 0 ∈ p) (c : Console) :
    ∃ r, cprintf (cstr "Unknown command '%s'\n") [.str p] c = .ok r := by
  obtain ⟨name, hname⟩ := prints_string hp
  exact cprintf_prints (prints_between (s := "Unknown command '") (t := "'\n") rfl rfl hname) c

/-! ### Running -/

/-- `cprintf`, and the return of 0 behind it. -/
def Kernel.say (fmt : List Byte) (ap : Args) (k : Kernel ω) : Except Trap (BitVec 32 × Kernel ω) :=
  match cprintf fmt ap k.console with
  | .error e => .error (.message e)
  | .ok (console, _) => .ok (0, { k with console := console })

/-- The string that `argv[0]` points to, with the rest of the line. -/
def Kernel.arg0 (argv : Argv) (k : Kernel ω) : Except Trap (List Byte) :=
  match argv[0] with
  | none => .error .line
  | some p => .ok (k.line.drop p)

/-- Lookup and invoke the command. -/
def invoke (argc : ℕ) (argv : Argv) (tf : τ) :
    List (Command τ ω) → Kernel ω → Except Trap (BitVec 32 × Kernel ω)
  | [], k => do k.say (cstr "Unknown command '%s'\n") [.str (← k.arg0 argv)]
  | cmd :: cmds, k => do
      match strcmp (← k.arg0 argv) cmd.name with
      | none => .error .line
      | some r => if r = 0 then cmd.func argc argv tf k else invoke argc argv tf cmds k

/-- `runcmd`, on the line of the machine. `argv` is a local variable, and starts out with
whatever is on the stack. -/
def runcmd (h : Handlers τ ω) (stack : Argv) (tf : τ) (k : Kernel ω) :
    Except Trap (BitVec 32 × Kernel ω) := do
  let argv ← stack.put 0 none
  let (s, tooMany) ← loop .fuel parseRound (k.line.length + 1) ⟨⟨[], k.line⟩, 0, argv⟩
  let k := { k with line := s.scan.before ++ s.scan.buf }
  if tooMany then k.say (cstr "Too many arguments (max %d)\n") [.word (BitVec.ofNat 32 maxArgs)]
  else do
    let argv ← s.argv.put s.argc none
    -- Lookup and invoke the command
    if s.argc = 0 then pure (0, k) else invoke s.argc argv tf h.commands k

/-! ### Words -/

/-- The bytes that separate words. -/
def separates (b : Byte) : Bool :=
  b ∈ [chr '\t', chr '\r', chr '\n', chr ' ']

/-- The words of a text: its maximal runs of bytes that do not separate them. -/
def words (text : List Byte) : List (List Byte) :=
  (text.splitOnP separates).filter (· ≠ [])

theorem inWhitespace_eq (b : Byte) : inWhitespace b = separates b := by
  obtain ⟨r, hr, hmem⟩ := strchr_nul (s := [chr '\t', chr '\r', chr '\n', chr ' ']) (by decide) b
  change ((strchr ([chr '\t', chr '\r', chr '\n', chr ' '] ++ [0]) b).getD none).isSome = _
  rw [hr, Option.getD_some, Bool.eq_iff_iff, hmem, separates, decide_eq_true_iff]

theorem ne_of_separates {b : Byte} (h : separates b) : b ≠ 0 := by
  rintro rfl
  cases h

/-- What separates words in front of a text belongs to none. -/
theorem words_append_left {w : List Byte} (hw : ∀ b ∈ w, separates b) (u : List Byte) :
    words (w ++ u) = words u := by
  induction w with
  | nil => rfl
  | cons b w ih =>
      rw [← ih fun x hx => hw x (List.mem_cons_of_mem b hx), List.cons_append, words,
        List.splitOnP_cons_eq_if_modifyHead, if_pos (hw b List.mem_cons_self), List.filter_cons]
      rfl

/-- A run of bytes that do not separate words, up to the end or to one that does, is a word. -/
theorem words_append_right {t : List Byte} (hne : t ≠ []) (ht : ∀ b ∈ t, separates b = false)
    {u : List Byte} (hu : ∀ b v, u = b :: v → separates b) : words (t ++ u) = t :: words u := by
  cases u with
  | nil =>
      rw [List.append_nil, words, List.splitOnP_eq_singleton ht, List.filter_cons]
      simp [hne, words]
  | cons b u =>
      have hb : separates b := hu b u rfl
      have htail : words (b :: u) = words u := words_append_left (w := [b]) (by simpa using hb) u
      rw [htail, words, List.splitOnP_append_cons_of_forall_mem ht b hb, List.filter_cons]
      simp [hne, words]

/-- A text has no word, or it starts with one, what separates it from the front apart. -/
theorem separates_or_word (text : List Byte) :
    (∀ b ∈ text, separates b) ∨ ∃ w t u, text = w ++ (t ++ u) ∧ (∀ b ∈ w, separates b) ∧ t ≠ [] ∧
      (∀ b ∈ t, separates b = false) ∧ ∀ b v, u = b :: v → separates b := by
  by_cases hword : ∃ b ∈ text, separates b = false
  · obtain ⟨w, c, v, rfl, hw, hc⟩ := exists_first (fun b => separates b = false) hword
    have hw' : ∀ b ∈ w, separates b := fun b hb => by simpa using hw b hb
    by_cases hend : ∃ b ∈ v, separates b
    · obtain ⟨t, d, u, rfl, ht, hd⟩ := exists_first (fun b => separates b = true) hend
      refine .inr ⟨w, c :: t, d :: u, rfl, hw', by simp, ?_, ?_⟩
      · exact List.forall_mem_cons.mpr ⟨hc, fun b hb => by simpa using ht b hb⟩
      · rintro b v ⟨⟩
        exact hd
    · refine .inr ⟨w, c :: v, [], by simp, hw', by simp, ?_, by simp⟩
      exact List.forall_mem_cons.mpr ⟨hc, fun b hb => by
        simpa using fun h => hend ⟨b, hb, h⟩⟩
  · exact .inl fun b hb => by simpa using fun h => hword ⟨b, hb, h⟩

/-! ### The scan -/

/-- What the scan may do to a line: bytes that separate words become NUL. -/
def Cut (line line' : List Byte) : Prop :=
  List.Forall₂ (fun b b' => b' = b ∨ separates b ∧ b' = 0) line line'

theorem cut_refl (line : List Byte) : Cut line line :=
  List.forall₂_same.mpr fun _ _ => .inl rfl

theorem cut_separators {w : List Byte} (hw : ∀ b ∈ w, separates b) :
    Cut w (List.replicate w.length 0) := by
  induction w with
  | nil => exact .nil
  | cons b w ih =>
      exact .cons (.inr ⟨hw b List.mem_cons_self, rfl⟩)
        (ih fun x hx => hw x (List.mem_cons_of_mem b hx))

theorem Cut.append {u u' v v' : List Byte} (hu : Cut u u') (hv : Cut v v') :
    Cut (u ++ v) (u' ++ v') :=
  List.rel_append hu hv

/-- **Gobbling** overwrites what separates words, up to the first byte that does not. -/
theorem gobbleWhitespace_append {w : List Byte} (hw : ∀ b ∈ w, separates b) {c : Byte}
    (hc : separates c = false) (before buf : List Byte) :
    gobbleWhitespace before (w ++ c :: buf) =
      .ok ⟨before ++ List.replicate w.length 0, c :: buf⟩ := by
  induction w generalizing before with
  | nil =>
      rw [List.nil_append, gobbleWhitespace, inWhitespace_eq, hc]
      simp
  | cons b w ih =>
      have hb : separates b := hw b List.mem_cons_self
      rw [List.cons_append, gobbleWhitespace, inWhitespace_eq, if_pos ⟨ne_of_separates hb, hb⟩,
        ih fun x hx => hw x (List.mem_cons_of_mem b hx)]
      simp [List.replicate_succ]

/-- **Scanning past** a word, up to a NUL or a byte that separates words. -/
theorem scanPast_append {t : List Byte} (ht : ∀ b ∈ t, b ≠ 0 ∧ separates b = false) {c : Byte}
    (hc : c = 0 ∨ separates c) (before buf : List Byte) :
    scanPast before (t ++ c :: buf) = .ok ⟨before ++ t, c :: buf⟩ := by
  induction t generalizing before with
  | nil =>
      have hstop : ¬ (c ≠ 0 ∧ ¬ inWhitespace c) := by
        rw [inWhitespace_eq]
        rintro ⟨hne, hsep⟩
        exact hc.elim hne hsep
      rw [List.nil_append, scanPast, if_neg hstop, List.append_nil]
  | cons b t ih =>
      obtain ⟨hne, hsep⟩ := ht b List.mem_cons_self
      rw [List.cons_append, scanPast, inWhitespace_eq, if_pos ⟨hne, by simp [hsep]⟩,
        ih fun x hx => ht x (List.mem_cons_of_mem b hx)]
      simp

/-- The elements of `argv` from `argc` on point to the words, each with its NUL. -/
def Points (argv : Argv) (argc : ℕ) (ws : List (List Byte)) (line : List Byte) : Prop :=
  ∀ j t, ws[j]? = some t →
    ∃ p v, argv[argc + j]? = some (some p) ∧ line.drop p = t ++ 0 :: v

/-- What is left of the line when nothing but what separates words comes before its end. -/
theorem parseRound_blank {text : List Byte} (htext : ∀ b ∈ text, separates b)
    (before : List Byte) (argc : ℕ) (argv : Argv) :
    parseRound ⟨⟨before, text ++ [0]⟩, argc, argv⟩ =
      .ok (.leave (⟨⟨before ++ List.replicate text.length 0, [0]⟩, argc, argv⟩, false)) := by
  simp only [parseRound, gobbleWhitespace_append htext (c := 0) rfl, ok_bind]
  rfl

/-- A word that is one too many. -/
theorem parseRound_full {w : List Byte} (hw : ∀ b ∈ w, separates b) {c : Byte} (hc : c ≠ 0)
    (hword : separates c = false) (before buf : List Byte) (argv : Argv) :
    parseRound ⟨⟨before, w ++ c :: buf⟩, maxArgs - 1, argv⟩ =
      .ok (.leave (⟨⟨before ++ List.replicate w.length 0, c :: buf⟩, maxArgs - 1, argv⟩,
        true)) := by
  simp only [parseRound, gobbleWhitespace_append hw hword, ok_bind, Cursor.peek, if_neg hc]
  rfl

/-- A word that is saved. -/
theorem parseRound_word {w : List Byte} (hw : ∀ b ∈ w, separates b) {t : List Byte}
    (hne : t ≠ []) (ht : ∀ b ∈ t, b ≠ 0 ∧ separates b = false) {d : Byte}
    (hd : d = 0 ∨ separates d) (before buf : List Byte) {argc : ℕ} (hargc : argc < maxArgs - 1)
    (argv : Argv) :
    parseRound ⟨⟨before, w ++ (t ++ d :: buf)⟩, argc, argv⟩ =
      .ok (.next ⟨⟨before ++ (List.replicate w.length 0 ++ t), d :: buf⟩, argc + 1,
        argv.set argc (some (before.length + w.length)) (by omega)⟩) := by
  obtain ⟨c, t', rfl⟩ := List.exists_cons_of_ne_nil hne
  obtain ⟨hc, hword⟩ := ht c List.mem_cons_self
  have hput : argv.put argc (some (before.length + w.length)) =
      .ok (argv.set argc (some (before.length + w.length)) (by omega)) := dif_pos (by omega)
  have hpast := scanPast_append ht hd (before ++ List.replicate w.length 0) buf
  rw [List.cons_append] at hpast ⊢
  simp only [parseRound, gobbleWhitespace_append hw hword, ok_bind, Cursor.peek, if_neg hc,
    if_neg (Nat.ne_of_lt hargc), List.length_append, List.length_replicate, hput, hpast,
    List.append_assoc]
  rfl

/-- A line that starts with what separates words starts with a NUL once that is gobbled. -/
theorem starts_nul {w t u : List Byte} (hne : t ≠ []) (ht : ∀ b ∈ t, separates b = false)
    (hstart : ∀ b v, w ++ (t ++ u) = b :: v → separates b) (out : List Byte) :
    ∃ v, List.replicate w.length (0 : Byte) ++ out = 0 :: v := by
  cases w with
  | nil =>
      obtain ⟨c, t, rfl⟩ := List.exists_cons_of_ne_nil hne
      have hsep := hstart c (t ++ u) rfl
      rw [ht c List.mem_cons_self] at hsep
      cases hsep
  | cons b w => exact ⟨List.replicate w.length 0 ++ out, rfl⟩

/-- What the scan from a place on has done, when `argc` words have been found before: `text` is
the text from there on, and `out` is what became of it. -/
structure Scanned (text before : List Byte) (argc : ℕ) (argv : Argv) (out : List Byte)
    (s : Parse) (tooMany : Bool) : Prop where
  line : s.scan.before ++ s.scan.buf = before ++ out
  cut : Cut (text ++ [0]) out
  starts : (∀ b v, text = b :: v → separates b) → ∃ v, out = 0 :: v
  many : tooMany = true ↔ maxArgs - 1 < argc + (words text).length
  found : tooMany = false → s.argc = argc + (words text).length ∧
    (∀ j < argc, s.argv[j]? = argv[j]?) ∧ Points s.argv argc (words text) (before ++ out)

/-- Nothing but what separates words. -/
theorem scanned_blank {text : List Byte} (hblank : ∀ b ∈ text, separates b)
    (before : List Byte) {argc : ℕ} (hargc : argc ≤ maxArgs - 1) (argv : Argv) :
    Scanned text before argc argv (List.replicate text.length 0 ++ [0])
      ⟨⟨before ++ List.replicate text.length 0, [0]⟩, argc, argv⟩ false := by
  have hwords : words text = [] := by
    rw [← List.append_nil text, words_append_left hblank]
    rfl
  refine ⟨List.append_assoc _ _ _, (cut_separators hblank).append (cut_refl _), fun _ => ?_, ?_,
    fun _ => ⟨?_, fun _ _ => rfl, ?_⟩⟩
  · cases text with
    | nil => exact ⟨[], rfl⟩
    | cons b text => exact ⟨List.replicate text.length 0 ++ [0], rfl⟩
  · rw [hwords]
    exact iff_of_false Bool.false_ne_true (by simpa using hargc)
  · rw [hwords]
    rfl
  · rw [hwords]
    intro j t hj
    cases hj

section

variable {w t u : List Byte} (hw : ∀ b ∈ w, separates b) (hne : t ≠ [])
  (ht : ∀ b ∈ t, separates b = false) (hu : ∀ b v, u = b :: v → separates b)
include hw hne ht hu

/-- One word more than there is room for. -/
theorem scanned_full (before : List Byte) (argv : Argv) :
    Scanned (w ++ (t ++ u)) before (maxArgs - 1) argv
      (List.replicate w.length 0 ++ (t ++ u ++ [0]))
      ⟨⟨before ++ List.replicate w.length 0, t ++ u ++ [0]⟩, maxArgs - 1, argv⟩ true := by
  refine ⟨List.append_assoc _ _ _, ?_, fun hstart => starts_nul hne ht hstart _, ?_,
    fun h => ?_⟩
  · rw [List.append_assoc]
    exact (cut_separators hw).append (cut_refl _)
  · rw [words_append_left hw, words_append_right hne ht hu]
    exact iff_of_true rfl (by simp)
  · cases h

/-- One word that is saved, and the scan from behind it on. -/
theorem Scanned.word {before out : List Byte} {argc : ℕ} (hargc : argc < maxArgs) {argv : Argv}
    {s : Parse} {tooMany : Bool}
    (h : Scanned u (before ++ (List.replicate w.length 0 ++ t)) (argc + 1)
      (argv.set argc (some (before.length + w.length)) hargc) out s tooMany) :
    Scanned (w ++ (t ++ u)) before argc argv (List.replicate w.length 0 ++ (t ++ out)) s
      tooMany := by
  have hwords : words (w ++ (t ++ u)) = t :: words u := by
    rw [words_append_left hw, words_append_right hne ht hu]
  have hplace : before ++ (List.replicate w.length 0 ++ (t ++ out)) =
      before ++ (List.replicate w.length 0 ++ t) ++ out := by
    simp only [List.append_assoc]
  refine ⟨?_, ?_, fun hstart => starts_nul hne ht hstart _, ?_, fun hfew => ?_⟩
  · rw [h.line, hplace]
  · rw [List.append_assoc, List.append_assoc]
    exact (cut_separators hw).append ((cut_refl t).append h.cut)
  · rw [h.many, hwords, List.length_cons]
    omega
  · obtain ⟨hargc', hbelow, hpoints⟩ := h.found hfew
    refine ⟨?_, fun j hj => ?_, ?_⟩
    · rw [hargc', hwords, List.length_cons]
      omega
    · rw [hbelow j (by omega), Vector.getElem?_set_ne _ (by omega)]
    · rw [hwords, hplace]
      intro j t' hj
      cases j with
      | zero =>
          -- the word ends at what has become of the byte behind it
          cases hj
          obtain ⟨v, rfl⟩ := h.starts hu
          refine ⟨before.length + w.length, v, ?_, ?_⟩
          · rw [Nat.add_zero, hbelow argc (by omega), Vector.getElem?_set_self]
          · rw [← hplace, ← List.append_assoc]
            exact List.drop_left' (by simp)
      | succ j =>
          obtain ⟨p, v, hp, hdrop⟩ := hpoints j t' hj
          exact ⟨p, v, by rw [← hp]; congr 1; omega, hdrop⟩

end

/-- **The scan cuts the line into its words.** It stays inside the line and inside `argv`,
changes nothing but what separates words, and stops early if and only if there are too many.
Induction on the rounds; `argc` words have been found before. -/
theorem parseRound_loop {text : List Byte} (htext : 0 ∉ text) (before : List Byte) {argc : ℕ}
    (hargc : argc ≤ maxArgs - 1) (argv : Argv) {fuel : ℕ} (hfuel : text.length < fuel) :
    ∃ out s tooMany,
      loop .fuel parseRound fuel ⟨⟨before, text ++ [0]⟩, argc, argv⟩ = .ok (s, tooMany) ∧
      Scanned text before argc argv out s tooMany := by
  induction fuel generalizing text before argc argv with
  | zero => exact absurd hfuel (Nat.not_lt_zero _)
  | succ fuel ih =>
      rw [loop]
      obtain hblank | ⟨w, t, u, rfl, hw, hne, ht, hu⟩ := separates_or_word text
      · refine ⟨_, _, false, ?_, scanned_blank hblank before hargc argv⟩
        rw [parseRound_blank hblank]
        rfl
      have htext' : ∀ b ∈ t, b ≠ 0 ∧ separates b = false := fun b hb =>
        ⟨fun h => htext (by simp [← h, hb]), ht b hb⟩
      rcases Nat.eq_or_lt_of_le hargc with rfl | hlt
      · refine ⟨_, _, true, ?_, scanned_full hw hne ht hu before argv⟩
        obtain ⟨c, t', rfl⟩ := List.exists_cons_of_ne_nil hne
        obtain ⟨hc, hword⟩ := htext' c List.mem_cons_self
        rw [List.append_assoc, List.append_assoc, List.cons_append,
          parseRound_full hw hc hword]
        rw [← List.cons_append, ← List.append_assoc]
        rfl
      · obtain ⟨d, buf, hbuf, hd⟩ : ∃ d buf, u ++ [0] = d :: buf ∧ (d = 0 ∨ separates d) := by
          cases u with
          | nil => exact ⟨0, [], rfl, .inl rfl⟩
          | cons b v => exact ⟨b, v ++ [0], rfl, .inr (hu b v rfl)⟩
        have hlen : u.length < fuel := by
          have hpos := List.length_pos_iff.mpr hne
          simp only [List.length_append] at hfuel
          omega
        obtain ⟨out, s, tooMany, hloop, hscan⟩ :=
          ih (fun h => htext (List.mem_append_right _ (List.mem_append_right _ h)))
            (before ++ (List.replicate w.length 0 ++ t)) (Nat.succ_le_of_lt hlt)
            (argv.set argc (some (before.length + w.length)) (by omega)) hlen
        refine ⟨_, s, tooMany, ?_, hscan.word hw hne ht hu⟩
        rw [List.append_assoc, List.append_assoc, hbuf,
          parseRound_word hw hne htext' hd _ _ hlt, ← hbuf]
        exact hloop

/-! ### Running -/

/-- A message is printed, 0 is returned, and no command runs. -/
def Says (h : Handlers τ ω) (stack : Argv) (tf : τ) (k : Kernel ω) (line' : List Byte)
    (fmt : List Byte) (ap : Args) : Prop :=
  ∃ console n, cprintf fmt ap k.console = .ok (console, n) ∧
    runcmd h stack tf k = .ok (0, { k with line := line', console := console })

theorem say_ok {fmt : List Byte} {ap : Args} {k : Kernel ω} {console : Console} {n : BitVec 32}
    (hmsg : cprintf fmt ap k.console = .ok (console, n)) :
    k.say fmt ap = .ok (0, { k with console := console }) := by
  rw [Kernel.say, hmsg]

/-- **Looking up** a word that is the name of no command. -/
theorem invoke_unknown {argv : Argv} {k : Kernel ω} {t v : List Byte}
    (harg : k.arg0 argv = .ok (t ++ 0 :: v)) (ht : 0 ∉ t) (argc : ℕ) (tf : τ)
    {cmds : List (Command τ ω)} (hnames : ∀ cmd ∈ cmds, ∃ u, cmd.name = u ++ [0] ∧ 0 ∉ u)
    (hne : ∀ cmd ∈ cmds, cmd.name ≠ t ++ [0]) :
    invoke argc argv tf cmds k = k.say (cstr "Unknown command '%s'\n") [.str (t ++ 0 :: v)] := by
  induction cmds with
  | nil => rw [invoke, harg, ok_bind]
  | cons cmd cmds ih =>
      obtain ⟨u, hname, hu⟩ := hnames cmd List.mem_cons_self
      obtain ⟨r, hr, hzero⟩ := strcmp_nul ht hu v []
      have hdiff : r ≠ 0 := fun h => hne cmd List.mem_cons_self (by rw [hname, hzero.mp h])
      rw [invoke, harg, ok_bind, hname, hr]
      simp only [if_neg hdiff]
      exact ih (fun c hc => hnames c (List.mem_cons_of_mem _ hc))
        (fun c hc => hne c (List.mem_cons_of_mem _ hc))

/-- **Looking up** the name of a command. -/
theorem invoke_name {argv : Argv} {k : Kernel ω} {t v : List Byte}
    (harg : k.arg0 argv = .ok (t ++ 0 :: v)) (ht : 0 ∉ t) (argc : ℕ) (tf : τ)
    {cmds : List (Command τ ω)} (hnames : ∀ cmd ∈ cmds, ∃ u, cmd.name = u ++ [0] ∧ 0 ∉ u)
    (hnodup : cmds.Pairwise fun c d => c.name ≠ d.name) {cmd : Command τ ω} (hmem : cmd ∈ cmds)
    (hname : cmd.name = t ++ [0]) :
    invoke argc argv tf cmds k = cmd.func argc argv tf k := by
  induction cmds with
  | nil => cases hmem
  | cons c cmds ih =>
      obtain ⟨hfirst, hrest⟩ := List.pairwise_cons.mp hnodup
      obtain ⟨u, hu', hu⟩ := hnames c List.mem_cons_self
      obtain ⟨r, hr, hzero⟩ := strcmp_nul ht hu v []
      rw [invoke, harg, ok_bind, hu', hr]
      rcases List.mem_cons.mp hmem with rfl | hmem
      · have htu : t = u := List.append_cancel_right (hname.symm.trans hu')
        exact if_pos (hzero.mpr htu)
      · have hdiff : r ≠ 0 := fun h =>
          hfirst cmd hmem (by rw [hu', hname, hzero.mp h])
        simp only [if_neg hdiff]
        exact ih (fun d hd => hnames d (List.mem_cons_of_mem _ hd)) hrest hmem

/-- The names of the commands end, and differ. -/
theorem commands_names (h : Handlers τ ω) :
    (∀ cmd ∈ h.commands, ∃ u, cmd.name = u ++ [0] ∧ 0 ∉ u) ∧
      h.commands.Pairwise fun c d => c.name ≠ d.name := by
  have hnul : ∀ s ∈ ["help", "kerninfo", "hidden", "backtrace"], 0 ∉ s.toList.map chr := by
    decide
  refine ⟨fun cmd hcmd => ?_, ?_⟩
  · have hname : cmd.name ∈ ["help", "kerninfo", "hidden", "backtrace"].map cstr :=
      List.mem_map_of_mem hcmd
    obtain ⟨s, hs, hcstr⟩ := List.mem_map.mp hname
    exact ⟨s.toList.map chr, hcstr.symm, hnul s hs⟩
  · exact List.pairwise_map.mp (by
      decide : [cstr "help", cstr "kerninfo", cstr "hidden", cstr "backtrace"].Pairwise (· ≠ ·))

/-- The null pointer behind the words. -/
theorem put_null {argv : Argv} {ws : List (List Byte)} {line : List Byte}
    (hpoints : Points argv 0 ws line) (hle : ws.length ≤ maxArgs - 1) :
    ∃ argv', argv.put ws.length none = .ok argv' ∧ Points argv' 0 ws line ∧
      argv'[ws.length]? = some none := by
  have hroom : ws.length < maxArgs := Nat.lt_of_le_of_lt hle (by decide)
  refine ⟨argv.set ws.length none hroom, dif_pos hroom, fun j t hj => ?_,
    Vector.getElem?_set_self hroom⟩
  obtain ⟨p, v, hp, hdrop⟩ := hpoints j t hj
  obtain ⟨hlt, -⟩ := List.getElem?_eq_some_iff.mp hj
  exact ⟨p, v, by rw [Vector.getElem?_set_ne _ (by omega), hp], hdrop⟩

/-- The first word is the string that `argv[0]` points to. -/
theorem arg0_of_points {argv : Argv} {t : List Byte} {ts : List (List Byte)} {k : Kernel ω}
    (hpoints : Points argv 0 (t :: ts) k.line) : ∃ v, k.arg0 argv = .ok (t ++ 0 :: v) := by
  obtain ⟨p, v, hp, hdrop⟩ := hpoints 0 t rfl
  obtain ⟨hlt, hget⟩ := Vector.getElem?_eq_some_iff.mp hp
  change argv[0] = some p at hget
  refine ⟨v, ?_⟩
  rw [Kernel.arg0, hget, ← hdrop]

/-- No word holds a NUL that its text does not hold. -/
theorem nul_notMem_word {text t : List Byte} {ts : List (List Byte)} (htext : 0 ∉ text)
    (hwords : words text = t :: ts) : 0 ∉ t := by
  obtain hblank | ⟨w, t', u, rfl, hw, hne, ht', hu⟩ := separates_or_word text
  · rw [← List.append_nil text, words_append_left hblank] at hwords
    cases hwords
  · rw [words_append_left hw, words_append_right hne ht' hu] at hwords
    cases hwords
    exact fun h => htext (List.mem_append_right _ (List.mem_append_left _ h))

/-- What `runcmd` does once the scan is over. -/
theorem runcmd_scan (h : Handlers τ ω) (stack : Argv) (tf : τ) {k : Kernel ω}
    {text : List Byte} (htext : 0 ∉ text) (hline : k.line = text ++ [0]) :
    ∃ line' argv, Cut k.line line' ∧
      (maxArgs - 1 < (words text).length → runcmd h stack tf k =
        Kernel.say (cstr "Too many arguments (max %d)\n") [.word (BitVec.ofNat 32 maxArgs)]
          { k with line := line' }) ∧
      ((words text).length ≤ maxArgs - 1 → Points argv 0 (words text) line' ∧
        argv[(words text).length]? = some none ∧
        runcmd h stack tf k = if (words text).length = 0 then .ok (0, { k with line := line' })
          else invoke (words text).length argv tf h.commands { k with line := line' }) := by
  have hput : stack.put 0 none = .ok (stack.set 0 none) := dif_pos (by decide)
  have hfuel : text.length < k.line.length + 1 := by
    rw [hline, List.length_append]
    omega
  obtain ⟨out, s, tooMany, hloop, hscan, hcut, -, hmany, hgood⟩ :=
    parseRound_loop htext [] (Nat.zero_le _) (stack.set 0 none) hfuel
  rw [Nat.zero_add] at hmany hgood
  rw [List.nil_append] at hscan hgood
  rw [← hline] at hloop hcut
  have hrun : runcmd h stack tf k = (if tooMany then
      Kernel.say (cstr "Too many arguments (max %d)\n") [.word (BitVec.ofNat 32 maxArgs)]
        { k with line := out }
    else do
      let argv ← s.argv.put s.argc none
      if s.argc = 0 then pure (0, { k with line := out })
      else invoke s.argc argv tf h.commands { k with line := out }) := by
    rw [runcmd, hput, ok_bind, hloop, ok_bind]
    simp only [hscan]
  by_cases hfew : (words text).length ≤ maxArgs - 1
  · have hfalse : tooMany = false :=
      Bool.eq_false_iff.mpr fun h => absurd (hmany.mp h) (Nat.not_lt.mpr hfew)
    obtain ⟨hargc, -, hpoints⟩ := hgood hfalse
    obtain ⟨argv, hset, hpoints', hnull⟩ := put_null hpoints hfew
    refine ⟨out, argv, hcut, fun hlt => absurd hfew (Nat.not_le.mpr hlt),
      fun _ => ⟨hpoints', hnull, ?_⟩⟩
    rw [hrun, hfalse, if_neg Bool.false_ne_true, hargc, hset]
    rfl
  · have htrue : tooMany = true := hmany.mpr (Nat.lt_of_not_le hfew)
    exact ⟨out, stack, hcut, fun _ => by rw [hrun, if_pos htrue], fun h => absurd h hfew⟩

/-- **The command line.** The scan stays inside the line and inside `argv`, and overwrites
nothing but what separates words. With more words than `argv` has room for, without a word,
or when the first word names no command, no command runs and 0 is returned. Otherwise that
command runs, with the words in `argv` and a null pointer behind them, and its result is
returned. -/
theorem runcmd_words (h : Handlers τ ω) (stack : Argv) (tf : τ) {k : Kernel ω}
    {text : List Byte} (htext : 0 ∉ text) (hline : k.line = text ++ [0]) :
    ∃ line', Cut k.line line' ∧
      (maxArgs - 1 < (words text).length →
        Says h stack tf k line' (cstr "Too many arguments (max %d)\n")
          [.word (BitVec.ofNat 32 maxArgs)]) ∧
      (words text = [] → runcmd h stack tf k = .ok (0, { k with line := line' })) ∧
      ((words text).length ≤ maxArgs - 1 → ∀ t ts, words text = t :: ts →
        (∀ cmd ∈ h.commands, cmd.name = t ++ [0] →
          ∃ argv : Argv, Points argv 0 (words text) line' ∧
            argv[(words text).length]? = some none ∧
            runcmd h stack tf k =
              cmd.func (words text).length argv tf { k with line := line' }) ∧
        ((∀ cmd ∈ h.commands, cmd.name ≠ t ++ [0]) →
          ∃ v, Says h stack tf k line' (cstr "Unknown command '%s'\n")
            [.str (t ++ 0 :: v)])) := by
  obtain ⟨line', argv, hcut, hmany, hfew⟩ := runcmd_scan h stack tf htext hline
  refine ⟨line', hcut, fun hlt => ?_, fun hnil => ?_, fun hle t ts hwords => ?_⟩
  · obtain ⟨⟨console, n⟩, hmsg⟩ := cprintf_tooMany k.console
    exact ⟨console, n, hmsg, by rw [hmany hlt, say_ok (k := { k with line := line' }) hmsg]⟩
  · obtain ⟨-, -, hrun⟩ := hfew (by rw [hnil]; exact Nat.zero_le _)
    rw [hrun, if_pos (by rw [hnil]; rfl)]
  · obtain ⟨hpoints, hnull, hrun⟩ := hfew hle
    rw [if_neg (by rw [hwords]; exact Nat.succ_ne_zero _)] at hrun
    obtain ⟨v, harg⟩ := arg0_of_points (k := { k with line := line' }) (hwords ▸ hpoints)
    have ht : 0 ∉ t := nul_notMem_word htext hwords
    obtain ⟨hnames, hnodup⟩ := commands_names h
    refine ⟨fun cmd hmem hname => ⟨argv, hpoints, hnull, ?_⟩, fun hne => ?_⟩
    · rw [hrun, invoke_name harg ht _ tf hnames hnodup hmem hname]
    · obtain ⟨⟨console, n⟩, hmsg⟩ :=
        cprintf_unknown (p := t ++ 0 :: v) (List.mem_append_right _ List.mem_cons_self) k.console
      refine ⟨v, console, n, hmsg, ?_⟩
      rw [hrun, invoke_unknown harg ht _ tf hnames hne]
      exact say_ok (k := { k with line := line' }) hmsg

end

/-- A command with a word behind it, and blanks around both. -/
theorem runcmd_words_help :
    let console := cgaInit 0xA55A (Console.statics ⟨fun _ => 0, []⟩ ⟨0, fun _ => 0⟩)
    let help : Handler Unit Unit := fun argc _ _ k => .ok (BitVec.ofNat 32 argc, k)
    let fail : Handler Unit Unit := fun _ _ _ _ => .error .fuel
    ∃ line' argv, Cut (cstr " help  me\t") line' ∧
      Points argv 0 ["help".toList.map chr, "me".toList.map chr] line' ∧
      argv[2]? = some none ∧
      runcmd ⟨help, fail, fail, fail⟩ (Vector.replicate 16 none) ()
        ⟨cstr " help  me\t", console, ()⟩ = .ok (2, ⟨line', console, ()⟩) := by
  intro console help fail
  have hwords : words (" help  me\t".toList.map chr) =
      ["help".toList.map chr, "me".toList.map chr] := rfl
  have hnul : 0 ∉ " help  me\t".toList.map chr := by decide
  obtain ⟨line', hcut, -, -, hfew⟩ := runcmd_words ⟨help, fail, fail, fail⟩
    (Vector.replicate 16 none) () (k := ⟨cstr " help  me\t", console, ()⟩) hnul rfl
  obtain ⟨hname, -⟩ := hfew (by rw [hwords]; decide) _ _ hwords
  obtain ⟨argv, hpoints, hnull, hrun⟩ := hname ⟨cstr "help", help⟩ List.mem_cons_self rfl
  exact ⟨line', argv, hcut, hpoints, hnull, hrun⟩

end Jos
