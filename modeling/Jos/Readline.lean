import Jos.Printf

/-!
# Line Editing

`lib/readline.c`, over the values that `getchar` returns. The static buffer is a function
of the index, with every index stored to recorded beside it; the line being edited is its
first `i` bytes (`Holds`).

The three guards of the loop are tried in turn, so a key whose guard fails on account of
`i` is tried against the next one. For a backspace on the empty line nothing comes of it,
but DEL is not below a blank: it is taken for an ordinary character and kept. `typeKey` is
what the code does to the line, `editKey` what it is meant to do.

## Main results

* `readlineKey_holds`: one key does to the buffer what `typeKey` does to the line.
* `readlineLoop_run`: the rule for a run of keys, `readline_run`: what it does from the prompt on.
* `readline_edits_iff`: the line is edited as meant exactly when no DEL is typed on an
  empty line.
-/

namespace Jos

/-- `BUFLEN`. -/
abbrev bufLen : ℕ := 1024

/-- The state of `readline`: the console, the static buffer with the indices it was stored
to at, most recent first, and `i`. -/
structure Line where
  console : Console
  buf : ℕ → Byte
  writes : List ℕ
  i : ℕ

/-- `buf[i] = c`. -/
def Line.store (c : Byte) (s : Line) : Line :=
  { s with buf := Function.update s.buf s.i c, writes := s.i :: s.writes }

/-- `iscons`. -/
def iscons (_fdnum : BitVec 32) : BitVec 32 :=
  1

/-- Where `readline` is after a key: still reading, or returned, with `NULL` or the buffer. -/
inductive Reading
  | more (s : Line)
  | null (s : Line)
  | line (s : Line)

/-- `if (echoing) cputchar(c)`. -/
def echo (c : BitVec 32) (s : Line) : Line :=
  if iscons 0 ≠ 0 then { s with console := cputchar c s.console } else s

/-- One round of the loop of `readline`, on the value `c` of `getchar`. -/
def readlineKey (c : BitVec 32) (s : Line) : Except Fault Reading :=
  if c.toInt < 0 then do
    let (console, _) ← cprintf (cstr "read error: %e\n") [.word c] s.console
    pure (.null { s with console := console })
  else if (c = 0x08 ∨ c = 0x7F) ∧ 0 < s.i then
    let s := echo 0x08 s
    .ok (.more { s with i := s.i - 1 })
  else if 0x20 ≤ c.toInt ∧ s.i < bufLen - 1 then
    let s := (echo c s).store (c.setWidth 8)
    .ok (.more { s with i := s.i + 1 })
  else if c = 0x0A ∨ c = 0x0D then .ok (.line ((echo 0x0A s).store 0))
  else .ok (.more s)

/-- The loop, on the values of `getchar` so far. -/
def readlineLoop : List (BitVec 32) → Line → Except Fault Reading
  | [], s => .ok (.more s)
  | c :: cs, s => do
      match ← readlineKey c s with
      | .more s => readlineLoop cs s
      | r => pure r

/-- `readline`. The prompt is `NULL` or the bytes that can be read from its pointer. -/
def readline (prompt : Option (List Byte)) (cs : List (BitVec 32)) (console : Console)
    (buf : ℕ → Byte) : Except Fault Reading := do
  let start : Line := { console := console, buf := buf, writes := [], i := 0 }
  match prompt with
  | none => readlineLoop cs start
  | some p =>
      let (console, _) ← cprintf (cstr "%s") [.str p] console
      readlineLoop cs { start with console := console }

/-! ### Editing a line -/

/-- The keys that erase. -/
def isErase (c : Byte) : Prop :=
  c = 0x08 ∨ c = 0x7F

instance (c : Byte) : Decidable (isErase c) :=
  inferInstanceAs (Decidable (_ ∨ _))

/-- The keys that end the line. -/
def isNewline (c : Byte) : Prop :=
  c = 0x0A ∨ c = 0x0D

instance (c : Byte) : Decidable (isNewline c) :=
  inferInstanceAs (Decidable (_ ∨ _))

/-- What a key is meant to do to the line. -/
def editKey (l : List Byte) (c : Byte) : List Byte :=
  if isErase c then l.dropLast
  else if 0x20 ≤ c then if l.length < bufLen - 1 then l ++ [c] else l
  else l

/-- What the code does to the line. -/
def typeKey (l : List Byte) (c : Byte) : List Byte :=
  if isErase c ∧ 0 < l.length then l.dropLast
  else if 0x20 ≤ c ∧ l.length < bufLen - 1 then l ++ [c]
  else l

/-- The two differ on one key only, and on one line: DEL, on the empty one. -/
theorem typeKey_eq {l : List Byte} {c : Byte} (h : ¬ (c = 0x7F ∧ l = [])) :
    typeKey l c = editKey l c := by
  rw [typeKey, editKey]
  by_cases herase : isErase c
  · rcases List.eq_nil_or_concat l with rfl | ⟨l', x, rfl⟩
    · have h08 : c = 0x08 := herase.resolve_right fun h7F => h ⟨h7F, rfl⟩
      rw [h08]
      decide
    · rw [if_pos ⟨herase, by simp⟩, if_pos herase]
  · rw [if_neg fun h' => herase h'.1, if_neg herase]
    by_cases hblank : 0x20 ≤ c
    · simp only [hblank, true_and, if_true]
    · simp only [hblank, false_and, if_false]

/-- A DEL on an empty line is kept. -/
theorem typeKey_del : typeKey [] 0x7F = [0x7F] := by
  decide

/-- Editing as meant never keeps an erase key. -/
theorem editKey_kept {l : List Byte} (hl : ∀ b ∈ l, ¬ isErase b) (c : Byte) :
    ∀ b ∈ editKey l c, ¬ isErase b := by
  intro b hb
  rw [editKey] at hb
  split at hb
  · exact hl b (List.mem_of_mem_dropLast hb)
  split at hb
  · split at hb
    · rcases List.mem_append.mp hb with hb | hb
      · exact hl b hb
      · rwa [List.mem_singleton.mp hb]
    · exact hl b hb
  · exact hl b hb

/-- The characters kept of a run of keys are no erase keys. -/
theorem foldl_editKey_kept (ks : List Byte) {l : List Byte} (hl : ∀ b ∈ l, ¬ isErase b) :
    ∀ b ∈ ks.foldl editKey l, ¬ isErase b :=
  List.foldlRecOn (motive := fun l => ∀ b ∈ l, ¬ isErase b) ks editKey hl
    fun _ h c _ => editKey_kept h c

/-- A DEL that is typed when the line, edited as meant so far, is empty. -/
def DelOnEmpty (l ks : List Byte) : Prop :=
  ∃ pre post, ks = pre ++ 0x7F :: post ∧ pre.foldl editKey l = []

/-- **Where the code goes wrong.** Either no DEL is typed on an empty line and the code edits
as it is meant to, or it does so up to the first such DEL. -/
theorem foldl_typeKey (ks l : List Byte) :
    (¬ DelOnEmpty l ks ∧ ks.foldl typeKey l = ks.foldl editKey l) ∨
      ∃ pre post, ks = pre ++ 0x7F :: post ∧ pre.foldl editKey l = [] ∧
        pre.foldl typeKey l = [] := by
  induction ks generalizing l with
  | nil =>
      left
      refine ⟨?_, rfl⟩
      rintro ⟨pre, post, h, -⟩
      exact absurd h (by simp)
  | cons c ks ih =>
      by_cases hdel : c = 0x7F ∧ l = []
      · exact Or.inr ⟨[], ks, by rw [hdel.1]; rfl, hdel.2, hdel.2⟩
      rcases ih (editKey l c) with ⟨hnone, heq⟩ | ⟨pre, post, rfl, hpre, hpre'⟩
      · left
        refine ⟨?_, by rw [List.foldl_cons, List.foldl_cons, typeKey_eq hdel, heq]⟩
        rintro ⟨pre, post, hks, hpre⟩
        rcases pre with _ | ⟨c', pre⟩
        · rw [List.nil_append, List.cons.injEq] at hks
          exact hdel ⟨hks.1, hpre⟩
        · rw [List.cons_append, List.cons.injEq] at hks
          obtain ⟨rfl, rfl⟩ := hks
          exact hnone ⟨pre, post, rfl, hpre⟩
      · refine Or.inr ⟨c :: pre, post, rfl, hpre, ?_⟩
        rw [List.foldl_cons, typeKey_eq hdel, hpre']

/-! ### The buffer -/

/-- The first `i` bytes of the buffer are the line, which leaves room for the NUL, and
nothing was stored outside the buffer. -/
structure Holds (s : Line) (l : List Byte) : Prop where
  i : s.i = l.length
  byte : ∀ j (h : j < l.length), s.buf j = l[j]
  length : l.length ≤ bufLen - 1
  writes : ∀ w ∈ s.writes, w < bufLen

/-- The empty line, before anything was stored. -/
theorem holds_nil (console : Console) (buf : ℕ → Byte) :
    Holds { console := console, buf := buf, writes := [], i := 0 } [] where
  i := rfl
  byte := fun j h => absurd h (Nat.not_lt_zero j)
  length := Nat.zero_le _
  writes := fun _ h => absurd h List.not_mem_nil

/-- Without its last character the line is one shorter. -/
theorem Holds.dropLast {s : Line} {l : List Byte} (h : Holds s l) :
    Holds { s with i := s.i - 1 } l.dropLast where
  i := by rw [List.length_dropLast, ← h.i]
  byte := by
    intro j hj
    rw [List.length_dropLast] at hj
    rw [List.getElem_dropLast]
    exact h.byte j (by omega)
  length := by
    have := h.length
    rw [List.length_dropLast]
    omega
  writes := h.writes

/-- A character behind the line is stored at its end. -/
theorem Holds.concat {s : Line} {l : List Byte} (h : Holds s l) (hl : l.length < bufLen - 1)
    (c : Byte) : Holds { s.store c with i := s.i + 1 } (l ++ [c]) where
  i := by rw [List.length_append, List.length_singleton, h.i]
  byte := by
    intro j hj
    rw [List.length_append, List.length_singleton] at hj
    change Function.update s.buf s.i c j = _
    by_cases hlast : j = l.length
    · subst hlast
      rw [h.i, Function.update_self, List.getElem_concat_length rfl]
    · rw [h.i, Function.update_of_ne hlast, List.getElem_append_left (by omega)]
      exact h.byte j (by omega)
  length := by
    rw [List.length_append, List.length_singleton]
    omega
  writes := by
    intro w hw
    rcases List.mem_cons.mp hw with rfl | hw
    · rw [h.i]
      omega
    · exact h.writes w hw

/-- The echo does not touch the line. -/
theorem Holds.echo {s : Line} {l : List Byte} (h : Holds s l) (c : BitVec 32) :
    Holds (echo c s) l :=
  ⟨h.i, h.byte, h.length, h.writes⟩

/-- The comparisons of the loop, on a byte that `getchar` returns. -/
theorem toInt_setWidth_byte (c : Byte) : (c.setWidth 32).toInt = c.toNat := by
  rw [BitVec.toInt_eq_toNat_of_lt] <;> rw [BitVec.toNat_setWidth] <;> omega

/-- Bytes are told apart as ints. -/
theorem setWidth_byte_eq_iff (c b : Byte) : c.setWidth 32 = b.setWidth 32 ↔ c = b := by
  constructor
  · intro h
    apply BitVec.eq_of_toNat_eq
    have hnat := congrArg BitVec.toNat h
    rwa [BitVec.toNat_setWidth, BitVec.toNat_setWidth, Nat.mod_eq_of_lt (by omega),
      Nat.mod_eq_of_lt (by omega)] at hnat
  · rintro rfl
    rfl

/-- One round on a byte: the guard on a read error fails. -/
theorem readlineKey_byte (c : Byte) (s : Line) : readlineKey (c.setWidth 32) s =
    if isErase c ∧ 0 < s.i then .ok (.more { echo 0x08 s with i := s.i - 1 })
    else if 0x20 ≤ c ∧ s.i < bufLen - 1 then
      .ok (.more { (echo (c.setWidth 32) s).store c with i := s.i + 1 })
    else if isNewline c then .ok (.line ((echo 0x0A s).store 0))
    else .ok (.more s) := by
  have herase : (c.setWidth 32 = 0x08 ∨ c.setWidth 32 = 0x7F) ↔ isErase c :=
    or_congr (setWidth_byte_eq_iff c 0x08) (setWidth_byte_eq_iff c 0x7F)
  have hnewline : (c.setWidth 32 = 0x0A ∨ c.setWidth 32 = 0x0D) ↔ isNewline c :=
    or_congr (setWidth_byte_eq_iff c 0x0A) (setWidth_byte_eq_iff c 0x0D)
  have hblank : 0x20 ≤ (c.setWidth 32).toInt ↔ 0x20 ≤ c := by
    rw [toInt_setWidth_byte, BitVec.le_def]
    exact Int.ofNat_le
  have hback : (c.setWidth 32).setWidth 8 = c := by
    rw [BitVec.setWidth_setWidth_of_le _ (by decide), BitVec.setWidth_eq]
  rw [readlineKey, if_neg (by rw [toInt_setWidth_byte]; omega)]
  simp only [herase, hblank, hnewline, hback]
  rfl

/-- **One key.** It does to the buffer what `typeKey` does to the line. -/
theorem readlineKey_holds {c : Byte} (hc : ¬ isNewline c) {s : Line} {l : List Byte}
    (h : Holds s l) :
    ∃ s', readlineKey (c.setWidth 32) s = .ok (.more s') ∧ Holds s' (typeKey l c) := by
  rw [readlineKey_byte, typeKey, ← h.i]
  split
  · exact ⟨_, rfl, (h.echo 0x08).dropLast⟩
  split
  · rename_i hkept
    exact ⟨_, rfl, (h.echo (c.setWidth 32)).concat (h.i ▸ hkept.2) c⟩
  · exact ⟨s, rfl, h⟩

/-- The buffer as a C string. -/
def Line.IsString (s : Line) (l : List Byte) : Prop :=
  (∀ j (h : j < l.length), s.buf j = l[j]) ∧ s.buf l.length = 0 ∧ 0 ∉ l

/-- **The end of the line.** A newline key puts a NUL behind it. -/
theorem readlineKey_newline {nl : Byte} (hnl : isNewline nl) {s : Line} {l : List Byte}
    (h : Holds s l) (hl : 0 ∉ l) :
    ∃ s', readlineKey (nl.setWidth 32) s = .ok (.line s') ∧ s'.IsString l ∧
      ∀ w ∈ s'.writes, w < bufLen := by
  have herase : ¬ isErase nl := by
    rcases hnl with rfl | rfl <;> decide
  have hblank : ¬ 0x20 ≤ nl := by
    rcases hnl with rfl | rfl <;> decide
  rw [readlineKey_byte, if_neg fun h' => herase h'.1, if_neg fun h' => hblank h'.1, if_pos hnl]
  have hi : s.i < bufLen := h.i ▸ Nat.lt_succ_of_le h.length
  refine ⟨_, rfl, ⟨?_, ?_, hl⟩, ?_⟩
  · intro j hj
    change Function.update s.buf s.i 0 j = _
    rw [h.i, Function.update_of_ne (Nat.ne_of_lt hj)]
    exact h.byte j hj
  · change Function.update s.buf s.i 0 l.length = 0
    rw [h.i, Function.update_self]
  · intro w hw
    rcases List.mem_cons.mp hw with rfl | hw
    · exact hi
    · exact h.writes w hw

/-! ### A whole line -/

/-- The values of `getchar` for a run of keys. -/
def keys (ks : List Byte) : List (BitVec 32) :=
  ks.map (BitVec.setWidth 32)

/-- Keys of two runs. -/
theorem keys_append (ks ks' : List Byte) : keys (ks ++ ks') = keys ks ++ keys ks' :=
  List.map_append

/-- The loop goes on where a first run of keys left it. -/
theorem readlineLoop_append {cs : List (BitVec 32)} {s s' : Line}
    (h : readlineLoop cs s = .ok (.more s')) (ds : List (BitVec 32)) :
    readlineLoop (cs ++ ds) s = readlineLoop ds s' := by
  induction cs generalizing s with
  | nil =>
      rw [readlineLoop, Except.ok.injEq, Reading.more.injEq] at h
      rw [List.nil_append, h]
  | cons c cs ih =>
      rw [List.cons_append, readlineLoop]
      rw [readlineLoop] at h
      rcases hkey : readlineKey c s with e | r
      · rw [hkey, error_bind] at h
        exact nomatch h
      · rw [hkey, ok_bind] at h
        rw [ok_bind]
        cases r with
        | more s₁ => exact ih h
        | null s₁ => exact nomatch h
        | line s₁ => exact nomatch h

/-- **A run of keys.** If each key does to the state what `typeKey` does to the line, as far as a
relation `R` of the two goes, so does a run. -/
theorem readlineLoop_run {R : Line → List Byte → Prop}
    (hstep : ∀ c, ¬ isNewline c → ∀ s l, R s l →
      ∃ s', readlineKey (c.setWidth 32) s = .ok (.more s') ∧ R s' (typeKey l c))
    {ks : List Byte} (hks : ∀ c ∈ ks, ¬ isNewline c) {s : Line} {l : List Byte} (h : R s l) :
    ∃ s', readlineLoop (keys ks) s = .ok (.more s') ∧ R s' (ks.foldl typeKey l) := by
  induction ks generalizing s l with
  | nil => exact ⟨s, rfl, h⟩
  | cons c ks ih =>
      obtain ⟨s₁, hkey, h₁⟩ := hstep c (hks c List.mem_cons_self) s l h
      obtain ⟨s', hloop, h'⟩ := ih (fun c hc => hks c (List.mem_cons_of_mem _ hc)) h₁
      refine ⟨s', ?_, h'⟩
      change readlineLoop (c.setWidth 32 :: keys ks) s = _
      rw [readlineLoop, hkey, ok_bind]
      exact hloop

/-- It does so to the buffer. -/
theorem readlineLoop_holds {ks : List Byte} (hks : ∀ c ∈ ks, ¬ isNewline c) {s : Line}
    {l : List Byte} (h : Holds s l) :
    ∃ s', readlineLoop (keys ks) s = .ok (.more s') ∧ Holds s' (ks.foldl typeKey l) :=
  readlineLoop_run (fun _ hc _ _ h => readlineKey_holds hc h) hks h

/-- A prompt that can be printed: none, or a string that ends. -/
def IsPrompt (prompt : Option (List Byte)) : Prop :=
  ∀ p ∈ prompt, 0 ∈ p

/-- The prompt is printed, and the loop starts on the empty line. -/
theorem readline_eq {prompt : Option (List Byte)} (h : IsPrompt prompt) (console : Console)
    (buf : ℕ → Byte) :
    ∃ s, Holds s [] ∧ ∀ cs, readline prompt cs console buf = readlineLoop cs s := by
  cases prompt with
  | none =>
      exact ⟨_, holds_nil console buf, fun _ => rfl⟩
  | some p =>
      obtain ⟨⟨console', n⟩, hp⟩ := cprintf_string_isOk (h p rfl) console
      refine ⟨_, holds_nil console' buf, ?_⟩
      intro cs
      rw [readline, hp, ok_bind]

/-- **What `readline` does**, from the prompt on, before and at the end of the line. -/
theorem readline_run {prompt : Option (List Byte)} (hprompt : IsPrompt prompt) {ks : List Byte}
    (hks : ∀ c ∈ ks, ¬ isNewline c) {nl : Byte} (hnl : isNewline nl)
    (hl : 0 ∉ ks.foldl typeKey []) (console : Console) (buf : ℕ → Byte) :
    (∃ s, readline prompt (keys (ks ++ [nl])) console buf = .ok (.line s) ∧
      s.IsString (ks.foldl typeKey []) ∧ ∀ w ∈ s.writes, w < bufLen) ∧
    ∀ pre, pre <+: ks → ∃ s, readline prompt (keys pre) console buf = .ok (.more s) ∧
      Holds s (pre.foldl typeKey []) := by
  obtain ⟨s, hs, heq⟩ := readline_eq hprompt console buf
  constructor
  · obtain ⟨s₁, hloop, h₁⟩ := readlineLoop_holds hks hs
    obtain ⟨s₂, hkey, h₂⟩ := readlineKey_newline hnl h₁ hl
    refine ⟨s₂, ?_, h₂⟩
    rw [heq, keys_append, readlineLoop_append hloop]
    change readlineLoop [nl.setWidth 32] s₁ = _
    rw [readlineLoop, hkey, ok_bind]
    rfl
  · rintro pre ⟨post, rfl⟩
    rw [heq]
    exact readlineLoop_holds (fun c hc => hks c (List.mem_append_left _ hc)) hs

/-- **The line is edited as meant.** When it ends it is the C string of what was meant to be
kept, no store was outside the buffer, and at no time was an erase key part of it. -/
structure Edits (prompt : Option (List Byte)) (ks : List Byte) (nl : Byte) (console : Console)
    (buf : ℕ → Byte) : Prop where
  line : ∃ s, readline prompt (keys (ks ++ [nl])) console buf = .ok (.line s) ∧
    s.IsString (ks.foldl editKey []) ∧ ∀ w ∈ s.writes, w < bufLen
  kept : ∀ pre, pre <+: ks → ∃ s, readline prompt (keys pre) console buf = .ok (.more s) ∧
    ∀ j < s.i, ¬ isErase (s.buf j)

/-- No key puts a NUL into the line. -/
theorem typeKey_nonzero {l : List Byte} (hl : 0 ∉ l) (c : Byte) : 0 ∉ typeKey l c := by
  rw [typeKey]
  split
  · exact fun h => hl (List.mem_of_mem_dropLast h)
  split
  · rename_i hkept
    rw [List.mem_append, List.mem_singleton, not_or]
    refine ⟨hl, ?_⟩
    rintro rfl
    exact absurd hkept.1 (by decide)
  · exact hl

/-- No line has a NUL inside. -/
theorem foldl_typeKey_nonzero (ks : List Byte) : 0 ∉ ks.foldl typeKey [] :=
  List.foldlRecOn (motive := fun l => 0 ∉ l) ks typeKey List.not_mem_nil
    fun _ h c _ => typeKey_nonzero h c

/-- A DEL on an empty line stays one with more keys behind it. -/
theorem DelOnEmpty.of_prefix {l pre ks : List Byte} (h : DelOnEmpty l pre) (hpre : pre <+: ks) :
    DelOnEmpty l ks := by
  obtain ⟨pre', post', rfl, hempty⟩ := h
  obtain ⟨post, rfl⟩ := hpre
  exact ⟨pre', post' ++ post, by simp, hempty⟩

/-- Without a DEL on an empty line, the line is edited as meant. -/
theorem foldl_typeKey_eq {ks : List Byte} (h : ¬ DelOnEmpty [] ks) :
    ks.foldl typeKey [] = ks.foldl editKey [] := by
  rcases foldl_typeKey ks [] with ⟨-, heq⟩ | ⟨pre, post, hks, hempty, -⟩
  · exact heq
  · exact absurd ⟨pre, post, hks, hempty⟩ h

/-- **When the line is edited as meant**: exactly when no DEL is typed while the line is
empty. -/
theorem readline_edits_iff {prompt : Option (List Byte)} (hprompt : IsPrompt prompt)
    {ks : List Byte} (hks : ∀ c ∈ ks, ¬ isNewline c) {nl : Byte} (hnl : isNewline nl)
    (console : Console) (buf : ℕ → Byte) :
    Edits prompt ks nl console buf ↔ ¬ DelOnEmpty [] ks := by
  obtain ⟨hline, hpre⟩ := readline_run hprompt hks hnl (foldl_typeKey_nonzero ks) console buf
  constructor
  · intro hedits hdel
    rcases foldl_typeKey ks [] with ⟨hnone, -⟩ | ⟨pre, post, hpost, -, hempty⟩
    · exact hnone hdel
    -- right after the first such DEL the line consists of it
    have hprefix : pre ++ [0x7F] <+: ks := ⟨post, by rw [hpost]; simp⟩
    obtain ⟨s, hrun, hs⟩ := hpre _ hprefix
    obtain ⟨s', hrun', hkept⟩ := hedits.kept _ hprefix
    rw [hrun, Except.ok.injEq, Reading.more.injEq] at hrun'
    subst hrun'
    rw [List.foldl_concat, hempty, typeKey_del] at hs
    exact hkept 0 (by rw [hs.i]; decide) (Or.inr (hs.byte 0 (by decide)))
  · intro hnone
    refine ⟨foldl_typeKey_eq hnone ▸ hline, ?_⟩
    intro pre hprefix
    obtain ⟨s, hrun, hs⟩ := hpre pre hprefix
    rw [foldl_typeKey_eq fun h => hnone (h.of_prefix hprefix)] at hs
    refine ⟨s, hrun, ?_⟩
    intro j hj
    rw [hs.i] at hj
    rw [hs.byte j hj]
    exact foldl_editKey_kept pre (fun _ h => absurd h List.not_mem_nil) _ (List.getElem_mem hj)

/-- A letter, and DEL, after a prompt. -/
theorem readline_edits_iff_letter :
    Edits (some (cstr "K> ")) [0x61, 0x7F] 0x0A
      (Console.statics ⟨fun _ => 0, []⟩ ⟨0, fun _ => 0⟩) fun _ => 0 := by
  have hprompt : IsPrompt (some (cstr "K> ")) := by
    rintro p ⟨⟩
    decide
  refine (readline_edits_iff hprompt (by decide) (by decide) _ _).mpr ?_
  rintro ⟨_ | ⟨c, _ | ⟨d, pre⟩⟩, post, hks, hempty⟩
  · exact absurd hks (by simp)
  · obtain rfl : 0x61 = c := (List.cons.inj hks).1
    exact absurd hempty (by decide)
  · exact absurd hks (by simp)

/-- DEL on the empty line: it is kept, and the line that is returned consists of it. -/
theorem readline_not_edits :
    ¬ Edits none [0x7F] 0x0A (Console.statics ⟨fun _ => 0, []⟩ ⟨0, fun _ => 0⟩) fun _ => 0 := by
  intro hedits
  obtain ⟨s, hrun, ⟨-, hend, -⟩, -⟩ := hedits.line
  cases hrun
  exact absurd hend (by decide)

end Jos
