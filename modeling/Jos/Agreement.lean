import Jos.Escape
import Mathlib.Algebra.Group.Nat.Even
import Mathlib.Algebra.Ring.Parity

/-!
# The Output Devices Agree

What the ports should receive of a stream of bytes: everything but the escape sequences
`ESC [ parameters final`. `Reads` is the grammar of such streams, a reading being the
list of kept bytes and removed sequences; `Scan` reads a stream byte by byte.

`cons_putc` deviates in two places. The blanks of a tab go through the ports, and an ESC
that follows a held ESC is printed at once instead of being held itself, so that a
sequence it begins is printed as text. The proof runs the parser (`Passed`) beside the
reading (`Scan`): as long as neither place is met they keep step (`InSync`), and from the
first such place on the bytes passed on can never again be the bytes kept (`Apart`),
whatever follows. For the tab this is a surplus of blanks, for the sequence a surplus of
ESC bytes, counted with what both machines hold back (`debt`).

## Main results

* `scan_of_reads`: scanning finds the reading.
* `run_track`: after any stream the two machines are in step, or apart for good.
* `consBytes_agree_iff`: the ports receive exactly the kept bytes if and only if the
  reading is `Clean`.
-/

namespace Jos

open Console

/-! ### Readings -/

/-- A byte that is kept, or a control sequence that is removed. -/
inductive Token
  | byte (b : Byte)
  | csi
deriving DecidableEq

/-- The byte of a token, if it is one. -/
def Token.byte? : Token → Option Byte
  | byte b => some b
  | csi => none

/-- The bytes kept by a reading, in order. -/
def kept (ts : List Token) : List Byte :=
  ts.filterMap Token.byte?

/-- A stream with no incomplete escape sequence at its end, and its reading. An ESC begins
a sequence when `[` follows, and is a byte like any other when something else does. -/
inductive Reads : List Byte → List Token → Prop
  | nil : Reads [] []
  | csi {ps : List Byte} {f : Byte} {bs : List Byte} {ts : List Token}
      (hps : ∀ p ∈ ps, isParam p) (hf : ¬ isParam f) (h : Reads bs ts) :
      Reads (0x1B :: 0x5B :: (ps ++ f :: bs)) (.csi :: ts)
  | byte {b : Byte} {bs : List Byte} {ts : List Token} (hb : b ≠ 0x1B) (h : Reads bs ts) :
      Reads (b :: bs) (.byte b :: ts)
  | esc {b : Byte} {bs : List Byte} {ts : List Token} (hb : b ≠ 0x5B)
      (h : Reads (b :: bs) ts) : Reads (0x1B :: b :: bs) (.byte 0x1B :: ts)

/-- The number of ESC bytes kept right before the place a reading has come to. -/
def escRun (ts : List Token) : ℕ :=
  (ts.reverse.takeWhile (· = .byte 0x1B)).length

/-- A reading on which the code does what it should: no tab is kept, and no sequence comes
right after an odd number of kept ESC bytes. -/
structure Clean (ts : List Token) : Prop where
  tab : .byte 0x09 ∉ ts
  even : ∀ pre post, ts = pre ++ .csi :: post → Even (escRun pre)

/-! ### Reading byte by byte -/

/-- Where a reading is, and the tokens read so far. -/
structure Scan where
  mode : Mode
  tokens : List Token

/-- The reading on one more byte. -/
def Scan.step (r : Scan) (b : Byte) : Scan :=
  match r.mode with
  | .text =>
      if b = 0x1B then { r with mode := .esc }
      else { r with tokens := r.tokens ++ [.byte b] }
  | .esc =>
      if b = 0x5B then { r with mode := .csi }
      else if b = 0x1B then { r with tokens := r.tokens ++ [.byte 0x1B] }
      else { mode := .text, tokens := r.tokens ++ [.byte 0x1B, .byte b] }
  | .csi =>
      if isParam b then r else { mode := .text, tokens := r.tokens ++ [.csi] }

/-- Parameter bytes do not end a sequence. -/
theorem scan_params {ps : List Byte} (hps : ∀ p ∈ ps, isParam p) (ts : List Token) :
    ps.foldl Scan.step ⟨.csi, ts⟩ = ⟨.csi, ts⟩ := by
  induction ps with
  | nil => rfl
  | cons p ps ih =>
      have hp : isParam p := hps p (List.mem_cons_self ..)
      rw [List.foldl_cons, Scan.step, if_pos hp]
      exact ih fun q hq => hps q (List.mem_cons_of_mem p hq)

/-- A held ESC before a byte that is not `[` is kept, and the byte is read as in text. -/
theorem scan_esc {b : Byte} (hb : b ≠ 0x5B) (ts : List Token) :
    Scan.step ⟨.esc, ts⟩ b = Scan.step ⟨.text, ts ++ [.byte 0x1B]⟩ b := by
  simp only [Scan.step, if_neg hb]
  by_cases h1B : b = 0x1B
  · simp only [if_pos h1B]
  · simp only [if_neg h1B, List.append_assoc, List.singleton_append]

/-- **Scanning finds the reading.** -/
theorem scan_of_reads {bs : List Byte} {ts : List Token} (h : Reads bs ts) (ts₀ : List Token) :
    bs.foldl Scan.step ⟨.text, ts₀⟩ = ⟨.text, ts₀ ++ ts⟩ := by
  induction h generalizing ts₀ with
  | nil => rw [List.append_nil, List.foldl_nil]
  | @csi ps f bs ts hps hf _ ih =>
      have hopen : List.foldl Scan.step ⟨.text, ts₀⟩ [0x1B, 0x5B] = ⟨.csi, ts₀⟩ := rfl
      have hclose : Scan.step ⟨.csi, ts₀⟩ f = ⟨.text, ts₀ ++ [.csi]⟩ := if_neg hf
      rw [show (0x1B :: 0x5B :: (ps ++ f :: bs)) = [0x1B, 0x5B] ++ (ps ++ f :: bs) from rfl,
        List.foldl_append, hopen, List.foldl_append, scan_params hps, List.foldl_cons, hclose, ih,
        List.append_assoc, List.singleton_append]
  | @byte b bs ts hb _ ih =>
      have hkeep : Scan.step ⟨.text, ts₀⟩ b = ⟨.text, ts₀ ++ [.byte b]⟩ := if_neg hb
      rw [List.foldl_cons, hkeep, ih, List.append_assoc, List.singleton_append]
  | @esc b bs ts hb _ ih =>
      have hhold : Scan.step ⟨.text, ts₀⟩ 0x1B = ⟨.esc, ts₀⟩ := rfl
      have hnext := ih (ts₀ ++ [.byte 0x1B])
      rw [List.foldl_cons] at hnext
      rw [List.foldl_cons, hhold, List.foldl_cons, scan_esc hb, hnext, List.append_assoc,
        List.singleton_append]

/-- Where a sequence ends, when it does. -/
theorem exists_final_of_scan (bs : List Byte) (ts₀ : List Token)
    (h : (bs.foldl Scan.step ⟨.csi, ts₀⟩).mode = .text) :
    ∃ ps f bs', bs = ps ++ f :: bs' ∧ (∀ p ∈ ps, isParam p) ∧ ¬ isParam f ∧
      (bs'.foldl Scan.step ⟨.text, ts₀ ++ [.csi]⟩).mode = .text := by
  induction bs with
  | nil => exact Mode.noConfusion h
  | cons b bs ih =>
      rw [List.foldl_cons] at h
      by_cases hb : isParam b
      · have hstep : Scan.step ⟨.csi, ts₀⟩ b = ⟨.csi, ts₀⟩ := if_pos hb
        rw [hstep] at h
        obtain ⟨ps, f, bs', rfl, hps, hf, hrest⟩ := ih h
        exact ⟨b :: ps, f, bs', rfl, List.forall_mem_cons.mpr ⟨hb, hps⟩, hf, hrest⟩
      · have hstep : Scan.step ⟨.csi, ts₀⟩ b = ⟨.text, ts₀ ++ [.csi]⟩ := if_neg hb
        rw [hstep] at h
        exact ⟨[], b, bs, rfl, by simp, hb, h⟩

/-- A stream has a reading when scanning it ends outside escape sequences. -/
theorem exists_reads (bs : List Byte) (ts₀ : List Token)
    (h : (bs.foldl Scan.step ⟨.text, ts₀⟩).mode = .text) : ∃ ts, Reads bs ts := by
  induction hn : bs.length using Nat.strong_induction_on generalizing bs ts₀ with
  | _ n ih =>
      rcases bs with _ | ⟨b, bs⟩
      · exact ⟨[], .nil⟩
      rw [List.length_cons] at hn
      rw [List.foldl_cons] at h
      by_cases hb : b = 0x1B
      · have hhold : Scan.step ⟨.text, ts₀⟩ b = ⟨.esc, ts₀⟩ := if_pos hb
        rw [hhold] at h
        subst hb
        rcases bs with _ | ⟨b', bs⟩
        · exact Mode.noConfusion h
        rw [List.length_cons] at hn
        rw [List.foldl_cons] at h
        by_cases hb' : b' = 0x5B
        · have hopen : Scan.step ⟨.esc, ts₀⟩ b' = ⟨.csi, ts₀⟩ := if_pos hb'
          rw [hopen] at h
          obtain ⟨ps, f, bs', rfl, hps, hf, hrest⟩ := exists_final_of_scan bs ts₀ h
          rw [List.length_append, List.length_cons] at hn
          obtain ⟨ts, hts⟩ := ih _ (by omega) bs' _ hrest rfl
          subst hb'
          exact ⟨_, .csi hps hf hts⟩
        · rw [scan_esc hb', ← List.foldl_cons] at h
          obtain ⟨ts, hts⟩ := ih (bs.length + 1) (by omega) (b' :: bs) _ h rfl
          exact ⟨_, .esc hb' hts⟩
      · have hkeep : Scan.step ⟨.text, ts₀⟩ b = ⟨.text, ts₀ ++ [.byte b]⟩ := if_neg hb
        rw [hkeep] at h
        obtain ⟨ts, hts⟩ := ih _ (by omega) bs _ h rfl
        exact ⟨_, .byte hb hts⟩

/-- **The streams with no incomplete escape sequence** are those that have a reading. -/
theorem exists_reads_iff (bs : List Byte) :
    (∃ ts, Reads bs ts) ↔ (bs.foldl Scan.step ⟨.text, []⟩).mode = .text :=
  ⟨fun ⟨_, h⟩ => by rw [scan_of_reads h], exists_reads bs []⟩

/-! ### Clean readings, token by token -/

/-- What is kept of two runs of tokens is kept of each. -/
@[simp] theorem kept_append (ts us : List Token) : kept (ts ++ us) = kept ts ++ kept us :=
  List.filterMap_append ..

/-- A byte is kept. -/
@[simp] theorem kept_byte (b : Byte) : kept [.byte b] = [b] := rfl

/-- A sequence is not. -/
@[simp] theorem kept_csi : kept [.csi] = [] := rfl

/-- An ESC makes the run at the end longer. -/
@[simp] theorem escRun_append_esc (ts : List Token) :
    escRun (ts ++ [.byte 0x1B]) = escRun ts + 1 := by
  simp [escRun]

/-- Any other token ends it. -/
theorem escRun_append_of_ne (ts : List Token) {t : Token} (ht : t ≠ .byte 0x1B) :
    escRun (ts ++ [t]) = 0 := by
  rw [escRun, List.reverse_append, List.reverse_singleton, List.singleton_append,
    List.takeWhile_cons_of_neg (by simpa using ht), List.length_nil]

/-- No token is clean. -/
theorem clean_nil : Clean [] :=
  ⟨List.not_mem_nil, fun pre post h => by simp at h⟩

/-- A reading that goes on from a clean one. -/
theorem clean_append_singleton (ts : List Token) (t : Token) :
    Clean (ts ++ [t]) ↔ Clean ts ∧ t ≠ .byte 0x09 ∧ (t = .csi → Even (escRun ts)) := by
  constructor
  · intro h
    refine ⟨⟨fun hm => h.tab (List.mem_append_left _ hm), fun pre post heq => ?_⟩, ?_, ?_⟩
    · exact h.even pre (post ++ [t]) (by rw [heq]; simp)
    · exact fun ht => h.tab (by simp [ht])
    · exact fun ht => h.even ts [] (by rw [ht])
  · rintro ⟨hts, htab, hcsi⟩
    refine ⟨fun hm => ?_, fun pre post heq => ?_⟩
    · rcases List.mem_append.mp hm with h | h
      · exact hts.tab h
      · exact htab (List.mem_singleton.mp h).symm
    · rcases List.eq_nil_or_concat post with rfl | ⟨post', t', rfl⟩
      · obtain ⟨rfl, h⟩ := List.append_inj' heq rfl
        exact hcsi (List.singleton_inj.mp h)
      · rw [List.concat_eq_append, ← List.cons_append, ← List.append_assoc] at heq
        exact hts.even pre post' (List.append_inj_left' heq rfl)

/-- A byte behind clean tokens is clean unless it is a tab. -/
theorem clean_append_byte (ts : List Token) (b : Byte) :
    Clean (ts ++ [.byte b]) ↔ Clean ts ∧ b ≠ 0x09 := by
  rw [clean_append_singleton]
  simp

/-- A sequence behind clean tokens is clean behind an even run of ESCs. -/
theorem clean_append_csi (ts : List Token) :
    Clean (ts ++ [.csi]) ↔ Clean ts ∧ Even (escRun ts) := by
  rw [clean_append_singleton]
  simp

/-! ### Parser and reading side by side -/

/-- Parser and reading in step: the same mode and the same bytes, but for an ESC that the
reading holds and the parser, after an odd number of them, has already passed on. -/
inductive InSync (r : Scan) (p : Passed) : Prop
  | text (hr : r.mode = .text) (hp : p.mode = .text) (hout : p.out = kept r.tokens)
      (hrun : escRun r.tokens = 0)
  | held (hr : r.mode = .esc) (hp : p.mode = .esc) (hout : p.out = kept r.tokens)
      (hrun : Even (escRun r.tokens))
  | early (hr : r.mode = .esc) (hp : p.mode = .text) (hout : p.out = kept r.tokens ++ [0x1B])
      (hrun : ¬ Even (escRun r.tokens))
  | csi (hr : r.mode = .csi) (hp : p.mode = .csi) (hout : p.out = kept r.tokens)
      (hrun : Even (escRun r.tokens))

/-- The modes parser and reading can be in at the same time. -/
def Meet (m n : Mode) : Prop :=
  m = n ∨ m = .text ∨ n = .text

/-- The ESC bytes a machine holds back. -/
def Mode.holds : Mode → ℤ
  | text => 0
  | esc => 1
  | csi => 0

/-- The ESC bytes the parser has passed on or holds. -/
def Passed.weight (p : Passed) : ℤ :=
  p.out.count 0x1B + p.mode.holds

/-- The ESC bytes the reading has kept or holds. -/
def Scan.weight (r : Scan) : ℤ :=
  (kept r.tokens).count 0x1B + r.mode.holds

/-- By how many ESC bytes the parser (in mode `m`) will at least get ahead of the reading
(in mode `n`) until both are in text again. -/
def debt : Mode → Mode → ℤ
  | .text, .csi => 1
  | .csi, .text => 1
  | .esc, .text => 2
  | _, _ => 0

/-- Parser and reading apart for good. -/
inductive Apart (r : Scan) (p : Passed) : Prop
  /-- the outputs already differ at some place -/
  | differ (w : List Byte) {x y : Byte} (u v : List Byte) (hne : x ≠ y)
      (hp : p.out = w ++ x :: u) (hr : kept r.tokens = w ++ y :: v)
  /-- the parser is ahead by an ESC byte that the reading will not make up for -/
  | ahead (hmeet : Meet p.mode r.mode)
      (hlt : r.weight + debt p.mode r.mode < p.weight)
  /-- the parser takes for text what the reading takes for a sequence, or has just begun a
  sequence where the reading has ended one -/
  | adrift (hmode : p.mode = .text ∧ r.mode = .csi ∨ p.mode = .esc ∧ r.mode = .text)
      (hle : r.weight + debt p.mode r.mode ≤ p.weight)
      (w : List Byte) (hp : p.out = kept r.tokens ++ 0x1B :: w)
  /-- the parser has passed on blanks that the reading has not kept -/
  | blanks (hmode : p.mode = r.mode) (k : ℕ)
      (hp : p.out = kept r.tokens ++ List.replicate (k + 1) 0x20)

/-- The reading has met a place where the code deviates: it is unclean, or about to be when
the sequence ends. -/
def Scan.Spoiled (r : Scan) : Prop :=
  ¬ Clean r.tokens ∨ r.mode = .csi ∧ ¬ Even (escRun r.tokens)

/-- What a step adds to a reading. -/
theorem exists_tokens_step (r : Scan) (b : Byte) :
    ∃ ts, (r.step b).tokens = r.tokens ++ ts := by
  rw [Scan.step]
  split
  · split
    · exact ⟨[], (List.append_nil _).symm⟩
    · exact ⟨_, rfl⟩
  · split
    · exact ⟨[], (List.append_nil _).symm⟩
    split <;> exact ⟨_, rfl⟩
  · split
    · exact ⟨[], (List.append_nil _).symm⟩
    · exact ⟨_, rfl⟩

/-- What a step passes on. -/
theorem exists_out_step (p : Passed) (b : Byte) : ∃ w, (p.step b).out = p.out ++ w := by
  rw [Passed.step]
  split
  · split
    · exact ⟨[], (List.append_nil _).symm⟩
    · exact ⟨_, rfl⟩
  · split
    · exact ⟨[], (List.append_nil _).symm⟩
    · exact ⟨_, rfl⟩
  · split <;> exact ⟨[], (List.append_nil _).symm⟩

/-! ### Counting ESC bytes -/

/-- By how much a byte changes the ESC bytes passed on or held, in mode `m`: an ESC adds
one, unless it ends a sequence, and a `[` that begins one takes the held ESC away. Parser
and reading agree on this. -/
def gain (m : Mode) (b : Byte) : ℤ :=
  match m with
  | .text => if b = 0x1B then 1 else 0
  | .esc => if b = 0x5B then -1 else if b = 0x1B then 1 else 0
  | .csi => 0

/-- The blanks of a tab are no ESCs. -/
theorem count_tabBlanks (b : Byte) : (tabBlanks b).count 0x1B = 0 := by
  rw [tabBlanks]
  split <;> decide

/-- A byte alone. -/
theorem count_byte (b : Byte) (w : List Byte) :
    (b :: w).count 0x1B = w.count 0x1B + if b = 0x1B then 1 else 0 := by
  rw [List.count_cons]
  simp

/-- What a byte adds to the weight on the side of the console. -/
theorem weight_passed_step (p : Passed) (b : Byte) :
    (p.step b).weight = p.weight + gain p.mode b := by
  obtain ⟨mode, out⟩ := p
  cases mode with
  | text =>
      by_cases h : b = 0x1B
      · simp only [Passed.step, Passed.weight, gain, if_pos h, Mode.holds, add_zero]
      · simp only [Passed.step, Passed.weight, gain, if_neg h, Mode.holds, List.count_append,
          count_byte, count_tabBlanks, add_zero]
  | esc =>
      by_cases h : b = 0x5B
      · simp only [Passed.step, Passed.weight, gain, if_pos h, Mode.holds]
        omega
      · simp only [Passed.step, Passed.weight, gain, if_neg h, Mode.holds, List.count_append,
          count_byte, count_tabBlanks, if_true]
        split <;> push_cast <;> omega
  | csi =>
      by_cases h : isParam b
      · simp only [Passed.step, Passed.weight, gain, if_pos h, add_zero]
      · simp only [Passed.step, Passed.weight, gain, if_neg h, Mode.holds, add_zero]

/-- What it adds on the side of the scan. -/
theorem weight_scan_step (r : Scan) (b : Byte) :
    (r.step b).weight = r.weight + gain r.mode b := by
  obtain ⟨mode, ts⟩ := r
  have hnil : ([] : List Byte).count 0x1B = 0 := rfl
  cases mode with
  | text =>
      by_cases h : b = 0x1B
      · simp only [Scan.step, Scan.weight, gain, if_pos h, Mode.holds, add_zero]
      · simp only [Scan.step, Scan.weight, gain, if_neg h, Mode.holds, kept_append, kept_byte,
          List.count_append, count_byte, hnil, add_zero]
  | esc =>
      by_cases h : b = 0x5B
      · simp only [Scan.step, Scan.weight, gain, if_pos h, Mode.holds]
        omega
      by_cases h1B : b = 0x1B
      · simp only [Scan.step, Scan.weight, gain, if_neg h, if_pos h1B, Mode.holds, kept_append,
          kept_byte, List.count_append, count_byte, hnil, if_true]
        push_cast
        omega
      · have hpair : kept [.byte 0x1B, .byte b] = [0x1B, b] := rfl
        simp only [Scan.step, Scan.weight, gain, if_neg h, if_neg h1B, Mode.holds, kept_append,
          hpair, List.count_append, count_byte, hnil, if_true]
        push_cast
        omega
  | csi =>
      by_cases h : isParam b
      · simp only [Scan.step, Scan.weight, gain, if_pos h, add_zero]
      · simp only [Scan.step, Scan.weight, gain, if_neg h, Mode.holds, kept_append, kept_csi,
          List.append_nil, add_zero]

/-- **The debt is paid.** Parser and reading stay within the modes they can meet in, and
what the parser gains on the reading covers what the debt grows by. -/
theorem debt_step {r : Scan} {p : Passed} (hmeet : Meet p.mode r.mode) (b : Byte) :
    Meet (p.step b).mode (r.step b).mode ∧
      debt (p.step b).mode (r.step b).mode + gain r.mode b ≤
        debt p.mode r.mode + gain p.mode b := by
  obtain ⟨m, out⟩ := p
  obtain ⟨n, ts⟩ := r
  by_cases h1B : b = 0x1B
  · subst h1B
    revert hmeet
    cases m <;> cases n <;> simp [Meet, Passed.step, Scan.step, gain, debt, isParam]
  by_cases h5B : b = 0x5B
  · subst h5B
    revert hmeet
    cases m <;> cases n <;> simp [Meet, Passed.step, Scan.step, gain, debt, isParam]
  revert hmeet
  by_cases hparam : isParam b
  · cases m <;> cases n <;>
      simp only [Meet, Passed.step, Scan.step, gain, debt, if_neg h1B, if_neg h5B,
        if_pos hparam] <;>
      simp
  · cases m <;> cases n <;>
      simp only [Meet, Passed.step, Scan.step, gain, debt, if_neg h1B, if_neg h5B,
        if_neg hparam] <;>
      simp

/-! ### Apart for good -/

/-- Outputs that differ somewhere go on differing there. -/
theorem apart_of_differ {r : Scan} {p : Passed} (w : List Byte) {x y : Byte} (u v : List Byte)
    (hne : x ≠ y) (hp : p.out = w ++ x :: u) (hr : kept r.tokens = w ++ y :: v) (b : Byte) :
    Apart (r.step b) (p.step b) := by
  obtain ⟨out, hout⟩ := exists_out_step p b
  obtain ⟨ts, hts⟩ := exists_tokens_step r b
  refine .differ w (u ++ out) (v ++ kept ts) hne ?_ ?_
  · rw [hout, hp, List.append_assoc, List.cons_append]
  · rw [hts, kept_append, hr, List.append_assoc, List.cons_append]

/-- A parser that is ahead stays ahead. -/
theorem apart_of_ahead {r : Scan} {p : Passed} (hmeet : Meet p.mode r.mode)
    (hlt : r.weight + debt p.mode r.mode < p.weight) (b : Byte) :
    Apart (r.step b) (p.step b) := by
  obtain ⟨hmeet', hdebt⟩ := debt_step hmeet b
  refine .ahead hmeet' ?_
  rw [weight_scan_step, weight_passed_step]
  omega

/-- A parser adrift gets ahead of the reading when both are in text again; until then its
surplus ESC stays where the reading ends. -/
theorem apart_of_adrift {r : Scan} {p : Passed}
    (hmode : p.mode = .text ∧ r.mode = .csi ∨ p.mode = .esc ∧ r.mode = .text)
    (hle : r.weight + debt p.mode r.mode ≤ p.weight) (w : List Byte)
    (hp : p.out = kept r.tokens ++ 0x1B :: w) (b : Byte) : Apart (r.step b) (p.step b) := by
  obtain ⟨m, out⟩ := p
  obtain ⟨n, ts⟩ := r
  change out = kept ts ++ 0x1B :: w at hp
  have hr' := weight_scan_step ⟨n, ts⟩ b
  have hp' := weight_passed_step ⟨m, out⟩ b
  rcases hmode with ⟨rfl, rfl⟩ | ⟨rfl, rfl⟩
  · -- the reading is inside a sequence, the parser in text
    by_cases h1B : b = 0x1B
    · -- the ESC ends the sequence and begins one
      have hfinal : ¬ isParam b := by rw [h1B]; decide
      simp only [Scan.step, Passed.step, if_pos h1B, if_neg hfinal, gain, debt] at hr' hp' hle ⊢
      refine .adrift (Or.inr ⟨rfl, rfl⟩) ?_ w (by simpa using hp)
      simp only [debt]
      omega
    by_cases hparam : isParam b
    · simp only [Scan.step, Passed.step, if_neg h1B, if_pos hparam, gain, debt] at hr' hp' hle ⊢
      refine .adrift (Or.inl ⟨rfl, rfl⟩) ?_ (w ++ b :: tabBlanks b) ?_
      · simp only [debt]
        omega
      · rw [hp, List.append_assoc, List.cons_append]
    · simp only [Scan.step, Passed.step, if_neg h1B, if_neg hparam, gain, debt] at hr' hp' hle ⊢
      refine .ahead (Or.inl rfl) ?_
      simp only [debt]
      omega
  · -- the parser holds an ESC, the reading is in text
    by_cases h5B : b = 0x5B
    · -- what the parser takes for a sequence is kept
      have hne : b ≠ 0x1B := by rw [h5B]; decide
      simp only [Scan.step, Passed.step, if_pos h5B, if_neg hne]
      exact .differ (kept ts) w [] (Ne.symm hne) hp (by simp)
    by_cases h1B : b = 0x1B
    · simp only [Scan.step, Passed.step, if_neg h5B, if_pos h1B, gain, debt] at hr' hp' hle ⊢
      refine .ahead (Or.inr (Or.inl rfl)) ?_
      simp only [debt]
      omega
    · simp only [Scan.step, Passed.step, if_neg h5B, if_neg h1B, gain, debt] at hr' hp' hle ⊢
      refine .ahead (Or.inl rfl) ?_
      simp only [debt]
      omega

/-- Surplus blanks go on being surplus, or become a difference. -/
theorem apart_of_blanks {r : Scan} {p : Passed} (hmode : p.mode = r.mode) (k : ℕ)
    (hp : p.out = kept r.tokens ++ List.replicate (k + 1) 0x20) (b : Byte) :
    Apart (r.step b) (p.step b) := by
  obtain ⟨m, out⟩ := p
  obtain ⟨n, ts⟩ := r
  change out = kept ts ++ List.replicate (k + 1) 0x20 at hp
  have hp' : ∀ w, out ++ w = kept ts ++ 0x20 :: (List.replicate k 0x20 ++ w) := by
    intro w
    rw [hp, List.replicate_succ, List.append_assoc, List.cons_append]
  have hblank : (0x20 : Byte) ≠ 0x1B := by decide
  obtain rfl : m = n := hmode
  cases m with
  | text =>
      by_cases h1B : b = 0x1B
      · simp only [Scan.step, Passed.step, if_pos h1B]
        exact .blanks rfl k hp
      simp only [Scan.step, Passed.step, if_neg h1B]
      by_cases h20 : b = 0x20
      · refine .blanks rfl k ?_
        subst h20
        rw [hp, kept_append, kept_byte, List.append_assoc, List.append_assoc]
        exact congrArg _ List.replicate_succ'.symm
      · exact .differ (kept ts) _ [] (Ne.symm h20) (hp' _) (by simp)
  | esc =>
      by_cases h5B : b = 0x5B
      · simp only [Scan.step, Passed.step, if_pos h5B]
        exact .blanks rfl k hp
      by_cases h1B : b = 0x1B
      · simp only [Scan.step, Passed.step, if_neg h5B, if_pos h1B]
        exact .differ (kept ts) _ [] hblank (hp' _) (by simp)
      · simp only [Scan.step, Passed.step, if_neg h5B, if_neg h1B]
        exact .differ (kept ts) _ [b] hblank (hp' _) (by rw [kept_append]; rfl)
  | csi =>
      by_cases hparam : isParam b
      · simp only [Scan.step, Passed.step, if_pos hparam]
        exact .blanks rfl k hp
      · simp only [Scan.step, Passed.step, if_neg hparam]
        exact .blanks rfl k (by simpa using hp)

/-- **Apart for good.** No byte brings parser and reading together again. -/
theorem Apart.step {r : Scan} {p : Passed} (h : Apart r p) (b : Byte) :
    Apart (r.step b) (p.step b) := by
  cases h with
  | differ w u v hne hp hr => exact apart_of_differ w u v hne hp hr b
  | ahead hmeet hlt => exact apart_of_ahead hmeet hlt b
  | adrift hmode hle w hp => exact apart_of_adrift hmode hle w hp b
  | blanks hmode k hp => exact apart_of_blanks hmode k hp b

/-- A spoiled reading stays spoiled. -/
theorem Scan.Spoiled.step {r : Scan} (h : r.Spoiled) (b : Byte) : (r.step b).Spoiled := by
  rcases h with h | ⟨hmode, hodd⟩
  · left
    obtain ⟨ts, hts⟩ := exists_tokens_step r b
    rw [hts]
    refine fun hclean => h ⟨fun hm => hclean.tab (List.mem_append_left _ hm), ?_⟩
    intro pre post heq
    exact hclean.even pre (post ++ ts) (by rw [heq, List.append_assoc, List.cons_append])
  · obtain ⟨n, ts⟩ := r
    obtain rfl : n = .csi := hmode
    by_cases hparam : isParam b
    · simp only [Scan.step, if_pos hparam]
      exact Or.inr ⟨rfl, hodd⟩
    · simp only [Scan.step, if_neg hparam]
      exact Or.inl fun hclean => hodd ((clean_append_csi ts).mp hclean).2

/-- In text, a parser apart from the reading has passed on other bytes than were kept. -/
theorem Apart.ne {r : Scan} {p : Passed} (h : Apart r p) (hr : r.mode = .text) :
    p.out ≠ kept r.tokens := by
  intro heq
  cases h with
  | differ w u v hne hp hk =>
      rw [hp, hk] at heq
      exact hne (List.cons.inj (List.append_cancel_left heq)).1
  | ahead _ hlt =>
      rw [Scan.weight, Passed.weight, heq, hr] at hlt
      revert hlt
      cases p.mode <;> simp only [Mode.holds, debt] <;> omega
  | adrift _ _ w hp =>
      rw [heq] at hp
      exact absurd (congrArg List.length hp) (by simp)
  | blanks _ k hp =>
      rw [heq] at hp
      exact absurd (congrArg List.length hp) (by simp)

/-! ### In step -/

/-- What is printed of a kept byte, once the reading has it. -/
theorem track_of_kept {ts : List Token} {out : List Byte} {b : Byte} (hclean : Clean ts)
    (hb : b ≠ 0x1B) (hout : out = kept ts) :
    (InSync ⟨.text, ts ++ [.byte b]⟩ ⟨.text, out ++ b :: tabBlanks b⟩ ∧
        Clean (ts ++ [.byte b])) ∨
      (Apart ⟨.text, ts ++ [.byte b]⟩ ⟨.text, out ++ b :: tabBlanks b⟩ ∧
        Scan.Spoiled ⟨.text, ts ++ [.byte b]⟩) := by
  by_cases h09 : b = 0x09
  · right
    refine ⟨.blanks rfl 4 ?_, Or.inl fun h => ((clean_append_byte ts b).mp h).2 h09⟩
    simp only [hout, tabBlanks, if_pos h09, kept_append, kept_byte, List.append_assoc,
      List.singleton_append]
  · left
    refine ⟨.text rfl rfl ?_ (escRun_append_of_ne ts fun h => hb (Token.byte.inj h)),
      (clean_append_byte ts b).mpr ⟨hclean, h09⟩⟩
    simp only [hout, tabBlanks, if_neg h09, kept_append, kept_byte]

/-- **One byte in step.** Parser and reading stay in step on a clean reading, unless the
byte is a tab or a `[` after an ESC that the parser has already passed on. -/
theorem InSync.step {r : Scan} {p : Passed} (h : InSync r p) (hclean : Clean r.tokens)
    (b : Byte) :
    (InSync (r.step b) (p.step b) ∧ Clean (r.step b).tokens) ∨
      (Apart (r.step b) (p.step b) ∧ (r.step b).Spoiled) := by
  obtain ⟨n, ts⟩ := r
  obtain ⟨m, out⟩ := p
  have hclean1B : Clean (ts ++ [.byte 0x1B]) := (clean_append_byte ts 0x1B).mpr ⟨hclean, by decide⟩
  have hassoc : ts ++ [.byte 0x1B, .byte b] = ts ++ [.byte 0x1B] ++ [.byte b] := by simp
  cases h with
  | text hr hp hout hrun =>
      obtain rfl : n = .text := hr
      obtain rfl : m = .text := hp
      by_cases h1B : b = 0x1B
      · simp only [Scan.step, Passed.step, if_pos h1B]
        exact Or.inl ⟨.held rfl rfl hout (by rw [hrun]; exact Even.zero), hclean⟩
      · simp only [Scan.step, Passed.step, if_neg h1B]
        exact track_of_kept hclean h1B hout
  | held hr hp hout hrun =>
      obtain rfl : n = .esc := hr
      obtain rfl : m = .esc := hp
      change out = kept ts at hout
      by_cases h5B : b = 0x5B
      · simp only [Scan.step, Passed.step, if_pos h5B]
        exact Or.inl ⟨.csi rfl rfl hout hrun, hclean⟩
      by_cases h1B : b = 0x1B
      · -- the parser lets go of both ESC bytes
        simp only [Scan.step, Passed.step, if_neg h5B, if_pos h1B]
        refine Or.inl ⟨.early rfl rfl ?_ ?_, hclean1B⟩
        · simp [hout, h1B, tabBlanks]
        · rw [escRun_append_esc]
          exact fun h => Nat.even_add_one.mp h hrun
      · have hpair : out ++ 0x1B :: b :: tabBlanks b = out ++ [0x1B] ++ b :: tabBlanks b := by simp
        simp only [Scan.step, Passed.step, if_neg h5B, if_neg h1B, hassoc, hpair]
        exact track_of_kept hclean1B h1B (by rw [hout, kept_append, kept_byte])
  | early hr hp hout hrun =>
      obtain rfl : n = .esc := hr
      obtain rfl : m = .text := hp
      change out = kept ts ++ [0x1B] at hout
      by_cases h5B : b = 0x5B
      · -- the sequence begins, and the parser prints it
        have hne : b ≠ 0x1B := by rw [h5B]; decide
        simp only [Scan.step, Passed.step, if_pos h5B, if_neg hne]
        refine Or.inr ⟨.adrift (Or.inl ⟨rfl, rfl⟩) ?_ (b :: tabBlanks b) ?_, Or.inr ⟨rfl, hrun⟩⟩
        · simp only [Scan.weight, Passed.weight, hout, List.count_append,
            count_byte, count_tabBlanks, if_neg hne, debt, Mode.holds]
          push_cast
          simp
        · rw [hout, List.append_assoc, List.singleton_append]
      by_cases h1B : b = 0x1B
      · simp only [Scan.step, Passed.step, if_neg h5B, if_pos h1B]
        refine Or.inl ⟨.held rfl rfl (by rw [kept_append]; exact hout) ?_, hclean1B⟩
        rw [escRun_append_esc]
        exact Nat.even_add_one.mpr hrun
      · simp only [Scan.step, Passed.step, if_neg h5B, if_neg h1B, hassoc]
        exact track_of_kept hclean1B h1B (by rw [kept_append]; exact hout)
  | csi hr hp hout hrun =>
      obtain rfl : n = .csi := hr
      obtain rfl : m = .csi := hp
      by_cases hparam : isParam b
      · simp only [Scan.step, Passed.step, if_pos hparam]
        exact Or.inl ⟨.csi rfl rfl hout hrun, hclean⟩
      · simp only [Scan.step, Passed.step, if_neg hparam]
        refine Or.inl ⟨.text rfl rfl (by simpa using hout) ?_,
          (clean_append_csi ts).mpr ⟨hclean, hrun⟩⟩
        exact escRun_append_of_ne ts Token.noConfusion

/-- **Along a run**, parser and reading are in step on a clean reading, or apart for good on
a spoiled one. -/
theorem run_track (bs : List Byte) {r : Scan} {p : Passed}
    (h : (InSync r p ∧ Clean r.tokens) ∨ (Apart r p ∧ r.Spoiled)) :
    (InSync (bs.foldl Scan.step r) (bs.foldl Passed.step p) ∧
        Clean (bs.foldl Scan.step r).tokens) ∨
      (Apart (bs.foldl Scan.step r) (bs.foldl Passed.step p) ∧
        (bs.foldl Scan.step r).Spoiled) := by
  induction bs generalizing r p with
  | nil => exact h
  | cons b bs ih =>
      refine ih ?_
      rcases h with ⟨hsync, hclean⟩ | ⟨hapart, hspoiled⟩
      · exact hsync.step hclean b
      · exact Or.inr ⟨hapart.step b, hspoiled.step b⟩

/-- **What is passed on is what is kept**, exactly for clean readings. -/
theorem passed_iff_clean {bs : List Byte} {ts : List Token} (h : Reads bs ts) :
    (bs.foldl Passed.step .start).out = kept ts ↔ Clean ts := by
  have hscan := scan_of_reads h []
  have htrack := run_track bs (r := ⟨.text, []⟩) (p := .start)
    (Or.inl ⟨.text rfl rfl rfl rfl, clean_nil⟩)
  rw [hscan, List.nil_append] at htrack
  rcases htrack with ⟨hsync, hclean⟩ | ⟨hapart, hspoiled⟩
  · refine ⟨fun _ => hclean, fun _ => ?_⟩
    cases hsync with
    | text _ _ hout _ => exact hout
    | held hr => exact Mode.noConfusion hr
    | early hr => exact Mode.noConfusion hr
    | csi hr => exact Mode.noConfusion hr
  · refine ⟨fun heq => absurd heq (hapart.ne rfl), fun hclean => ?_⟩
    rcases hspoiled with hunclean | ⟨hmode, -⟩
    · exact absurd hclean hunclean
    · exact Mode.noConfusion hmode

/-! ### The ports -/

/-- **When the output devices agree with the stream.** A stream without an incomplete
escape sequence at its end, given to `cons_putc` in the ground state, reaches both ports
with the sequences removed and every other byte kept once and in order, if and only if its
reading is clean: no tab is kept, and no sequence comes right after an odd number of kept
ESC bytes. -/
theorem consBytes_agree_iff {s : Console} (hv : s.Video)
    (hattr : s.crtAttr.setWidth 8 = (0 : Byte)) (he : s.esc = 0) {bs : List Byte}
    {ts : List Token} (h : Reads bs ts) :
    ((consBytes bs s).serialOut = s.serialOut ++ kept ts ∧
      (consBytes bs s).lptOut = s.lptOut ++ kept ts) ↔ Clean ts := by
  have hrun := consBytes_passes (passes_start hv hattr he) bs
  rw [hrun.serialOut, hrun.lptOut, List.append_cancel_left_eq, List.append_cancel_left_eq,
    and_self]
  exact passed_iff_clean h

/-- A letter is a clean reading. -/
theorem consBytes_agree_iff_letter :
    let s := cgaInit 0xA55A (statics ⟨fun _ => 0, []⟩ ⟨0, fun _ => 0⟩)
    ((consBytes [0x41] s).serialOut = s.serialOut ++ [0x41] ∧
      (consBytes [0x41] s).lptOut = s.lptOut ++ [0x41]) ↔ Clean [.byte 0x41] :=
  consBytes_agree_iff (Or.inl ⟨rfl, rfl⟩) (by decide) rfl (.byte (by decide) .nil)

/-- The two deviations: a tab is followed by five blanks, and the sequence after a kept ESC
is printed. -/
theorem consBytes_not_agree :
    let s := cgaInit 0xA55A (statics ⟨fun _ => 0, []⟩ ⟨0, fun _ => 0⟩)
    (Reads [0x09] [.byte 0x09] ∧
      (consBytes [0x09] s).serialOut ≠ s.serialOut ++ kept [.byte 0x09]) ∧
    (Reads [0x1B, 0x1B, 0x5B, 0x6D] [.byte 0x1B, .csi] ∧
      (consBytes [0x1B, 0x1B, 0x5B, 0x6D] s).serialOut ≠
        s.serialOut ++ kept [.byte 0x1B, .csi]) := by
  intro s
  have hrun := consBytes_passes (cgaInit_passes 0xA55A ⟨fun _ => 0, []⟩ ⟨0, fun _ => 0⟩)
  have hnone : ∀ p ∈ ([] : List Byte), isParam p := fun p hp => absurd hp List.not_mem_nil
  refine ⟨⟨.byte (by decide) .nil, fun h => ?_⟩,
    ⟨.esc (by decide) (.csi hnone (by decide) .nil), fun h => ?_⟩⟩
  · have hout := List.append_cancel_left ((hrun [0x09]).serialOut.symm.trans h)
    revert hout
    decide
  · have hout := List.append_cancel_left
      ((hrun [0x1B, 0x1B, 0x5B, 0x6D]).serialOut.symm.trans h)
    revert hout
    decide

end Jos
