import Jos.FormatRules

/-!
# Formatting into a Buffer

`vsnprintf` of `lib/printfmt.c`, over the whole memory: the formatter with a sink that
counts every character and stores those for which there is room. The string arguments are
passed by content (`Arg.str`), so they are not among the bytes the sink stores to.

The sink keeps `Stored`, a relation to the list of the characters printed so far; since
the formatter treats its sink as a black box (`vprintfmt_agree`), the relation holds of the
complete output, whatever the directives.

## Main results

* `sprintputch_stored`: one character keeps `Stored`, whether there is room or not.
* `vsnprintf_stores`, `vsnprintf_output`: what `vsnprintf` returns, stores and leaves alone.
-/

namespace Jos

/-- `E_INVAL`. -/
abbrev eInval : BitVec 32 := 3

/-- `struct sprintbuf`. -/
structure Sprintbuf where
  buf : Addr
  ebuf : Addr
  cnt : BitVec 32

/-- The memory, and the `struct sprintbuf` on the stack. -/
structure SprintSink where
  mem : Mem
  b : Sprintbuf

/-- `sprintputch`. -/
def sprintputch (ch : BitVec 32) (s : SprintSink) : SprintSink :=
  let s := { s with b := { s.b with cnt := s.b.cnt + 1 } }
  if s.b.buf < s.b.ebuf then
    { mem := s.mem.store8 s.b.buf (ch.setWidth 8), b := { s.b with buf := s.b.buf + 1 } }
  else s

/-- `vsnprintf`: the memory after it, and what it returns. -/
def vsnprintf (mem : Mem) (buf : Addr) (n : BitVec 32) (fmt : List Byte) (ap : Args) :
    Except Fault (Mem × BitVec 32) :=
  let b : Sprintbuf := { buf := buf, ebuf := buf + n - 1, cnt := 0 }
  if buf = 0 ∨ n.toInt < 1 then .ok (mem, -eInval)
  else do
    -- print the string to the buffer
    let (s, _) ← vprintfmt sprintputch fmt ap { mem := mem, b := b }
    -- null terminate the buffer
    pure (s.mem.store8 s.b.buf 0, s.b.cnt)

/-! ### The sink -/

/-- The sink after the characters `out`, with room for `room` of them from `buf` on: all of
them are counted, and those there is room for are stored, one after the other. -/
structure Stored (mem : Mem) (buf : Addr) (room : ℕ) (s : SprintSink)
    (out : List (BitVec 32)) : Prop where
  cnt : s.b.cnt = BitVec.ofNat 32 out.length
  ebuf : s.b.ebuf = buf + BitVec.ofNat 32 room
  ptr : s.b.buf = buf + BitVec.ofNat 32 (min out.length room)
  byte : ∀ i (h : i < out.length), i < room →
    s.mem.byte (buf + BitVec.ofNat 32 i) = out[i].setWidth 8
  frame : ∀ a, (∀ i < min out.length room, a ≠ buf + BitVec.ofNat 32 i) →
    s.mem.byte a = mem.byte a

theorem add_ofNat_ne {buf : Addr} {i j : ℕ} (hi : buf.toNat + i < 2 ^ 32)
    (hj : buf.toNat + j < 2 ^ 32) (h : i ≠ j) :
    buf + BitVec.ofNat 32 i ≠ buf + BitVec.ofNat 32 j := by
  intro heq
  have hnat := congrArg BitVec.toNat heq
  rw [toNat_add_ofNat hi, toNat_add_ofNat hj] at hnat
  omega

/-- **One character.** It is counted, and stored if there is room. -/
theorem sprintputch_stored {mem : Mem} {buf : Addr} {room : ℕ}
    (hroom : buf.toNat + room < 2 ^ 32) (c : BitVec 32) {s : SprintSink}
    {out : List (BitVec 32)} (h : Stored mem buf room s out) :
    Stored mem buf room (sprintputch c s) (out ++ [c]) := by
  have hcnt : s.b.cnt + 1 = BitVec.ofNat 32 (out ++ [c]).length := by
    rw [h.cnt, List.length_append, List.length_singleton, BitVec.ofNat_add]
    rfl
  have hptr := h.ptr
  rw [sprintputch]
  by_cases hfull : out.length < room
  · rw [Nat.min_eq_left (by omega)] at hptr
    have hlt : s.b.buf < s.b.ebuf := by
      rw [BitVec.lt_def, hptr, h.ebuf, toNat_add_ofNat (by omega), toNat_add_ofNat hroom]
      omega
    have hmin : min (out ++ [c]).length room = out.length + 1 := by
      rw [List.length_append, List.length_singleton]
      omega
    simp only [if_pos hlt]
    refine ⟨hcnt, h.ebuf, ?_, ?_, ?_⟩
    · rw [hmin, hptr, Mem.add_ofNat_add_one]
    · intro i hi hir
      rw [List.length_append, List.length_singleton] at hi
      rw [Mem.byte_store8, hptr]
      by_cases hlast : i = out.length
      · subst hlast
        rw [if_pos rfl, List.getElem_concat_length rfl]
      · rw [if_neg (add_ofNat_ne (by omega) (by omega) hlast), h.byte i (by omega) hir,
          List.getElem_append_left (by omega)]
    · intro a ha
      rw [hmin] at ha
      rw [Mem.byte_store8, hptr, if_neg (ha out.length (by omega))]
      exact h.frame a fun i hi => ha i (by omega)
  · rw [Nat.min_eq_right (by omega)] at hptr
    have hge : ¬ s.b.buf < s.b.ebuf := by
      rw [hptr, h.ebuf]
      exact BitVec.lt_irrefl _
    have hmin : min (out ++ [c]).length room = min out.length room := by
      rw [List.length_append, List.length_singleton]
      omega
    simp only [if_neg hge]
    refine ⟨hcnt, h.ebuf, by rw [hmin]; exact h.ptr, ?_, by rw [hmin]; exact h.frame⟩
    intro i hi hir
    rw [List.getElem_append_left (by omega)]
    exact h.byte i (by omega) hir

/-- The sink before the first character. -/
theorem stored_nil (mem : Mem) (buf : Addr) (room : ℕ) :
    Stored mem buf room
      { mem := mem, b := { buf := buf, ebuf := buf + BitVec.ofNat 32 room, cnt := 0 } } [] where
  cnt := rfl
  ebuf := rfl
  ptr := by simp
  byte := fun i h => absurd h (Nat.not_lt_zero i)
  frame := fun _ _ => rfl

/-- **The sink after a whole format.** -/
theorem vprintfmt_stored {t : List Byte} (ht : 0 ∉ t) {ap rest : Args} {out : List (BitVec 32)}
    (hout : output (t ++ [0]) ap = .ok (out, rest)) (mem : Mem) {buf : Addr} {room : ℕ}
    (hroom : buf.toNat + room < 2 ^ 32) :
    ∃ s, vprintfmt sprintputch (t ++ [0]) ap
        { mem := mem, b := { buf := buf, ebuf := buf + BitVec.ofNat 32 room, cnt := 0 } } =
          .ok (s, rest) ∧
      Stored mem buf room s out := by
  have h := vprintfmt_agree (fun c s out h => sprintputch_stored hroom c h) ht ap
    (stored_nil mem buf room)
  change Agree _ _ (output (t ++ [0]) ap) at h
  rw [hout] at h
  generalize vprintfmt sprintputch (t ++ [0]) ap _ = x at h ⊢
  cases h with
  | @ok a _ h =>
      obtain ⟨s, ap'⟩ := a
      obtain ⟨hs, rfl⟩ := h
      exact ⟨s, rfl, hs⟩

/-! ### The call -/

/-- What the call stores in a buffer of `n ≥ 1` bytes, and what it returns. -/
theorem vsnprintf_stores {t : List Byte} (ht : 0 ∉ t) (mem : Mem) {buf : Addr} {n : BitVec 32}
    {ap rest : Args} {out : List (BitVec 32)} (hout : output (t ++ [0]) ap = .ok (out, rest))
    (hbuf : buf ≠ 0) (hn : 1 ≤ n.toInt) (hend : buf.toNat + n.toNat ≤ 2 ^ 32) :
    ∃ mem', vsnprintf mem buf n (t ++ [0]) ap = .ok (mem', BitVec.ofNat 32 out.length) ∧
      (∀ i (h : i < out.length), i < n.toNat - 1 →
        mem'.byte (buf + BitVec.ofNat 32 i) = out[i].setWidth 8) ∧
      mem'.byte (buf + BitVec.ofNat 32 (min out.length (n.toNat - 1))) = 0 ∧
      ∀ a, (∀ i ≤ min out.length (n.toNat - 1), a ≠ buf + BitVec.ofNat 32 i) →
        mem'.byte a = mem.byte a := by
  have hn' : 1 ≤ n.toNat := by
    by_contra h
    have hzero : n = 0 := BitVec.eq_of_toNat_eq (by simp; omega)
    rw [hzero] at hn
    exact absurd hn (by decide)
  have hebuf : buf + n - 1 = buf + BitVec.ofNat 32 (n.toNat - 1) := by
    have hone : n - 1 = BitVec.ofNat 32 (n.toNat - 1) := by
      apply BitVec.eq_of_toNat_eq
      rw [BitVec.toNat_sub_of_le (by rw [BitVec.le_def]; exact hn'), BitVec.toNat_ofNat,
        Nat.mod_eq_of_lt (by have := n.isLt; omega)]
      rfl
    rw [← hone]
    ring
  have hroom : buf.toNat + (n.toNat - 1) < 2 ^ 32 := by omega
  obtain ⟨s, hs, hstored⟩ := vprintfmt_stored ht hout mem hroom
  rw [vsnprintf, if_neg (not_or.mpr ⟨hbuf, by omega⟩), hebuf, hs]
  have hmin : min out.length (n.toNat - 1) ≤ n.toNat - 1 := Nat.min_le_right _ _
  refine ⟨_, by rw [← hstored.cnt]; rfl, ?_, ?_, ?_⟩
  · intro i hi hir
    rw [Mem.byte_store8, hstored.ptr,
      if_neg (add_ofNat_ne (by omega) (by omega) (by omega)), hstored.byte i hi hir]
  · rw [Mem.byte_store8, hstored.ptr, if_pos rfl]
  · intro a ha
    rw [Mem.byte_store8, hstored.ptr, if_neg (ha _ (Nat.le_refl _))]
    exact hstored.frame a fun i hi => ha i (Nat.le_of_lt hi)

/-- A count below `2 ^ 31` is read back as it is. -/
theorem toInt_ofNat_of_lt {k : ℕ} (h : k < 2 ^ 31) : (BitVec.ofNat 32 k).toInt = k := by
  have hnat : (BitVec.ofNat 32 k).toNat = k := by
    rw [BitVec.toNat_ofNat, Nat.mod_eq_of_lt (by omega)]
  rw [BitVec.toInt_eq_toNat_of_lt (by omega), hnat]

/-- **Bounded formatting.** With a buffer of `n ≥ 1` bytes, `vsnprintf` returns the length
of the complete output, stores as much of it as fits before a NUL, and changes nothing
else; without a buffer it returns `-E_INVAL` and changes nothing. -/
theorem vsnprintf_output {t : List Byte} (ht : 0 ∉ t) (mem : Mem) (buf : Addr) (n : BitVec 32)
    (ap : Args) :
    (∀ out rest, output (t ++ [0]) ap = .ok (out, rest) → out.length < 2 ^ 31 →
      buf ≠ 0 → 1 ≤ n.toInt → buf.toNat + n.toNat ≤ 2 ^ 32 →
      ∃ mem' rc, vsnprintf mem buf n (t ++ [0]) ap = .ok (mem', rc) ∧
        rc.toInt = out.length ∧
        (∀ i (h : i < out.length), i < n.toNat - 1 →
          mem'.byte (buf + BitVec.ofNat 32 i) = out[i].setWidth 8) ∧
        mem'.byte (buf + BitVec.ofNat 32 (min out.length (n.toNat - 1))) = 0 ∧
        ∀ a, (∀ i ≤ min out.length (n.toNat - 1), a ≠ buf + BitVec.ofNat 32 i) →
          mem'.byte a = mem.byte a) ∧
    (buf = 0 ∨ n.toInt < 1 → vsnprintf mem buf n (t ++ [0]) ap = .ok (mem, -eInval)) := by
  constructor
  · intro out rest hout hlen hbuf hn hend
    obtain ⟨mem', hcall, hbyte, hnul, hframe⟩ := vsnprintf_stores ht mem hout hbuf hn hend
    exact ⟨mem', _, hcall, toInt_ofNat_of_lt hlen, hbyte, hnul, hframe⟩
  · intro h
    rw [vsnprintf, if_pos h]

/-- Two letters into a buffer of two bytes: one fits. -/
theorem vsnprintf_output_letters :
    ∃ mem' rc, vsnprintf ⟨fun _ => 0xFF, []⟩ 0x1000 2 (cstr "a%c") [.word 0x62] = .ok (mem', rc) ∧
      rc.toInt = 2 ∧ mem'.byte 0x1000 = 0x61 ∧ mem'.byte 0x1001 = 0 ∧ mem'.byte 0x1002 = 0xFF := by
  have hnul : (0 : Byte) ∉ "a%c".toList.map chr := by decide
  obtain ⟨mem', rc, h, hrc, hbyte, hend, hframe⟩ :=
    (vsnprintf_output hnul ⟨fun _ => 0xFF, []⟩ 0x1000 2 [.word 0x62]).1 [0x61, 0x62] [] rfl
      (by decide) (by decide) (by decide) (by decide)
  exact ⟨mem', rc, h, hrc, hbyte 0 (by decide) (by decide), hend, hframe 0x1002 (by decide)⟩

end Jos
