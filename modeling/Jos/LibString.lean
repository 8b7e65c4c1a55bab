import Jos.Memory

/-!
# The String Library

The routines of `lib/string.c` the rest of the kernel rests on. `memmove` and `memset` are the
string-instruction versions the kernel is built with, over the whole memory: they pick an
element width from the alignment, and `memmove` a direction from the order of the two
pointers; `memmovePlain` is the other version. The routines that walk strings (`strnlen`,
`strfind`, `strchr`, `strcmp`, `strncmp`, `memcmp`) take the bytes that can be read from the
pointers on; a walk that runs past them is `none`.

## Main results

* `byte_memmove`: in both directions and at both widths `memmove` is a simultaneous copy,
  and `memmove_within`: it stores inside the destination only.
* `memmove_exact`: so is the plain version.
* `memset_fills`: `memset` sets every byte of its region, and `memset_within`: no other.
* `strfind_spec`: the run of bytes `strfind` skips holds neither the byte it looks for
  nor a NUL.
* `strnlen_nul`, `strchr_nul`: on strings that end, `strnlen` counts up to the size, and
  `strchr` finds what is there.
* `strings_ordered`: `strcmp`, `strncmp` and `memcmp` agree on **one order of strings**.
-/

namespace Jos

/-- `memmove`, the `ASM` version. The remainders are those of the signed views of the
pointers; the adjusted end pointers are those the string instructions are started with. -/
def memmove (m : Mem) (dst src : Addr) (n : BitVec 32) : Mem :=
  let s := src
  let d := dst
  if s < d ∧ s + n > d then
    let s := s + n
    let d := d + n
    if s.toInt.tmod 4 = 0 ∧ d.toInt.tmod 4 = 0 ∧ n % 4 = 0 then
      Mem.rep Mem.movsl (-4) (n / 4).toNat m (d - 4) (s - 4)
    else
      Mem.rep Mem.movsb (-1) n.toNat m (d - 1) (s - 1)
  else
    if s.toInt.tmod 4 = 0 ∧ d.toInt.tmod 4 = 0 ∧ n % 4 = 0 then
      Mem.rep Mem.movsl 4 (n / 4).toNat m d s
    else
      Mem.rep Mem.movsb 1 n.toNat m d s

/-- A length that is a multiple of four, in doublewords. -/
theorem four_mul_div_four {n : BitVec 32} (h : n % 4 = 0) : 4 * (n / 4).toNat = n.toNat := by
  have hmod : (n % 4).toNat = 0 := by rw [h]; rfl
  rw [BitVec.toNat_umod, show (4 : BitVec 32).toNat = 4 from rfl] at hmod
  rw [BitVec.toNat_udiv, show (4 : BitVec 32).toNat = 4 from rfl]
  omega

/-- A source that starts below the destination does not start inside it. -/
theorem src_apart_of_overlap {dst src : Addr} {n : BitVec 32}
    (hd : dst.toNat + n.toNat ≤ 2 ^ 32) (h : src < dst) :
    src = dst ∨ n.toNat ≤ (src - dst).toNat := by
  have hlt : src.toNat < dst.toNat := h
  rw [BitVec.toNat_sub]
  omega

/-- A destination that the test for an overlap finds apart does not start inside the source. -/
theorem dst_apart_of_not_overlap {dst src : Addr} {n : BitVec 32}
    (hs : src.toNat + n.toNat ≤ 2 ^ 32) (hd : dst.toNat + n.toNat ≤ 2 ^ 32)
    (h : ¬ (src < dst ∧ src + n > dst)) : dst = src ∨ n.toNat ≤ (dst - src).toNat := by
  by_cases hlt : src < dst
  · -- the end of the source does not wrap here: the destination lies above it
    have hle : ¬ dst.toNat < (src + n).toNat := fun h' => h ⟨hlt, h'⟩
    have hlt' : src.toNat < dst.toNat := hlt
    rw [BitVec.toNat_add] at hle
    rw [BitVec.toNat_sub]
    omega
  · have hle : ¬ src.toNat < dst.toNat := hlt
    rcases Nat.eq_or_lt_of_le (Nat.le_of_not_lt hle) with h | h
    · exact Or.inl (BitVec.eq_of_toNat_eq h)
    · rw [BitVec.toNat_sub]
      omega

/-- **`memmove` is exact.** The destination ends up holding the original source bytes,
whatever the overlap, and every other byte is as before. -/
theorem byte_memmove (m : Mem) {dst src : Addr} {n : BitVec 32}
    (hs : src.toNat + n.toNat ≤ 2 ^ 32) (hd : dst.toNat + n.toNat ≤ 2 ^ 32) (a : Addr) :
    (memmove m dst src n).byte a = m.copied dst src n.toNat a := by
  have hn : n.toNat ≤ 2 ^ 32 := by omega
  simp only [memmove]
  split
  · rename_i hov
    have hsep := src_apart_of_overlap hd hov.1
    split
    · rename_i hal
      have h4 := four_mul_div_four hal.2.2
      have := Mem.rep_backward Mem.moves_movsl (by decide) (n / 4).toNat m dst src
        (by omega) (by rw [h4]; exact hsep) a
      rw [h4, BitVec.ofNat_toNat, BitVec.setWidth_eq] at this
      exact this
    · have := Mem.rep_backward Mem.moves_movsb (by decide) n.toNat m dst src
        (by omega) (by rw [Nat.one_mul]; exact hsep) a
      rw [Nat.one_mul, BitVec.ofNat_toNat, BitVec.setWidth_eq] at this
      exact this
  · rename_i hov
    have hsep := dst_apart_of_not_overlap hs hd hov
    split
    · rename_i hal
      have h4 := four_mul_div_four hal.2.2
      have := Mem.rep_forward Mem.moves_movsl (by decide) (n / 4).toNat m dst src
        (by omega) (by rw [h4]; exact hsep) a
      rw [h4] at this
      exact this
    · have := Mem.rep_forward Mem.moves_movsb (by decide) n.toNat m dst src
        (by omega) (by rw [Nat.one_mul]; exact hsep) a
      rw [Nat.one_mul] at this
      exact this

/-- `memmove` stores inside the destination only. -/
theorem memmove_within (m : Mem) (dst src : Addr) (n : BitVec 32) :
    Mem.Within (Mem.Span dst n.toNat) m (memmove m dst src n) := by
  have hn : n.toNat < 2 ^ 32 := n.isLt
  simp only [memmove]
  split
  · split
    · rename_i hal
      have h4 := four_mul_div_four hal.2.2
      have := Mem.rep_backward_within Mem.moves_movsl (n / 4).toNat m dst (src + n - 4)
        (by omega)
      rw [h4, BitVec.ofNat_toNat, BitVec.setWidth_eq] at this
      exact this
    · have := Mem.rep_backward_within Mem.moves_movsb n.toNat m dst (src + n - 1)
        (by omega)
      rw [Nat.one_mul, BitVec.ofNat_toNat, BitVec.setWidth_eq] at this
      exact this
  · split
    · rename_i hal
      have h4 := four_mul_div_four hal.2.2
      have := Mem.rep_forward_within Mem.moves_movsl (by decide) (n / 4).toNat m dst src
        (by omega)
      rw [h4] at this
      exact this
    · have := Mem.rep_forward_within Mem.moves_movsb (by decide) n.toNat m dst src
        (by omega)
      rw [Nat.one_mul] at this
      exact this

/-- The loop `while (n-- > 0) *d++ = *s++`. -/
def copyUp : ℕ → Mem → Addr → Addr → Mem
  | 0, m, _, _ => m
  | n + 1, m, d, s => copyUp n (m.store8 d (m.byte s)) (d + 1) (s + 1)

/-- The loop `while (n-- > 0) *--d = *--s`. -/
def copyDown : ℕ → Mem → Addr → Addr → Mem
  | 0, m, _, _ => m
  | n + 1, m, d, s => copyDown n (m.store8 (d - 1) (m.byte (s - 1))) (d - 1) (s - 1)

/-- `memmove`, the version under `#else`. -/
def memmovePlain (m : Mem) (dst src : Addr) (n : BitVec 32) : Mem :=
  let s := src
  let d := dst
  if s < d ∧ s + n > d then
    let s := s + n
    let d := d + n
    copyDown n.toNat m d s
  else
    copyUp n.toNat m d s

/-- The loops do what the string instructions for bytes do. -/
theorem copyUp_eq (n : ℕ) (m : Mem) (d s : Addr) :
    copyUp n m d s = Mem.rep Mem.movsb 1 n m d s := by
  induction n generalizing m d s with
  | zero => rfl
  | succ n ih => exact ih _ _ _

theorem copyDown_eq (n : ℕ) (m : Mem) (d s : Addr) :
    copyDown n m d s = Mem.rep Mem.movsb (-1) n m (d - 1) (s - 1) := by
  induction n generalizing m d s with
  | zero => rfl
  | succ n ih =>
      rw [copyDown, ih, Mem.rep, ← sub_eq_add_neg, ← sub_eq_add_neg]
      rfl

/-- The version under `#else` is exact as well. -/
theorem byte_memmovePlain (m : Mem) {dst src : Addr} {n : BitVec 32}
    (hs : src.toNat + n.toNat ≤ 2 ^ 32) (hd : dst.toNat + n.toNat ≤ 2 ^ 32) (a : Addr) :
    (memmovePlain m dst src n).byte a = m.copied dst src n.toNat a := by
  have hn : 1 * n.toNat ≤ 2 ^ 32 := by omega
  simp only [memmovePlain]
  split
  · rename_i hov
    have := Mem.rep_backward Mem.moves_movsb (by decide) n.toNat m dst src hn
      (by rw [Nat.one_mul]; exact src_apart_of_overlap hd hov.1) a
    rw [Nat.one_mul, BitVec.ofNat_toNat, BitVec.setWidth_eq] at this
    rw [copyDown_eq]
    exact this
  · rename_i hov
    have := Mem.rep_forward Mem.moves_movsb (by decide) n.toNat m dst src hn
      (by rw [Nat.one_mul]; exact dst_apart_of_not_overlap hs hd hov) a
    rw [Nat.one_mul] at this
    rw [copyUp_eq]
    exact this

/-- **`memmove` is a simultaneous copy**, in both versions: for all pointers and lengths whose
regions end in the address space, whatever their overlap and alignment. -/
theorem memmove_exact (m : Mem) {dst src : Addr} {n : BitVec 32}
    (hs : src.toNat + n.toNat ≤ 2 ^ 32) (hd : dst.toNat + n.toNat ≤ 2 ^ 32) :
    (∀ i < n.toNat, (memmove m dst src n).byte (dst + BitVec.ofNat 32 i) =
      m.byte (src + BitVec.ofNat 32 i)) ∧
    (∀ a, ¬ Mem.Span dst n.toNat a → (memmove m dst src n).byte a = m.byte a) ∧
    (memmovePlain m dst src n).byte = (memmove m dst src n).byte := by
  refine ⟨fun i hi => ?_, (memmove_within m dst src n).frame, funext fun a => ?_⟩
  · have hlt := n.isLt
    have hoff : dst + BitVec.ofNat 32 i - dst = BitVec.ofNat 32 i := by ring
    rw [byte_memmove m hs hd, Mem.copied, hoff, BitVec.toNat_ofNat, Nat.mod_eq_of_lt (by omega),
      if_pos hi]
  · rw [byte_memmovePlain m hs hd, byte_memmove m hs hd]

/-- Three bytes moved up by one, onto themselves. -/
theorem memmove_exact_overlap :
    (∀ i < 3, (memmove ⟨fun a => a.setWidth 8, []⟩ 11 10 3).byte (11 + BitVec.ofNat 32 i) =
      (10 + BitVec.ofNat 32 i : Addr).setWidth 8) ∧
    (∀ a, ¬ Mem.Span 11 3 a →
      (memmove ⟨fun a => a.setWidth 8, []⟩ 11 10 3).byte a = a.setWidth 8) ∧
    (memmovePlain ⟨fun a => a.setWidth 8, []⟩ 11 10 3).byte =
      (memmove ⟨fun a => a.setWidth 8, []⟩ 11 10 3).byte :=
  memmove_exact ⟨fun a => a.setWidth 8, []⟩ (n := 3) (by decide) (by decide)

/-! ### Filling -/

/-- `memset`, the `ASM` version. The remainder is that of the signed view of the pointer. -/
def memset (m : Mem) (v : Addr) (c n : BitVec 32) : Mem :=
  if n = 0 then m
  else if v.toInt.tmod 4 = 0 ∧ n % 4 = 0 then
    let c := c &&& 0xFF
    let c := (c <<< 24) ||| (c <<< 16) ||| (c <<< 8) ||| c
    Mem.repStos (Mem.stosl c) 4 (n / 4).toNat m v
  else
    Mem.repStos (Mem.stosb c) 1 n.toNat m v

/-- The bits of the mask for the low byte. -/
theorem getLsbD_0xFF : ∀ i < 32, (0xFF : BitVec 32).getLsbD i = decide (i < 8) := by
  decide

/-- The low byte of an int. -/
theorem and_0xFF (c : BitVec 32) : c &&& 0xFF = (c.setWidth 8 : Byte).setWidth 32 := by
  apply BitVec.eq_of_getLsbD_eq
  intro i hi
  rw [BitVec.getLsbD_and, getLsbD_0xFF i hi]
  by_cases h : i < 8 <;> simp [h, hi]

/-- The word that `memset` builds of a byte. -/
theorem setWidth_replicated : ∀ b : Byte, ∀ k < 4,
    ((((b.setWidth 32 <<< 24) ||| (b.setWidth 32 <<< 16) ||| (b.setWidth 32 <<< 8) |||
      b.setWidth 32 : BitVec 32) >>> (8 * k)).setWidth 8 : Byte) = b := by
  decide

/-- **`memset` is exact**: whichever path is taken, the bytes are those that storing byte by
byte leaves. -/
theorem byte_memset (m : Mem) (v : Addr) (c n : BitVec 32) (a : Addr) :
    (memset m v c n).byte a = m.filled v n.toNat (c.setWidth 8) a := by
  have hn : n.toNat < 2 ^ 32 := n.isLt
  rw [memset]
  split
  · rename_i hzero
    subst hzero
    exact (if_neg (Nat.not_lt_zero _)).symm
  split
  · rename_i hal
    have h4 := four_mul_div_four hal.2
    have hword := fun k => setWidth_replicated (c.setWidth 8) k
    simp only [and_0xFF]
    have := Mem.repStos_fills (Mem.fills_stosl (hword 0 (by decide)) (hword 1 (by decide))
      (hword 2 (by decide)) (hword 3 (by decide))) (by decide) (n / 4).toNat m v (by omega) a
    rw [h4] at this
    exact this
  · have := Mem.repStos_fills (Mem.fills_stosb c) (by decide) n.toNat m v (by omega) a
    rw [Nat.one_mul] at this
    exact this

/-- `memset` stores inside its region only. -/
theorem memset_within (m : Mem) (v : Addr) (c n : BitVec 32) :
    Mem.Within (Mem.Span v n.toNat) m (memset m v c n) := by
  have hn : n.toNat < 2 ^ 32 := n.isLt
  rw [memset]
  split
  · exact Mem.Within.refl _ m
  split
  · rename_i hal
    have h4 := four_mul_div_four hal.2
    have hword := fun k => setWidth_replicated (c.setWidth 8) k
    simp only [and_0xFF]
    have := Mem.repStos_within (Mem.fills_stosl (hword 0 (by decide)) (hword 1 (by decide))
      (hword 2 (by decide)) (hword 3 (by decide))) (by decide) (n / 4).toNat m v (by omega)
    rw [h4] at this
    exact this
  · have := Mem.repStos_within (Mem.fills_stosb c) (by decide) n.toNat m v (by omega)
    rw [Nat.one_mul] at this
    exact this

/-- **`memset` sets every byte to the low byte of its argument**, and no other, and leaves the
memory that the path for bytes leaves. -/
theorem memset_fills (m : Mem) (v : Addr) (c n : BitVec 32) :
    (∀ i < n.toNat, (memset m v c n).byte (v + BitVec.ofNat 32 i) = c.setWidth 8) ∧
    (∀ a, ¬ Mem.Span v n.toNat a → (memset m v c n).byte a = m.byte a) ∧
    (memset m v c n).byte = (Mem.repStos (Mem.stosb c) 1 n.toNat m v).byte := by
  have hlt := n.isLt
  refine ⟨fun i hi => ?_, (memset_within m v c n).frame, funext fun a => ?_⟩
  · have hoff : v + BitVec.ofNat 32 i - v = BitVec.ofNat 32 i := by ring
    rw [byte_memset, Mem.filled, hoff, BitVec.toNat_ofNat, Nat.mod_eq_of_lt (by omega), if_pos hi]
  · have := Mem.repStos_fills (Mem.fills_stosb c) (by decide) n.toNat m v (by omega) a
    rw [Nat.one_mul] at this
    rw [byte_memset]
    exact this.symm

/-! ### Walking a string -/

/-- `strnlen`, over the bytes that can be read from `s` on: `none` when the walk needs
one more byte than there are. -/
def strnlen : List Byte → ℕ → Option ℕ
  | _, 0 => some 0
  | [], _ + 1 => none
  | b :: s, size + 1 => if b = 0 then some 0 else (strnlen s size).map (· + 1)

/-- `strfind`, over the bytes that can be read from `s` on: how far the returned pointer
lies past `s`, `none` when the walk needs one more byte than there are. -/
def strfind : List Byte → Byte → Option ℕ
  | [], _ => none
  | b :: s, c => if b = 0 then some 0 else if b = c then some 0 else (strfind s c).map (· + 1)

/-- The length of a string that ends, or the size if that is smaller. -/
theorem strnlen_nul {s : List Byte} (hs : 0 ∉ s) (rest : List Byte) (size : ℕ) :
    strnlen (s ++ 0 :: rest) size = some (min s.length size) := by
  induction s generalizing size with
  | nil =>
      rw [List.length_nil, Nat.zero_min]
      cases size with
      | zero => rfl
      | succ size => exact if_pos rfl
  | cons b s ih =>
      have hb : b ≠ 0 := fun h => hs (h ▸ List.mem_cons_self)
      cases size with
      | zero => rfl
      | succ size =>
          rw [List.cons_append, strnlen, if_neg hb, ih fun h => hs (List.mem_cons_of_mem b h),
            Option.map_some, List.length_cons, Nat.succ_min_succ]

/-- A string that holds a NUL is walked without reading past it. -/
theorem strfind_isSome {s : List Byte} (c : Byte) (h : (0 : Byte) ∈ s) :
    ∃ k, strfind s c = some k := by
  induction s with
  | nil => cases h
  | cons b s ih =>
      by_cases hb : b = 0
      · exact ⟨0, by rw [strfind, if_pos hb]⟩
      · by_cases hc : b = c
        · exact ⟨0, by rw [strfind, if_neg hb, if_pos hc]⟩
        · have hmem : (0 : Byte) ∈ s := by
            rcases List.mem_cons.mp h with h' | h'
            · exact absurd h'.symm hb
            · exact h'
          obtain ⟨k, hk⟩ := ih hmem
          exact ⟨k + 1, by rw [strfind, if_neg hb, if_neg hc, hk]; rfl⟩

/-- The run `strfind` skips is inside the bytes it may read, and holds neither the byte
it looks for nor a NUL. -/
theorem strfind_spec {s : List Byte} {c : Byte} {k : ℕ} (h : strfind s c = some k) :
    k < s.length ∧ ∀ b ∈ s.take k, b ≠ c ∧ b ≠ 0 := by
  induction s generalizing k with
  | nil => cases h
  | cons b s ih =>
      rw [strfind] at h
      by_cases hb : b = 0
      · rw [if_pos hb, Option.some.injEq] at h
        subst h
        simp
      · by_cases hc : b = c
        · rw [if_neg hb, if_pos hc, Option.some.injEq] at h
          subst h
          simp
        · rw [if_neg hb, if_neg hc, Option.map_eq_some_iff] at h
          obtain ⟨k', hk', rfl⟩ := h
          obtain ⟨hlt, hrun⟩ := ih hk'
          refine ⟨by simpa using hlt, fun b' hb' => ?_⟩
          rw [List.take_succ_cons] at hb'
          rcases List.mem_cons.mp hb' with rfl | hb'
          · exact ⟨hc, hb⟩
          · exact hrun b' hb'

/-- `strchr`, over the bytes that can be read from `s` on: how far the returned pointer lies
past `s`, or that it is null; `none` when the walk needs one more byte than there are. -/
def strchr : List Byte → Byte → Option (Option ℕ)
  | [], _ => none
  | b :: s, c =>
      if b = 0 then some none
      else if b = c then some (some 0)
      else (strchr s c).map fun r => r.map (· + 1)

/-- `strcmp`, over the bytes that can be read from its two pointers on: `none` when it needs
one more byte than there are. -/
def strcmp : List Byte → List Byte → Option (BitVec 32)
  | b :: p, c :: q =>
      if b ≠ 0 ∧ b = c then strcmp p q else some (b.setWidth 32 - c.setWidth 32)
  | _, _ => none

/-- `strncmp`, likewise. -/
def strncmp : List Byte → List Byte → ℕ → Option (BitVec 32)
  | _, _, 0 => some 0
  | b :: p, c :: q, n + 1 =>
      if b ≠ 0 ∧ b = c then strncmp p q n else some (b.setWidth 32 - c.setWidth 32)
  | _, _, _ + 1 => none

/-- `memcmp`, likewise. -/
def memcmp : List Byte → List Byte → ℕ → Option (BitVec 32)
  | _, _, 0 => some 0
  | b :: s, c :: t, n + 1 =>
      if b ≠ c then some (b.setWidth 32 - c.setWidth 32) else memcmp s t n
  | _, _, _ + 1 => none

/-- **`strchr` finds what is there**, in a string that ends. -/
theorem strchr_nul {s : List Byte} (hs : 0 ∉ s) (c : Byte) :
    ∃ r, strchr (s ++ [0]) c = some r ∧ (r.isSome ↔ c ∈ s) := by
  induction s with
  | nil => exact ⟨none, rfl, by simp⟩
  | cons b s ih =>
      have hb : b ≠ 0 := (List.ne_of_not_mem_cons hs).symm
      rw [List.cons_append, strchr, if_neg hb]
      by_cases hc : b = c
      · exact ⟨some 0, if_pos hc, by simp [hc]⟩
      · obtain ⟨r, hr, hmem⟩ := ih (List.not_mem_of_not_mem_cons hs)
        refine ⟨r.map (· + 1), by rw [if_neg hc, hr]; rfl, ?_⟩
        rw [Option.isSome_map, hmem, List.mem_cons]
        exact ⟨Or.inr, fun h => h.resolve_left (Ne.symm hc)⟩

/-! ### The order of strings -/

/-- The sign of an int. -/
def sign (r : BitVec 32) : Ordering :=
  compare r.toInt 0

/-- Two bytes subtracted, as unsigned ones. -/
theorem toInt_sub_byte (b c : Byte) :
    (b.setWidth 32 - c.setWidth 32 : BitVec 32).toInt = (b.toNat : ℤ) - c.toNat := by
  have hb := b.isLt
  have hc := c.isLt
  rw [BitVec.toInt_sub]
  have h : ∀ x : Byte, (x.setWidth 32).toInt = x.toNat := by
    intro x
    have hx := x.isLt
    rw [BitVec.toInt_eq_toNat_of_lt] <;> rw [BitVec.toNat_setWidth] <;> omega
  rw [h, h, Int.bmod_eq_of_le (by omega) (by omega)]

/-- **Bytes are ordered as unsigned ones.** -/
theorem sign_sub (b c : Byte) : sign (b.setWidth 32 - c.setWidth 32) = compare b c := by
  have hlt : (b.toNat : ℤ) - c.toNat < 0 ↔ b < c := by
    rw [BitVec.lt_def]
    omega
  have heq : (b.toNat : ℤ) - c.toNat = 0 ↔ b = c := by
    rw [← BitVec.toNat_inj]
    omega
  rw [sign, toInt_sub_byte]
  change compareOfLessAndEq _ _ = compareOfLessAndEq _ _
  simp only [compareOfLessAndEq, hlt, heq]

theorem sign_eq_iff (r : BitVec 32) : sign r = .eq ↔ r = 0 := by
  rw [sign, Std.LawfulEqCmp.compare_eq_iff_eq]
  exact ⟨fun h => BitVec.eq_of_toInt_eq h, fun h => h ▸ rfl⟩

/-- The NUL is below every other byte. -/
theorem compare_nul {b : Byte} (hb : b ≠ 0) : compare 0 b = .lt ∧ compare b 0 = .gt := by
  have hlt : (0 : Byte) < b := by bv_omega
  have hlow : compare 0 b = .lt := if_pos hlt
  have hswap : compare b 0 = (compare 0 b).swap := Std.OrientedCmp.eq_swap
  exact ⟨hlow, by rw [hswap, hlow]; rfl⟩

section

variable {p q : List Byte} (hp : 0 ∉ p) (hq : 0 ∉ q) (u v : List Byte)
include hp hq

/-- **The order of strings.** Induction on both, up to the first difference or the end of one. -/
theorem strcmp_sign : (strcmp (p ++ 0 :: u) (q ++ 0 :: v)).map sign = some (compare p q) := by
  induction p generalizing q with
  | nil =>
      rw [List.nil_append]
      cases q with
      | nil => rfl
      | cons c q =>
          have hc := compare_nul (List.ne_of_not_mem_cons hq).symm
          rw [List.cons_append, strcmp, if_neg fun h => h.1 rfl, Option.map_some, sign_sub, hc.1]
          rfl
  | cons b p ih =>
      have hb : b ≠ 0 := (List.ne_of_not_mem_cons hp).symm
      rw [List.cons_append]
      cases q with
      | nil =>
          rw [List.nil_append, strcmp, if_neg fun h => hb h.2, Option.map_some, sign_sub,
            (compare_nul hb).2]
          rfl
      | cons c q =>
          rw [List.cons_append, strcmp, List.compare_cons_cons]
          by_cases hc : b = c
          · have hself : compare c c = .eq := Std.ReflCmp.compare_self
            rw [if_pos ⟨hb, hc⟩, ih (List.not_mem_of_not_mem_cons hp)
              (List.not_mem_of_not_mem_cons hq), hc, hself]
            rfl
          · rw [if_neg fun h => hc h.2, Option.map_some, sign_sub]
            cases hbc : compare b c with
            | lt => rfl
            | gt => rfl
            | eq => exact absurd (Std.LawfulEqCmp.compare_eq_iff_eq.mp hbc) hc

/-- `strncmp` is `strcmp` of what is left of the strings. -/
theorem strncmp_eq_strcmp (n : ℕ) : strncmp (p ++ 0 :: u) (q ++ 0 :: v) n =
    strcmp (p.take n ++ [0]) (q.take n ++ [0]) := by
  induction n generalizing p q with
  | zero =>
      rw [strncmp]
      rfl
  | succ n ih =>
      cases p with
      | nil =>
          cases q with
          | nil => rfl
          | cons c q => rfl
      | cons b p =>
          cases q with
          | nil =>
              have hb : b ≠ 0 := (List.ne_of_not_mem_cons hp).symm
              exact (if_neg fun h => hb h.2).trans (if_neg fun h => hb h.2).symm
          | cons c q =>
              rw [List.cons_append, List.cons_append, strncmp, ih (List.not_mem_of_not_mem_cons hp)
                (List.not_mem_of_not_mem_cons hq)]
              rfl

/-- `memcmp` up to the end of the shorter string, its NUL included, is `strcmp`. -/
theorem memcmp_eq_strcmp : memcmp (p ++ 0 :: u) (q ++ 0 :: v) (min p.length q.length + 1) =
    strcmp (p ++ 0 :: u) (q ++ 0 :: v) := by
  induction p generalizing q with
  | nil =>
      cases q with
      | nil =>
          rw [List.nil_append, List.nil_append, List.length_nil, Nat.min_self, memcmp,
            if_neg (not_not.mpr rfl), memcmp]
          rfl
      | cons c q =>
          have hc : (0 : Byte) ≠ c := List.ne_of_not_mem_cons hq
          rw [List.nil_append, List.cons_append, memcmp, if_pos hc, strcmp, if_neg fun h => h.1 rfl]
  | cons b p ih =>
      have hb : b ≠ 0 := (List.ne_of_not_mem_cons hp).symm
      cases q with
      | nil =>
          rw [List.cons_append, List.nil_append, memcmp, if_pos hb, strcmp, if_neg fun h => hb h.2]
      | cons c q =>
          rw [List.cons_append, List.cons_append, List.length_cons, List.length_cons,
            Nat.succ_min_succ, memcmp, strcmp]
          by_cases hc : b = c
          · rw [if_neg (not_not.mpr hc), if_pos ⟨hb, hc⟩, ih (List.not_mem_of_not_mem_cons hp)
              (List.not_mem_of_not_mem_cons hq)]
          · rw [if_pos hc, if_neg fun h => hc h.2]

end
/-- **`strcmp` tells equal from different**, for strings that end. What comes behind their
ends is not read. -/
theorem strcmp_nul {s t : List Byte} (hs : 0 ∉ s) (ht : 0 ∉ t) (u v : List Byte) :
    ∃ r, strcmp (s ++ 0 :: u) (t ++ 0 :: v) = some r ∧ (r = 0 ↔ s = t) := by
  obtain ⟨r, hr, hsign⟩ := Option.map_eq_some_iff.mp (strcmp_sign hs ht u v)
  refine ⟨r, hr, ?_⟩
  rw [← sign_eq_iff, hsign, Std.LawfulEqCmp.compare_eq_iff_eq]

/-- The comparison the other way round. -/
theorem strcmp_swap {p q : List Byte} (hp : 0 ∉ p) (hq : 0 ∉ q) {u v : List Byte}
    {x y : BitVec 32} (hx : strcmp (p ++ 0 :: u) (q ++ 0 :: v) = some x)
    (hy : strcmp (q ++ 0 :: v) (p ++ 0 :: u) = some y) : sign y = (sign x).swap := by
  have hpq := strcmp_sign hp hq u v
  have hqp := strcmp_sign hq hp v u
  rw [hx, Option.map_some, Option.some.injEq] at hpq
  rw [hy, Option.map_some, Option.some.injEq] at hqp
  rw [hpq, hqp]
  exact Std.OrientedCmp.eq_swap

/-- Two comparisons in a row. -/
theorem strcmp_trans {p q r : List Byte} (hp : 0 ∉ p) (hq : 0 ∉ q) (hr : 0 ∉ r)
    {u v w : List Byte} {x y z : BitVec 32}
    (hx : strcmp (p ++ 0 :: u) (q ++ 0 :: v) = some x)
    (hy : strcmp (q ++ 0 :: v) (r ++ 0 :: w) = some y)
    (hz : strcmp (p ++ 0 :: u) (r ++ 0 :: w) = some z)
    (hxle : (sign x).isLE) (hyle : (sign y).isLE) : (sign z).isLE := by
  have hpq := strcmp_sign hp hq u v
  have hqr := strcmp_sign hq hr v w
  have hpr := strcmp_sign hp hr u w
  rw [hx, Option.map_some, Option.some.injEq] at hpq
  rw [hy, Option.map_some, Option.some.injEq] at hqr
  rw [hz, Option.map_some, Option.some.injEq] at hpr
  rw [hpq] at hxle
  rw [hqr] at hyle
  rw [hpr]
  exact Std.TransCmp.isLE_trans hxle hyle

/-- **Strings are in one consistent order**, that of their bytes as unsigned ones, in which a
proper prefix is smaller: for all strings that end, whatever stands behind their ends. -/
theorem strings_ordered {p q r : List Byte} (hp : 0 ∉ p) (hq : 0 ∉ q) (hr : 0 ∉ r)
    (u v w : List Byte) (n : ℕ) :
    (∃ x, strcmp (p ++ 0 :: u) (q ++ 0 :: v) = some x ∧ sign x = compare p q ∧ (x = 0 ↔ p = q)) ∧
    (∀ x y, strcmp (p ++ 0 :: u) (q ++ 0 :: v) = some x →
      strcmp (q ++ 0 :: v) (p ++ 0 :: u) = some y → sign y = (sign x).swap) ∧
    (∀ x y z, strcmp (p ++ 0 :: u) (q ++ 0 :: v) = some x →
      strcmp (q ++ 0 :: v) (r ++ 0 :: w) = some y → strcmp (p ++ 0 :: u) (r ++ 0 :: w) = some z →
        (sign x).isLE → (sign y).isLE → (sign z).isLE) ∧
    (∃ x, strncmp (p ++ 0 :: u) (q ++ 0 :: v) n = some x ∧
      strcmp (p.take n ++ [0]) (q.take n ++ [0]) = some x ∧
      sign x = compare (p.take n) (q.take n)) ∧
    (∃ x, memcmp (p ++ 0 :: u) (q ++ 0 :: v) (min p.length q.length + 1) = some x ∧
      sign x = compare p q) := by
  obtain ⟨x, hx, hsign⟩ := Option.map_eq_some_iff.mp (strcmp_sign hp hq u v)
  have htake : ∀ {s : List Byte}, 0 ∉ s → 0 ∉ s.take n := fun hs h => hs (List.mem_of_mem_take h)
  obtain ⟨y, hy, hysign⟩ := Option.map_eq_some_iff.mp (strcmp_sign (htake hp) (htake hq) [] [])
  refine ⟨⟨x, hx, hsign, ?_⟩, fun x y => strcmp_swap hp hq,
    fun x y z => strcmp_trans hp hq hr, ⟨y, ?_, hy, hysign⟩, ⟨x, ?_, hsign⟩⟩
  · rw [← sign_eq_iff, hsign, Std.LawfulEqCmp.compare_eq_iff_eq]
  · rw [strncmp_eq_strcmp hp hq, hy]
  · rw [memcmp_eq_strcmp hp hq, hx]

/-- A string and a longer one whose last byte is negative as a plain `char`. -/
theorem strings_ordered_longer :
    ∃ x, strcmp [0x61, 0] [0x61, 0xFF, 0] = some x ∧ sign x = .lt ∧
      (x = 0 ↔ ([0x61] : List Byte) = [0x61, 0xFF]) :=
  (strings_ordered (p := [0x61]) (q := [0x61, 0xFF]) (r := []) (by decide) (by decide) (by decide)
    [] [] [] 0).1

end Jos
