import Jos.LibString
import Jos.Loop

/-!
# Copying Strings

The routines of `lib/string.c` that store strings, over the whole memory: `strcpy`, `strcat`,
`strncpy` and `strlcpy`, with `strlen`, `memcpy` and `memfind`. They copy byte by byte from the
front, so that what they store may lie over what they have still to read; a copy over the NUL
of its own source does not end.

## Main results

* `strlen_iff`: `strlen` comes back if and only if there is a NUL in memory.
* `strcpy_iff`: `strcpy` ends if and only if it does not store over the rest of the string, and
  then it is a simultaneous copy, like `memcpy` (`strcpy_eq_memcpy`).
* `strcat_iff`: so `strcat` ends unless the two strings end at the same NUL.
* `strncpy_pads`, `strlcpy_ends`: what the bounded copies leave.
* `memfind_iff`: `memfind` finds what is there unless its range goes around the end of memory.
-/

namespace Jos

/-! ### The routines -/

/-- Why a walk along a string does not come back: it does not end. -/
inductive Endless
  | fuel

/-- A round of the loop of `strlen`, on `s` and `n`. -/
def strlenRound (m : Mem) (s : Addr × BitVec 32) :
    Except Endless (Round (Addr × BitVec 32) (BitVec 32)) :=
  if m.byte s.1 ≠ 0 then .ok (.next (s.1 + 1, s.2 + 1)) else .ok (.leave s.2)

/-- `strlen`. -/
def strlen (fuel : ℕ) (m : Mem) (s : Addr) : Except Endless (BitVec 32) :=
  loop .fuel (strlenRound m) fuel (s, 0)

/-- A round of the loop of `strcpy`, on `dst`, `src` and the memory. -/
def strcpyRound (s : Addr × Addr × Mem) : Except Endless (Round (Addr × Addr × Mem) Mem) :=
  let b := s.2.2.byte s.2.1
  let m := s.2.2.store8 s.1 b
  if b ≠ 0 then .ok (.next (s.1 + 1, s.2.1 + 1, m)) else .ok (.leave m)

/-- `strcpy`; it returns `dst`. -/
def strcpy (fuel : ℕ) (m : Mem) (dst src : Addr) : Except Endless Mem :=
  loop .fuel strcpyRound fuel (dst, src, m)

/-- `strcat`; it returns `dst`. -/
def strcat (fuel : ℕ) (m : Mem) (dst src : Addr) : Except Endless Mem := do
  let len ← strlen fuel m dst
  strcpy fuel m (dst + len) src

/-- The loop of `strncpy`, for the last `n` of its rounds. -/
def strncpyLoop : ℕ → Mem → Addr → Addr → Mem
  | 0, m, _, _ => m
  | n + 1, m, dst, src =>
      let m := m.store8 dst (m.byte src)
      -- If strlen(src) < size, null-pad 'dst' out to 'size' chars
      strncpyLoop n m (dst + 1) (if m.byte src ≠ 0 then src + 1 else src)

/-- `strncpy`; it returns `dst`. -/
def strncpy (m : Mem) (dst src : Addr) (size : BitVec 32) : Mem :=
  strncpyLoop size.toNat m dst src

/-- The loop of `strlcpy`, where `size` is what is left for the test: `dst` and the memory. -/
def strlcpyLoop : ℕ → Mem → Addr → Addr → Addr × Mem
  | 0, m, dst, _ => (dst, m)
  | size + 1, m, dst, src =>
      if m.byte src ≠ 0 then strlcpyLoop size (m.store8 dst (m.byte src)) (dst + 1) (src + 1)
      else (dst, m)

/-- `strlcpy`: what it returns, and the memory. -/
def strlcpy (m : Mem) (dst src : Addr) (size : BitVec 32) : BitVec 32 × Mem :=
  if 0 < size then
    let r := strlcpyLoop (size - 1).toNat m dst src
    (r.1 - dst, r.2.store8 r.1 0)
  else (dst - dst, m)

/-- `memcpy`. -/
def memcpy (m : Mem) (dst src : Addr) (n : BitVec 32) : Mem :=
  memmove m dst src n

/-- A round of the loop of `memfind`. -/
def memfindRound (m : Mem) (c : BitVec 32) (ends s : Addr) : Except Endless (Round Addr Addr) :=
  if s < ends then
    if m.byte s = c.setWidth 8 then .ok (.leave s) else .ok (.next (s + 1))
  else .ok (.leave s)

/-- `memfind`. -/
def memfind (fuel : ℕ) (m : Mem) (s : Addr) (c n : BitVec 32) : Except Endless Addr :=
  loop .fuel (memfindRound m c (s + n)) fuel s

/-! ### Strings in memory -/

/-- The string at an address has this length. -/
structure Mem.Length (m : Mem) (a : Addr) (n : ℕ) : Prop where
  lt : n < 2 ^ 32
  nonzero : ∀ i < n, m.byte (a + BitVec.ofNat 32 i) ≠ 0
  nul : m.byte (a + BitVec.ofNat 32 n) = 0

/-- A copy of `n` bytes, from the front on, has read them all before it stores over them. -/
def ReadsFirst (dst src : Addr) (n : ℕ) : Prop :=
  dst = src ∨ n ≤ (dst - src).toNat

section

variable {m : Mem} {a dst src : Addr} {n : ℕ}

/-- The address of a byte further on, and that of the one behind. -/
theorem add_one_add_ofNat (a : Addr) (i : ℕ) :
    a + 1 + BitVec.ofNat 32 i = a + BitVec.ofNat 32 (i + 1) := by
  rw [Nat.add_comm, BitVec.ofNat_add]
  exact add_assoc a 1 _

/-- Where there is a NUL, there is a string. -/
theorem Mem.exists_length (h : ∃ b, m.byte b = 0) (a : Addr) : ∃ n, m.Length a n := by
  obtain ⟨b, hb⟩ := h
  have hex : ∃ n : ℕ, m.byte (a + BitVec.ofNat 32 n) = 0 :=
    ⟨(b - a).toNat, by rwa [Mem.add_ofNat_toNat_sub]⟩
  refine ⟨Nat.find hex, ?_, fun i hi => Nat.find_min hex hi, Nat.find_spec hex⟩
  refine (Nat.find_min' hex ?_).trans_lt (b - a).isLt
  rwa [Mem.add_ofNat_toNat_sub]

/-- There is one length at most. -/
theorem Mem.Length.unique {n' : ℕ} (h : m.Length a n) (h' : m.Length a n') : n = n' := by
  rcases lt_trichotomy n n' with hlt | heq | hlt
  · exact absurd h.nul (h'.nonzero n hlt)
  · exact heq
  · exact absurd h'.nul (h.nonzero n' hlt)

/-- The rest of a string. -/
theorem Mem.Length.tail (h : m.Length a (n + 1)) : m.Length (a + 1) n where
  lt := by
    have hlt := h.lt
    omega
  nonzero i hi := by
    rw [add_one_add_ofNat]
    exact h.nonzero (i + 1) (by omega)
  nul := by
    rw [add_one_add_ofNat]
    exact h.nul

/-- One byte on, the rest is still read first. -/
theorem ReadsFirst.tail (h : ReadsFirst dst src (n + 1)) : ReadsFirst (dst + 1) (src + 1) n := by
  have hshift : dst + 1 - (src + 1) = dst - src := by ring
  rw [ReadsFirst, hshift]
  rcases h with rfl | h
  · exact Or.inl rfl
  · exact Or.inr (by omega)

/-- The first store is not over a byte that is read later. -/
theorem ReadsFirst.store8 (h : ReadsFirst dst src (n + 1)) (hn : n < 2 ^ 32) {i : ℕ} (hi : i < n) :
    (m.store8 dst (m.byte src)).byte (src + 1 + BitVec.ofNat 32 i) =
      m.byte (src + 1 + BitVec.ofNat 32 i) := by
  rw [Mem.byte_store8]
  split
  · rename_i heq
    have hdist : (dst - src).toNat = i + 1 := by
      rw [← heq, add_one_add_ofNat, add_sub_cancel_left, BitVec.toNat_ofNat]
      omega
    rcases h with rfl | h
    · rw [sub_self] at hdist
      exact absurd hdist (Nat.succ_ne_zero i).symm
    · omega
  · rfl

end

/-! ### `strlen` -/

section

variable {m : Mem} {s : Addr} {n : ℕ}

/-- The loop of `strlen`. Induction on the length of what is left of the string. -/
theorem strlen_loops (h : m.Length s n) (k : BitVec 32) :
    Loops .fuel (fun _ => strlenRound m) (s, k) (k + BitVec.ofNat 32 n) := by
  induction n generalizing s k with
  | zero =>
      have hnul : m.byte s = 0 := by
        have hnul := h.nul
        rwa [BitVec.add_zero] at hnul
      have hround : strlenRound m (s, k) = .ok (.leave k) := if_neg fun hne => hne hnul
      refine .leave ?_
      rw [hround, BitVec.add_zero]
      exact converges_ok _
  | succ n ih =>
      have hne : m.byte s ≠ 0 := by
        have hne := h.nonzero 0 (Nat.succ_pos n)
        rwa [BitVec.add_zero] at hne
      have hround : strlenRound m (s, k) = .ok (.next (s + 1, k + 1)) := if_pos hne
      have hconv : Converges (.next (s + 1, k + 1)) fun _ : ℕ => strlenRound m (s, k) := by
        rw [hround]
        exact converges_ok _
      rw [← add_one_add_ofNat]
      exact .next hconv (ih h.tail (k + 1))

/-- **`strlen`** counts the bytes up to the NUL. -/
theorem strlen_counts (h : m.Length s n) :
    Converges (BitVec.ofNat 32 n) fun fuel => strlen fuel m s := by
  have hloop := (strlen_loops h 0).converges
  rwa [zero_add] at hloop

/-- **`strlen` comes back** if and only if there is a NUL in memory. -/
theorem strlen_iff (m : Mem) (s : Addr) :
    (∃ r, Converges r fun fuel => strlen fuel m s) ↔ ∃ b, m.byte b = 0 := by
  constructor
  · rintro ⟨r, hr⟩
    by_contra hnone
    have hround : ∀ t, True → strlenRound m t = .error .fuel ∨
        ∃ t', strlenRound m t = .ok (.next t') ∧ True := fun t _ =>
      Or.inr ⟨_, if_pos fun hzero => hnone ⟨t.1, hzero⟩, trivial⟩
    exact not_converges (fun fuel => loop_stuck hround fuel trivial) r hr
  · intro h
    obtain ⟨n, hn⟩ := Mem.exists_length h s
    exact ⟨_, strlen_counts hn⟩

end

/-! ### `strcpy` -/

section

variable {m : Mem} {dst src : Addr} {n : ℕ}

/-- The loop of `strcpy` moves bytes, the NUL as well. Induction on the length of what is left of
the string. -/
theorem strcpy_loops (h : m.Length src n) (hreads : ReadsFirst dst src (n + 1)) :
    Loops .fuel (fun _ => strcpyRound) (dst, src, m) (Mem.rep Mem.movsb 1 (n + 1) m dst src) := by
  induction n generalizing m dst src with
  | zero =>
      have hnul : m.byte src = 0 := by
        have hnul := h.nul
        rwa [BitVec.add_zero] at hnul
      have hround : strcpyRound (dst, src, m) = .ok (.leave (m.store8 dst (m.byte src))) :=
        if_neg fun hne => hne hnul
      refine .leave ?_
      rw [hround]
      exact converges_ok _
  | succ n ih =>
      have hlt := h.lt
      have hne : m.byte src ≠ 0 := by
        have hne := h.nonzero 0 (Nat.succ_pos n)
        rwa [BitVec.add_zero] at hne
      have hround : strcpyRound (dst, src, m) =
          .ok (.next (dst + 1, src + 1, m.store8 dst (m.byte src))) := if_pos hne
      have hconv : Converges (.next (dst + 1, src + 1, m.store8 dst (m.byte src)))
          fun _ : ℕ => strcpyRound (dst, src, m) := by
        rw [hround]
        exact converges_ok _
      have hread : ∀ i < n + 1, (m.store8 dst (m.byte src)).byte (src + 1 + BitVec.ofNat 32 i) =
          m.byte (src + 1 + BitVec.ofNat 32 i) := fun i hi => hreads.store8 hlt hi
      have htail : (m.store8 dst (m.byte src)).Length (src + 1) n :=
        ⟨h.tail.lt, fun i hi => by rw [hread i (by omega)]; exact h.tail.nonzero i hi,
          by rw [hread n (by omega)]; exact h.tail.nul⟩
      exact .next hconv (ih htail hreads.tail)

/-- **A copy over its own source** never comes to a NUL: what it reads is what it has stored. The
bytes between the pointers are never NUL. -/
theorem strcpy_stuck {k : ℕ} (hk : 0 < k) (hdst : dst = src + BitVec.ofNat 32 k)
    (hnonzero : ∀ i < k, m.byte (src + BitVec.ofNat 32 i) ≠ 0) (fuel : ℕ) :
    strcpy fuel m dst src = .error .fuel := by
  refine loop_stuck (I := fun t => t.1 = t.2.1 + BitVec.ofNat 32 k ∧
    ∀ i < k, t.2.2.byte (t.2.1 + BitVec.ofNat 32 i) ≠ 0) ?_ fuel ⟨hdst, hnonzero⟩
  rintro ⟨d, s, m⟩ ⟨hd, hnonzero⟩
  dsimp only at hd hnonzero
  subst hd
  have hne : m.byte s ≠ 0 := by
    have hne := hnonzero 0 hk
    rwa [BitVec.add_zero] at hne
  refine Or.inr ⟨_, if_pos hne, by dsimp only; ring, fun i hi => ?_⟩
  dsimp only
  rw [add_one_add_ofNat, Mem.byte_store8]
  split
  · exact hne
  · rename_i hother
    rcases Nat.lt_or_ge (i + 1) k with hlast | hlast
    · exact hnonzero (i + 1) hlast
    · obtain rfl : k = i + 1 := by omega
      exact absurd rfl hother

/-- A copy that has read all before it stores over it is a simultaneous copy. -/
theorem strcpy_copies (h : m.Length src n) (hreads : ReadsFirst dst src (n + 1)) :
    ∃ m', Converges m' (fun fuel => strcpy fuel m dst src) ∧
      m'.byte = m.copied dst src (n + 1) ∧ Mem.Within (Mem.Span dst (n + 1)) m m' := by
  have hlt := h.lt
  have hcopy := Mem.rep_forward Mem.moves_movsb (by decide) (n + 1) m dst src (by omega)
    (by rwa [Nat.one_mul])
  have hwithin := Mem.rep_forward_within Mem.moves_movsb (by decide) (n + 1) m dst src (by omega)
  rw [Nat.one_mul] at hcopy hwithin
  exact ⟨_, (strcpy_loops h hreads).converges, funext hcopy, hwithin⟩

/-- **`strcpy`** of a string ends if and only if `dst` is not inside the rest of the string; and
when it ends, it has copied the string as it was, with its NUL, and has stored nothing else. -/
theorem strcpy_iff (dst : Addr) (h : m.Length src n) :
    ((∃ m', Converges m' fun fuel => strcpy fuel m dst src) ↔ ReadsFirst dst src (n + 1)) ∧
    ∀ m', Converges m' (fun fuel => strcpy fuel m dst src) →
      m'.byte = m.copied dst src (n + 1) ∧ Mem.Within (Mem.Span dst (n + 1)) m m' := by
  have hlt := h.lt
  have hends : ∀ m', Converges m' (fun fuel => strcpy fuel m dst src) →
      ReadsFirst dst src (n + 1) := by
    intro m' hm'
    by_contra hnot
    rw [ReadsFirst, not_or, not_le] at hnot
    have hpos : (dst - src).toNat ≠ 0 := fun hzero =>
      hnot.1 (sub_eq_zero.mp (BitVec.eq_of_toNat_eq hzero))
    exact not_converges (strcpy_stuck (Nat.pos_of_ne_zero hpos)
      (Mem.add_ofNat_toNat_sub src dst).symm fun i hi => h.nonzero i (by omega)) m' hm'
  refine ⟨⟨fun ⟨m', hm'⟩ => hends m' hm', fun hreads => ?_⟩, fun m' hm' => ?_⟩
  · obtain ⟨m', hm', -⟩ := strcpy_copies h hreads
    exact ⟨m', hm'⟩
  · obtain ⟨m₁, hm₁, hcopied⟩ := strcpy_copies h (hends m' hm')
    rw [hm'.unique hm₁]
    exact hcopied

/-- Then it is `memcpy` of the string and its NUL. -/
theorem strcpy_eq_memcpy (h : m.Length src n) (hreads : ReadsFirst dst src (n + 1))
    (hs : src.toNat + (n + 1) < 2 ^ 32) (hd : dst.toNat + (n + 1) < 2 ^ 32) :
    ∃ m', Converges m' (fun fuel => strcpy fuel m dst src) ∧
      m'.byte = (memcpy m dst src (BitVec.ofNat 32 (n + 1))).byte := by
  obtain ⟨m', hm', hbytes, -⟩ := strcpy_copies h hreads
  have hlen : (BitVec.ofNat 32 (n + 1)).toNat = n + 1 := by
    rw [BitVec.toNat_ofNat, Nat.mod_eq_of_lt (by omega)]
  refine ⟨m', hm', funext fun a => ?_⟩
  rw [hbytes, memcpy, byte_memmove m (by omega) (by omega), hlen]

end

/-- A memory with a string of two letters at 0, and NULs behind it. -/
def twoLetters : Mem where
  byte a := if a.toNat < 2 then 0x61 else 0
  stores := []

/-- It has two letters. -/
theorem length_twoLetters : twoLetters.Length 0 2 := ⟨by decide, by decide, by decide⟩

/-- They can be copied to further up, but not by one. -/
theorem strcpy_iff_two : (∃ m', Converges m' fun fuel => strcpy fuel twoLetters 16 0) ∧
    ¬ ∃ m', Converges m' fun fuel => strcpy fuel twoLetters 1 0 :=
  ⟨(strcpy_iff 16 length_twoLetters).1.mpr (Or.inr (by decide)),
    fun h => ((strcpy_iff 1 length_twoLetters).1.mp h).elim (by decide) (by decide)⟩

/-! ### `strcat` -/

/-- Behind what comes back, the rest decides. -/
theorem converges_bind_iff {ε α β : Type} {x : ℕ → Except ε α} {f : ℕ → α → Except ε β} {a : α}
    (hx : Converges a x) (b : β) :
    (Converges b fun fuel => x fuel >>= f fuel) ↔ Converges b fun fuel => f fuel a := by
  refine ⟨fun hb => ?_, hx.bind⟩
  obtain ⟨N, hN⟩ := hx
  obtain ⟨M, hM⟩ := hb
  refine ⟨max N M, fun fuel hfuel => ?_⟩
  have hrun : x fuel >>= f fuel = .ok b := hM fuel (by omega)
  rwa [hN fuel (by omega), ok_bind] at hrun

section

variable {m : Mem} {dst src : Addr} {n₁ n₂ : ℕ} (h₁ : m.Length dst n₁) (h₂ : m.Length src n₂)
include h₁ h₂

/-- The NUL of the one string is inside the rest of the other if it is the NUL of both. -/
theorem readsFirst_iff : ReadsFirst (dst + BitVec.ofNat 32 n₁) src (n₂ + 1) ↔
    n₂ = 0 ∨ dst + BitVec.ofNat 32 n₁ ≠ src + BitVec.ofNat 32 n₂ := by
  have hlt := h₂.lt
  set d := dst + BitVec.ofNat 32 n₁
  have hd : src + BitVec.ofNat 32 (d - src).toNat = d := Mem.add_ofNat_toNat_sub src d
  constructor
  · rintro (heq | hle)
    · have hnul : m.byte (src + BitVec.ofNat 32 0) = 0 := by
        rw [BitVec.add_zero, ← heq]
        exact h₁.nul
      exact Or.inl (h₂.unique ⟨by decide, fun i hi => absurd hi (Nat.not_lt_zero i), hnul⟩)
    · refine Or.inr fun heq => ?_
      rw [heq, add_sub_cancel_left, BitVec.toNat_ofNat] at hle
      omega
  · intro h
    rw [ReadsFirst, or_iff_not_imp_left]
    intro hne
    by_contra hlast
    have hpos : (d - src).toNat ≠ 0 := fun hzero =>
      hne (sub_eq_zero.mp (BitVec.eq_of_toNat_eq hzero))
    rcases Nat.lt_or_ge (d - src).toNat n₂ with hk | hk
    · have hnonzero := h₂.nonzero _ hk
      rw [hd] at hnonzero
      exact hnonzero h₁.nul
    · have hend : (d - src).toNat = n₂ := by omega
      rw [hend] at hd
      exact h.elim (by omega) fun hother => hother hd.symm

/-- If they are apart, there is room for both. -/
theorem add_lt_of_readsFirst (hreads : ReadsFirst (dst + BitVec.ofNat 32 n₁) src (n₂ + 1)) :
    n₁ + n₂ < 2 ^ 32 := by
  have hlt₁ := h₁.lt
  have hlt₂ := h₂.lt
  set k := (dst + BitVec.ofNat 32 n₁ - src).toNat with hk
  have hkLt : k < 2 ^ 32 := (dst + BitVec.ofNat 32 n₁ - src).isLt
  by_contra hover
  have hzero : n₂ ≠ 0 := by omega
  have hle : n₂ + 1 ≤ k := by
    refine hreads.resolve_left fun heq => ?_
    have hne := h₂.nonzero 0 (Nat.pos_of_ne_zero hzero)
    rw [BitVec.add_zero, ← heq] at hne
    exact hne h₁.nul
  -- the NUL of `src` would be among the bytes of `dst`
  have hback : dst + BitVec.ofNat 32 (n₁ - (k - n₂)) = src + BitVec.ofNat 32 n₂ := by
    have hd : src + BitVec.ofNat 32 k = dst + BitVec.ofNat 32 n₁ :=
      Mem.add_ofNat_toNat_sub src _
    have hsplit₁ : BitVec.ofNat 32 n₁ =
        BitVec.ofNat 32 (n₁ - (k - n₂)) + BitVec.ofNat 32 (k - n₂) := by
      rw [← BitVec.ofNat_add]
      congr 1
      omega
    have hsplit : BitVec.ofNat 32 k = BitVec.ofNat 32 n₂ + BitVec.ofNat 32 (k - n₂) := by
      rw [← BitVec.ofNat_add]
      congr 1
      omega
    rw [hsplit₁, hsplit, ← add_assoc, ← add_assoc] at hd
    exact (add_right_cancel hd).symm
  have hne := h₁.nonzero (n₁ - (k - n₂)) (by omega)
  rw [hback] at hne
  exact hne h₂.nul

/-- **`strcat`** ends if and only if the two strings do not end at the same NUL, or there is nothing
to append; and when it ends, the string at `dst` is the first one followed by the second, and
only what is behind the first one has been stored to. -/
theorem strcat_iff :
    ((∃ m', Converges m' fun fuel => strcat fuel m dst src) ↔
      n₂ = 0 ∨ dst + BitVec.ofNat 32 n₁ ≠ src + BitVec.ofNat 32 n₂) ∧
    ∀ m', Converges m' (fun fuel => strcat fuel m dst src) → m'.Length dst (n₁ + n₂) ∧
      (∀ i < n₁, m'.byte (dst + BitVec.ofNat 32 i) = m.byte (dst + BitVec.ofNat 32 i)) ∧
      (∀ i ≤ n₂, m'.byte (dst + BitVec.ofNat 32 (n₁ + i)) = m.byte (src + BitVec.ofNat 32 i)) ∧
      Mem.Within (Mem.Span (dst + BitVec.ofNat 32 n₁) (n₂ + 1)) m m' := by
  have hcopy : ∀ m', (Converges m' fun fuel => strcat fuel m dst src) ↔
      Converges m' fun fuel => strcpy fuel m (dst + BitVec.ofNat 32 n₁) src :=
    converges_bind_iff (strlen_counts h₁)
  obtain ⟨hiff, hcopied⟩ := strcpy_iff (dst + BitVec.ofNat 32 n₁) h₂
  refine ⟨by simp only [hcopy, hiff, readsFirst_iff h₁ h₂], fun m' hm' => ?_⟩
  have hm := (hcopy m').mp hm'
  have hroom := add_lt_of_readsFirst h₁ h₂ (hiff.mp ⟨m', hm⟩)
  obtain ⟨hbytes, hwithin⟩ := hcopied m' hm
  have hkept : ∀ i < n₁, m'.byte (dst + BitVec.ofNat 32 i) = m.byte (dst + BitVec.ofNat 32 i) := by
    intro i hi
    refine hwithin.frame _ ?_
    rw [Mem.Span, Mem.toNat_sub_add_ofNat _ _ h₁.lt, add_sub_cancel_left, BitVec.toNat_ofNat,
      if_neg (by omega)]
    omega
  have hadded : ∀ i ≤ n₂, m'.byte (dst + BitVec.ofNat 32 (n₁ + i)) =
      m.byte (src + BitVec.ofNat 32 i) := by
    intro i hi
    have hoff : dst + BitVec.ofNat 32 (n₁ + i) - (dst + BitVec.ofNat 32 n₁) =
        BitVec.ofNat 32 i := by
      rw [BitVec.ofNat_add, ← add_assoc, add_sub_cancel_left]
    rw [hbytes, Mem.copied, hoff, BitVec.toNat_ofNat, if_pos (by omega)]
  refine ⟨⟨hroom, fun i hi => ?_, ?_⟩, hkept, hadded, hwithin⟩
  · rcases Nat.lt_or_ge i n₁ with hlt | hge
    · rw [hkept i hlt]
      exact h₁.nonzero i hlt
    · obtain ⟨j, rfl⟩ := Nat.exists_eq_add_of_le hge
      rw [hadded j (by omega)]
      exact h₂.nonzero j (by omega)
  · rw [hadded n₂ (le_refl n₂)]
    exact h₂.nul

end

/-- A string cannot be appended to itself. -/
theorem strcat_iff_two : ¬ ∃ m', Converges m' fun fuel => strcat fuel twoLetters 0 0 :=
  fun h => ((strcat_iff length_twoLetters length_twoLetters).1.mp h).elim (by decide)
    fun hne => hne rfl

/-! ### The bounded copies -/

/-- The string at an address has this length, or it has more bytes than `size` and `n` is that. -/
structure Mem.Upto (m : Mem) (a : Addr) (size n : ℕ) : Prop where
  le : n ≤ size
  nonzero : ∀ i < n, m.byte (a + BitVec.ofNat 32 i) ≠ 0
  nul : n < size → m.byte (a + BitVec.ofNat 32 n) = 0

/-- There is always one such number. -/
theorem Mem.exists_upto (m : Mem) (a : Addr) (size : ℕ) : ∃ n, m.Upto a size n := by
  induction size with
  | zero =>
      exact ⟨0, le_refl 0, fun i hi => absurd hi (Nat.not_lt_zero i),
        fun h => absurd h (lt_irrefl 0)⟩
  | succ size ih =>
      obtain ⟨n, hle, hnonzero, hnul⟩ := ih
      by_cases hzero : m.byte (a + BitVec.ofNat 32 n) = 0
      · exact ⟨n, by omega, hnonzero, fun _ => hzero⟩
      · have hn : n = size := by
          by_contra hne
          exact hzero (hnul (by omega))
        refine ⟨n + 1, by omega, fun i hi => ?_, fun hlt => by omega⟩
        rcases Nat.lt_succ_iff_lt_or_eq.mp hi with hlt | rfl
        · exact hnonzero i hlt
        · exact hzero

section

variable {m : Mem} {dst src : Addr} {size n : ℕ}

/-- The rest, after the first byte has been stored. -/
theorem Mem.Upto.tail (h : m.Upto src (size + 1) (n + 1)) (hsize : size < 2 ^ 32)
    (hreads : ReadsFirst dst src (min (n + 1) size + 1)) :
    (m.store8 dst (m.byte src)).Upto (src + 1) size n where
  le := Nat.le_of_succ_le_succ h.le
  nonzero i hi := by
    have hle := h.le
    rw [hreads.store8 (by omega) (by omega), add_one_add_ofNat]
    exact h.nonzero (i + 1) (by omega)
  nul hlt := by
    rw [hreads.store8 (by omega) (by omega), add_one_add_ofNat]
    exact h.nul (by omega)

/-- A string of more than no bytes does not begin with a NUL. -/
theorem Mem.Upto.head (h : m.Upto src (size + 1) (n + 1)) : m.byte src ≠ 0 := by
  have hne := h.nonzero 0 (Nat.succ_pos n)
  rwa [BitVec.add_zero] at hne

/-- A byte that has been copied can still be read. -/
theorem byte_store8_self (m : Mem) (dst src : Addr) :
    (m.store8 dst (m.byte src)).byte src = m.byte src := by
  rw [Mem.byte_store8, ite_eq_right_iff]
  exact fun _ => rfl

/-- At the NUL `strncpy` stays, and stores zeros. -/
theorem strncpyLoop_nul (hnul : m.byte src = 0) :
    strncpyLoop size m dst src = Mem.repStos (Mem.stosb 0) 1 size m dst := by
  induction size generalizing m dst with
  | zero => rfl
  | succ size ih =>
      have hstay : (m.store8 dst (m.byte src)).byte src = 0 :=
        (byte_store8_self m dst src).trans hnul
      rw [strncpyLoop, if_neg fun hne => hne hstay, ih hstay, hnul]
      rfl

/-- Up to there it moves bytes. Induction on how many rounds are left. -/
theorem strncpyLoop_eq (h : m.Upto src size n) (hsize : size < 2 ^ 32)
    (hreads : ReadsFirst dst src (min (n + 1) size)) :
    strncpyLoop size m dst src = Mem.repStos (Mem.stosb 0) 1 (size - n)
      (Mem.rep Mem.movsb 1 n m dst src) (dst + BitVec.ofNat 32 n) := by
  induction size generalizing m dst src n with
  | zero =>
      obtain rfl : n = 0 := Nat.le_zero.mp h.le
      rfl
  | succ size ih =>
      cases n with
      | zero =>
          have hnul := h.nul (Nat.succ_pos size)
          rw [BitVec.add_zero] at hnul ⊢
          exact strncpyLoop_nul hnul
      | succ n =>
          have hmin : min (n + 1 + 1) (size + 1) = min (n + 1) size + 1 := by omega
          rw [hmin] at hreads
          have hne : (m.store8 dst (m.byte src)).byte src ≠ 0 := by
            rw [byte_store8_self]
            exact h.head
          rw [strncpyLoop, if_pos hne, ih (h.tail (by omega) hreads) (by omega) hreads.tail,
            Nat.add_sub_add_right, add_one_add_ofNat]
          rfl

/-- `strlcpy` moves bytes, up to its last one. -/
theorem strlcpyLoop_eq (h : m.Upto src size n) (hsize : size < 2 ^ 32)
    (hreads : ReadsFirst dst src (min (n + 1) size)) :
    strlcpyLoop size m dst src =
      (dst + BitVec.ofNat 32 n, Mem.rep Mem.movsb 1 n m dst src) := by
  induction size generalizing m dst src n with
  | zero =>
      obtain rfl : n = 0 := Nat.le_zero.mp h.le
      rw [strlcpyLoop, BitVec.add_zero]
      rfl
  | succ size ih =>
      cases n with
      | zero =>
          have hnul := h.nul (Nat.succ_pos size)
          rw [BitVec.add_zero] at hnul ⊢
          rw [strlcpyLoop, if_neg fun hne => hne hnul]
          rfl
      | succ n =>
          have hmin : min (n + 1 + 1) (size + 1) = min (n + 1) size + 1 := by omega
          rw [hmin] at hreads
          rw [strlcpyLoop, if_pos h.head, ih (h.tail (by omega) hreads) (by omega) hreads.tail,
            add_one_add_ofNat]
          rfl

/-- Bytes that have been moved. -/
theorem byte_rep_movsb (hn : n ≤ 2 ^ 32) (hreads : ReadsFirst dst src n) {i : ℕ} (hi : i < n) :
    (Mem.rep Mem.movsb 1 n m dst src).byte (dst + BitVec.ofNat 32 i) =
      m.byte (src + BitVec.ofNat 32 i) := by
  have hcopy := Mem.rep_forward Mem.moves_movsb (by decide) n m dst src (by omega)
    (by rwa [Nat.one_mul]) (dst + BitVec.ofNat 32 i)
  rwa [Nat.one_mul, Mem.copied, add_sub_cancel_left, BitVec.toNat_ofNat, if_pos (by omega)] at hcopy

/-- Moves of bytes store inside the destination only. -/
theorem within_rep_movsb (hn : n ≤ 2 ^ 32) :
    Mem.Within (Mem.Span dst n) m (Mem.rep Mem.movsb 1 n m dst src) := by
  have hwithin := Mem.rep_forward_within Mem.moves_movsb (by decide) n m dst src (by omega)
  rwa [Nat.one_mul] at hwithin

/-- What is read first for more bytes is for fewer. -/
theorem ReadsFirst.mono {k : ℕ} (h : ReadsFirst dst src n) (hk : k ≤ n) : ReadsFirst dst src k :=
  h.imp_right hk.trans

/-- **`strncpy`** copies the string up to the size, and fills the rest with zeros; so what it leaves
ends with a NUL if and only if the string is shorter than the size. -/
theorem strncpy_pads {size : BitVec 32} (h : m.Upto src size.toNat n)
    (hreads : ReadsFirst dst src (min (n + 1) size.toNat)) :
    (∀ i < n, (strncpy m dst src size).byte (dst + BitVec.ofNat 32 i) =
      m.byte (src + BitVec.ofNat 32 i)) ∧
    (∀ i, n ≤ i → i < size.toNat → (strncpy m dst src size).byte (dst + BitVec.ofNat 32 i) = 0) ∧
    Mem.Within (Mem.Span dst size.toNat) m (strncpy m dst src size) ∧
    ((∃ k < size.toNat, (strncpy m dst src size).Length dst k) ↔ n < size.toNat) := by
  have hsize := size.isLt
  have hle := h.le
  have heq := strncpyLoop_eq h hsize hreads
  rw [← strncpy] at heq
  have hfill : ∀ a, (strncpy m dst src size).byte a =
      (Mem.rep Mem.movsb 1 n m dst src).filled (dst + BitVec.ofNat 32 n) (size.toNat - n) 0 a := by
    intro a
    have hfill := Mem.repStos_fills (Mem.fills_stosb 0) (by decide) (size.toNat - n)
      (Mem.rep Mem.movsb 1 n m dst src) (dst + BitVec.ofNat 32 n) (by omega) a
    rw [Nat.one_mul] at hfill
    rw [heq]
    exact hfill
  have hcopied : ∀ i < n, (strncpy m dst src size).byte (dst + BitVec.ofNat 32 i) =
      m.byte (src + BitVec.ofNat 32 i) := by
    intro i hi
    have hbefore : (dst + BitVec.ofNat 32 i - (dst + BitVec.ofNat 32 n)).toNat =
        i + 2 ^ 32 - n := by
      rw [Mem.toNat_sub_add_ofNat _ _ (by omega), add_sub_cancel_left, BitVec.toNat_ofNat,
        if_neg (by omega)]
      omega
    rw [hfill, Mem.filled, hbefore, if_neg (by omega),
      byte_rep_movsb (by omega) (hreads.mono (by omega)) hi]
  have hpadded : ∀ i, n ≤ i → i < size.toNat →
      (strncpy m dst src size).byte (dst + BitVec.ofNat 32 i) = 0 := by
    intro i hi hi'
    obtain ⟨j, rfl⟩ := Nat.exists_eq_add_of_le hi
    have hoff : dst + BitVec.ofNat 32 (n + j) - (dst + BitVec.ofNat 32 n) = BitVec.ofNat 32 j := by
      rw [BitVec.ofNat_add, ← add_assoc, add_sub_cancel_left]
    rw [hfill, Mem.filled, hoff, BitVec.toNat_ofNat, if_pos (by omega)]
  refine ⟨hcopied, hpadded, ?_, ?_, fun hlt => ⟨n, hlt, by omega, fun i hi => ?_, ?_⟩⟩
  · have hzeros := Mem.repStos_within (Mem.fills_stosb 0) (by decide) (size.toNat - n)
      (Mem.rep Mem.movsb 1 n m dst src) (dst + BitVec.ofNat 32 n) (by omega)
    rw [Nat.one_mul] at hzeros
    rw [heq]
    refine ((within_rep_movsb (by omega)).mono fun a ha => ?_).trans (hzeros.mono fun a ha => ?_)
    · exact lt_of_lt_of_le ha hle
    · have hspan := Mem.span_of_span_add (by omega) ha
      rwa [Nat.add_sub_cancel' hle] at hspan
  · rintro ⟨k, hk, hlen⟩
    by_contra hlt
    have hnul := hlen.nul
    rw [hcopied k (by omega)] at hnul
    exact h.nonzero k (by omega) hnul
  · rw [hcopied i hi]
    exact h.nonzero i hi
  · exact hpadded n (le_refl n) hlt

/-- Two letters, and no room for the NUL. -/
theorem strncpy_pads_two : ¬ ∃ k < 2, (strncpy twoLetters 16 0 2).Length 16 k := by
  have hupto : twoLetters.Upto 0 (2 : BitVec 32).toNat 2 :=
    ⟨by decide, by decide, fun h => absurd h (by decide)⟩
  have hreads : ReadsFirst 16 0 (min (2 + 1) (2 : BitVec 32).toNat) := Or.inr (by decide)
  exact fun h => absurd ((strncpy_pads hupto hreads).2.2.2.mp h) (by decide)

/-- **`strlcpy`** always leaves a string, if there is room for one, and returns the length of that,
not of the string that it was to copy. -/
theorem strlcpy_ends {size : BitVec 32} (hpos : 0 < size) (h : m.Upto src (size.toNat - 1) n)
    (hreads : ReadsFirst dst src (min (n + 1) (size.toNat - 1))) :
    (strlcpy m dst src size).1 = BitVec.ofNat 32 n ∧
    (strlcpy m dst src size).2.Length dst n ∧
    (∀ i < n, (strlcpy m dst src size).2.byte (dst + BitVec.ofNat 32 i) =
      m.byte (src + BitVec.ofNat 32 i)) ∧
    Mem.Within (Mem.Span dst (n + 1)) m (strlcpy m dst src size).2 := by
  have hsize := size.isLt
  have hle := h.le
  have hone : 1 ≤ size.toNat := hpos
  have hpred : (size - 1).toNat = size.toNat - 1 := BitVec.toNat_sub_of_le hone
  have hrun : strlcpy m dst src size = (BitVec.ofNat 32 n,
      (Mem.rep Mem.movsb 1 n m dst src).store8 (dst + BitVec.ofNat 32 n) 0) := by
    rw [strlcpy, if_pos hpos, hpred, strlcpyLoop_eq h (by omega) hreads]
    dsimp only
    rw [add_sub_cancel_left]
  have hcopied : ∀ i < n, ((Mem.rep Mem.movsb 1 n m dst src).store8
      (dst + BitVec.ofNat 32 n) 0).byte (dst + BitVec.ofNat 32 i) =
        m.byte (src + BitVec.ofNat 32 i) := by
    intro i hi
    have hne : dst + BitVec.ofNat 32 i ≠ dst + BitVec.ofNat 32 n := by
      intro heq
      have hnat := congrArg BitVec.toNat (add_left_cancel heq)
      rw [BitVec.toNat_ofNat, BitVec.toNat_ofNat] at hnat
      omega
    rw [Mem.byte_store8, if_neg hne, byte_rep_movsb (by omega) (hreads.mono (by omega)) hi]
  rw [hrun]
  refine ⟨rfl, ⟨by omega, fun i hi => ?_, ?_⟩, hcopied, ?_⟩
  · rw [hcopied i hi]
    exact h.nonzero i hi
  · rw [Mem.byte_store8, if_pos rfl]
  · refine ((within_rep_movsb (by omega)).mono fun a ha => Nat.lt_succ_of_lt ha).trans
      (Mem.within_store8 _ 0 ?_)
    change (dst + BitVec.ofNat 32 n - dst).toNat < n + 1
    rw [add_sub_cancel_left, BitVec.toNat_ofNat]
    omega

/-- Of the two letters one is copied. -/
theorem strlcpy_ends_two : (strlcpy twoLetters 16 0 2).1 = 1 ∧
    (strlcpy twoLetters 16 0 2).2.Length 16 1 := by
  have hupto : twoLetters.Upto 0 ((2 : BitVec 32).toNat - 1) 1 :=
    ⟨by decide, by decide, fun h => absurd h (by decide)⟩
  have hreads : ReadsFirst 16 0 (min (1 + 1) ((2 : BitVec 32).toNat - 1)) := Or.inr (by decide)
  have hends := strlcpy_ends (by decide) hupto hreads
  exact ⟨hends.1, hends.2.1⟩

end

/-! ### `memfind` -/

section

variable {m : Mem} {s : Addr} {c n : BitVec 32}

/-- The loop of `memfind`, where there are `d` bytes left. Induction on how far it is to the
byte. -/
theorem memfind_loops {d k : ℕ} (hend : s.toNat + d < 2 ^ 32) (hk : k ≤ d)
    (hbefore : ∀ i < k, m.byte (s + BitVec.ofNat 32 i) ≠ c.setWidth 8)
    (hfound : k < d → m.byte (s + BitVec.ofNat 32 k) = c.setWidth 8) :
    Loops .fuel (fun _ => memfindRound m c (s + BitVec.ofNat 32 d)) s (s + BitVec.ofNat 32 k) := by
  have hends : (s + BitVec.ofNat 32 d).toNat = s.toNat + d := toNat_add_ofNat hend
  induction k generalizing s d with
  | zero =>
      refine .leave ?_
      rw [BitVec.add_zero] at hfound ⊢
      rcases Nat.eq_zero_or_pos d with rfl | hd
      · have hround : memfindRound m c (s + BitVec.ofNat 32 0) s = .ok (.leave s) :=
          if_neg fun hlt => by
            rw [BitVec.add_zero] at hlt
            exact BitVec.lt_irrefl s hlt
        rw [hround]
        exact converges_ok _
      · have hlt : s < s + BitVec.ofNat 32 d := by
          rw [BitVec.lt_def, hends]
          omega
        have hround : memfindRound m c (s + BitVec.ofNat 32 d) s = .ok (.leave s) := by
          rw [memfindRound, if_pos hlt, if_pos (hfound hd)]
        rw [hround]
        exact converges_ok _
  | succ k ih =>
      obtain ⟨d, rfl⟩ : ∃ d', d = d' + 1 := ⟨d - 1, by omega⟩
      have hlt : s < s + BitVec.ofNat 32 (d + 1) := by
        rw [BitVec.lt_def, hends]
        omega
      have hne := hbefore 0 (Nat.succ_pos k)
      rw [BitVec.add_zero] at hne
      have hround : memfindRound m c (s + BitVec.ofNat 32 (d + 1)) s = .ok (.next (s + 1)) := by
        rw [memfindRound, if_pos hlt, if_neg hne]
      have hconv : Converges (.next (s + 1))
          fun _ : ℕ => memfindRound m c (s + BitVec.ofNat 32 (d + 1)) s := by
        rw [hround]
        exact converges_ok _
      have hone : (s + 1).toNat = s.toNat + 1 := toNat_add_ofNat (k := 1) (by omega)
      have hrest := ih (s := s + 1) (d := d) (by omega) (by omega)
        (fun i hi => by rw [add_one_add_ofNat]; exact hbefore (i + 1) (by omega))
        (fun hkd => by rw [add_one_add_ofNat]; exact hfound (by omega))
        (toNat_add_ofNat (by omega))
      rw [add_one_add_ofNat, add_one_add_ofNat] at hrest
      exact .next hconv hrest

/-- A range that reaches the end of the address space ends at or before its start: `memfind` returns
at once. -/
theorem memfind_stops (hend : 2 ^ 32 ≤ s.toNat + n.toNat) :
    Converges s fun fuel => memfind fuel m s c n := by
  have hn := n.isLt
  have hnot : ¬ s < s + n := by
    rw [BitVec.lt_def, BitVec.toNat_add]
    omega
  have hround : memfindRound m c (s + n) s = .ok (.leave s) := if_neg hnot
  have hleave : Loops .fuel (fun _ => memfindRound m c (s + n)) s s := by
    refine .leave ?_
    rw [hround]
    exact converges_ok _
  exact hleave.converges

/-- **`memfind`** comes to the first such byte, or to the end of the range if there is none, unless
the range reaches the end of the address space: then it returns its start, and finds none but the
very first. -/
theorem memfind_iff {k : ℕ} (hk : k ≤ n.toNat)
    (hbefore : ∀ i < k, m.byte (s + BitVec.ofNat 32 i) ≠ c.setWidth 8)
    (hfound : k < n.toNat → m.byte (s + BitVec.ofNat 32 k) = c.setWidth 8) :
    (Converges (s + BitVec.ofNat 32 k) (fun fuel => memfind fuel m s c n) ↔
      k = 0 ∨ s.toNat + n.toNat < 2 ^ 32) ∧
    (2 ^ 32 ≤ s.toNat + n.toNat → Converges s fun fuel => memfind fuel m s c n) := by
  have hn := n.isLt
  refine ⟨?_, memfind_stops⟩
  rcases Nat.lt_or_ge (s.toNat + n.toNat) (2 ^ 32) with hend | hend
  · refine iff_of_true ?_ (Or.inr hend)
    have hloop := (memfind_loops hend hk hbefore hfound).converges
    rwa [BitVec.ofNat_toNat, BitVec.setWidth_eq] at hloop
  · have hstop : Converges s fun fuel => memfind fuel m s c n := memfind_stops hend
    constructor
    · intro hconv
      have heq := hconv.unique hstop
      have hzero : BitVec.ofNat 32 k = 0 := by
        rwa [add_eq_left] at heq
      have hnat := congrArg BitVec.toNat hzero
      rw [BitVec.toNat_ofNat, Nat.mod_eq_of_lt (by omega)] at hnat
      exact Or.inl hnat
    · rintro (rfl | hlt)
      · rwa [BitVec.add_zero]
      · omega

/-- The last sixteen bytes of memory: the second of them is not found. -/
theorem memfind_iff_last : Converges 0xFFFFFFF0
      (fun fuel => memfind fuel ⟨fun a => a.setWidth 8, []⟩ 0xFFFFFFF0 0xF1 16) ∧
    ¬ Converges 0xFFFFFFF1
      (fun fuel => memfind fuel ⟨fun a => a.setWidth 8, []⟩ 0xFFFFFFF0 0xF1 16) := by
  obtain ⟨hiff, hstop⟩ := memfind_iff (m := ⟨fun a => a.setWidth 8, []⟩) (s := 0xFFFFFFF0)
    (c := 0xF1) (n := 16) (k := 1) (by decide) (by decide) fun _ => by decide
  exact ⟨hstop (by decide), fun h => absurd (hiff.mp h) (by decide)⟩

end

end Jos
