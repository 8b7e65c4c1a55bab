import Mathlib.Data.BitVec
import Mathlib.Data.List.Basic
import Mathlib.Logic.Function.Basic
import Mathlib.Tactic.Ring

/-!
# Byte-Addressed Memory and String Moves

The memory of a 32-bit machine as a total function from addresses to bytes, together
with the addresses stored to so far. The store ledger makes "nothing outside this
region is written" a statement about the stores themselves, not only about the bytes
they leave behind: a store that happens to write the value already there is still in
the ledger.

Multi-byte cells are little-endian. The repeated string moves of the x86 are modelled
as one recursion over the element count (`rep`), parametrized by the element move and by
the signed stride the direction flag selects; repeated stores likewise (`repStos`).

## Main results

* `Mem.load16_store16` and `Mem.load16_store16_of_apart`: a cell reads back what was
  stored, and a store leaves every cell two or more bytes away alone.
* `Mem.Within`: the memory changes of a computation, confined to a region; reflexive,
  transitive and monotone in the region.
* `Mem.rep_forward`, `Mem.rep_backward`: a repeated move of elements of any width is a
  *simultaneous* copy (`Mem.copied`) whenever the destination does not run into source
  bytes still to be read — in ascending order when the destination does not start inside
  the source, in descending order when the source does not start inside the destination.
* `Mem.repStos_fills`: a repeated store of elements of any width sets all their bytes.
-/

namespace Jos

/-- Addresses of the 32-bit machine. -/
abbrev Addr := BitVec 32

/-- A byte of memory. -/
abbrev Byte := BitVec 8

/-- The memory: its bytes, and the addresses stored to so far, most recent first. -/
structure Mem where
  byte : Addr → Byte
  stores : List Addr

/-- An address further up. -/
theorem toNat_add_ofNat {a : Addr} {k : ℕ} (h : a.toNat + k < 2 ^ 32) :
    (a + BitVec.ofNat 32 k).toNat = a.toNat + k := by
  rw [BitVec.toNat_add, BitVec.toNat_ofNat]
  omega

namespace Mem

/-- Store one byte. -/
def store8 (m : Mem) (a : Addr) (v : Byte) : Mem where
  byte := Function.update m.byte a v
  stores := a :: m.stores

/-- Load a 16-bit cell, low byte first. -/
def load16 (m : Mem) (a : Addr) : BitVec 16 :=
  m.byte (a + 1) ++ m.byte a

/-- Store a 16-bit cell, low byte first. -/
def store16 (m : Mem) (a : Addr) (v : BitVec 16) : Mem :=
  (m.store8 a (v.setWidth 8)).store8 (a + 1) ((v >>> 8).setWidth 8)

/-- Load a 32-bit cell, low byte first. -/
def load32 (m : Mem) (a : Addr) : BitVec 32 :=
  m.byte (a + 3) ++ m.byte (a + 2) ++ m.byte (a + 1) ++ m.byte a

/-- Store a 32-bit word given by its bytes, low byte first. -/
def store32 (m : Mem) (a : Addr) (b₀ b₁ b₂ b₃ : Byte) : Mem :=
  (((m.store8 a b₀).store8 (a + 1) b₁).store8 (a + 2) b₂).store8 (a + 3) b₃

/-! ### Reading back -/

/-- The address after the `k`-th one from `p` on. -/
theorem add_ofNat_add_one (p : Addr) (k : ℕ) :
    p + BitVec.ofNat 32 k + 1 = p + BitVec.ofNat 32 (k + 1) := by
  rw [BitVec.ofNat_add, ← add_assoc]
  rfl

/-- Every address, counted from `p` on. -/
theorem add_ofNat_toNat_sub (p a : Addr) : p + BitVec.ofNat 32 (a - p).toNat = a := by
  rw [BitVec.ofNat_toNat, BitVec.setWidth_eq]
  ring

/-- A byte reads back, and the others are as they were. -/
theorem byte_store8 (m : Mem) (a b : Addr) (v : Byte) :
    (m.store8 a v).byte b = if b = a then v else m.byte b := by
  simp only [store8, Function.update_apply]

/-- The two bytes of a 16-bit cell, put back together. -/
theorem append_bytes (v : BitVec 16) :
    (((v >>> 8).setWidth 8 : Byte) ++ (v.setWidth 8 : Byte) : BitVec 16) = v := by
  apply BitVec.eq_of_getLsbD_eq
  intro i hi
  rw [BitVec.getLsbD_append]
  by_cases h : i < 8
  · simp [h]
  · have hhigh : i - 8 < 8 := by omega
    have hback : 8 + (i - 8) = i := by omega
    simp [h, hhigh, hback]

/-- A cell reads back what was stored to it. -/
@[simp] theorem load16_store16 (m : Mem) (a : Addr) (v : BitVec 16) :
    (m.store16 a v).load16 a = v := by
  have hne : a ≠ a + 1 := by bv_omega
  simp only [load16, store16, byte_store8, if_true, if_neg hne]
  exact append_bytes v

/-- A store to a cell leaves the cells two or more bytes away alone, in either
direction around the address space. -/
theorem load16_store16_of_apart (m : Mem) {a b : Addr} (v : BitVec 16)
    (hlo : 2 ≤ (a - b).toNat) (hhi : 2 ≤ (b - a).toNat) :
    (m.store16 a v).load16 b = m.load16 b := by
  have h₁ : b + 1 ≠ a + 1 := by bv_omega
  have h₂ : b + 1 ≠ a := by bv_omega
  have h₃ : b ≠ a + 1 := by bv_omega
  have h₄ : b ≠ a := by bv_omega
  simp only [load16, store16, byte_store8, if_neg h₁, if_neg h₂, if_neg h₃, if_neg h₄]

/-- Words of the same bytes are the same. -/
theorem load32_congr {m m' : Mem} {a b : Addr}
    (h : ∀ i < 4, m.byte (a + BitVec.ofNat 32 i) = m'.byte (b + BitVec.ofNat 32 i)) :
    m.load32 a = m'.load32 b := by
  have h₀ := h 0 (by decide)
  have h₁ : m.byte (a + 1) = m'.byte (b + 1) := h 1 (by decide)
  have h₂ : m.byte (a + 2) = m'.byte (b + 2) := h 2 (by decide)
  have h₃ : m.byte (a + 3) = m'.byte (b + 3) := h 3 (by decide)
  rw [BitVec.add_zero, BitVec.add_zero] at h₀
  rw [load32, load32, h₀, h₁, h₂, h₃]

/-! ### Confinement to a region -/

/-- `Within P m m'`: memory `m'` comes from `m` by stores to addresses in `P` only. -/
structure Within (P : Addr → Prop) (m m' : Mem) : Prop where
  stored : ∃ w, m'.stores = w ++ m.stores ∧ ∀ a ∈ w, P a
  frame : ∀ a, ¬ P a → m'.byte a = m.byte a

/-- No store is within any region. -/
theorem Within.refl (P : Addr → Prop) (m : Mem) : Within P m m :=
  ⟨⟨[], rfl, by simp⟩, fun _ _ => rfl⟩

/-- Stores within a region, one after the other. -/
theorem Within.trans {P : Addr → Prop} {m₁ m₂ m₃ : Mem} (h₁ : Within P m₁ m₂)
    (h₂ : Within P m₂ m₃) : Within P m₁ m₃ := by
  obtain ⟨w₁, hw₁, hP₁⟩ := h₁.stored
  obtain ⟨w₂, hw₂, hP₂⟩ := h₂.stored
  refine ⟨⟨w₂ ++ w₁, by rw [hw₂, hw₁, List.append_assoc], ?_⟩, fun a ha => ?_⟩
  · intro a ha
    rcases List.mem_append.mp ha with h | h
    · exact hP₂ a h
    · exact hP₁ a h
  · rw [h₂.frame a ha, h₁.frame a ha]

/-- Stores within a region are within a larger one. -/
theorem Within.mono {P Q : Addr → Prop} {m m' : Mem} (hPQ : ∀ a, P a → Q a)
    (h : Within P m m') : Within Q m m' := by
  obtain ⟨w, hw, hP⟩ := h.stored
  exact ⟨⟨w, hw, fun a ha => hPQ a (hP a ha)⟩, fun a ha => h.frame a fun hp => ha (hPQ a hp)⟩

/-- A byte stored to a region is within it. -/
theorem within_store8 {P : Addr → Prop} (m : Mem) {a : Addr} (v : Byte) (ha : P a) :
    Within P m (m.store8 a v) := by
  refine ⟨⟨[a], rfl, by simpa using ha⟩, fun b hb => ?_⟩
  have hne : b ≠ a := fun h => hb (h ▸ ha)
  rw [byte_store8, if_neg hne]

/-- So is a cell. -/
theorem within_store16 {P : Addr → Prop} (m : Mem) {a : Addr} (v : BitVec 16)
    (h₀ : P a) (h₁ : P (a + 1)) : Within P m (m.store16 a v) :=
  (within_store8 m _ h₀).trans (within_store8 _ _ h₁)

/-- The addresses of the `n` bytes from `a` on. -/
def Span (a : Addr) (n : ℕ) (b : Addr) : Prop :=
  (b - a).toNat < n

/-- A word's bytes, stored. -/
theorem byte_store32 (m : Mem) (a b : Addr) (data : ℕ → Byte) :
    (m.store32 a (data 0) (data 1) (data 2) (data 3)).byte b =
      if (b - a).toNat < 4 then data (b - a).toNat else m.byte b := by
  simp only [store32, byte_store8]
  by_cases h₃ : b = a + 3
  · rw [if_pos h₃, if_pos (by bv_omega), show (b - a).toNat = 3 by bv_omega]
  rw [if_neg h₃]
  by_cases h₂ : b = a + 2
  · rw [if_pos h₂, if_pos (by bv_omega), show (b - a).toNat = 2 by bv_omega]
  rw [if_neg h₂]
  by_cases h₁ : b = a + 1
  · rw [if_pos h₁, if_pos (by bv_omega), show (b - a).toNat = 1 by bv_omega]
  rw [if_neg h₁]
  by_cases h₀ : b = a
  · rw [if_pos h₀, if_pos (by bv_omega), show (b - a).toNat = 0 by bv_omega]
  rw [if_neg h₀, if_neg (by bv_omega)]

/-- A word is stored to its four bytes. -/
theorem within_store32 (m : Mem) (a : Addr) (b₀ b₁ b₂ b₃ : Byte) :
    Within (Span a 4) m (m.store32 a b₀ b₁ b₂ b₃) := by
  have h : ∀ k : Addr, k.toNat < 4 → Span a 4 (a + k) := by
    intro k hk
    rw [Span, show a + k - a = k by bv_omega]
    exact hk
  exact (((within_store8 m _ (by simp [Span])).trans
    (within_store8 _ _ (h 1 (by decide)))).trans
    (within_store8 _ _ (h 2 (by decide)))).trans (within_store8 _ _ (h 3 (by decide)))

/-! ### String moves -/

/-- `movsb`: move one byte from `esi` to `edi`. -/
def movsb (m : Mem) (edi esi : Addr) : Mem :=
  m.store8 edi (m.byte esi)

/-- `movsl`: move one doubleword from `esi` to `edi`; it is loaded whole before any of
it is stored. -/
def movsl (m : Mem) (edi esi : Addr) : Mem :=
  m.store32 edi (m.byte esi) (m.byte (esi + 1)) (m.byte (esi + 2)) (m.byte (esi + 3))

/-- The `rep` prefix: `n` element moves, both pointers advancing by the stride `δ` after
each one — the element width with the direction flag clear, its negation with it set. -/
def rep (mov : Mem → Addr → Addr → Mem) (δ : BitVec 32) : ℕ → Mem → Addr → Addr → Mem
  | 0, m, _, _ => m
  | n + 1, m, edi, esi => rep mov δ n (mov m edi esi) (edi + δ) (esi + δ)

/-- The simultaneous copy of the `n` bytes at `src` to `dst`, as a function of the
original bytes. -/
def copied (m : Mem) (dst src : Addr) (n : ℕ) (a : Addr) : Byte :=
  if (a - dst).toNat < n then m.byte (src + (a - dst)) else m.byte a

/-- An element move of width `w`: a simultaneous copy of `w` bytes that stores nowhere
else. -/
structure Moves (w : ℕ) (mov : Mem → Addr → Addr → Mem) : Prop where
  byte : ∀ m edi esi a, (mov m edi esi).byte a = copied m edi esi w a
  within : ∀ m edi esi, Within (Span edi w) m (mov m edi esi)

theorem moves_movsb : Moves 1 movsb := by
  constructor
  · intro m edi esi a
    rw [movsb, byte_store8, copied]
    by_cases h : a = edi
    · subst h
      simp
    · rw [if_neg h, if_neg (by bv_omega)]
  · intro m edi esi
    exact within_store8 m _ (by simp [Span])

theorem moves_movsl : Moves 4 movsl := by
  constructor
  · intro m edi esi a
    have hbytes := byte_store32 m edi a fun i => m.byte (esi + BitVec.ofNat 32 i)
    simp only [BitVec.ofNat_toNat, BitVec.setWidth_eq] at hbytes
    rw [copied, ← hbytes, BitVec.add_zero]
    rfl
  · intro m edi esi
    exact within_store32 m edi _ _ _ _

/-- How far `a` lies past `b + k`, read off how far it lies past `b`. -/
theorem toNat_sub_add_ofNat (a b : Addr) {k : ℕ} (hk : k < 2 ^ 32) :
    (a - (b + BitVec.ofNat 32 k)).toNat =
      if k ≤ (a - b).toNat then (a - b).toNat - k else (a - b).toNat + 2 ^ 32 - k := by
  have hd : (a - b).toNat < 2 ^ 32 := (a - b).isLt
  have hsub : a - (b + BitVec.ofNat 32 k) = (a - b) - BitVec.ofNat 32 k := by ring
  rw [hsub, BitVec.toNat_sub, BitVec.toNat_ofNat, Nat.mod_eq_of_lt hk]
  split <;> omega

/-- **Ascending moves.** With the direction flag clear, a repeated move is a simultaneous
copy when the destination does not start strictly inside the source. Induction on the
element count, front element first: the bytes it stores are never read again. -/
theorem rep_forward {w : ℕ} {mov : Mem → Addr → Addr → Mem} (hmov : Moves w mov)
    (hw : w < 2 ^ 32) (n : ℕ) (m : Mem) (dst src : Addr) (hn : w * n ≤ 2 ^ 32)
    (hsep : dst = src ∨ w * n ≤ (dst - src).toNat) (a : Addr) :
    (rep mov (BitVec.ofNat 32 w) n m dst src).byte a = copied m dst src (w * n) a := by
  induction n generalizing m dst src with
  | zero => simp [rep, copied]
  | succ n ih =>
      rw [Nat.mul_succ] at hn hsep ⊢
      have hshift : dst + BitVec.ofNat 32 w - (src + BitVec.ofNat 32 w) = dst - src := by ring
      have hsep' : dst + BitVec.ofNat 32 w = src + BitVec.ofNat 32 w ∨
          w * n ≤ (dst + BitVec.ofNat 32 w - (src + BitVec.ofNat 32 w)).toNat := by
        rw [hshift]
        rcases hsep with h | h
        · exact Or.inl (by rw [h])
        · exact Or.inr (by omega)
      have hread : src + BitVec.ofNat 32 w + (a - (dst + BitVec.ofNat 32 w)) =
          src + (a - dst) := by ring
      rw [rep, ih _ _ _ (by omega) hsep', copied, hread, hmov.byte, hmov.byte, copied, copied,
        copied, toNat_sub_add_ofNat a dst hw]
      have hd : (a - dst).toNat < 2 ^ 32 := (a - dst).isLt
      have hback : src + (a - dst) - dst = (a - dst) - (dst - src) := by ring
      have hpast : w ≤ (a - dst).toNat → (a - dst).toNat < w * n + w →
          w ≤ (src + (a - dst) - dst).toNat := by
        intro h₁ h₂
        rw [hback, BitVec.toNat_sub]
        have hh : (dst - src).toNat < 2 ^ 32 := (dst - src).isLt
        rcases hsep with h | h
        · have hzero : (dst - src).toNat = 0 := by rw [h, sub_self]; rfl
          omega
        · omega
      by_cases hlo : w ≤ (a - dst).toNat
      · rw [if_pos hlo]
        by_cases hhi : (a - dst).toNat < w * n + w
        · rw [if_pos (by omega), if_neg (by have := hpast hlo hhi; omega), if_pos hhi]
        · rw [if_neg (by omega), if_neg (by omega), if_neg hhi]
      · rw [if_neg hlo, if_neg (by omega), if_pos (by omega), if_pos (by omega)]

/-- **Descending moves.** With the direction flag set and both pointers on the last
element, a repeated move is a simultaneous copy when the source does not start strictly
inside the destination. Induction on the element count, back element first. -/
theorem rep_backward {w : ℕ} {mov : Mem → Addr → Addr → Mem} (hmov : Moves w mov)
    (hw : w < 2 ^ 32) (n : ℕ) (m : Mem) (dst src : Addr) (hn : w * n ≤ 2 ^ 32)
    (hsep : src = dst ∨ w * n ≤ (src - dst).toNat) (a : Addr) :
    (rep mov (-BitVec.ofNat 32 w) n m (dst + BitVec.ofNat 32 (w * n) - BitVec.ofNat 32 w)
      (src + BitVec.ofNat 32 (w * n) - BitVec.ofNat 32 w)).byte a =
        copied m dst src (w * n) a := by
  induction n generalizing m with
  | zero => simp [rep, copied]
  | succ n ih =>
      have hlast : ∀ p : Addr, p + BitVec.ofNat 32 (w * (n + 1)) - BitVec.ofNat 32 w =
          p + BitVec.ofNat 32 (w * n) := by
        intro p
        rw [Nat.mul_succ, BitVec.ofNat_add]
        ring
      have hstep : ∀ p : Addr, p + -BitVec.ofNat 32 w = p - BitVec.ofNat 32 w := by
        intro p
        ring
      rw [Nat.mul_succ] at hn hsep
      have hsep' : src = dst ∨ w * n ≤ (src - dst).toNat := by
        rcases hsep with h | h
        · exact Or.inl h
        · exact Or.inr (by omega)
      have hN : w * n < 2 ^ 32 := by
        rcases Nat.eq_zero_or_pos w with h | h
        · rw [h, Nat.zero_mul]; decide
        · omega
      rw [rep, hlast, hlast, hstep, hstep, ih _ (by omega) hsep', copied, hmov.byte, hmov.byte,
        copied, copied, copied, Nat.mul_succ, toNat_sub_add_ofNat a dst hN,
        toNat_sub_add_ofNat (src + (a - dst)) dst hN]
      have hd : (a - dst).toNat < 2 ^ 32 := (a - dst).isLt
      have hread : src + BitVec.ofNat 32 (w * n) + (a - (dst + BitVec.ofNat 32 (w * n))) =
          src + (a - dst) := by ring
      have hback : src + (a - dst) - dst = (a - dst) + (src - dst) := by ring
      have hunread : (a - dst).toNat < w * n →
          ¬ (if w * n ≤ (src + (a - dst) - dst).toNat
              then (src + (a - dst) - dst).toNat - w * n
              else (src + (a - dst) - dst).toNat + 2 ^ 32 - w * n) < w := by
        intro h
        rw [hback, BitVec.toNat_add]
        have hh : (src - dst).toNat < 2 ^ 32 := (src - dst).isLt
        rcases hsep with h' | h'
        · have hzero : (src - dst).toNat = 0 := by rw [h', sub_self]; rfl
          split <;> omega
        · split <;> omega
      rw [hread]
      by_cases hlo : (a - dst).toNat < w * n
      · rw [if_pos hlo, if_neg (hunread hlo), if_pos (by omega)]
      · rw [if_neg hlo, if_pos (Nat.le_of_not_lt hlo)]
        by_cases hhi : (a - dst).toNat < w * n + w
        · rw [if_pos (show (a - dst).toNat - w * n < w by omega), if_pos hhi]
        · rw [if_neg (show ¬ (a - dst).toNat - w * n < w by omega), if_neg hhi]

/-- A span inside a longer one, `k` bytes further on. -/
theorem span_of_span_add {dst b : Addr} {k n : ℕ} (hk : k < 2 ^ 32)
    (h : Span (dst + BitVec.ofNat 32 k) n b) : Span dst (k + n) b := by
  rw [Span, toNat_sub_add_ofNat b dst hk] at h
  have hd : (b - dst).toNat < 2 ^ 32 := (b - dst).isLt
  rw [Span]
  by_cases hle : k ≤ (b - dst).toNat
  · rw [if_pos hle] at h
    omega
  · rw [if_neg hle] at h
    omega

/-- Ascending moves store inside the destination only. -/
theorem rep_forward_within {w : ℕ} {mov : Mem → Addr → Addr → Mem} (hmov : Moves w mov)
    (hw : w < 2 ^ 32) (n : ℕ) (m : Mem) (dst src : Addr) (hn : w * n ≤ 2 ^ 32) :
    Within (Span dst (w * n)) m (rep mov (BitVec.ofNat 32 w) n m dst src) := by
  induction n generalizing m dst src with
  | zero => exact Within.refl _ m
  | succ n ih =>
      rw [Nat.mul_succ] at hn ⊢
      have hhead : Within (Span dst (w * n + w)) m (mov m dst src) :=
        (hmov.within m dst src).mono fun b hb => by
          rw [Span] at hb ⊢
          omega
      have htail := (ih (mov m dst src) (dst + BitVec.ofNat 32 w) (src + BitVec.ofNat 32 w)
        (by omega)).mono fun b hb => span_of_span_add hw hb
      rw [Nat.add_comm w] at htail
      exact hhead.trans htail

/-- Descending moves store inside the destination only. -/
theorem rep_backward_within {w : ℕ} {mov : Mem → Addr → Addr → Mem} (hmov : Moves w mov)
    (n : ℕ) (m : Mem) (dst src : Addr) (hn : w * n ≤ 2 ^ 32) :
    Within (Span dst (w * n)) m (rep mov (-BitVec.ofNat 32 w) n m
      (dst + BitVec.ofNat 32 (w * n) - BitVec.ofNat 32 w) src) := by
  induction n generalizing m src with
  | zero => exact Within.refl _ m
  | succ n ih =>
      have hlast : dst + BitVec.ofNat 32 (w * (n + 1)) - BitVec.ofNat 32 w =
          dst + BitVec.ofNat 32 (w * n) := by
        rw [Nat.mul_succ, BitVec.ofNat_add]
        ring
      rw [Nat.mul_succ] at hn
      rw [rep, hlast, ← sub_eq_add_neg, Nat.mul_succ]
      have hhead : Within (Span dst (w * n + w)) m
          (mov m (dst + BitVec.ofNat 32 (w * n)) src) := by
        rcases Nat.eq_zero_or_pos w with h | h
        · subst h
          exact (hmov.within m _ src).mono fun b hb => absurd hb (Nat.not_lt_zero _)
        · exact (hmov.within m _ src).mono fun b hb =>
            span_of_span_add (by omega) hb
      have htail := (ih (mov m (dst + BitVec.ofNat 32 (w * n)) src)
        (src + -BitVec.ofNat 32 w) (by omega)).mono (Q := Span dst (w * n + w)) fun b hb => by
          rw [Span] at hb ⊢
          omega
      exact hhead.trans htail

/-! ### String stores -/

/-- `stosb`: store `al` to `edi`. -/
def stosb (eax : BitVec 32) (m : Mem) (edi : Addr) : Mem :=
  m.store8 edi (eax.setWidth 8)

/-- `stosl`: store `eax` to `edi`, low byte first. -/
def stosl (eax : BitVec 32) (m : Mem) (edi : Addr) : Mem :=
  m.store32 edi (eax.setWidth 8) ((eax >>> 8).setWidth 8) ((eax >>> 16).setWidth 8)
    ((eax >>> 24).setWidth 8)

/-- The `rep` prefix of a store: `n` element stores, `edi` advancing by `δ` after each one. -/
def repStos (stos : Mem → Addr → Mem) (δ : BitVec 32) : ℕ → Mem → Addr → Mem
  | 0, m, _ => m
  | n + 1, m, edi => repStos stos δ n (stos m edi) (edi + δ)

/-- The `n` bytes from `dst` on set to `v`. -/
def filled (m : Mem) (dst : Addr) (n : ℕ) (v : Byte) (a : Addr) : Byte :=
  if (a - dst).toNat < n then v else m.byte a

/-- An element store of width `w`: it sets `w` bytes to `v` and stores nowhere else. -/
structure Fills (w : ℕ) (v : Byte) (stos : Mem → Addr → Mem) : Prop where
  byte : ∀ m edi a, (stos m edi).byte a = filled m edi w v a
  within : ∀ m edi, Within (Span edi w) m (stos m edi)

theorem fills_stosb (eax : BitVec 32) : Fills 1 (eax.setWidth 8) (stosb eax) := by
  constructor
  · intro m edi a
    rw [stosb, byte_store8, filled]
    by_cases h : a = edi
    · subst h
      simp
    · rw [if_neg h, if_neg (by bv_omega)]
  · intro m edi
    exact within_store8 m _ (by simp [Span])

/-- A word whose four bytes are the same. -/
theorem fills_stosl {eax : BitVec 32} {v : Byte} (h₀ : eax.setWidth 8 = v)
    (h₁ : (eax >>> 8).setWidth 8 = v) (h₂ : (eax >>> 16).setWidth 8 = v)
    (h₃ : (eax >>> 24).setWidth 8 = v) : Fills 4 v (stosl eax) := by
  constructor
  · intro m edi a
    rw [stosl, h₀, h₁, h₂, h₃]
    exact byte_store32 m edi a fun _ => v
  · intro m edi
    exact within_store32 m edi _ _ _ _

/-- The four bytes of a word, put back together. -/
theorem append_word (v : BitVec 32) :
    ((v >>> 24).setWidth 8 ++ (v >>> 16).setWidth 8 ++ (v >>> 8).setWidth 8 ++ v.setWidth 8 :
      BitVec (8 + 8 + 8 + 8)) = v := by
  apply BitVec.eq_of_getLsbD_eq
  intro i hi
  simp only [BitVec.getLsbD_append, BitVec.getLsbD_setWidth, BitVec.getLsbD_ushiftRight]
  by_cases h₀ : i < 8
  · simp [h₀]
  by_cases h₁ : i - 8 < 8
  · simp [h₀, h₁, show 8 + (i - 8) = i by omega]
  by_cases h₂ : i - 8 - 8 < 8
  · simp [h₀, h₁, h₂, show 16 + (i - 8 - 8) = i by omega]
  · have h₃ : i - 8 - 8 - 8 < 8 := by omega
    simp [h₀, h₁, h₂, h₃, show 24 + (i - 8 - 8 - 8) = i by omega]

/-- The bytes after a word is stored. -/
theorem byte_stosl (m : Mem) (v : BitVec 32) (a b : Addr) :
    (stosl v m a).byte b =
      if (b - a).toNat < 4 then (v >>> (8 * (b - a).toNat)).setWidth 8 else m.byte b :=
  byte_store32 m a b fun k => (v >>> (8 * k)).setWidth 8

/-- A word reads back what was stored. -/
theorem load32_stosl (m : Mem) (v : BitVec 32) (a : Addr) : (stosl v m a).load32 a = v := by
  have hbyte : ∀ k : ℕ, k < 4 → (stosl v m a).byte (a + BitVec.ofNat 32 k) =
      (v >>> (8 * k)).setWidth 8 := by
    intro k hk
    have hoff : (a + BitVec.ofNat 32 k - a).toNat = k := by
      rw [show a + BitVec.ofNat 32 k - a = BitVec.ofNat 32 k by ring, BitVec.toNat_ofNat]
      exact Nat.mod_eq_of_lt (by omega)
    rw [byte_stosl, hoff, if_pos hk]
  have h₀ := hbyte 0 (by decide)
  have h₁ : (stosl v m a).byte (a + 1) = (v >>> 8).setWidth 8 := hbyte 1 (by decide)
  have h₂ : (stosl v m a).byte (a + 2) = (v >>> 16).setWidth 8 := hbyte 2 (by decide)
  have h₃ : (stosl v m a).byte (a + 3) = (v >>> 24).setWidth 8 := hbyte 3 (by decide)
  rw [BitVec.add_zero, Nat.mul_zero, BitVec.ushiftRight_zero] at h₀
  rw [load32, h₀, h₁, h₂, h₃]
  exact append_word v

/-- **Repeated stores** set all their bytes. Induction on the element count, front element
first. -/
theorem repStos_fills {w : ℕ} {v : Byte} {stos : Mem → Addr → Mem} (hstos : Fills w v stos)
    (hw : w < 2 ^ 32) (n : ℕ) (m : Mem) (dst : Addr) (hn : w * n ≤ 2 ^ 32) (a : Addr) :
    (repStos stos (BitVec.ofNat 32 w) n m dst).byte a = filled m dst (w * n) v a := by
  induction n generalizing m dst with
  | zero => simp [repStos, filled]
  | succ n ih =>
      rw [Nat.mul_succ] at hn ⊢
      have hd : (a - dst).toNat < 2 ^ 32 := (a - dst).isLt
      rw [repStos, ih _ _ (by omega), filled, hstos.byte, filled, filled,
        toNat_sub_add_ofNat a dst hw]
      by_cases hlo : w ≤ (a - dst).toNat
      · rw [if_pos hlo, if_neg (Nat.not_lt.mpr hlo)]
        by_cases hhi : (a - dst).toNat < w * n + w
        · rw [if_pos (by omega), if_pos hhi]
        · rw [if_neg (by omega), if_neg hhi]
      · rw [if_neg hlo, if_neg (by omega), if_pos (by omega), if_pos (by omega)]

/-- Repeated stores store inside their bytes only. -/
theorem repStos_within {w : ℕ} {v : Byte} {stos : Mem → Addr → Mem} (hstos : Fills w v stos)
    (hw : w < 2 ^ 32) (n : ℕ) (m : Mem) (dst : Addr) (hn : w * n ≤ 2 ^ 32) :
    Within (Span dst (w * n)) m (repStos stos (BitVec.ofNat 32 w) n m dst) := by
  induction n generalizing m dst with
  | zero => exact Within.refl _ m
  | succ n ih =>
      rw [Nat.mul_succ] at hn ⊢
      have hhead : Within (Span dst (w * n + w)) m (stos m dst) :=
        (hstos.within m dst).mono fun b hb => by
          rw [Span] at hb ⊢
          omega
      have htail := (ih (stos m dst) (dst + BitVec.ofNat 32 w) (by omega)).mono
        fun b hb => span_of_span_add hw hb
      rw [Nat.add_comm w] at htail
      exact hhead.trans htail

end Mem

end Jos
