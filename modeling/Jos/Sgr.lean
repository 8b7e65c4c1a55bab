import Jos.ControlSequence

/-!
# SGR Sequences

`ESC [ p₁ ; … ; pₖ m` selects colours. What a parameter means is said on pairs of a
foreground and a background (`sgr`), over a table of the eight basic colours; `cons_putc`
follows it on its attribute (`applySgr_colours`), with the table of `ansi_to_vga_basic`.

The parser accumulates the digits of a parameter in an int without a limit. The int wraps
around, and a negative one stands for "no digits yet": the next digit starts over
(`settle_digit`). A parameter from `2 ^ 31` on, which selects nothing, can so be taken for one
that does (`TakenFor`). It does no harm when what it sets is so anyway or is set again
(`LongIdle`); to say so the colours are taken apart into what the parameters set (`Facet`).

## Main results

* `sgrLoop_colours`: the parameters are applied in order.
* `consBytes_sgr`: **what an SGR sequence does**, for parameters of any length.
* `takenFor_iff`: what a parameter is taken for, by its digits.
* `readsNumbers_iff`: when its parameters are read as the numbers they are.
-/

namespace Jos

open Console

/-! ### Colours -/

/-- A foreground and a background colour. -/
structure Colours where
  fg : BitVec 4
  bg : BitVec 4
deriving DecidableEq

/-- The attribute of a cell in these colours: the background in the high half of the high
byte, the foreground in the low one. -/
def Colours.attr (c : Colours) : BitVec 16 :=
  c.bg ++ c.fg ++ (0 : Byte)

/-- The colours of a cell, or of an attribute. -/
def colours (a : BitVec 16) : Colours where
  fg := a.extractLsb' 8 4
  bg := a.extractLsb' 12 4

/-- What the SGR parameter `v` does, over a table of the basic colours. -/
def sgr (basic : ℕ → BitVec 4) (v : ℕ) (c : Colours) : Colours :=
  if v = 0 then ⟨7, 0⟩
  else if v = 1 then { c with fg := c.fg ||| 8 }
  else if 30 ≤ v ∧ v ≤ 37 then { c with fg := basic (v - 30) }
  else if 40 ≤ v ∧ v ≤ 47 then { c with bg := basic (v - 40) }
  else if 90 ≤ v ∧ v ≤ 97 then { c with fg := basic (v - 90) ||| 8 }
  else if 100 ≤ v ∧ v ≤ 107 then { c with bg := basic (v - 100) ||| 8 }
  else c

/-- Parameters one after the other. -/
def select (basic : ℕ → BitVec 4) (vs : List ℕ) (c : Colours) : Colours :=
  vs.foldl (fun c v => sgr basic v c) c

/-- The nibble `ansi_to_vga_basic` gives for a basic colour. -/
def vgaBasic (n : ℕ) : BitVec 4 :=
  (ansiToVgaBasic (BitVec.ofNat 32 n)).setWidth 4

/-- The bits of an attribute. -/
theorem getLsbD_attr_colours (c : Colours) (i : ℕ) : c.attr.getLsbD i =
    if i < 8 then false else if i - 8 < 4 then c.fg.getLsbD (i - 8)
    else c.bg.getLsbD (i - 8 - 4) := by
  rw [Colours.attr, BitVec.getLsbD_append, BitVec.getLsbD_append]
  by_cases hlow : i < 8
  · rw [if_pos hlow, if_pos hlow]
    exact BitVec.getLsbD_zero
  · rw [if_neg hlow, if_neg hlow]

/-- The colours of an attribute are those it was made of. -/
@[simp] theorem colours_attr (c : Colours) : colours c.attr = c := by
  have hfg : (colours c.attr).fg = c.fg := by
    apply BitVec.eq_of_getLsbD_eq
    intro i hi
    have hback : 8 + i - 8 = i := by omega
    rw [colours, BitVec.getLsbD_extractLsb', getLsbD_attr_colours, if_neg (by omega),
      if_pos (by omega), hback, decide_eq_true hi, Bool.true_and]
  have hbg : (colours c.attr).bg = c.bg := by
    apply BitVec.eq_of_getLsbD_eq
    intro i hi
    have hback : 12 + i - 8 - 4 = i := by omega
    rw [colours, BitVec.getLsbD_extractLsb', getLsbD_attr_colours, if_neg (by omega),
      if_neg (by omega), hback, decide_eq_true hi, Bool.true_and]
  exact congrArg₂ Colours.mk hfg hbg

/-- An attribute without a character is that of its colours. -/
theorem attr_colours {a : BitVec 16} (ha : a.setWidth 8 = (0 : Byte)) : (colours a).attr = a := by
  apply BitVec.eq_of_getLsbD_eq
  intro i hi
  rw [getLsbD_attr_colours, colours]
  by_cases hlow : i < 8
  · rw [if_pos hlow, getLsbD_attr ha hlow]
  · rw [if_neg hlow, BitVec.getLsbD_extractLsb', BitVec.getLsbD_extractLsb']
    by_cases hmid : i - 8 < 4
    · have hback : 8 + (i - 8) = i := by omega
      rw [if_pos hmid, hback, decide_eq_true hmid, Bool.true_and]
    · have hback : 12 + (i - 8 - 4) = i := by omega
      rw [if_neg hmid, hback, decide_eq_true (by omega), Bool.true_and]

/-- The high byte of an attribute, as it is taken apart and put back. -/
theorem getLsbD_high (c : Colours) {i : ℕ} (hi : i < 8) :
    (((c.attr >>> 8) &&& 0xFF).setWidth 8 : Byte).getLsbD i =
      if i < 4 then c.fg.getLsbD i else c.bg.getLsbD (i - 4) := by
  have hmask : ∀ i < 8, (0xFF : BitVec 16).getLsbD i = true := by decide
  have hback : 8 + i - 8 = i := by omega
  rw [BitVec.getLsbD_setWidth, BitVec.getLsbD_and, BitVec.getLsbD_ushiftRight,
    getLsbD_attr_colours, hmask i hi, if_neg (by omega), hback, decide_eq_true hi, Bool.true_and,
    Bool.and_true]

/-- An attribute that is put together of its high byte. -/
theorem put_high_eq {b : Byte} {c : Colours}
    (h : ∀ i < 8, b.getLsbD i = if i < 4 then c.fg.getLsbD i else c.bg.getLsbD (i - 4)) :
    (b.setWidth 16 : BitVec 16) <<< 8 = c.attr := by
  apply BitVec.eq_of_getLsbD_eq
  intro i hi
  rw [BitVec.getLsbD_shiftLeft, BitVec.getLsbD_setWidth, decide_eq_true hi, getLsbD_attr_colours]
  by_cases h8 : i < 8
  · simp [h8]
  · have h16 : i - 8 < 16 := by omega
    rw [if_neg h8, ← h (i - 8) (by omega)]
    simp [h8, h16]

/-- `set_vga_fg` changes the foreground. -/
theorem setVgaFg_attr {s : Console} {c : Colours} (h : s.crtAttr = c.attr) (fg : BitVec 32) :
    (setVgaFg fg s).crtAttr = { c with fg := fg.setWidth 4 : Colours }.attr := by
  have hmask : ∀ i < 8, (0xF0 : Byte).getLsbD i = decide (4 ≤ i) := by decide
  have hlow : ∀ i < 8, (0x0F : BitVec 32).getLsbD i = decide (i < 4) := by decide
  rw [setVgaFg, h]
  refine put_high_eq fun i hi => ?_
  rw [BitVec.getLsbD_or, BitVec.getLsbD_and, getLsbD_high c hi, hmask i hi,
    BitVec.getLsbD_setWidth, BitVec.getLsbD_and, hlow i hi, decide_eq_true hi]
  by_cases h4 : i < 4
  · simp [h4, Nat.not_le.mpr h4]
  · simp [h4, Nat.not_lt.mp h4]

/-- `set_vga_bg` changes the background. -/
theorem setVgaBg_attr {s : Console} {c : Colours} (h : s.crtAttr = c.attr) (bg : BitVec 32) :
    (setVgaBg bg s).crtAttr = { c with bg := bg.setWidth 4 : Colours }.attr := by
  have hmask : ∀ i < 8, ((0x0F : ℕ) : Byte).getLsbD i = decide (i < 4) := by decide
  have hlow : ∀ i < 4, (0x0F : BitVec 32).getLsbD i = true := by decide
  rw [setVgaBg, h]
  refine put_high_eq fun i hi => ?_
  rw [BitVec.getLsbD_or, BitVec.getLsbD_and, getLsbD_high c hi, hmask i hi,
    BitVec.getLsbD_setWidth, BitVec.getLsbD_shiftLeft, BitVec.getLsbD_and,
    hlow (i - 4) (by omega), decide_eq_true hi]
  by_cases h4 : i < 4
  · simp [h4]
  · have h32 : i < 32 := by omega
    have hnibble : i - 4 < 4 := by omega
    simp [h4, h32, hnibble]

/-- The foreground of an attribute, as `cons_putc` takes it out. -/
theorem low_nibble (c : Colours) :
    ((((c.attr >>> 8) &&& 0xFF).setWidth 8 : Byte).setWidth 32 &&& 0x0F : BitVec 32) =
      c.fg.setWidth 32 := by
  have hlow : ∀ i < 32, (0x0F : BitVec 32).getLsbD i = decide (i < 4) := by decide
  apply BitVec.eq_of_getLsbD_eq
  intro i hi
  have hfg : (c.fg.setWidth 32 : BitVec 32).getLsbD i = c.fg.getLsbD i := by
    rw [BitVec.getLsbD_setWidth, decide_eq_true hi, Bool.true_and]
  rw [BitVec.getLsbD_and, hlow i hi, BitVec.getLsbD_setWidth, hfg, decide_eq_true hi,
    Bool.true_and]
  by_cases h4 : i < 4
  · rw [getLsbD_high c (by omega), if_pos h4, decide_eq_true h4, Bool.and_true]
  · rw [decide_eq_false h4, Bool.and_false, BitVec.getLsbD_of_ge c.fg i (by omega)]

/-- A bright foreground or background. -/
theorem bright_basic (x : BitVec 32) :
    (ansiToVgaBasic x + 8).setWidth 4 = (ansiToVgaBasic x).setWidth 4 ||| (8 : BitVec 4) := by
  have hall : ∀ n < 8, ((BitVec.ofNat 32 n + 8).setWidth 4 : BitVec 4) =
      (BitVec.ofNat 32 n).setWidth 4 ||| 8 := by decide
  have hmod : ansiToVgaBasic x = BitVec.ofNat 32 (x.toNat % 8) := by
    apply BitVec.eq_of_toNat_eq
    rw [ansiToVgaBasic, BitVec.toNat_and, BitVec.toNat_ofNat]
    change x.toNat &&& (2 ^ 3 - 1) = _
    rw [Nat.and_two_pow_sub_one_eq_mod]
    omega
  rw [hmod]
  exact hall _ (Nat.mod_lt _ (by decide))

/-- **The action of a parameter**, on the attribute. -/
theorem applySgr_colours {p : BitVec 32} (hp : 0 ≤ p.toInt) {s : Console} {c : Colours}
    (h : s.crtAttr = c.attr) : (applySgr p s).crtAttr = (sgr vgaBasic p.toNat c).attr := by
  have hint : p.toInt = p.toNat := by
    have hlt : p.toNat < 2 ^ 32 := p.isLt
    rw [BitVec.toInt_eq_toNat_cond] at hp ⊢
    omega
  have hsub : ∀ k : ℕ, k ≤ p.toNat → k < 2 ^ 32 →
      p - BitVec.ofNat 32 k = BitVec.ofNat 32 (p.toNat - k) := by
    intro k hk hlt
    apply BitVec.eq_of_toNat_eq
    have hlt' : p.toNat < 2 ^ 32 := p.isLt
    rw [BitVec.toNat_sub, BitVec.toNat_ofNat, BitVec.toNat_ofNat]
    omega
  have hzero : p = 0 ↔ p.toNat = 0 := ⟨fun h => by rw [h]; rfl, fun h => BitVec.eq_of_toNat_eq h⟩
  have hone : p = 1 ↔ p.toNat = 1 := ⟨fun h => by rw [h]; rfl, fun h => BitVec.eq_of_toNat_eq h⟩
  have hrange : ∀ l u : ℕ, ((l : ℤ) ≤ p.toInt ∧ p.toInt ≤ u) ↔ l ≤ p.toNat ∧ p.toNat ≤ u := by
    intro l u
    rw [hint]
    norm_cast
  have h30 := hrange 30 37
  have h40 := hrange 40 47
  have h90 := hrange 90 97
  have h100 := hrange 100 107
  push_cast at h30 h40 h90 h100
  simp only [applySgr, sgr, hzero, hone, h30, h40, h90, h100]
  split
  · rfl
  split
  · have hfg : ∀ x : BitVec 4, (x.setWidth 32 : BitVec 32).toInt < 8 →
        (x.setWidth 32 + 8 : BitVec 32).setWidth 4 = x ||| 8 := by decide
    have hbright : ∀ x : BitVec 4, ¬ (x.setWidth 32 : BitVec 32).toInt < 8 → x ||| 8 = x := by
      decide
    rw [h, low_nibble]
    split
    · rename_i hdark
      rw [setVgaFg_attr h, hfg c.fg hdark]
    · rename_i hdark
      rw [h, hbright c.fg hdark]
  split
  · rename_i hin
    rw [setVgaFg_attr h, vgaBasic, ← hsub 30 hin.1 (by decide)]
    rfl
  split
  · rename_i hin
    rw [setVgaBg_attr h, vgaBasic, ← hsub 40 hin.1 (by decide)]
    rfl
  split
  · rename_i hin
    rw [setVgaFg_attr h, bright_basic, vgaBasic, ← hsub 90 hin.1 (by decide)]
    rfl
  split
  · rename_i hin
    rw [setVgaBg_attr h, bright_basic, vgaBasic, ← hsub 100 hin.1 (by decide)]
    rfl
  · exact h

/-! ### Digits -/

/-- The value of a digit. -/
def digit (b : Byte) : ℕ :=
  b.toNat - 0x30

/-- The number that a string of digits stands for. No digits stand for 0. -/
def decimal (p : List Byte) : ℕ :=
  p.foldl (fun v b => 10 * v + digit b) 0

/-- One digit more in an int of 32 bits, where a negative value counts as no digits. -/
def wrapDigit (v d : ℕ) : ℕ :=
  if (10 * v + d) % 2 ^ 32 < 2 ^ 31 then (10 * v + d) % 2 ^ 32 else 0

/-- What is left of the number in such an int. -/
def wrapped (p : List Byte) : ℕ :=
  p.foldl (fun v b => wrapDigit v (digit b)) 0

/-- `(param < 0) ? 0 : param`. -/
def settle (param : BitVec 32) : BitVec 32 :=
  if param.toInt < 0 then 0 else param

/-- The mark for "no digits yet". -/
theorem settle_neg_one : (settle (-1)).toNat = 0 := by
  decide

/-- A settled parameter is not negative. -/
theorem settle_nonneg (param : BitVec 32) : 0 ≤ (settle param).toInt := by
  rw [settle]
  split
  · decide
  · omega

/-- It is what it was, or 0 where that was negative. -/
theorem toNat_settle (param : BitVec 32) :
    (settle param).toNat = if param.toNat < 2 ^ 31 then param.toNat else 0 := by
  have hlt : param.toNat < 2 ^ 32 := param.isLt
  rw [settle, BitVec.toInt_eq_toNat_cond]
  by_cases hneg : param.toNat < 2 ^ 31
  · rw [if_pos hneg, if_neg (by rw [if_pos (by omega)]; omega)]
  · rw [if_neg hneg, if_pos (by rw [if_neg (by omega)]; omega)]
    rfl

/-- **One digit more.** The int wraps around, and starts over from a negative value. -/
theorem settle_digit {b : Byte} (hb : 0x30 ≤ b ∧ b ≤ 0x39) (param : BitVec 32) :
    (settle (settle param * 10 + (b.setWidth 32 - 0x30))).toNat =
      wrapDigit (settle param).toNat (digit b) := by
  obtain ⟨hlow, hhigh⟩ := hb
  rw [BitVec.le_def] at hlow hhigh
  change 48 ≤ b.toNat at hlow
  change b.toNat ≤ 57 at hhigh
  have hdigit : (b.setWidth 32 - 0x30 : BitVec 32).toNat = digit b := by
    rw [BitVec.toNat_sub, BitVec.toNat_setWidth]
    change (2 ^ 32 - 48 + b.toNat % 2 ^ 32) % 2 ^ 32 = b.toNat - 48
    omega
  have hval : (settle param * 10 + (b.setWidth 32 - 0x30)).toNat =
      (10 * (settle param).toNat + digit b) % 2 ^ 32 := by
    rw [BitVec.toNat_add, BitVec.toNat_mul, hdigit]
    change ((settle param).toNat * 10 % 2 ^ 32 + digit b) % 2 ^ 32 = _
    rw [Nat.mod_add_mod, Nat.mul_comm]
  rw [toNat_settle, hval, wrapDigit]

/-- Below `2 ^ 31` nothing is lost. -/
theorem wrapped_of_lt {p : List Byte} (hp : decimal p < 2 ^ 31) : wrapped p = decimal p := by
  induction p using List.reverseRecOn with
  | nil => rfl
  | append_singleton p b ih =>
      have hval : decimal (p ++ [b]) = 10 * decimal p + digit b := List.foldl_concat ..
      have hint : wrapped (p ++ [b]) = wrapDigit (wrapped p) (digit b) := List.foldl_concat ..
      rw [hint, ih (by omega), wrapDigit, ← hval, Nat.mod_eq_of_lt (by omega), if_pos hp]

/-- Digits inside a sequence are accumulated. -/
theorem consBytes_digits {p : List Byte} (hp : ∀ b ∈ p, 0x30 ≤ b ∧ b ≤ 0x39) {s : Console}
    (he : s.esc = 2) :
    ∃ param, consBytes p s = { s with param := param } ∧
      (settle param).toNat =
        p.foldl (fun v b => wrapDigit v (digit b)) (settle s.param).toNat := by
  induction p generalizing s with
  | nil => exact ⟨s.param, rfl, rfl⟩
  | cons b p ih =>
      have hb : 0x30 ≤ b ∧ b ≤ 0x39 := hp b List.mem_cons_self
      have hstep : consPutc (b.setWidth 32) s =
          { s with param := settle s.param * 10 + (b.setWidth 32 - 0x30) } := by
        rw [consPutc_csi he, csiPutc, if_pos ((digit_iff b).mpr hb)]
        rfl
      obtain ⟨param, hrun, hparam⟩ := ih (fun x hx => hp x (List.mem_cons_of_mem b hx))
        (s := { s with param := settle s.param * 10 + (b.setWidth 32 - 0x30) }) he
      refine ⟨param, ?_, ?_⟩
      · change consBytes p (consPutc (b.setWidth 32) s) = _
        rw [hstep, hrun]
      · rw [hparam, settle_digit hb, List.foldl_cons]

/-! ### Parameters -/

/-- The parser has read the parameters `vs` of a sequence, and has kept the first four. -/
structure Collected (s₀ : Console) (vs : List ℕ) (s : Console) : Prop where
  parses : Parses s₀ s
  crtAttr : s.crtAttr = s₀.crtAttr
  esc : s.esc = 2
  nparams : s.nparams.toInt = (vs.take 4).length
  params : ∀ (i v : ℕ), (vs.take 4)[i]? = some v →
    0 ≤ (s.params i).toInt ∧ (s.params i).toNat = v

/-- A digit changes nothing that has been collected. -/
theorem Collected.setParam {s₀ s : Console} {vs : List ℕ} (h : Collected s₀ vs s)
    (param : BitVec 32) : Collected s₀ vs { s with param := param } where
  parses := h.parses.trans ⟨rfl, rfl, rfl, rfl, rfl, rfl⟩
  crtAttr := h.crtAttr
  esc := h.esc
  nparams := h.nparams
  params := h.params

/-- **One parameter more**, or none if there are four already. -/
theorem Collected.push {s₀ s : Console} {vs : List ℕ} (h : Collected s₀ vs s) {v : ℕ}
    (hv : (settle s.param).toNat = v) : Collected s₀ (vs ++ [v]) (pushParam s) := by
  obtain ⟨hpush, hattr, hesc⟩ := pushParam_parses s
  have hlen : (vs.take 4).length = min 4 vs.length := List.length_take
  have hn := h.nparams
  by_cases hlt : s.nparams.toInt < 4
  · have hshort : vs.length < 4 := by omega
    have hall : vs.take 4 = vs := List.take_of_length_le (by omega)
    have hall' : (vs ++ [v]).take 4 = vs ++ [v] :=
      List.take_of_length_le (by rw [List.length_append, List.length_singleton]; omega)
    have hstep : pushParam s = { s with
        params := Function.update s.params s.nparams.toInt (settle s.param)
        nparams := s.nparams + 1
        uses := .fill s.nparams.toInt :: s.uses } := if_pos hlt
    have hn' : (s.nparams + 1).toInt = s.nparams.toInt + 1 := by
      have hone : (1 : BitVec 32).toInt = 1 := by decide
      rw [BitVec.toInt_add, hone, Int.bmod_eq_of_le (by omega) (by omega)]
    rw [hall] at hn
    refine ⟨h.parses.trans hpush, hattr.trans h.crtAttr, hesc.trans h.esc, ?_, ?_⟩
    · rw [hall', hstep, hn', hn, List.length_append, List.length_singleton]
      rfl
    · intro i w hi
      have hslot : (pushParam s).params =
          Function.update s.params (vs.length : ℤ) (settle s.param) := by
        rw [hstep, hn]
      rw [hall'] at hi
      rw [hslot]
      by_cases hlast : i = vs.length
      · rw [hlast, List.getElem?_concat_length, Option.some.injEq] at hi
        rw [hlast, Function.update_self]
        exact ⟨settle_nonneg _, hv.trans hi⟩
      · rw [Function.update_of_ne (by exact_mod_cast hlast)]
        have hin : i < vs.length := by
          obtain ⟨hi', -⟩ := List.getElem?_eq_some_iff.mp hi
          rw [List.length_append, List.length_singleton] at hi'
          omega
        rw [List.getElem?_append_left hin] at hi
        exact h.params i w (by rw [hall]; exact hi)
  · have hfull : 4 ≤ vs.length := by omega
    have hsame : (vs ++ [v]).take 4 = vs.take 4 := List.take_append_of_le_length hfull
    have hstep : pushParam s = s := if_neg hlt
    rw [hstep]
    exact ⟨h.parses, h.crtAttr, h.esc, by rw [hsame]; exact h.nparams,
      by rw [hsame]; exact h.params⟩

/-- **The parameters are applied in order.** Induction on how many. -/
theorem sgrLoop_colours {vs : List ℕ} {s : Console} {c : Colours} (h : s.crtAttr = c.attr)
    (hvs : ∀ (i v : ℕ), vs[i]? = some v → 0 ≤ (s.params i).toInt ∧ (s.params i).toNat = v)
    {n : ℕ} (hn : n ≤ vs.length) :
    Parses s ((List.range n).foldl sgrRound s) ∧
      ((List.range n).foldl sgrRound s).params = s.params ∧
      ((List.range n).foldl sgrRound s).crtAttr = (select vgaBasic (vs.take n) c).attr := by
  induction n with
  | zero => exact ⟨Parses.refl s, rfl, h⟩
  | succ n ih =>
      obtain ⟨hpar, hparams, hattr⟩ := ih (by omega)
      rw [List.range_succ, List.foldl_append, List.foldl_cons, List.foldl_nil]
      set s' := (List.range n).foldl sgrRound s
      obtain ⟨a, ha, -⟩ := sgrRound_eq s' n
      have hget : vs[n]? = some vs[n] := List.getElem?_eq_getElem (by omega)
      obtain ⟨hnonneg, hval⟩ := hvs n vs[n] hget
      have hround : (sgrRound s' n).crtAttr =
          (sgr vgaBasic (s.params n).toNat (select vgaBasic (vs.take n) c)).attr := by
        rw [sgrRound, hparams]
        exact applySgr_colours hnonneg hattr
      refine ⟨?_, ?_, ?_⟩
      · rw [ha]
        exact hpar.trans ⟨rfl, rfl, rfl, rfl, rfl, rfl⟩
      · rw [ha]
        exact hparams
      · rw [hround, hval, select, select, ← List.take_append_getElem (by omega : n < vs.length),
          List.foldl_append]
        rfl

/-! ### Whole sequences -/

/-- An SGR sequence with the parameters `ps`, each a string of digits. -/
def sgrSequence (ps : List (List Byte)) : List Byte :=
  0x1B :: 0x5B :: ([0x3B].intercalate ps ++ [0x6D])

/-- The end of a sequence whose parameters have been collected. -/
theorem Collected.final {s₀ s : Console} {vs : List ℕ} (h : Collected s₀ vs s) {v : ℕ}
    (hv : (settle s.param).toNat = v) {c : Colours} (hc : s₀.crtAttr = c.attr) :
    Parses s₀ (consPutc 0x6D s) ∧ (consPutc 0x6D s).esc = 0 ∧
      (consPutc 0x6D s).crtAttr = (select vgaBasic ((vs ++ [v]).take 4) c).attr := by
  have hpush := h.push hv
  have hfinal : consPutc 0x6D s = { (List.range (pushParam s).nparams.toInt.toNat).foldl sgrRound
      (pushParam s) with esc := 0 } := by
    have hm := consPutc_csi h.esc 0x6D
    exact hm
  have hcount : (pushParam s).nparams.toInt.toNat = ((vs ++ [v]).take 4).length := by
    rw [hpush.nparams]
    rfl
  obtain ⟨hloop, -, hattr⟩ := sgrLoop_colours (hpush.crtAttr.trans hc) hpush.params
    (Nat.le_refl _)
  rw [List.take_length] at hattr
  rw [hfinal, hcount]
  exact ⟨(hpush.parses.trans hloop).trans (setEsc_parses _ 0), rfl, hattr⟩

/-- **The parameters of a sequence**, after those that have been collected. Induction on how
many are left. -/
theorem Collected.rest {s₀ : Console} {c : Colours} (hc : s₀.crtAttr = c.attr)
    {ps : List (List Byte)} (hne : ps ≠ []) (hps : ∀ p ∈ ps, ∀ b ∈ p, 0x30 ≤ b ∧ b ≤ 0x39)
    {vs : List ℕ} {s : Console} (h : Collected s₀ vs s) (hstart : (settle s.param).toNat = 0) :
    Parses s₀ (consBytes ([0x3B].intercalate ps ++ [0x6D]) s) ∧
      (consBytes ([0x3B].intercalate ps ++ [0x6D]) s).esc = 0 ∧
      (consBytes ([0x3B].intercalate ps ++ [0x6D]) s).crtAttr =
        (select vgaBasic ((vs ++ ps.map wrapped).take 4) c).attr := by
  induction ps generalizing vs s with
  | nil => exact absurd rfl hne
  | cons p ps ih =>
      obtain ⟨param, hdigits, hparam⟩ := consBytes_digits (hps p List.mem_cons_self) h.esc
      rw [hstart] at hparam
      have hp : Collected s₀ vs (consBytes p s) := by
        rw [hdigits]
        exact h.setParam param
      have hv : (settle (consBytes p s).param).toNat = wrapped p := by
        rw [hdigits]
        exact hparam
      cases ps with
      | nil =>
          rw [List.intercalate_singleton, consBytes_append]
          exact hp.final hv hc
      | cons q ps =>
          have hsemi : consPutc 0x3B (consBytes p s) =
              { pushParam (consBytes p s) with param := -1 } := by
            have hm := consPutc_csi hp.esc 0x3B
            exact hm
          have hnext := (hp.push hv).setParam (-1)
          rw [← hsemi] at hnext
          have hrun := ih (List.cons_ne_nil q ps)
            (fun r hr => hps r (List.mem_cons_of_mem p hr)) hnext
            (by rw [hsemi]; exact settle_neg_one)
          rw [List.append_assoc] at hrun
          rw [List.intercalate_cons_cons, List.append_assoc, List.append_assoc, consBytes_append]
          exact hrun

/-- **What an SGR sequence does**, for any number of parameters of any length: nothing is
printed, and the first four select colours, each by what is left of its digits in an int. -/
theorem consBytes_sgr {ps : List (List Byte)} (hne : ps ≠ [])
    (hps : ∀ p ∈ ps, ∀ b ∈ p, 0x30 ≤ b ∧ b ≤ 0x39) {s : Console} (he : s.esc = 0)
    (hattr : s.crtAttr.setWidth 8 = (0 : Byte)) :
    Parses s (consBytes (sgrSequence ps) s) ∧ (consBytes (sgrSequence ps) s).esc = 0 ∧
      (consBytes (sgrSequence ps) s).crtAttr =
        (select vgaBasic ((ps.take 4).map wrapped) (colours s.crtAttr)).attr := by
  have hstart : Collected s [] { s with esc := 2, param := -1, nparams := 0 } :=
    ⟨startCsi_parses s, rfl, rfl, rfl, fun i v h => by cases h⟩
  have hrest := hstart.rest (attr_colours hattr).symm hne hps settle_neg_one
  rw [sgrSequence, consBytes_start he, List.map_take]
  exact hrest

/-- The parameters of a sequence are read as the numbers they are: nothing is sent to any
device, the cursor and the screen are as before, the parser is in its ground state, and the
attribute is that of the colours which the first four parameters select. -/
def ReadsNumbers (ps : List (List Byte)) (s : Console) : Prop :=
  Parses s (consBytes (sgrSequence ps) s) ∧ (consBytes (sgrSequence ps) s).esc = 0 ∧
    (consBytes (sgrSequence ps) s).crtAttr =
      (select vgaBasic ((ps.take 4).map decimal) (colours s.crtAttr)).attr

/-! ### Long parameters -/

/-- What the SGR parameters change: each sets some of it, and leaves the rest as it is. -/
inductive Facet
  | hue
  | brightness
  | background
deriving DecidableEq

namespace Facet

/-- What it is in given colours. -/
def value : Facet → Colours → BitVec 4
  | hue, c => c.fg &&& 7
  | brightness, c => c.fg &&& 8
  | background, c => c.bg

/-- What the parameter `v` sets it to, if it does. -/
def sets (basic : ℕ → BitVec 4) : Facet → ℕ → Option (BitVec 4)
  | hue, v =>
      if v = 0 then some 7
      else if 30 ≤ v ∧ v ≤ 37 then some (basic (v - 30) &&& 7)
      else if 90 ≤ v ∧ v ≤ 97 then some (basic (v - 90) &&& 7)
      else none
  | brightness, v =>
      if v = 0 then some 0
      else if v = 1 then some 8
      else if 30 ≤ v ∧ v ≤ 37 then some (basic (v - 30) &&& 8)
      else if 90 ≤ v ∧ v ≤ 97 then some 8
      else none
  | background, v =>
      if v = 0 then some 0
      else if 40 ≤ v ∧ v ≤ 47 then some (basic (v - 40))
      else if 100 ≤ v ∧ v ≤ 107 then some (basic (v - 100) ||| 8)
      else none

/-- A parameter makes of it what it sets, and else leaves it as it is. -/
theorem value_sgr (basic : ℕ → BitVec 4) (f : Facet) (v : ℕ) (c : Colours) :
    f.value (sgr basic v c) = (f.sets basic v).getD (f.value c) := by
  have hhue : ∀ x : BitVec 4, (x ||| 8) &&& 7 = x &&& 7 := by decide
  have hbright : ∀ x : BitVec 4, (x ||| 8) &&& 8 = 8 := by decide
  cases f with
  | hue =>
      simp only [value, sgr, sets]
      split_ifs <;> first | rfl | omega | exact hhue _
  | brightness =>
      simp only [value, sgr, sets]
      split_ifs <;> first | rfl | omega | exact hbright _
  | background =>
      simp only [value, sgr, sets]
      split_ifs <;> first | rfl | omega

/-- Colours are the same when all of it is. -/
theorem value_ext {c c' : Colours} (h : ∀ f : Facet, f.value c = f.value c') : c = c' := by
  have hjoin : ∀ x : BitVec 4, x = x &&& 7 ||| x &&& 8 := by decide
  have hfg : c.fg = c'.fg := by
    have hhue : c.fg &&& 7 = c'.fg &&& 7 := h .hue
    have hbright : c.fg &&& 8 = c'.fg &&& 8 := h .brightness
    rw [hjoin c.fg, hhue, hbright, ← hjoin c'.fg]
  exact congrArg₂ Colours.mk hfg (h .background)

/-- What it is after parameters: what the last of them that sets it has set it to. -/
theorem value_select (basic : ℕ → BitVec 4) (f : Facet) (vs : List ℕ) (c : Colours) :
    f.value (select basic vs c) = (vs.reverse.findSome? (f.sets basic)).getD (f.value c) := by
  induction vs using List.reverseRecOn with
  | nil => rfl
  | append_singleton vs v ih =>
      rw [select, List.foldl_concat, value_sgr, List.reverse_concat, List.findSome?_cons]
      cases hset : f.sets basic v with
      | none => exact ih
      | some x => rfl

/-- Numbers that are no parameters of their own set none of it. -/
theorem sets_of_lt (basic : ℕ → BitVec 4) (f : Facet) {v : ℕ} (hv : 107 < v) :
    f.sets basic v = none := by
  cases f <;> rw [sets] <;> split_ifs <;> first | rfl | omega

end Facet

/-- The digits `p` are taken for the number `v`: they are counted modulo `2 ^ 32`, and again from
the start after each digit with which the count comes to `2 ^ 31` or more. -/
inductive TakenFor : List Byte → ℕ → Prop
  | counted {p : List Byte} (hcount : ∀ q, q <+: p → decimal q % 2 ^ 32 < 2 ^ 31) :
      TakenFor p (decimal p % 2 ^ 32)
  | again {p rest : List Byte} {b : Byte} {v : ℕ}
      (hcount : ∀ q, q <+: p → decimal q % 2 ^ 32 < 2 ^ 31)
      (hfull : 2 ^ 31 ≤ decimal (p ++ [b]) % 2 ^ 32) (hrest : TakenFor rest v) :
      TakenFor (p ++ b :: rest) v

/-- Digits that are counted without a start over. -/
theorem wrapped_of_counted {p : List Byte}
    (hcount : ∀ q, q <+: p → decimal q % 2 ^ 32 < 2 ^ 31) : wrapped p = decimal p % 2 ^ 32 := by
  induction p using List.reverseRecOn with
  | nil => rfl
  | append_singleton p b ih =>
      have hval : decimal (p ++ [b]) = 10 * decimal p + digit b := List.foldl_concat ..
      have hint : wrapped (p ++ [b]) = wrapDigit (wrapped p) (digit b) := List.foldl_concat ..
      have hlt := hcount _ (List.prefix_refl _)
      have hmod : (10 * (decimal p % 2 ^ 32) + digit b) % 2 ^ 32 = decimal (p ++ [b]) % 2 ^ 32 := by
        omega
      rw [hint, ih fun q hq => hcount q (hq.trans (List.prefix_append p [b])), wrapDigit, hmod,
        if_pos hlt]

/-- Digits after which the count starts over leave nothing of those before. -/
theorem wrapped_of_full {p rest : List Byte} {b : Byte}
    (hcount : ∀ q, q <+: p → decimal q % 2 ^ 32 < 2 ^ 31)
    (hfull : 2 ^ 31 ≤ decimal (p ++ [b]) % 2 ^ 32) : wrapped (p ++ b :: rest) = wrapped rest := by
  have hval : decimal (p ++ [b]) = 10 * decimal p + digit b := List.foldl_concat ..
  have hzero : wrapDigit (wrapped p) (digit b) = 0 := by
    rw [wrapped_of_counted hcount, wrapDigit, if_neg (by omega)]
  rw [wrapped, List.foldl_append, List.foldl_cons, ← wrapped, hzero]
  rfl

/-- Digits are taken for one number. Induction on how many there are: the count starts over after
the first digits with which it comes to `2 ^ 31`. -/
theorem exists_takenFor (p : List Byte) : ∃ v, TakenFor p v := by
  induction hn : p.length using Nat.strong_induction_on generalizing p with
  | _ n ih =>
      by_cases hcount : ∀ q, q <+: p → decimal q % 2 ^ 32 < 2 ^ 31
      · exact ⟨_, .counted hcount⟩
      have hex : ∃ k, k ≤ p.length ∧ 2 ^ 31 ≤ decimal (p.take k) % 2 ^ 32 := by
        push Not at hcount
        obtain ⟨q, hq, hfull⟩ := hcount
        exact ⟨q.length, hq.length_le, by rwa [← List.prefix_iff_eq_take.mp hq]⟩
      obtain ⟨hle, hfull⟩ := Nat.find_spec hex
      set k := Nat.find hex with hk
      have hpos : k ≠ 0 := by
        intro h0
        rw [h0, List.take_zero] at hfull
        exact absurd hfull (by decide)
      obtain ⟨j, hj⟩ := Nat.exists_eq_succ_of_ne_zero hpos
      have hjp : j < p.length := by omega
      have htake : p.take k = p.take j ++ [p[j]] := by
        rw [hj, List.take_append_getElem hjp]
      obtain ⟨v, hv⟩ := ih (p.drop (j + 1)).length (by rw [List.length_drop]; omega)
        (p.drop (j + 1)) rfl
      refine ⟨v, ?_⟩
      rw [← List.take_append_drop j p, List.drop_eq_getElem_cons hjp]
      refine .again (fun q hq => ?_) (htake ▸ hfull) hv
      have hq' : q = p.take q.length :=
        List.prefix_iff_eq_take.mp (hq.trans (List.take_prefix j p))
      have hlen : q.length ≤ j := hq.length_le.trans (by rw [List.length_take]; omega)
      have hmin := Nat.find_min hex (m := q.length) (by omega)
      rw [← hq'] at hmin
      omega

/-- **What digits are taken for** is what is left of them in an int. -/
theorem takenFor_iff {p : List Byte} {v : ℕ} : TakenFor p v ↔ wrapped p = v := by
  have hleft : ∀ {v}, TakenFor p v → wrapped p = v := by
    intro v h
    induction h with
    | counted hcount => exact wrapped_of_counted hcount
    | again hcount hfull _ ih => rw [wrapped_of_full hcount hfull, ih]
  refine ⟨hleft, ?_⟩
  rintro rfl
  obtain ⟨v, hv⟩ := exists_takenFor p
  rwa [hleft hv]

/-- What the parameters `ps` set it to by their numbers, from the colours `c`. -/
def Facet.standing (f : Facet) (ps : List (List Byte)) (c : Colours) : BitVec 4 :=
  ((ps.map decimal).reverse.findSome? (f.sets vgaBasic)).getD (f.value c)

/-- The long parameters do no harm to it: what a parameter from `2 ^ 31` on sets it to, by the
number that it is taken for, it is by the numbers before it, or a parameter behind it sets it
again. -/
def Facet.Idle (f : Facet) (ps : List (List Byte)) (c : Colours) : Prop :=
  ∀ (before after : List (List Byte)) (p : List Byte), ps = before ++ p :: after →
    2 ^ 31 ≤ decimal p → ∀ (v : ℕ) (x : BitVec 4), TakenFor p v → f.sets vgaBasic v = some x →
      x = f.standing before c ∨ ∃ q ∈ after, ∃ w, TakenFor q w ∧ (f.sets vgaBasic w).isSome

/-- **The long parameters do no harm** to any of the colours. -/
def LongIdle (ps : List (List Byte)) (c : Colours) : Prop :=
  ∀ f : Facet, f.Idle ps c

section

variable (f : Facet) (c : Colours)

/-- The numbers select what stands by them. -/
theorem Facet.value_numbers (ps : List (List Byte)) :
    f.value (select vgaBasic (ps.map decimal) c) = f.standing ps c :=
  value_select vgaBasic f _ c

/-- One parameter more, as it is taken. -/
theorem Facet.value_concat (g : List Byte → ℕ) (ps : List (List Byte)) (p : List Byte) :
    f.value (select vgaBasic ((ps ++ [p]).map g) c) =
      (f.sets vgaBasic (g p)).getD (f.value (select vgaBasic (ps.map g) c)) := by
  rw [List.map_append, List.map_singleton, select, List.foldl_concat, value_sgr]
  rfl

/-- A parameter behind the others that does not set it. -/
theorem Facet.idle_concat_none {ps : List (List Byte)} {p : List Byte} {v : ℕ}
    (hp : TakenFor p v) (hset : f.sets vgaBasic v = none) : f.Idle (ps ++ [p]) c ↔ f.Idle ps c := by
  have hv := takenFor_iff.mp hp
  constructor
  · rintro h before after q rfl hlong w x hw hx
    refine (h before (after ++ [p]) q (by simp) hlong w x hw hx).imp_right ?_
    rintro ⟨r, hr, u, hu, hsome⟩
    rcases List.mem_append.mp hr with hr | hr
    · exact ⟨r, hr, u, hu, hsome⟩
    · obtain rfl := List.mem_singleton.mp hr
      rw [← takenFor_iff.mp hu, hv, hset] at hsome
      exact absurd hsome (by simp)
  · intro h before after q heq hlong w x hw hx
    rcases List.eq_nil_or_concat after with rfl | ⟨after, r, rfl⟩
    · obtain ⟨-, hqp⟩ := List.append_inj' heq rfl
      obtain rfl : p = q := by simpa using hqp
      rw [← takenFor_iff.mp hw, hv, hset] at hx
      exact absurd hx (by simp)
    · have heq' : ps ++ [p] = (before ++ q :: after) ++ [r] := by simpa using heq
      obtain ⟨hps, -⟩ := List.append_inj' heq' rfl
      refine (h before after q hps hlong w x hw hx).imp_right ?_
      rintro ⟨r', hr', u, hu, hsome⟩
      exact ⟨r', by simp [hr'], u, hu, hsome⟩

/-- A parameter behind the others that sets it. -/
theorem Facet.idle_concat_some {ps : List (List Byte)} {p : List Byte} {v : ℕ} {x : BitVec 4}
    (hp : TakenFor p v) (hset : f.sets vgaBasic v = some x) :
    f.Idle (ps ++ [p]) c ↔ (2 ^ 31 ≤ decimal p → x = f.standing ps c) := by
  have hv := takenFor_iff.mp hp
  constructor
  · intro h hlong
    rcases h ps [] p rfl hlong v x hp hset with hx | ⟨q, hq, -⟩
    · exact hx
    · exact absurd hq List.not_mem_nil
  · intro h before after q heq hlong w y hw hy
    rcases List.eq_nil_or_concat after with rfl | ⟨after, r, rfl⟩
    · obtain ⟨rfl, hqp⟩ := List.append_inj' heq rfl
      obtain rfl : p = q := by simpa using hqp
      rw [← takenFor_iff.mp hw, hv, hset] at hy
      exact .inl (Option.some.inj hy ▸ h hlong)
    · have heq' : ps ++ [p] = (before ++ q :: after) ++ [r] := by simpa using heq
      obtain ⟨-, hqp⟩ := List.append_inj' heq' rfl
      obtain rfl : p = r := by simpa using hqp
      exact .inr ⟨p, by simp, v, hp, by rw [hset]; rfl⟩

/-- **One facet**, by the numbers that the parameters are taken for and by their own. Induction on
how many there are: the last one sets it, or it is as before. -/
theorem Facet.idle_iff (ps : List (List Byte)) : f.Idle ps c ↔
    f.value (select vgaBasic (ps.map wrapped) c) =
      f.value (select vgaBasic (ps.map decimal) c) := by
  induction ps using List.reverseRecOn with
  | nil =>
      refine ⟨fun _ => rfl, fun _ before after p h => ?_⟩
      exact absurd h.symm (by simp)
  | append_singleton ps p ih =>
      have hp : TakenFor p (wrapped p) := takenFor_iff.mpr rfl
      rw [f.value_concat, f.value_concat]
      by_cases hlong : decimal p < 2 ^ 31
      · rw [wrapped_of_lt hlong] at hp ⊢
        cases hset : f.sets vgaBasic (decimal p) with
        | none => exact (f.idle_concat_none c hp hset).trans ih
        | some x =>
            refine (f.idle_concat_some c hp hset).trans ⟨fun _ => rfl, fun _ h => ?_⟩
            omega
      · rw [f.sets_of_lt vgaBasic (by omega : 107 < decimal p), f.value_numbers]
        cases hset : f.sets vgaBasic (wrapped p) with
        | none => exact (f.idle_concat_none c hp hset).trans (f.value_numbers c ps ▸ ih)
        | some x =>
            refine (f.idle_concat_some c hp hset).trans ⟨fun h => h (by omega), fun h _ => h⟩

end

/-- The colours are those of the numbers, if and only if the long parameters do no harm. -/
theorem longIdle_iff (ps : List (List Byte)) (c : Colours) : LongIdle ps c ↔
    select vgaBasic (ps.map wrapped) c = select vgaBasic (ps.map decimal) c :=
  ⟨fun h => Facet.value_ext fun f => (f.idle_iff c ps).mp (h f),
    fun h f => (f.idle_iff c ps).mpr (congrArg f.value h)⟩

/-- Parameters below `2 ^ 31` are read as they are. -/
theorem longIdle_of_lt {ps : List (List Byte)} (hps : ∀ p ∈ ps, decimal p < 2 ^ 31)
    (c : Colours) : LongIdle ps c := by
  rw [longIdle_iff, List.map_congr_left fun p hp => wrapped_of_lt (hps p hp)]

/-- **When SGR parameters are read as numbers.** If and only if those from `2 ^ 31` on, among the
first four, do no harm: such a parameter is taken for none of the numbers that select colours, or
it sets only what is so anyway, or what is set again by a parameter behind it. -/
theorem readsNumbers_iff {ps : List (List Byte)} (hne : ps ≠ [])
    (hps : ∀ p ∈ ps, ∀ b ∈ p, 0x30 ≤ b ∧ b ≤ 0x39) {s : Console} (he : s.esc = 0)
    (hattr : s.crtAttr.setWidth 8 = (0 : Byte)) :
    ReadsNumbers ps s ↔ LongIdle (ps.take 4) (colours s.crtAttr) := by
  obtain ⟨hpar, hesc, hcode⟩ := consBytes_sgr hne hps he hattr
  rw [longIdle_iff]
  constructor
  · rintro ⟨-, -, hnumbers⟩
    have h := congrArg colours (hcode.symm.trans hnumbers)
    rwa [colours_attr, colours_attr] at h
  · exact fun h => ⟨hpar, hesc, by rw [hcode, h]⟩

/-- `4294967327` is taken for 31, but 32 comes behind it. -/
theorem readsNumbers_iff_behind :
    ReadsNumbers [[0x34, 0x32, 0x39, 0x34, 0x39, 0x36, 0x37, 0x33, 0x32, 0x37], [0x33, 0x32]]
      (statics ⟨fun _ => 0, []⟩ ⟨0, fun _ => 0⟩) :=
  (readsNumbers_iff (by decide) (by decide) rfl rfl).mpr ((longIdle_iff _ _).mpr (by decide))

/-- **A parameter is not always read as the number it is.** `4294967327` is 31 more than
`2 ^ 32`, and is taken for 31. -/
theorem not_readsNumbers_long :
    ¬ ∀ (ps : List (List Byte)) (s : Console), ps ≠ [] →
      (∀ p ∈ ps, ∀ b ∈ p, 0x30 ≤ b ∧ b ≤ 0x39) → s.esc = 0 →
      s.crtAttr.setWidth 8 = (0 : Byte) → ReadsNumbers ps s := by
  intro h
  let ps : List (List Byte) := [[0x34, 0x32, 0x39, 0x34, 0x39, 0x36, 0x37, 0x33, 0x32, 0x37]]
  have hne : ps ≠ [] := List.cons_ne_nil _ _
  have hps : ∀ p ∈ ps, ∀ b ∈ p, 0x30 ≤ b ∧ b ≤ 0x39 := by decide
  obtain ⟨-, -, hattr⟩ := h ps (statics ⟨fun _ => 0, []⟩ ⟨0, fun _ => 0⟩) hne hps rfl rfl
  obtain ⟨-, -, hcode⟩ :=
    consBytes_sgr hne hps (s := statics ⟨fun _ => 0, []⟩ ⟨0, fun _ => 0⟩) rfl rfl
  have hred := congrArg colours (hcode.symm.trans hattr)
  rw [colours_attr, colours_attr] at hred
  exact absurd hred (by decide)

end Jos
