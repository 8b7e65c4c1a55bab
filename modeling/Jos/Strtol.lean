import Jos.Numeral
import Jos.Snprintf
import Mathlib.Data.BitVec

/-!
# Numbers and their Text

`strtol` of `lib/string.c` against the numeric conversions of the formatter. `strtol` takes
the bytes that can be read from its pointer on, and returns its value and the bytes from
`*endptr` on; `none` is a read past them. A `long` has 32 bits and wraps.

The formatter writes a number as its numeral, digit by digit from the most significant one
(`printnum_text`), and the digit loop of `strtol` reads a numeral back modulo `2 ^ 32`
(`digitLoop_numeral`). No digit is a blank, a sign or an `x`, so that in front of the digits
`strtol` takes for a prefix what was written as one (`strtol_numeral`).

## Main results

* `printnum_text`: what `printnum` prints.
* `digitLoop_numeral`: what the digit loop makes of it.
* `strtol_snprintf`: **numbers survive the round trip** through their text.
-/

namespace Jos

/-! ### `strtol` -/

/-- The initial whitespace is gobbled. -/
def gobble : List Byte → Option (List Byte)
  | [] => none
  | b :: s => if b = chr ' ' ∨ b = chr '\t' then gobble s else some (b :: s)

/-- The sign: whether there is a minus, and what follows. -/
def takeSign : List Byte → Option (Bool × List Byte)
  | [] => none
  | b :: s =>
      if b = chr '+' then some (false, s)
      else if b = chr '-' then some (true, s)
      else some (false, b :: s)

/-- The hex or octal base prefix: the base, and what follows. The second character is read
only behind a `0`. -/
def takePrefix (base : BitVec 32) : List Byte → Option (BitVec 32 × List Byte)
  | [] => if base = 0 ∨ base = 16 then none else some (base, [])
  | [b] =>
      if (base = 0 ∨ base = 16) ∧ b = chr '0' then none
      else if base = 0 then some (10, [b])
      else some (base, [b])
  | b :: c :: s =>
      if (base = 0 ∨ base = 16) ∧ b = chr '0' ∧ c = chr 'x' then some (16, s)
      else if base = 0 ∧ b = chr '0' then some (8, c :: s)
      else if base = 0 then some (10, b :: c :: s)
      else some (base, b :: c :: s)

/-- The value of a character as a digit. -/
def dig (b : Byte) : Option ℕ :=
  if chr '0' ≤ b ∧ b ≤ chr '9' then some (b - chr '0').toNat
  else if chr 'a' ≤ b ∧ b ≤ chr 'z' then some ((b - chr 'a').toNat + 10)
  else if chr 'A' ≤ b ∧ b ≤ chr 'Z' then some ((b - chr 'A').toNat + 10)
  else none

/-- The loop over the digits: the value, and what follows. -/
def digitLoop (base : BitVec 32) : List Byte → BitVec 32 → Option (BitVec 32 × List Byte)
  | [], _ => none
  | b :: s, val =>
      match dig b with
      | none => some (val, b :: s)
      | some d =>
          if base.toInt ≤ d then some (val, b :: s)
          else digitLoop base s (val * base + BitVec.ofNat 32 d)

/-- `strtol`: the value, and the bytes from `*endptr` on. -/
def strtol (s : List Byte) (base : BitVec 32) : Option (BitVec 32 × List Byte) := do
  let s ← gobble s
  let (neg, s) ← takeSign s
  let (base, s) ← takePrefix base s
  let (val, s) ← digitLoop base s 0
  pure (if neg then -val else val, s)

/-! ### Digits -/

/-- The character of a digit, as `printnum` looks it up. -/
def digitChar (d : ℕ) : Byte :=
  (cstr "0123456789abcdef").getD d 0

/-- What `strtol` takes a digit for. -/
theorem dig_digitChar {d : ℕ} (h : d < 16) : dig (digitChar d) = some d := by
  revert d
  decide

/-- The NUL is no digit. -/
theorem dig_nul : dig 0 = none := by
  decide

/-- No digit is a blank, a sign, an `x` or a NUL. -/
theorem digitChar_ne {d : ℕ} (h : d < 16) :
    digitChar d ≠ chr ' ' ∧ digitChar d ≠ chr '\t' ∧ digitChar d ≠ chr '+' ∧
      digitChar d ≠ chr '-' ∧ digitChar d ≠ chr 'x' ∧ digitChar d ≠ 0 := by
  revert d
  decide

/-- Only the digit 0 is written `0`. -/
theorem digitChar_eq_zero {d : ℕ} (h : d < 16) : digitChar d = chr '0' ↔ d = 0 := by
  revert d
  decide

/-- The text of a number. -/
def numeralText (base n : ℕ) : List Byte :=
  (numeral base n).map digitChar

/-- A round of the loop at a digit. -/
theorem digitLoop_cons {base d : ℕ} (hb : base < 2 ^ 31) (hd : d < base) {c : Byte}
    (hc : dig c = some d) (s : List Byte) (val : BitVec 32) :
    digitLoop (BitVec.ofNat 32 base) (c :: s) val =
      digitLoop (BitVec.ofNat 32 base) s (val * BitVec.ofNat 32 base + BitVec.ofNat 32 d) := by
  have hlt : ¬ (BitVec.ofNat 32 base).toInt ≤ d := by
    rw [toInt_ofNat_of_lt hb]
    omega
  rw [digitLoop, hc]
  simp only [if_neg hlt]

/-- **Reading a numeral.** The loop stops at the NUL behind it. -/
theorem digitLoop_numeral {base : ℕ} (hb : 1 < base) (hb' : base ≤ 16) (n : ℕ)
    (rest : List Byte) :
    digitLoop (BitVec.ofNat 32 base) (numeralText base n ++ 0 :: rest) 0 =
      some (BitVec.ofNat 32 n, 0 :: rest) := by
  have hloop : ∀ (ds : List ℕ), (∀ d ∈ ds, d < base) → ∀ val : BitVec 32,
      digitLoop (BitVec.ofNat 32 base) (ds.map digitChar ++ 0 :: rest) val =
        some (ds.foldl (fun (v : BitVec 32) (d : ℕ) => v * (base : BitVec 32) + d) val,
          0 :: rest) := by
    intro ds hds
    induction ds with
    | nil =>
        intro val
        rw [List.map_nil, List.nil_append, digitLoop, dig_nul]
        rfl
    | cons d ds ih =>
        intro val
        have hd : d < base := hds d (List.mem_cons_self ..)
        rw [List.map_cons, List.cons_append,
          digitLoop_cons (by omega) hd (dig_digitChar (by omega))]
        exact ih (fun x hx => hds x (List.mem_cons_of_mem d hx)) _
  rw [numeralText, hloop _ (fun d hd => lt_of_mem_numeral hb hd), foldl_numeral]
  rfl

/-- The text of a number begins with a digit, followed by digits. -/
theorem numeralText_cons {base : ℕ} (hb : 1 < base) (n : ℕ) :
    ∃ d ds, numeralText base n = digitChar d :: ds.map digitChar ∧ d < base ∧
      (∀ e ∈ ds, e < base) ∧ (d = 0 → n = 0 ∧ ds = []) := by
  obtain ⟨d, ds, h, hzero⟩ := numeral_cons base n
  have hlt : ∀ e ∈ d :: ds, e < base := fun e he => lt_of_mem_numeral hb (h ▸ he)
  exact ⟨d, ds, by rw [numeralText, h, List.map_cons], hlt d (List.mem_cons_self ..),
    fun e he => hlt e (List.mem_cons_of_mem d he), hzero⟩

/-! ### What stands before the digits -/

/-- A text that begins with a digit has no whitespace and no sign. -/
theorem strtol_digitChar {d : ℕ} (hd : d < 16) (s : List Byte) (base : BitVec 32) :
    strtol (digitChar d :: s) base =
      (takePrefix base (digitChar d :: s)).bind fun r => digitLoop r.1 r.2 0 := by
  obtain ⟨hblank, htab, hplus, hminus, -, -⟩ := digitChar_ne hd
  rw [strtol, gobble, if_neg (not_or.mpr ⟨hblank, htab⟩)]
  simp only [Option.bind_eq_bind, Option.bind_some, takeSign, if_neg hplus, if_neg hminus]
  rcases takePrefix base (digitChar d :: s) with _ | ⟨base', s'⟩
  · rfl
  · simp only [Option.bind_some]
    generalize digitLoop base' s' 0 = r
    cases r <;> rfl

/-- And one that begins with a minus is negated. -/
theorem strtol_minus {d : ℕ} (hd : d < 16) (s : List Byte) (base : BitVec 32) :
    strtol (chr '-' :: digitChar d :: s) base =
      (strtol (digitChar d :: s) base).map fun r => (-r.1, r.2) := by
  have hsign : takeSign (chr '-' :: digitChar d :: s) = some (true, digitChar d :: s) := rfl
  rw [strtol_digitChar hd, strtol, gobble, if_neg (by decide)]
  simp only [Option.bind_eq_bind, Option.bind_some, hsign]
  rcases takePrefix base (digitChar d :: s) with _ | ⟨base', s'⟩
  · rfl
  · simp only [Option.bind_some]
    generalize digitLoop base' s' 0 = r
    cases r <;> rfl

/-- Two characters that are not the hex prefix. -/
theorem takePrefix_of_ne {b c : Byte} (hx : c ≠ chr 'x') (base : BitVec 32) (s : List Byte) :
    takePrefix base (b :: c :: s) =
      if base = 0 then
        if b = chr '0' then some (8, c :: s) else some (10, b :: c :: s)
      else some (base, b :: c :: s) := by
  rw [takePrefix, if_neg fun h => hx h.2.2]
  by_cases hbase : base = 0
  · simp only [hbase, true_and, if_true]
  · rw [if_neg fun h => hbase h.1, if_neg hbase, if_neg hbase]

/-- The text of a number with a NUL behind it, as `takePrefix` sees it. -/
theorem exists_second {base : ℕ} (hb : 1 < base) (hb' : base ≤ 16) (n : ℕ) (rest : List Byte) :
    ∃ d c s, numeralText base n ++ 0 :: rest = digitChar d :: c :: s ∧ d < 16 ∧ c ≠ chr 'x' ∧
      (d = 0 → n = 0 ∧ c :: s = 0 :: rest) := by
  obtain ⟨d, ds, htext, hd, hds, hzero⟩ := numeralText_cons hb n
  cases ds with
  | nil =>
      refine ⟨d, 0, rest, by rw [htext]; rfl, by omega, by decide, fun h => ?_⟩
      exact ⟨(hzero h).1, rfl⟩
  | cons e ds =>
      have he : e < base := hds e (List.mem_cons_self ..)
      refine ⟨d, digitChar e, ds.map digitChar ++ 0 :: rest, by rw [htext]; rfl, by omega, ?_, ?_⟩
      · exact (digitChar_ne (by omega)).2.2.2.2.1
      · intro h
        exact nomatch (hzero h).2

/-- **The text of a number** in a base that is given. -/
theorem strtol_numeral {base : ℕ} (hb : 1 < base) (hb' : base ≤ 16) (n : ℕ) (rest : List Byte) :
    strtol (numeralText base n ++ 0 :: rest) (BitVec.ofNat 32 base) =
      some (BitVec.ofNat 32 n, 0 :: rest) := by
  have hne : BitVec.ofNat 32 base ≠ 0 := by
    intro h
    have hnat := congrArg BitVec.toNat h
    rw [BitVec.toNat_ofNat, Nat.mod_eq_of_lt (by omega)] at hnat
    exact absurd hnat (by simp; omega)
  have hdigits := digitLoop_numeral hb hb' n rest
  obtain ⟨d, c, s, htext, hd, hx, -⟩ := exists_second hb hb' n rest
  rw [htext] at hdigits ⊢
  rw [strtol_digitChar hd, takePrefix_of_ne hx, if_neg hne]
  exact hdigits

/-- A decimal in base 0. -/
theorem strtol_decimal (n : ℕ) (rest : List Byte) :
    strtol (numeralText 10 n ++ 0 :: rest) 0 = some (BitVec.ofNat 32 n, 0 :: rest) := by
  have hdigits := digitLoop_numeral (by decide : 1 < 10) (by decide) n rest
  obtain ⟨d, c, s, htext, hd, hx, hzero⟩ :=
    exists_second (by decide : 1 < 10) (by decide) n rest
  rw [htext] at hdigits ⊢
  rw [strtol_digitChar hd, takePrefix_of_ne hx, if_pos rfl]
  by_cases h0 : d = 0
  · -- the numeral of zero is taken for an octal prefix with no digits behind it
    obtain ⟨rfl, htail⟩ := hzero h0
    subst h0
    rw [if_pos (by decide), htail]
    simp only [Option.bind_some, digitLoop, dig_nul]
    rfl
  · rw [if_neg (mt (digitChar_eq_zero hd).mp h0)]
    exact hdigits

/-- A hexadecimal with its prefix. -/
theorem strtol_hex {base : BitVec 32} (hbase : base = 0 ∨ base = 16) (n : ℕ) (rest : List Byte) :
    strtol (chr '0' :: chr 'x' :: (numeralText 16 n ++ 0 :: rest)) base =
      some (BitVec.ofNat 32 n, 0 :: rest) := by
  have hdigit : chr '0' = digitChar 0 := rfl
  rw [hdigit, strtol_digitChar (by decide), takePrefix, if_pos ⟨hbase, rfl, rfl⟩]
  exact digitLoop_numeral (by decide : 1 < 16) (by decide) n rest

/-- An octal with its prefix. -/
theorem strtol_octal (n : ℕ) (rest : List Byte) :
    strtol (chr '0' :: (numeralText 8 n ++ 0 :: rest)) 0 =
      some (BitVec.ofNat 32 n, 0 :: rest) := by
  have hdigit : chr '0' = digitChar 0 := rfl
  have hdigits := digitLoop_numeral (by decide : 1 < 8) (by decide) n rest
  obtain ⟨d, c, s, htext, hd, hx, -⟩ := exists_second (by decide : 1 < 8) (by decide) n rest
  obtain ⟨-, -, -, -, hx', -⟩ := digitChar_ne hd
  rw [htext] at hdigits ⊢
  rw [hdigit, strtol_digitChar (by decide), takePrefix_of_ne hx', if_pos rfl, if_pos (by decide)]
  exact hdigits

/-! ### `printnum` -/

/-- Characters put behind others. -/
theorem iterate_append (c : BitVec 32) (k : ℕ) (out : List (BitVec 32)) :
    (fun out => out ++ [c])^[k] out = out ++ List.replicate k c := by
  induction k generalizing out with
  | zero => exact (List.append_nil out).symm
  | succ k ih =>
      rw [Function.iterate_succ_apply, ih, List.append_assoc, List.replicate_succ]
      rfl

/-- **What `printnum` prints**: the text of the number, behind what is left of the width when
every digit has taken one off. Induction on the depth of the calls, that is, on the digits from
the last to the first. -/
theorem printnumTo_text {base : ℕ} (hb : 1 < base) {fuel n : ℕ} (hfuel : 0 < fuel)
    (hn : n < base ^ fuel) {width : BitVec 32} (hwidth : -2 ^ 31 + (fuel : ℤ) ≤ width.toInt)
    (padc : Byte) (out : List (BitVec 32)) :
    printnumTo (fun c out => out ++ [c]) fuel n base width padc out =
      out ++ (List.replicate (width.toInt - (numeral base n).length).toNat padc ++
        numeralText base n).map (·.signExtend 32) := by
  induction fuel generalizing n width out with
  | zero => exact absurd hfuel (Nat.lt_irrefl 0)
  | succ fuel ih =>
      have hone : (width - 1).toInt = width.toInt - 1 := by
        have hle := BitVec.toInt_lt (x := width)
        rw [BitVec.toInt_sub, Int.bmod_eq_of_le]
        · rfl
        · change -2 ^ 31 ≤ width.toInt - 1
          omega
        · change width.toInt - 1 < 2 ^ 31
          omega
      rw [printnumTo]
      by_cases hle : base ≤ n
      · have hpos : 0 < fuel := by
          rcases Nat.eq_zero_or_pos fuel with rfl | h
          · rw [Nat.zero_add, Nat.pow_one] at hn
            omega
          · exact h
        have hdiv : n / base < base ^ fuel := Nat.div_lt_of_lt_mul (by rwa [← Nat.pow_succ'])
        have hpads : width.toInt - 1 - (numeral base (n / base)).length =
            width.toInt - (numeral base n).length := by
          rw [numeral_div_append hb hle, List.length_append, List.length_singleton]
          push_cast
          ring
        simp only [if_pos hle, ih hpos hdiv (by omega : _ ≤ (width - 1).toInt), hone, hpads]
        rw [List.append_assoc, numeralText, numeralText, numeral_div_append hb hle]
        simp only [List.map_append, List.append_assoc]
        rfl
      · have hlt : n < base := by omega
        simp only [if_neg hle, hone, numeralText, numeral_of_lt hlt, Nat.mod_eq_of_lt hlt,
          iterate_append, List.map_append, List.map_replicate, List.append_assoc]
        rfl

/-- The text of a number of 64 bits in a field, or without one. -/
theorem printnum_field {base : ℕ} (hb : 1 < base) {n : ℕ} (hn : n < 2 ^ 64) {width : BitVec 32}
    (hwidth : -1 ≤ width.toInt) (padc : Byte) (out : List (BitVec 32)) :
    printnum (fun c out => out ++ [c]) n base width padc out =
      out ++ (List.replicate (width.toInt - (numeral base n).length).toNat padc ++
        numeralText base n).map (·.signExtend 32) :=
  printnumTo_text hb (by decide) (Nat.lt_of_lt_of_le hn (Nat.pow_le_pow_left hb 64)) (by omega)
    padc out

/-- Without a width, a number is printed as its numeral. -/
theorem printnum_text {base : ℕ} (hb : 1 < base) {n : ℕ} (hn : n < 2 ^ 64) (padc : Byte)
    (out : List (BitVec 32)) :
    printnum (fun c out => out ++ [c]) n base (-1) padc out =
      out ++ (numeralText base n).map (·.signExtend 32) := by
  have hone : (-1 : BitVec 32).toInt = -1 := rfl
  rw [printnum_field hb hn (by rw [hone]), hone, Int.toNat_of_nonpos (by omega)]
  rfl

/-! ### The formats -/

/-- Characters printed literally. -/
theorem puts_append (l : List Byte) (out : List (BitVec 32)) :
    puts (fun c out => out ++ [c]) l out = out ++ l.map (·.setWidth 32) := by
  induction l generalizing out with
  | nil => exact (List.append_nil out).symm
  | cons b l ih => exact (ih _).trans (List.append_assoc ..)

/-- The locals at the conversion character of `%lx` and its like. -/
def longOpts : Opts :=
  { Opts.init with lflag := 1 }

/-- A format of literal characters and one conversion with the flag `l` has no NUL. -/
theorem nul_notMem_long {pre : List Byte} (hpre : ∀ b ∈ pre, b ≠ chr '%' ∧ b ≠ 0) {ch : Byte}
    (hnul : ch ≠ 0) : (0 : Byte) ∉ pre ++ [chr '%', chr 'l', ch] := by
  intro hmem
  rcases List.mem_append.mp hmem with h | h
  · exact (hpre 0 h).2 rfl
  · simp only [List.mem_cons, List.not_mem_nil, or_false] at h
    rcases h with h | h | h
    · exact absurd h (by decide)
    · exact absurd h (by decide)
    · exact hnul h.symm

/-- What a format of literal characters and one conversion with the flag `l` prints. -/
theorem output_long (pre : List Byte) (hpre : ∀ b ∈ pre, b ≠ chr '%' ∧ b ≠ 0) {ch : Byte}
    (hflag : ¬ isFlag ch) (hnul : ch ≠ 0) {ap rest : Args} {text : List (BitVec 32)}
    (h : convert (fun c out => out ++ [c]) (printfmt fun c out => out ++ [c]) longOpts ch ap
      (pre.map (·.setWidth 32)) = some (.ok (text, rest))) :
    output (pre ++ [chr '%', chr 'l', ch] ++ [0]) ap = .ok (text, rest) := by
  have hl : ∀ b ∈ [chr 'l'], isFlag b := by decide
  have ht := nul_notMem_long hpre hnul
  have hitems : items (pre ++ [chr '%', chr 'l', ch]) =
      pre.map Item.lit ++ [.esc [chr 'l'] ch] := by
    rw [items, parse_lits fun b hb => (hpre b hb).1]
    exact congrArg _ (items_esc hl hflag [])
  have hflags : flags [chr 'l'] none .init ap = .ok (longOpts, ap) := rfl
  rw [output, vprintfmt_items _ ht, hitems, runItems_lits, puts_append, List.nil_append, runItems,
    hflags, ok_bind]
  simp only [h]
  rfl

/-- The decimal text of a `long`. -/
def decimalText (v : BitVec 32) : List Byte :=
  if v.toInt < 0 then chr '-' :: numeralText 10 (-v).toNat else numeralText 10 v.toNat

/-- The number that is negated, and one that is not. -/
theorem toNat_neg_of_neg {n : ℕ} {x : BitVec n} (h : x.toInt < 0) :
    (-x).toNat = x.toInt.natAbs := by
  have hlt := x.isLt
  rw [BitVec.toNat_neg]
  rw [BitVec.toInt_eq_toNat_cond] at h ⊢
  split at h
  · omega
  · rename_i hcond
    rw [if_neg hcond, Nat.mod_eq_of_lt (by omega)]
    omega

/-- A value that is not negative is its magnitude. -/
theorem toNat_of_nonneg {n : ℕ} {x : BitVec n} (h : ¬ x.toInt < 0) :
    x.toNat = x.toInt.natAbs := by
  have hlt := x.isLt
  rw [BitVec.toInt_eq_toNat_cond] at h ⊢
  split at h
  · rename_i hcond
    rw [if_pos hcond]
    rfl
  · omega

/-- The magnitude `%ld` prints, of a negative argument and of another. -/
theorem toNat_neg_signExtend {v : BitVec 32} (h : v.toInt < 0) :
    (-(v.signExtend 64)).toNat = (-v).toNat := by
  have h64 : (v.signExtend 64).toInt = v.toInt := BitVec.toInt_signExtend_of_le (by decide)
  rw [toNat_neg_of_neg (h64.symm ▸ h), toNat_neg_of_neg h, h64]

/-- Such a value stays what it is as a `long long`. -/
theorem toNat_signExtend_of_nonneg {v : BitVec 32} (h : ¬ v.toInt < 0) :
    (v.signExtend 64).toNat = v.toNat := by
  have h64 : (v.signExtend 64).toInt = v.toInt := BitVec.toInt_signExtend_of_le (by decide)
  rw [toNat_of_nonneg (h64.symm ▸ h), toNat_of_nonneg h, h64]

/-- The case of `%ld`. -/
theorem convert_decimal (v : BitVec 32) :
    convert (fun c out => out ++ [c]) (printfmt fun c out => out ++ [c]) longOpts (chr 'd')
      [.word v] [] = some (.ok ((decimalText v).map (·.signExtend 32), [])) := by
  have hget : getint longOpts.lflag [.word v] = .ok (v.signExtend 64, []) := rfl
  have hint : (v.signExtend 64).toInt = v.toInt := BitVec.toInt_signExtend_of_le (by decide)
  have hbound : ∀ x : BitVec 32, x.toNat < 2 ^ 64 := fun x => by have := x.isLt; omega
  have hwidth : longOpts.width = -1 := rfl
  rw [convert_d, hget, ok_bind, hint, decimalText]
  by_cases hneg : v.toInt < 0
  · simp only [if_pos hneg, hwidth, toNat_neg_signExtend hneg,
      printnum_text (by decide : 1 < 10) (hbound _)]
    rfl
  · simp only [if_neg hneg, hwidth, toNat_signExtend_of_nonneg hneg,
      printnum_text (by decide : 1 < 10) (hbound _), List.nil_append]

/-- The cases of `%lx` and `%lo`. -/
theorem convert_unsigned {ch : Byte} {base : ℕ} (h : ch = chr 'x' ∧ base = 16 ∨
    ch = chr 'o' ∧ base = 8) (v : BitVec 32) (out : List (BitVec 32)) :
    convert (fun c out => out ++ [c]) (printfmt fun c out => out ++ [c]) longOpts ch [.word v]
      out = some (.ok (out ++ (numeralText base v.toNat).map (·.signExtend 32), [])) := by
  have hget : getuint longOpts.lflag [.word v] = .ok (v.setWidth 64, []) := rfl
  have hnat : (v.setWidth 64).toNat = v.toNat := by
    rw [BitVec.toNat_setWidth_of_le (by decide)]
  have hbound : v.toNat < 2 ^ 64 := by have := v.isLt; omega
  have hwidth : longOpts.width = -1 := rfl
  rcases h with ⟨rfl, rfl⟩ | ⟨rfl, rfl⟩
  · rw [convert_x, hget, ok_bind, hnat, hwidth, printnum_text (by decide) hbound]
  · rw [convert_o, hget, ok_bind, hnat, hwidth, printnum_text (by decide) hbound]

/-! ### The text in memory -/

/-- `snprintf`. -/
def snprintf (mem : Mem) (buf : Addr) (n : BitVec 32) (fmt : List Byte) (ap : Args) :
    Except Fault (Mem × BitVec 32) :=
  vsnprintf mem buf n fmt ap

/-- The `n` bytes that can be read from `a` on. -/
def Mem.bytes (m : Mem) (a : Addr) (n : ℕ) : List Byte :=
  (List.range n).map fun i => m.byte (a + BitVec.ofNat 32 i)

/-- The bytes from a later address on. -/
theorem Mem.bytes_add (m : Mem) (a : Addr) (k n : ℕ) :
    m.bytes a (k + n) = m.bytes a k ++ m.bytes (a + BitVec.ofNat 32 k) n := by
  rw [Mem.bytes, Mem.bytes, Mem.bytes, List.range_add, List.map_append, List.map_map]
  refine congrArg _ (List.map_congr_left fun i _ => ?_)
  rw [Function.comp_apply, BitVec.ofNat_add, add_assoc]

/-- The first of the bytes. -/
theorem Mem.bytes_succ (m : Mem) (a : Addr) (n : ℕ) :
    m.bytes a (n + 1) = m.byte a :: m.bytes (a + 1) n := by
  rw [Nat.add_comm, Mem.bytes_add]
  have hone : m.bytes a 1 = [m.byte a] := by
    rw [Mem.bytes, List.range_one, List.map_singleton, BitVec.add_zero]
  rw [hone]
  rfl

/-- Bytes given one by one. -/
theorem Mem.bytes_eq {m : Mem} {a : Addr} {l : List Byte}
    (h : ∀ i (hi : i < l.length), m.byte (a + BitVec.ofNat 32 i) = l[i]) :
    m.bytes a l.length = l := by
  refine List.ext_getElem (by rw [Mem.bytes, List.length_map, List.length_range]) ?_
  intro i hi hi'
  simp only [Mem.bytes, List.getElem_map, List.getElem_range]
  exact h i hi'

/-- `strtol` with the base `base`, applied to the text that `snprintf` produces of `v` with
the format `fmt` in a buffer that is large enough, returns `v`, and `*endptr` is the
terminating NUL of the text. -/
def RoundTrips (fmt : List Byte) (base v : BitVec 32) : Prop :=
  ∀ mem buf (n : BitVec 32), buf ≠ 0 → 1 ≤ n.toInt → buf.toNat + n.toNat ≤ 2 ^ 32 →
    ∃ mem' rc, snprintf mem buf n fmt [.word v] = .ok (mem', rc) ∧ rc.toNat ≤ 13 ∧
      (rc.toInt < n.toInt →
        mem'.byte (buf + rc) = 0 ∧
        (∀ i < rc.toNat, mem'.byte (buf + BitVec.ofNat 32 i) ≠ 0) ∧
        strtol (mem'.bytes buf n.toNat) base =
          some (v, mem'.bytes (buf + rc) (n.toNat - rc.toNat)))

/-- **One format.** It is enough that `strtol` reads the text back, whatever stands behind
its NUL. -/
theorem roundTrips_of_text {t : List Byte} (ht : 0 ∉ t) {base v : BitVec 32}
    {out : List (BitVec 32)} (text : List Byte)
    (hout : output (t ++ [0]) [.word v] = .ok (out, []))
    (htext : out.map (·.setWidth 8) = text) (hlen : text.length ≤ 13) (hnul : 0 ∉ text)
    (hread : ∀ rest, strtol (text ++ 0 :: rest) base = some (v, 0 :: rest)) :
    RoundTrips (t ++ [0]) base v := by
  subst htext
  rw [List.length_map] at hlen
  intro mem buf n hbuf hn hend
  obtain ⟨mem', hcall, hbyte, hend', -⟩ := vsnprintf_stores ht mem hout hbuf hn hend
  have hrc : (BitVec.ofNat 32 out.length).toNat = out.length := by
    rw [BitVec.toNat_ofNat, Nat.mod_eq_of_lt (by omega)]
  refine ⟨mem', _, hcall, by rw [hrc]; exact hlen, fun hfits => ?_⟩
  have hfits' : out.length < n.toNat := by
    rw [toInt_ofNat_of_lt (by omega)] at hfits
    have hcond := BitVec.toInt_eq_toNat_cond n
    split at hcond <;> omega
  rw [Nat.min_eq_left (by omega)] at hend'
  -- the text, as the bytes of the memory
  have hbytes : ∀ i (hi : i < (out.map (·.setWidth 8)).length),
      mem'.byte (buf + BitVec.ofNat 32 i) = (out.map (·.setWidth 8))[i] := by
    intro i hi
    rw [List.length_map] at hi
    rw [hbyte i hi (by omega), List.getElem_map]
  have hmem : mem'.bytes buf out.length = out.map (·.setWidth 8) := by
    have h := Mem.bytes_eq hbytes
    rwa [List.length_map] at h
  obtain ⟨k, hk⟩ : ∃ k, n.toNat = out.length + (k + 1) :=
    ⟨n.toNat - out.length - 1, by omega⟩
  rw [hrc]
  refine ⟨hend', fun i hi h => hnul ?_, ?_⟩
  · rw [← hmem, ← h]
    exact List.mem_map.mpr ⟨i, List.mem_range.mpr hi, rfl⟩
  · rw [hk, Mem.bytes_add, Nat.add_sub_cancel_left, hmem, Mem.bytes_succ, hend']
    exact hread _

/-! ### The round trip -/

/-- A character is stored as the byte it was looked up as. -/
theorem map_setWidth_signExtend (l : List Byte) :
    (l.map (·.signExtend 32)).map (·.setWidth 8) = l := by
  rw [List.map_map]
  exact (List.map_congr_left fun b _ => lowByte_signExtend b).trans (List.map_id l)

/-- Bytes handed on as ints come back as they were. -/
theorem map_setWidth_setWidth (l : List Byte) :
    (l.map (·.setWidth 32)).map (·.setWidth 8) = l := by
  rw [List.map_map]
  refine (List.map_congr_left fun b _ => ?_).trans (List.map_id l)
  rw [Function.comp_apply, BitVec.setWidth_setWidth_of_le _ (by decide), BitVec.setWidth_eq]
  rfl

/-- The text of a number has no NUL, and at most eleven digits in bases from 8 on. -/
theorem nul_notMem_numeralText {base : ℕ} (hb : 1 < base) (hb' : base ≤ 16) (n : ℕ) :
    (0 : Byte) ∉ numeralText base n := by
  intro h
  obtain ⟨d, hd, hnul⟩ := List.mem_map.mp h
  obtain ⟨-, -, -, -, -, hne⟩ := digitChar_ne (Nat.lt_of_lt_of_le (lt_of_mem_numeral hb hd) hb')
  exact hne hnul

/-- A numeral of 32 bits fits into the buffer. -/
theorem length_numeralText_le {base : ℕ} (hb : 8 ≤ base) (v : BitVec 32) :
    (numeralText base v.toNat).length ≤ 11 := by
  rw [numeralText, List.length_map]
  refine length_numeral_le (by omega) (by decide) ?_
  calc v.toNat < 8 ^ 11 := by have := v.isLt; omega
    _ ≤ base ^ 11 := Nat.pow_le_pow_left hb 11

theorem strtol_decimalText {base : BitVec 32} (hbase : base = 10 ∨ base = 0) (v : BitVec 32)
    (rest : List Byte) : strtol (decimalText v ++ 0 :: rest) base = some (v, 0 :: rest) := by
  have hread : ∀ n, strtol (numeralText 10 n ++ 0 :: rest) base =
      some (BitVec.ofNat 32 n, 0 :: rest) := by
    intro n
    rcases hbase with rfl | rfl
    · exact strtol_numeral (by decide : 1 < 10) (by decide) n rest
    · exact strtol_decimal n rest
  rw [decimalText]
  split
  · have hneg := hread (-v).toNat
    obtain ⟨d, c, s, htext, hd, -⟩ :=
      exists_second (by decide : 1 < 10) (by decide) (-v).toNat rest
    rw [htext] at hneg
    rw [List.cons_append, htext, strtol_minus hd, hneg, Option.map_some, BitVec.ofNat_toNat,
      BitVec.setWidth_eq, neg_neg]
  · rw [hread, BitVec.ofNat_toNat, BitVec.setWidth_eq]

/-- A decimal without a NUL, of at most a sign and ten digits. -/
theorem decimalText_spec (v : BitVec 32) :
    (decimalText v).length ≤ 13 ∧ (0 : Byte) ∉ decimalText v := by
  have hlen := fun x : BitVec 32 => length_numeralText_le (by decide : 8 ≤ 10) x
  have hnul := fun n => nul_notMem_numeralText (by decide : 1 < 10) (by decide) n
  rw [decimalText]
  split
  · refine ⟨Nat.le_trans (Nat.succ_le_succ (hlen (-v))) (by decide), ?_⟩
    rw [List.mem_cons, not_or]
    exact ⟨by decide, hnul _⟩
  · exact ⟨Nat.le_trans (hlen v) (by decide), hnul _⟩

/-- `%ld`. -/
theorem roundTrips_decimal {base : BitVec 32} (hbase : base = 10 ∨ base = 0) (v : BitVec 32) :
    RoundTrips (cstr "%ld") base v := by
  have hout := output_long [] (by decide) (by decide) (by decide) (convert_decimal v)
  obtain ⟨hlen, hnul⟩ := decimalText_spec v
  exact roundTrips_of_text (t := "%ld".toList.map chr) (by decide) _ hout
    (map_setWidth_signExtend _) hlen hnul (strtol_decimalText hbase v)

/-- `%lx` and `%lo`, behind a prefix. -/
theorem roundTrips_unsigned (pre : List Byte) (hpre : ∀ b ∈ pre, b ≠ chr '%' ∧ b ≠ 0)
    (hlen : pre.length ≤ 2) {ch : Byte} {base : ℕ} (hch : ch = chr 'x' ∧ base = 16 ∨
    ch = chr 'o' ∧ base = 8) {b v : BitVec 32}
    (hread : ∀ n rest, strtol (pre ++ (numeralText base n ++ 0 :: rest)) b =
      some (BitVec.ofNat 32 n, 0 :: rest)) :
    RoundTrips (pre ++ [chr '%', chr 'l', ch] ++ [0]) b v := by
  have hflag : ¬ isFlag ch ∧ ch ≠ 0 := by
    rcases hch with ⟨rfl, -⟩ | ⟨rfl, -⟩ <;> decide
  have hbase : 8 ≤ base ∧ base ≤ 16 := by
    rcases hch with ⟨-, rfl⟩ | ⟨-, rfl⟩ <;> decide
  have ht := nul_notMem_long hpre hflag.2
  have hout := output_long pre hpre hflag.1 hflag.2 (convert_unsigned hch v _)
  refine roundTrips_of_text ht (pre ++ numeralText base v.toNat) hout ?_ ?_ ?_ ?_
  · rw [List.map_append, map_setWidth_setWidth, map_setWidth_signExtend]
  · have hdigits := length_numeralText_le hbase.1 v
    rw [List.length_append]
    omega
  · have hdigits := nul_notMem_numeralText (by omega) hbase.2 v.toNat
    exact fun h => (List.mem_append.mp h).elim (fun h => (hpre 0 h).2 rfl) hdigits
  · intro rest
    rw [List.append_assoc, hread, BitVec.ofNat_toNat, BitVec.setWidth_eq]

/-- **Numbers survive the round trip through their text**: signed decimals read in base 10 or
with the base detected, hexadecimals without and with their prefix, octals likewise. -/
theorem strtol_snprintf (v : BitVec 32) :
    RoundTrips (cstr "%ld") 10 v ∧ RoundTrips (cstr "%ld") 0 v ∧
      RoundTrips (cstr "%lx") 16 v ∧
      RoundTrips (cstr "0x%lx") 16 v ∧ RoundTrips (cstr "0x%lx") 0 v ∧
      RoundTrips (cstr "%lo") 8 v ∧ RoundTrips (cstr "0%lo") 0 v := by
  have hex : ∀ base : BitVec 32, base = 0 ∨ base = 16 → RoundTrips (cstr "0x%lx") base v :=
    fun base hbase => roundTrips_unsigned [chr '0', chr 'x'] (by decide) (by decide)
      (Or.inl ⟨rfl, rfl⟩) (strtol_hex hbase)
  refine ⟨roundTrips_decimal (Or.inl rfl) v, roundTrips_decimal (Or.inr rfl) v, ?_,
    hex 16 (Or.inr rfl), hex 0 (Or.inl rfl), ?_, ?_⟩
  · exact roundTrips_unsigned [] (by decide) (by decide) (Or.inl ⟨rfl, rfl⟩)
      (strtol_numeral (by decide : 1 < 16) (by decide))
  · exact roundTrips_unsigned [] (by decide) (by decide) (Or.inr ⟨rfl, rfl⟩)
      (strtol_numeral (by decide : 1 < 8) (by decide))
  · exact roundTrips_unsigned [chr '0'] (by decide) (by decide) (Or.inr ⟨rfl, rfl⟩)
      strtol_octal

end Jos
