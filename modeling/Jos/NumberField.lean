import Jos.Directive

/-!
# Numbers in Fields

The numeric conversions with flags, a width and a length. `printnum` is handed the whole width
and the padding character and fills the field in front of the digits. The sign is printed
before it is called, and takes nothing off the width; and a `-` for the padding on the right is
a padding character like another.

## Main results

* `number_eq`: what a numeric conversion prints in a field.
* `number_unsigned`: unsigned numbers fill the field.
* `respectsField_iff`: signed decimals respect it unless they are negative and shorter than it.
* `padsRight_iff`: with a `-` numbers are padded on the right only if there is nothing to pad.
-/

namespace Jos

/-! ### Lengths and conversions -/

/-- The length of the argument: an int, a long or a long long. -/
inductive Length
  | int
  | long
  | llong
deriving DecidableEq

namespace Length

/-- Its bits. -/
def bits : Length → ℕ
  | int => 32
  | long => 32
  | llong => 64

/-- The number of its `l`s in a directive. -/
def lflag : Length → ℕ
  | int => 0
  | long => 1
  | llong => 2

/-- An argument of this length. -/
def arg : (l : Length) → BitVec l.bits → Arg
  | int, v => .word v
  | long, v => .word v
  | llong, v => .llong v

theorem bits_le (l : Length) : l.bits ≤ 64 := by
  cases l <;> decide

/-- What `getint` makes of an argument. -/
theorem getint_arg (l : Length) (v : BitVec l.bits) :
    getint l.lflag [l.arg v] = .ok (v.signExtend 64, []) := by
  cases l with
  | int => rfl
  | long => rfl
  | llong =>
      have hsame : v.signExtend 64 = v := BitVec.signExtend_eq v
      rw [hsame]
      rfl

/-- What `getuint` makes of an argument. -/
theorem getuint_arg (l : Length) (v : BitVec l.bits) :
    getuint l.lflag [l.arg v] = .ok (v.setWidth 64, []) := by
  cases l with
  | int => rfl
  | long => rfl
  | llong =>
      have hsame : v.setWidth 64 = v := BitVec.setWidth_eq v
      rw [hsame]
      rfl

end Length

/-- The numeric conversions. -/
inductive NumConv
  | d
  | u
  | o
  | x
deriving DecidableEq

namespace NumConv

/-- The conversion character. -/
def ch : NumConv → Byte
  | d => chr 'd'
  | u => chr 'u'
  | o => chr 'o'
  | x => chr 'x'

def base : NumConv → ℕ
  | d => 10
  | u => 10
  | o => 8
  | x => 16

variable {n : ℕ}

/-- The sign of a value, of which only `%d` knows. -/
def sign (c : NumConv) (v : BitVec n) : List Byte :=
  if c = d ∧ v.toInt < 0 then [chr '-'] else []

/-- The number whose digits are printed. -/
def magnitude (c : NumConv) (v : BitVec n) : ℕ :=
  if c = d then v.toInt.natAbs else v.toNat

/-- Its digits. -/
def digits (c : NumConv) (v : BitVec n) : List ℕ :=
  numeral c.base (c.magnitude v)

theorem base_le (c : NumConv) : 1 < c.base ∧ c.base ≤ 16 := by
  cases c <;> decide

end NumConv

/-- A directive for a number. -/
def numberDirective (f : Flags) (w : Width) (l : Length) : Directive where
  flags := f
  width := w
  precision := none
  lflag := l.lflag

/-- What it prints of the value `v`, and the arguments it leaves. -/
def number (f : Flags) (w : Width) (l : Length) (c : NumConv) (v : BitVec l.bits) :
    Except Fault (List (BitVec 32) × Args) :=
  output ((numberDirective f w l).fmt c.ch) (w.args ++ [l.arg v])

/-! ### One conversion -/

/-- The field that is left in front of a text. -/
theorem toNat_value_sub (w : Width) (n : ℕ) : (w.value.toInt - n).toNat = w.toNat - n := by
  have hof : ∀ w < 2 ^ 31, (BitVec.ofNat 32 w).toInt = w := fun w hw =>
    toInt_ofNat_of_lt hw
  cases w with
  | none =>
      have hone : (-1 : BitVec 32).toInt = -1 := rfl
      rw [Width.value, Width.toNat, hone]
      omega
  | digits w hpos hlt =>
      rw [Width.value, Width.toNat, hof w hlt]
      omega
  | star w hlt =>
      rw [Width.value, Width.toNat, hof w hlt]
      omega

theorem neg_one_le_value (w : Width) : -1 ≤ w.value.toInt := by
  cases w with
  | none => exact Int.le_refl _
  | digits w hpos hlt =>
      rw [Width.value, toInt_ofNat_of_lt hlt]
      omega
  | star w hlt =>
      rw [Width.value, toInt_ofNat_of_lt hlt]
      omega

section

variable (o : Opts) (hwidth : -1 ≤ o.width.toInt) {l : Length} (hl : o.lflag = l.lflag)
  (v : BitVec l.bits)
include hwidth hl

/-- `%d`. -/
theorem convert_signed :
    convert (fun c out => out ++ [c]) (printfmt fun c out => out ++ [c]) o (chr 'd') [l.arg v] [] =
      some (.ok ((NumConv.d.sign v ++
        (List.replicate (o.width.toInt - (NumConv.d.digits v).length).toNat o.padc ++
          (NumConv.d.digits v).map digitChar)).map (·.signExtend 32), [])) := by
  have hint : (v.signExtend 64).toInt = v.toInt := BitVec.toInt_signExtend_of_le l.bits_le
  have hdigits : NumConv.d.digits v = numeral 10 v.toInt.natAbs := rfl
  have hbound : v.toInt.natAbs < 2 ^ 64 := by
    have hlt := BitVec.toInt_lt (x := v.signExtend 64)
    have hle := BitVec.le_toInt (x := v.signExtend 64)
    omega
  rw [convert_d, hl, l.getint_arg, ok_bind, hdigits]
  by_cases hneg : v.toInt < 0
  · have hsign : NumConv.d.sign v = [chr '-'] := if_pos ⟨rfl, hneg⟩
    have hnat := toNat_neg_of_neg (by rwa [hint] : (v.signExtend 64).toInt < 0)
    rw [hint] at hnat
    simp only [hint, if_pos hneg, hnat]
    rw [printnum_field (by decide) hbound hwidth, hsign]
    rfl
  · have hsign : NumConv.d.sign v = [] := if_neg fun h => hneg h.2
    have hnat := toNat_of_nonneg (by rwa [hint] : ¬ (v.signExtend 64).toInt < 0)
    rw [hint] at hnat
    simp only [hint, if_neg hneg, hnat]
    rw [printnum_field (by decide) hbound hwidth, hsign]
    rfl

/-- `%u`, `%o` and `%x`. -/
theorem convert_unsigned_arg {c : NumConv} (hc : c ≠ .d) :
    convert (fun c out => out ++ [c]) (printfmt fun c out => out ++ [c]) o c.ch [l.arg v] [] =
      some (.ok ((List.replicate (o.width.toInt - (c.digits v).length).toNat o.padc ++
          (c.digits v).map digitChar).map (·.signExtend 32), [])) := by
  have hnat : (v.setWidth 64).toNat = v.toNat := BitVec.toNat_setWidth_of_le l.bits_le
  have hbound : v.toNat < 2 ^ 64 := by
    rw [← hnat]
    exact BitVec.isLt _
  have hdigits : c.digits v = numeral c.base v.toNat := by
    rw [NumConv.digits, NumConv.magnitude, if_neg hc]
  have hprint := printnum_field c.base_le.1 hbound hwidth o.padc []
  rw [hdigits, ← numeralText, ← List.nil_append (List.map _ _), ← hprint]
  cases c with
  | d => exact absurd rfl hc
  | u => rw [NumConv.ch, convert_u, hl, l.getuint_arg, ok_bind, hnat]; rfl
  | o => rw [NumConv.ch, convert_o, hl, l.getuint_arg, ok_bind, hnat]; rfl
  | x => rw [NumConv.ch, convert_x, hl, l.getuint_arg, ok_bind, hnat]; rfl

end

/-- **What a numeric conversion prints in a field**: the sign, the padding that the digits leave
of the width, and the digits. -/
theorem number_eq (f : Flags) (w : Width) (l : Length) (c : NumConv) (v : BitVec l.bits) :
    number f w l c v = .ok ((c.sign v ++
      (List.replicate (w.toNat - (c.digits v).length) f.padc ++
        (c.digits v).map digitChar)).map (·.signExtend 32), []) := by
  have hopts : (numberDirective f w l).opts.width = w.value := by
    simp only [Directive.opts, numberDirective, Option.isSome_none, Bool.false_eq_true, false_and,
      if_false]
  have hwidth : -1 ≤ (numberDirective f w l).opts.width.toInt := by
    rw [hopts]
    exact neg_one_le_value w
  have hconv : isConv c.ch := by cases c <;> decide
  have hargs : (numberDirective f w l).args = w.args := List.append_nil w.args
  rw [number, ← hargs, ← toNat_value_sub, ← hopts]
  refine output_directive _ hconv ?_
  by_cases hc : c = .d
  · subst hc
    exact convert_signed _ hwidth rfl v
  · rw [NumConv.sign, if_neg fun h => hc h.1, List.nil_append]
    exact convert_unsigned_arg _ hwidth rfl v hc

/-! ### Unsigned numbers -/

/-- The digits `ds` are the canonical ones of `n`: no leading zero, but one zero for zero. -/
structure Canonical (base n : ℕ) (ds : List ℕ) : Prop where
  digit : ∀ d ∈ ds, d < base
  ne_nil : ds ≠ []
  leading : ds.head? = some 0 → ds = [0]
  value : ds.foldl (fun v d => v * base + d) 0 = n

/-- Those of the numeral are. -/
theorem canonical_numeral {base : ℕ} (hb : 1 < base) (n : ℕ) :
    Canonical base n (numeral base n) where
  digit := fun d hd => lt_of_mem_numeral hb hd
  ne_nil := by
    obtain ⟨d, ds, hds, -⟩ := numeral_cons base n
    rw [hds]
    exact List.cons_ne_nil d ds
  leading := by
    obtain ⟨d, ds, hds, hzero⟩ := numeral_cons base n
    rw [hds, List.head?_cons, Option.some.injEq]
    rintro rfl
    rw [(hzero rfl).2]
  value := foldl_numeral base n

/-- **Unsigned numbers fill the field.** For every value, length and width, or no width, with
blanks or zeros: padding up to the width, and the canonical digits of the value. -/
theorem number_unsigned (f : Flags) (hf : f.minus = false) (w : Width) (l : Length) (c : NumConv)
    (hc : c ≠ .d) (v : BitVec l.bits) :
    ∃ ds, Canonical c.base v.toNat ds ∧
      number f w l c v = .ok ((List.replicate (w.toNat - ds.length)
        (if f.zero then chr '0' else chr ' ') ++ ds.map digitChar).map
          (·.signExtend 32), []) := by
  have hdigits : c.digits v = numeral c.base v.toNat := by
    rw [NumConv.digits, NumConv.magnitude, if_neg hc]
  have hsign : c.sign v = [] := if_neg fun h => hc h.1
  have hpadc := Flags.padc_of_not_minus hf
  refine ⟨c.digits v, ?_, ?_⟩
  · rw [hdigits]
    exact canonical_numeral c.base_le.1 v.toNat
  · rw [number_eq, hsign, List.nil_append, hpadc]

/-- An octal long in a field of eight zeros. -/
theorem number_unsigned_octal :
    ∃ ds, Canonical 8 0x1FF ds ∧
      number ⟨[chr '0'], by decide, by decide⟩ (.digits 8 (by decide) (by decide)) .long .o 0x1FF =
        .ok ((List.replicate (8 - ds.length) (chr '0') ++ ds.map digitChar).map (·.signExtend 32),
          []) :=
  number_unsigned ⟨[chr '0'], by decide, by decide⟩ (by decide)
    (.digits 8 (by decide) (by decide)) .long .o (by decide) 0x1FF

/-! ### Signed decimals -/

/-- The canonical text of a signed number. -/
def signedText (z : ℤ) : List Byte :=
  if z < 0 then chr '-' :: numeralText 10 z.natAbs else numeralText 10 z.natAbs

/-- A signed decimal takes as many characters as its width and its text need: blanks and the
text, or the sign, zeros and the digits. -/
def RespectsField (f : Flags) (w : Width) (l : Length) (v : BitVec l.bits) : Prop :=
  ∃ out : List Byte, number f w l .d v = .ok (out.map (·.signExtend 32), []) ∧
    out.length = max w.toNat (signedText v.toInt).length ∧
    (f.zero = false → ∃ k, out = List.replicate k (chr ' ') ++ signedText v.toInt) ∧
    (f.zero = true → ∃ k, out = (if v.toInt < 0 then [chr '-'] else []) ++
      (List.replicate k (chr '0') ++ numeralText 10 v.toInt.natAbs))

/-- The characters of an output are those of the text it was made from. -/
theorem map_signExtend_inj {l₁ l₂ : List Byte}
    (h : l₁.map (·.signExtend 32 : Byte → BitVec 32) = l₂.map (·.signExtend 32)) : l₁ = l₂ := by
  have hbytes := congrArg (List.map (·.setWidth 8 : BitVec 32 → Byte)) h
  rwa [map_setWidth_signExtend, map_setWidth_signExtend] at hbytes

/-- What `%d` prints in a field, in terms of the number. -/
theorem number_decimal (f : Flags) (w : Width) (l : Length) (v : BitVec l.bits) :
    number f w l .d v = .ok (((if v.toInt < 0 then [chr '-'] else []) ++
      (List.replicate (w.toNat - (numeral 10 v.toInt.natAbs).length) f.padc ++
        numeralText 10 v.toInt.natAbs)).map (·.signExtend 32), []) := by
  have hsign : NumConv.d.sign v = if v.toInt < 0 then [chr '-'] else [] := by
    rw [NumConv.sign]
    simp only [true_and]
  have hdigits : NumConv.d.digits v = numeral 10 v.toInt.natAbs := rfl
  rw [number_eq, hsign, hdigits, numeralText]

/-- What `%d` prints without a field. -/
theorem output_decimal (v : BitVec 32) :
    output (cstr "%d") [.word v] = .ok ((signedText v.toInt).map (·.signExtend 32), []) := by
  have hnumber : ∀ v : BitVec Length.int.bits, number .plain .none .int .d v =
      .ok ((signedText v.toInt).map (·.signExtend 32), []) := by
    intro v
    rw [number_decimal, signedText, Width.toNat, Nat.zero_sub]
    split
    · rfl
    · rfl
  exact hnumber v

/-- **When signed decimals respect the field.** In every field of blanks or zeros, given either
way, `%d` prints as many characters as the field or the text takes, with the padding before the
text or after its sign, if and only if the value is not negative or its digits alone take as
many. -/
theorem respectsField_iff (f : Flags) (hf : f.minus = false) (w : Width) (l : Length)
    (v : BitVec l.bits) :
    RespectsField f w l v ↔ 0 ≤ v.toInt ∨ w.toNat ≤ (numeral 10 v.toInt.natAbs).length := by
  have hnumber := number_decimal f w l v
  have hlen : (numeralText 10 v.toInt.natAbs).length = (numeral 10 v.toInt.natAbs).length :=
    List.length_map ..
  have hpadc := Flags.padc_of_not_minus hf
  rw [RespectsField, signedText]
  set n := v.toInt.natAbs
  by_cases hneg : v.toInt < 0
  · rw [if_pos hneg] at hnumber ⊢
    rw [if_pos hneg, or_iff_right (by omega)]
    constructor
    · rintro ⟨out, hout, hsize, -⟩
      rw [hnumber, Except.ok.injEq, Prod.mk.injEq] at hout
      rw [← map_signExtend_inj hout.1] at hsize
      simp only [List.length_append, List.length_cons, List.length_nil, List.length_replicate,
        hlen] at hsize
      omega
    · intro hfits
      rw [Nat.sub_eq_zero_of_le hfits] at hnumber
      refine ⟨_, hnumber, ?_, fun _ => ⟨0, rfl⟩, fun _ => ⟨0, rfl⟩⟩
      simp only [List.length_append, List.length_cons, List.length_nil, List.length_replicate, hlen]
      omega
  · rw [if_neg hneg] at hnumber ⊢
    rw [if_neg hneg]
    refine iff_of_true ?_ (Or.inl (by omega))
    have hpads : ∀ c, f.padc = c → ∃ k, ([] : List Byte) ++
        (List.replicate (w.toNat - (numeral 10 n).length) f.padc ++ numeralText 10 n) =
          List.replicate k c ++ numeralText 10 n := fun c hc => ⟨_, by rw [hc]; rfl⟩
    refine ⟨_, hnumber, ?_, fun h => hpads _ (by rw [hpadc, h]; rfl), fun h => ?_⟩
    · simp only [List.length_append, List.length_nil, List.length_replicate, hlen]
      omega
    · exact hpads _ (by rw [hpadc, if_pos h])

/-- The most negative `long long`, with zeros, in a field that its digits fill. -/
theorem respectsField_iff_min :
    RespectsField ⟨[chr '0'], by decide, by decide⟩ (.star 19 (by decide)) .llong
      (BitVec.intMin 64) ↔
      0 ≤ (BitVec.intMin 64).toInt ∨ 19 ≤ (numeral 10 (BitVec.intMin 64).toInt.natAbs).length :=
  respectsField_iff ⟨[chr '0'], by decide, by decide⟩ (by decide) (.star 19 (by decide)) .llong
    (BitVec.intMin 64)

/-- **The value -5 in a field of five**: four blanks come behind the sign, and the output has
six characters. -/
theorem not_respectsField :
    ¬ RespectsField .plain (.digits 5 (by decide) (by decide)) .int (-5) := by
  rintro ⟨out, hout, hsize, -⟩
  have hint : (-5 : BitVec Length.int.bits).toInt = -5 := rfl
  have hfive : (numeral 10 5).length = 1 := by rw [numeral_of_lt (by decide)]; rfl
  rw [number_decimal, Except.ok.injEq, Prod.mk.injEq] at hout
  rw [← map_signExtend_inj hout.1, hint] at hsize
  simp [signedText, Width.toNat, numeralText, hfive] at hsize

/-! ### Padding on the right -/

/-- A numeric conversion pads on the right: it prints the text it prints without flags and
width, and blanks up to the width. -/
def PadsRight (f : Flags) (w : Width) (l : Length) (c : NumConv) (v : BitVec l.bits) : Prop :=
  ∃ text, number .plain .none l c v = .ok (text, []) ∧
    number f w l c v =
      .ok (text ++ List.replicate (w.toNat - text.length) ((chr ' ').signExtend 32), [])

/-- With a `-`, the padding is in front of the digits and consists of minus signs. -/
theorem number_minus (f : Flags) (hf : f.minus = true) (w : Width) (l : Length) (c : NumConv)
    (v : BitVec l.bits) :
    number f w l c v = .ok ((c.sign v ++
      (List.replicate (w.toNat - (c.digits v).length) (chr '-') ++
        (c.digits v).map digitChar)).map (·.signExtend 32), []) := by
  rw [number_eq, Flags.padc_of_minus hf]

/-- Without flags and width there is no padding. -/
theorem number_plain (l : Length) (c : NumConv) (v : BitVec l.bits) :
    number .plain .none l c v =
      .ok ((c.sign v ++ (c.digits v).map digitChar).map (·.signExtend 32), []) := by
  rw [number_eq, Width.toNat, Nat.zero_sub]
  rfl

/-- The digits of a number do not begin with a minus. -/
theorem digits_ne_minus (c : NumConv) {n : ℕ} (v : BitVec n) (pads rest : List Byte) :
    chr '-' :: pads ≠ (c.digits v).map digitChar ++ rest := by
  obtain ⟨d, ds, hds, -⟩ := numeral_cons c.base (c.magnitude v)
  have hd : d < c.base := lt_of_mem_numeral c.base_le.1 (hds ▸ List.mem_cons_self ..)
  have hle := c.base_le.2
  obtain ⟨-, -, -, hminus, -⟩ := digitChar_ne (by omega : d < 16)
  rw [NumConv.digits, hds, List.map_cons, List.cons_append]
  exact fun h => hminus (List.cons.inj h).1.symm

/-- **When the `-` flag pads on the right.** For every numeric conversion, length, value and
width: if and only if the digits fill the width, so that there is nothing to pad. -/
theorem padsRight_iff (f : Flags) (hf : f.minus = true) (w : Width) (l : Length) (c : NumConv)
    (v : BitVec l.bits) : PadsRight f w l c v ↔ w.toNat ≤ (c.digits v).length := by
  have hplain := number_plain l c v
  have hminus := number_minus f hf w l c v
  constructor
  · rintro ⟨text, htext, hfield⟩
    by_contra hlt
    obtain ⟨k, hk⟩ : ∃ k, w.toNat - (c.digits v).length = k + 1 :=
      ⟨w.toNat - (c.digits v).length - 1, by omega⟩
    rw [hplain, Except.ok.injEq, Prod.mk.injEq] at htext
    obtain ⟨rfl, -⟩ := htext
    have hblanks : ∀ k, List.replicate k ((chr ' ').signExtend 32 : BitVec 32) =
        (List.replicate k (chr ' ')).map (·.signExtend 32) := fun k => List.map_replicate.symm
    rw [hminus, Except.ok.injEq, Prod.mk.injEq, hblanks, ← List.map_append] at hfield
    have hbytes := map_signExtend_inj hfield.1
    rw [hk, List.append_assoc, List.append_cancel_left_eq, List.replicate_succ,
      List.cons_append] at hbytes
    exact digits_ne_minus c v _ _ hbytes
  · intro hfits
    refine ⟨_, hplain, ?_⟩
    have hlen : w.toNat - ((c.sign v ++ (c.digits v).map digitChar).map
        (·.signExtend 32 : Byte → BitVec 32)).length = 0 := by
      rw [List.length_map, List.length_append, List.length_map]
      omega
    rw [hminus, Nat.sub_eq_zero_of_le hfits, hlen, List.replicate_zero, List.replicate_zero,
      List.append_nil, List.nil_append]

/-- A hexadecimal that is longer than the field. -/
theorem padsRight_iff_hex :
    PadsRight ⟨[chr '-'], by decide, by decide⟩ (.digits 1 (by decide) (by decide)) .int .x 0xBEEF ↔
      1 ≤ (NumConv.x.digits (0xBEEF : BitVec 32)).length :=
  padsRight_iff ⟨[chr '-'], by decide, by decide⟩ (by decide) (.digits 1 (by decide) (by decide))
    .int .x 0xBEEF

/-- **The value 5 in a field of three**: it prints as `--5`. -/
theorem not_padsRight :
    ¬ PadsRight ⟨[chr '-'], by decide, by decide⟩ (.digits 3 (by decide) (by decide)) .int .d
      5 := by
  rintro ⟨text, htext, hfield⟩
  have hdigits : NumConv.d.digits (5 : BitVec Length.int.bits) = [5] := numeral_of_lt (by decide)
  have hsign : NumConv.d.sign (5 : BitVec Length.int.bits) = [] := if_neg (by decide)
  rw [number_plain, hdigits, hsign, Except.ok.injEq, Prod.mk.injEq] at htext
  rw [number_eq, hdigits, hsign, ← htext.1, Except.ok.injEq, Prod.mk.injEq] at hfield
  exact absurd hfield.1 (by decide)

end Jos
