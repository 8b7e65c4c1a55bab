import Jos.Directive
import Jos.Printf

/-!
# Strings in Fields

The case of `%s` with flags, a width and a precision. The local `width` is an int that goes down
by the length of the string before the padding on the left and by one for every character
printed, so that it ends below zero even where it began with the right padding. It must not wrap
around there: the last loop pads with blanks for as long as it is positive.

## Main results

* `formatStr_text`: what the case of `%s` prints of a string that ends.
* `printsField_iff`: the field is right exactly as long as the width does not wrap around.
* `fieldLasts_of_le`: it does not for strings of up to `2 ^ 30` bytes.
* `output_str`: without a field, `%s` prints such a string as it is.
-/

namespace Jos

/-! ### Arguments and fields -/

/-- A string argument: the null pointer, or a string with what stands behind its NUL. -/
inductive StrArg
  | null
  | str (s rest : List Byte) (nul : 0 ∉ s)

namespace StrArg

/-- The bytes of the string. -/
def bytes : StrArg → List Byte
  | null => "(null)".toList.map chr
  | str s _ _ => s

/-- As it is passed. -/
def arg : StrArg → Arg
  | null => .word 0
  | str s rest _ => .str (s ++ 0 :: rest)

end StrArg

/-- A directive for a string. -/
def stringDirective (f : Flags) (w : Width) (p : Option (BitVec 32)) : Directive where
  flags := f
  width := w
  precision := p
  lflag := 0

/-- The bytes of `s` that are printed: the first `p` for a precision `p` that is not negative,
else all. -/
def fieldString (p : Option (BitVec 32)) (s : List Byte) : List Byte :=
  match p with
  | none => s
  | some p => if 0 ≤ p.toInt then s.take p.toInt.toNat else s

/-- The field that is due: the bytes, and blanks behind them with a `-` or else blanks or zeros
in front of them, up to the width. -/
def stringField (f : Flags) (w : Width) (t : List Byte) : List Byte :=
  if f.minus then
    shown f.altflag t ++ List.replicate (w.toNat - t.length) (chr ' ')
  else
    List.replicate (w.toNat - t.length) (if f.zero then chr '0' else chr ' ') ++
      shown f.altflag t

/-- `%s` prints the field that is due. -/
def PrintsField (f : Flags) (w : Width) (p : Option (BitVec 32)) (a : StrArg) : Prop :=
  output ((stringDirective f w p).fmt (chr 's')) ((stringDirective f w p).args ++ [a.arg]) =
    .ok ((stringField f w (fieldString p a.bytes)).map (·.signExtend 32), [])

/-- An int that is counted down to `x` does not come out positive where `x` is negative. -/
def Lasts (x : ℤ) : Prop :=
  x < 0 → -x % 2 ^ 32 ≤ 2 ^ 31

/-- The width that the padding begins with: minus one if there are neither a width nor a
precision. -/
def startWidth (w : Width) (p : Option (BitVec 32)) : ℤ :=
  if p.isSome ∧ w.value.toInt < 0 then 0 else w.value.toInt

/-- The width lasts: with padding on the left, when the length of the string (up to the
precision, taken as unsigned) and the number of characters printed are taken off it, and else
when the number of characters is. -/
def FieldLasts (f : Flags) (w : Width) (p : Option (BitVec 32)) (s : List Byte) : Prop :=
  let n := min s.length (p.getD (-1)).toNat
  let len := (fieldString p s).length
  if 0 < w.toNat ∧ f.minus = false then
    Lasts (startWidth w p - n) ∧ Lasts (startWidth w p - n - len)
  else Lasts (startWidth w p - len)

/-! ### Counting down -/

/-- How often a loop runs that counts an int down to zero. -/
theorem toNat_toInt_ofInt_iff {x : ℤ} (h : x < 2 ^ 31) :
    (BitVec.ofInt 32 x).toInt.toNat = x.toNat ↔ Lasts x := by
  rw [BitVec.toInt_ofInt, Int.bmod_def, Lasts]
  split <;> omega

/-- An int that is counted down by a length. -/
theorem sub_ofNat {v : BitVec 32} {x : ℤ} (h : v = BitVec.ofInt 32 x) (n : ℕ) :
    v - BitVec.ofNat 32 n = BitVec.ofInt 32 (x - n) := by
  rw [h, sub_eq_add_neg, sub_eq_add_neg, BitVec.ofInt_add, BitVec.ofInt_neg, BitVec.ofInt_natCast]

section

variable {w n len : ℕ} (hw : w < 2 ^ 31) (hn : n = len ∨ 2 ^ 31 ≤ n) {v : BitVec 32}
  (hv : v = BitVec.ofInt 32 ((w : ℤ) - n))
include hw hn hv

/-- Padding in front of a string that is shorter than the width: the width lasts. -/
theorem counts_of_lt (hle : n ≤ len) (hlt : len < w) : v.toInt.toNat = w - len ∧
    ((if 0 < v.toInt then 0 else v) - BitVec.ofNat 32 len).toInt.toNat = 0 ∧
    Lasts ((w : ℤ) - n) ∧ Lasts ((w : ℤ) - n - len) := by
  obtain rfl : n = len := by omega
  have hpads := (toNat_toInt_ofInt_iff (by omega : (w : ℤ) - n < 2 ^ 31)).mpr
    fun h => absurd h (by omega)
  rw [← hv] at hpads
  have hpos : 0 < v.toInt := by omega
  have hzero : (0 : BitVec 32) = BitVec.ofInt 32 0 := rfl
  refine ⟨by omega, ?_, fun h => absurd h (by omega), fun h => by omega⟩
  rw [if_pos hpos, sub_ofNat hzero, (toNat_toInt_ofInt_iff (by omega)).mpr fun h => by omega]
  omega

/-- A string that is not: no padding, if the width lasts. -/
theorem counts_of_le (hle : w ≤ len) : (v.toInt.toNat = 0 ∧
    ((if 0 < v.toInt then 0 else v) - BitVec.ofNat 32 len).toInt.toNat = 0) ↔
    Lasts ((w : ℤ) - n) ∧ Lasts ((w : ℤ) - n - len) := by
  have hpads := toNat_toInt_ofInt_iff (by omega : (w : ℤ) - n < 2 ^ 31)
  have hblanks := toNat_toInt_ofInt_iff (by omega : (w : ℤ) - n - len < 2 ^ 31)
  rw [← hv, show ((w : ℤ) - n).toNat = 0 by omega] at hpads
  rw [← sub_ofNat hv, show ((w : ℤ) - n - len).toNat = 0 by omega] at hblanks
  rw [← hpads, ← hblanks]
  refine and_congr_right fun h => ?_
  rw [if_neg (by omega)]

end

/-! ### The case of `%s` -/

/-- Characters put behind others. -/
theorem foldl_signExtend (l : List Byte) (out : List (BitVec 32)) :
    l.foldl (fun out b => out ++ [b.signExtend 32]) out = out ++ l.map (·.signExtend 32) := by
  induction l generalizing out with
  | nil => exact (List.append_nil out).symm
  | cons b l ih => exact (ih _).trans (List.append_assoc ..)

section

variable {o : Opts} {t : List Byte} (ht : 0 ∉ t) (rest : List Byte)
include ht

/-- **What the case of `%s` prints of a string that ends**: padding in front, if there is any,
the characters, and blanks behind them. -/
theorem formatStr_text {padc : Byte} {a : ℕ} {width : BitVec 32}
    (hpad : padBefore (fun c out => out ++ [c]) o (t ++ 0 :: rest) [] =
      .ok ((List.replicate a padc).map (·.signExtend 32), width)) :
    formatStr (fun c out => out ++ [c]) o (t ++ 0 :: rest) [] =
      .ok ((List.replicate a padc ++ (shown o.altflag (taken o.precision t) ++
        List.replicate (width - BitVec.ofNat 32 (taken o.precision t).length).toInt.toNat
          (chr ' '))).map (·.signExtend 32)) := by
  rw [formatStr, hpad, ok_bind]
  simp only [strLoop_text _ o.altflag ht, ok_bind, foldl_signExtend, iterate_append,
    List.map_append, List.map_replicate, List.append_assoc]
  rfl

/-- The padding in front. -/
theorem padBefore_left (h : 0 < o.width.toInt ∧ o.padc ≠ chr '-') {v : BitVec 32}
    (hv : o.width - BitVec.ofNat 32 (min t.length o.precision.toNat) = v) :
    padBefore (fun c out => out ++ [c]) o (t ++ 0 :: rest) [] =
      .ok ((List.replicate v.toInt.toNat o.padc).map (·.signExtend 32),
        if 0 < v.toInt then 0 else v) := by
  rw [padBefore, if_pos h, strnlen_nul ht]
  simp only [hv, padLoop, iterate_append, List.nil_append, List.map_replicate]

end

/-! ### The locals -/

section

variable (f : Flags) (w : Width) (p : Option (BitVec 32)) (s : List Byte)

theorem fieldString_eq : fieldString p s = taken (p.getD (-1)) s := by
  cases p with
  | none => exact (if_pos (by decide)).symm
  | some p =>
      rw [fieldString, Option.getD_some, taken]
      by_cases h : p.toInt < 0
      · rw [if_pos h, if_neg (by omega)]
      · rw [if_neg h, if_pos (by omega)]

/-- A width is an int. -/
theorem toNat_lt (w : Width) : w.toNat < 2 ^ 31 := by
  cases w with
  | none => exact Nat.two_pow_pos 31
  | digits w hpos hlt => exact hlt
  | star w hlt => exact hlt

theorem startWidth_spec : startWidth w p < 2 ^ 31 ∧ (startWidth w p).toNat = w.toNat ∧
    (0 < startWidth w p ↔ 0 < w.toNat) ∧ -1 ≤ startWidth w p := by
  have hpos : ∀ n < 2 ^ 31, (BitVec.ofNat 32 n).toInt = n := fun n hn => toInt_ofNat_of_lt hn
  rw [startWidth]
  cases w with
  | none =>
      have hone : (-1 : BitVec 32).toInt = -1 := rfl
      simp only [Width.value, Width.toNat, hone]
      split <;> simp
  | digits w hw hlt =>
      simp only [Width.value, Width.toNat, hpos w hlt]
      rw [if_neg (by omega)]
      omega
  | star w hlt =>
      simp only [Width.value, Width.toNat, hpos w hlt]
      rw [if_neg (by omega)]
      omega

/-- The local `width`. -/
theorem toInt_opts_width : (stringDirective f w p).opts.width.toInt = startWidth w p := by
  have hopts : (stringDirective f w p).opts.width =
      if p.isSome = true ∧ w.value.toInt < 0 then 0 else w.value := rfl
  rw [hopts, startWidth]
  by_cases h : p.isSome = true ∧ w.value.toInt < 0
  · rw [if_pos h, if_pos h]
    rfl
  · rw [if_neg h, if_neg h]

/-- When there is padding on the left. -/
theorem pads_left_iff : 0 < (stringDirective f w p).opts.width.toInt ∧
    (stringDirective f w p).opts.padc ≠ chr '-' ↔ 0 < w.toNat ∧ f.minus = false := by
  obtain ⟨-, -, hpos, -⟩ := startWidth_spec w p
  have hpadc : (stringDirective f w p).opts.padc = f.padc := rfl
  have hother : chr '0' ≠ chr '-' ∧ chr ' ' ≠ chr '-' := by decide
  rw [toInt_opts_width, hpos, hpadc]
  refine and_congr_right fun _ => ?_
  cases hminus : f.minus with
  | true => exact iff_of_false (not_not.mpr (Flags.padc_of_minus hminus)) Bool.noConfusion
  | false =>
      rw [Flags.padc_of_not_minus hminus]
      refine iff_of_true ?_ rfl
      split
      · exact hother.1
      · exact hother.2

/-- The characters printed, and those that are counted before. -/
theorem length_spec : min s.length (p.getD (-1)).toNat ≤ (fieldString p s).length ∧
    (min s.length (p.getD (-1)).toNat = (fieldString p s).length ∨
      2 ^ 31 ≤ min s.length (p.getD (-1)).toNat) := by
  rw [fieldString_eq, taken]
  generalize p.getD (-1) = q
  have hcond := BitVec.toInt_eq_toNat_cond q
  split at hcond
  · rw [if_neg (by omega), List.length_take, hcond, Int.toNat_natCast, Nat.min_comm]
    exact ⟨Nat.le_refl _, Or.inl rfl⟩
  · rw [if_pos (by have := q.isLt; omega)]
    omega

end

/-! ### The field -/

/-- A string argument is a string that ends. -/
theorem vaStr_arg (a : StrArg) : (0 : Byte) ∉ a.bytes ∧ ∃ r rest, vaStr [a.arg] = .ok (r, []) ∧
    r.getD (cstr "(null)") = a.bytes ++ 0 :: rest := by
  cases a with
  | null => exact ⟨by decide, none, [], rfl, rfl⟩
  | str s rest hnul => exact ⟨hnul, some (s ++ 0 :: rest), rest, rfl, rfl⟩

/-- What `%s` prints with the locals `o`, once it is known what stands in front of the
characters. -/
theorem output_string_escape {body : List Byte} (hbody : ∀ b ∈ body, isFlag b) {ap : Args}
    {o : Opts} (a : StrArg) (hflags : flags body none .init ap = .ok (o, [a.arg])) {c : Byte}
    {k : ℕ} {width : BitVec 32}
    (hpad : ∀ rest, padBefore (fun c out => out ++ [c]) o (a.bytes ++ 0 :: rest) [] =
      .ok ((List.replicate k c).map (·.signExtend 32), width)) :
    output (escape body (chr 's')) ap =
      .ok ((List.replicate k c ++ (shown o.altflag (taken o.precision a.bytes) ++
        List.replicate (width - BitVec.ofNat 32 (taken o.precision a.bytes).length).toInt.toNat
          (chr ' '))).map (·.signExtend 32), []) := by
  obtain ⟨hnul, r, rest, hva, hr⟩ := vaStr_arg a
  refine output_escape hbody (by decide) hflags ?_
  rw [convert_s, hva, ok_bind, hr, formatStr_text hnul rest (hpad rest), ok_bind]

section

variable (f : Flags) (w : Width) (p : Option (BitVec 32)) (a : StrArg)

/-- What `%s` prints, once it is known what stands in front of the characters. -/
theorem output_string {padc : Byte} {k : ℕ} {width : BitVec 32}
    (hpad : ∀ rest, padBefore (fun c out => out ++ [c]) (stringDirective f w p).opts
      (a.bytes ++ 0 :: rest) [] = .ok ((List.replicate k padc).map (·.signExtend 32), width)) :
    output ((stringDirective f w p).fmt (chr 's')) ((stringDirective f w p).args ++ [a.arg]) =
      .ok ((List.replicate k padc ++ (shown f.altflag (fieldString p a.bytes) ++
        List.replicate (width - BitVec.ofNat 32 (fieldString p a.bytes).length).toInt.toNat
          (chr ' '))).map (·.signExtend 32), []) := by
  rw [fieldString_eq]
  exact output_string_escape (isFlag_body _) a (flags_body _ [a.arg]) hpad

/-- Two fields in which the same characters stand between padding that begins alike are alike
when the padding is. -/
theorem field_eq_iff {k k' m m' : ℕ} {c : Byte} {t : List Byte} (h : k + m = k' + m' → k = k') :
    (.ok ((List.replicate k c ++ (t ++ List.replicate m (chr ' '))).map (·.signExtend 32), []) :
      Except Fault (List (BitVec 32) × Args)) =
      .ok ((List.replicate k' c ++ (t ++ List.replicate m' (chr ' '))).map (·.signExtend 32), []) ↔
    k = k' ∧ m = m' := by
  constructor
  · intro heq
    rw [Except.ok.injEq, Prod.mk.injEq] at heq
    have hlen := congrArg List.length heq.1
    simp only [List.length_map, List.length_append, List.length_replicate] at hlen
    have hk := h (by omega)
    exact ⟨hk, by omega⟩
  · rintro ⟨rfl, rfl⟩
    rfl

/-- The width with a length taken off it. -/
theorem width_sub (n : ℕ) : (stringDirective f w p).opts.width - BitVec.ofNat 32 n =
    BitVec.ofInt 32 (startWidth w p - n) := by
  refine sub_ofNat ?_ n
  rw [← toInt_opts_width f, BitVec.ofInt_toInt]

/-- **Padding on the left.** -/
theorem printsField_left (h : 0 < w.toNat ∧ f.minus = false) :
    PrintsField f w p a ↔
      Lasts (startWidth w p - min a.bytes.length (p.getD (-1)).toNat) ∧
      Lasts (startWidth w p - min a.bytes.length (p.getD (-1)).toNat -
        (fieldString p a.bytes).length) := by
  obtain ⟨hnul, -⟩ := vaStr_arg a
  obtain ⟨hle, hn⟩ := length_spec p a.bytes
  obtain ⟨-, hnat, hpos, -⟩ := startWidth_spec w p
  have hstart : startWidth w p = w.toNat := by omega
  have hpads := (pads_left_iff f w p).mpr h
  have hpadc : (stringDirective f w p).opts.padc =
      if f.zero then chr '0' else chr ' ' := Flags.padc_of_not_minus h.2
  obtain ⟨v, hv⟩ : ∃ v, (stringDirective f w p).opts.width -
    BitVec.ofNat 32 (min a.bytes.length (p.getD (-1)).toNat) = v := ⟨_, rfl⟩
  have hout := output_string f w p a fun rest => padBefore_left hnul rest hpads hv
  have hfield : stringField f w (fieldString p a.bytes) =
      List.replicate (w.toNat - (fieldString p a.bytes).length)
        (if f.zero then chr '0' else chr ' ') ++
        (shown f.altflag (fieldString p a.bytes) ++ List.replicate 0 (chr ' ')) := by
    rw [stringField, if_neg (Bool.eq_false_iff.mp h.2), List.replicate_zero, List.append_nil]
  rw [width_sub, hstart] at hv
  rw [PrintsField, hout, hfield, hpadc, hstart]
  rcases Nat.lt_or_ge (fieldString p a.bytes).length w.toNat with hlt | hge
  · obtain ⟨hfront, hbehind, hlasts⟩ := counts_of_lt (toNat_lt w) hn hv.symm hle hlt
    rw [field_eq_iff fun _ => hfront]
    exact iff_of_true ⟨hfront, hbehind⟩ hlasts
  · have hcounts := counts_of_le (toNat_lt w) hn hv.symm hge
    rw [field_eq_iff (by omega), Nat.sub_eq_zero_of_le hge]
    exact hcounts

/-- **Padding on the right**, or none. -/
theorem printsField_right (h : ¬ (0 < w.toNat ∧ f.minus = false)) :
    PrintsField f w p a ↔ Lasts (startWidth w p - (fieldString p a.bytes).length) := by
  obtain ⟨hlt, hnat, -⟩ := startWidth_spec w p
  have hpads : ∀ rest, padBefore (fun c out => out ++ [c]) (stringDirective f w p).opts
      (a.bytes ++ 0 :: rest) [] = .ok ((List.replicate 0 (chr ' ')).map (·.signExtend 32),
        (stringDirective f w p).opts.width) :=
    fun rest => if_neg (mt (pads_left_iff f w p).mp h)
  have hout := output_string f w p a hpads
  have hfield : stringField f w (fieldString p a.bytes) = List.replicate 0 (chr ' ') ++
      (shown f.altflag (fieldString p a.bytes) ++
        List.replicate (w.toNat - (fieldString p a.bytes).length) (chr ' ')) := by
    rw [List.replicate_zero, List.nil_append, stringField]
    by_cases hminus : f.minus = true
    · rw [if_pos hminus]
    · have hzero : w.toNat = 0 :=
        Nat.eq_zero_of_not_pos fun hpos => h ⟨hpos, Bool.eq_false_iff.mpr hminus⟩
      rw [if_neg hminus, hzero, Nat.zero_sub, List.replicate_zero, List.replicate_zero,
        List.nil_append, List.append_nil]
  have hdue : w.toNat - (fieldString p a.bytes).length =
      (startWidth w p - (fieldString p a.bytes).length).toNat := by omega
  rw [PrintsField, hout, hfield, field_eq_iff fun _ => rfl, width_sub, hdue,
    toNat_toInt_ofInt_iff (by omega)]
  exact and_iff_right rfl

/-- A field is right as long as the width does not wrap around. -/
theorem printsField_of_lasts (hlasts : FieldLasts f w p a.bytes) : PrintsField f w p a := by
  rw [FieldLasts] at hlasts
  by_cases h : 0 < w.toNat ∧ f.minus = false
  · rw [if_pos h] at hlasts
    exact (printsField_left f w p a h).mpr hlasts
  · rw [if_neg h] at hlasts
    exact (printsField_right f w p a h).mpr hlasts

/-- **When a string field is right.** For every string or null pointer, width, precision and
flags: `%s` prints the characters that the precision lets through, padded up to the width on the
side of the flags, if and only if the width does not wrap around. -/
theorem printsField_iff : PrintsField f w p a ↔ FieldLasts f w p a.bytes := by
  rw [FieldLasts]
  by_cases h : 0 < w.toNat ∧ f.minus = false
  · rw [printsField_left f w p a h, if_pos h]
  · rw [printsField_right f w p a h, if_neg h]

end

/-- The width lasts for every string of up to `2 ^ 30` bytes. -/
theorem fieldLasts_of_le (f : Flags) (w : Width) (p : Option (BitVec 32)) {s : List Byte}
    (h : s.length ≤ 2 ^ 30) : FieldLasts f w p s := by
  obtain ⟨-, -, hpos, hge⟩ := startWidth_spec w p
  obtain ⟨hle, -⟩ := length_spec p s
  have hlen : (fieldString p s).length ≤ s.length := by
    rw [fieldString_eq, taken]
    split
    · exact Nat.le_refl _
    · exact List.length_take_le' _ _
  have hlasts : ∀ x : ℤ, -2 ^ 31 ≤ x → Lasts x := fun x hx hneg => by omega
  rw [FieldLasts]
  split
  · rename_i hleft
    have hstart := hpos.mpr hleft.1
    exact ⟨hlasts _ (by omega), hlasts _ (by omega)⟩
  · exact hlasts _ (by omega)

/-- What `%s` prints of a string of up to `2 ^ 30` bytes. -/
theorem output_str {t : List Byte} (ht : 0 ∉ t) (rest : List Byte) (hlen : t.length ≤ 2 ^ 30) :
    output (cstr "%s") [.str (t ++ 0 :: rest)] = .ok (t.map (·.signExtend 32), []) := by
  have hprints : PrintsField .plain .none none (.str t rest ht) :=
    printsField_of_lasts _ _ _ _ (fieldLasts_of_le _ _ _ hlen)
  have hfield : stringField .plain .none t = t := by
    refine (if_neg Bool.false_ne_true).trans ?_
    rw [Width.toNat, Nat.zero_sub]
    exact shown_false t
  have hall : fieldString none (StrArg.str t rest ht).bytes = t := rfl
  rwa [PrintsField, hall, hfield] at hprints

/-- The letter `a`, many times. -/
def letters (k : ℕ) : StrArg :=
  .str (List.replicate k (chr 'a')) [] fun h => absurd (List.mem_replicate.mp h).2 (by decide)

/-- In a field of one character, the width goes down twice by the length of the string. -/
theorem not_printsField_of_lt {k : ℕ} (hlt : 2 ^ 30 < k) (hle : k ≤ 2 ^ 31) :
    ¬ PrintsField .plain (.star 1 (by decide)) none (letters k) := by
  have hlen : (letters k).bytes.length = k := List.length_replicate ..
  have hall : (-1 : BitVec 32).toNat = 2 ^ 32 - 1 := rfl
  have hone : startWidth (.star 1 (by decide)) none = 1 := rfl
  have hleft : 0 < (Width.star 1 (by decide)).toNat ∧ Flags.plain.minus = false :=
    ⟨Nat.zero_lt_one, rfl⟩
  rw [printsField_left _ _ _ _ hleft, fieldString, Option.getD_none, hlen, hall, hone]
  rintro ⟨-, h⟩
  have hbound := h (by omega)
  omega

end Jos
