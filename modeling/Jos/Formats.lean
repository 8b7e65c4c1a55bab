import Jos.ErrorCode
import Jos.Paging
import Jos.StringField
import Jos.Transcript

/-!
# What Formats Mean

A format as it is meant: literal text and conversions, each with its directive and with what it
converts (`Part`). The parts say what the format string is, what the arguments are, and what is
to be printed; `vprintfmt` is an interpreter of these.

Its oddities are part of what is printed: a sign and the `0x` of a pointer take nothing off the
width, and with a `-` numbers are padded with minus signs. What has no meaning cannot be written
down: a string so long that the width wraps around, and the error code without a negation.

## Main results

* `printsField_mapped`: a string in mapped memory is printed in its field as it should be.
* `Conv.prints`: one conversion, of any kind.
* `parts_print`: the parts, one after the other.
* `vprintfmt_parts`: hence **any sink** is handed the meaning of the format.
* `cprintf_renders`: on the console, the terminal shows it.
-/

namespace Jos

/-! ### Strings in memory -/

/-- A string with its NUL at the address `la`, or what stands for the null pointer there: the page
table lets every byte of it be read. -/
def StrArg.MappedAt (la : Addr) (a : StrArg) : Prop :=
  ∀ i ≤ a.bytes.length, (window false (la + BitVec.ofNat 32 i)).isSome

/-- What is mapped ends four megabytes from where it begins. -/
theorem StrArg.MappedAt.length_lt {la : Addr} {a : StrArg} (h : a.MappedAt la) :
    a.bytes.length < 2 ^ 22 := by
  have hmapped : ∀ x : Addr, (window false x).isSome →
      x.toNat < 0x400000 ∨ 0xF0000000 ≤ x.toNat ∧ x.toNat < 0xF0400000 := by
    intro x hx
    by_contra hout
    rw [window, if_neg (by omega), if_neg (by omega)] at hx
    exact absurd hx (by decide)
  by_contra hlong
  have hlt := la.isLt
  have hbase := hmapped _ (h 0 (Nat.zero_le _))
  rw [BitVec.toNat_add, BitVec.toNat_ofNat] at hbase
  -- the first address behind the window that the string begins in
  obtain ⟨i, hi, hend⟩ : ∃ i ≤ 2 ^ 22, la.toNat + i = 0x400000 ∨ la.toNat + i = 0xF0400000 := by
    rcases hbase with hlow | hhigh
    · exact ⟨0x400000 - la.toNat, by omega, .inl (by omega)⟩
    · exact ⟨0xF0400000 - la.toNat, by omega, .inr (by omega)⟩
  have hout := hmapped _ (h i (by omega))
  rw [BitVec.toNat_add, BitVec.toNat_ofNat] at hout
  omega

/-- **A string field**, for every string that is in mapped memory, width, precision and flags: the
width does not wrap around. -/
theorem printsField_mapped (f : Flags) (w : Width) (p : Option (BitVec 32)) {a : StrArg}
    {la : Addr} (h : a.MappedAt la) : PrintsField f w p a := by
  have hlt := h.length_lt
  exact printsField_of_lasts f w p a (fieldLasts_of_le f w p (by omega))

/-- Two letters in the kernel, in a field of five, cut to the first. -/
theorem printsField_mapped_letters :
    (letters 2).MappedAt 0xF0101000 ∧
      PrintsField .plain (.star 5 (by decide)) (some 1) (letters 2) := by
  have h : (letters 2).MappedAt 0xF0101000 := by
    change ∀ i ≤ 2, _
    decide
  exact ⟨h, printsField_mapped .plain (.star 5 (by decide)) (some 1) h⟩

/-! ### Parts -/

/-- A conversion with the directive `d`, and what it converts. -/
inductive Conv (d : Directive)
  | char (c : BitVec 32)
  | number (l : Length) (length : d.lflag = l.lflag) (c : NumConv) (v : BitVec l.bits)
  | pointer (v : BitVec 32)
  | string (a : StrArg) (length : d.lflag = 0)
      (lasts : FieldLasts d.flags d.width d.precision a.bytes)
  | error (e : BitVec 32) (negates : e.toInt ≠ -2 ^ 31)
  | percent

namespace Conv

variable {d : Directive}

/-- Its character. -/
def ch : Conv d → Byte
  | char _ => chr 'c'
  | number _ _ c _ => c.ch
  | pointer _ => chr 'p'
  | string _ _ _ => chr 's'
  | error _ _ => chr 'e'
  | percent => chr '%'

/-- Its argument, if it has one. -/
def args : Conv d → Args
  | char c => [.word c]
  | number l _ _ v => [l.arg v]
  | pointer v => [.word v]
  | string a _ _ => [a.arg]
  | error e _ => [.word e]
  | percent => []

/-- A number in the field of the directive: the digits fill it up. -/
def field (d : Directive) (digits : List ℕ) : List Byte :=
  List.replicate (d.width.toNat - digits.length) d.flags.padc ++ digits.map digitChar

/-- What it is to print. -/
def text : Conv d → List (BitVec 32)
  | char c => [c]
  | number _ _ c v => (c.sign v ++ field d (c.digits v)).map (·.signExtend 32)
  | pointer v => ([chr '0', chr 'x'] ++ field d (numeral 16 v.toNat)).map (·.signExtend 32)
  | string a _ _ =>
      (stringField d.flags d.width (fieldString d.precision a.bytes)).map (·.signExtend 32)
  | error e _ => (errorText e.toInt.natAbs).map (·.signExtend 32)
  | percent => [(chr '%').setWidth 32]

end Conv

/-- A part of a format. -/
inductive Part
  | lit (bytes : List Byte) (plain : ∀ b ∈ bytes, b ≠ chr '%' ∧ b ≠ 0)
  | conv (d : Directive) (c : Conv d)

namespace Part

/-- Its characters. -/
def fmt : Part → List Byte
  | lit bytes _ => bytes
  | conv d c => chr '%' :: (d.body ++ [c.ch])

/-- Its arguments. -/
def args : Part → Args
  | lit _ _ => []
  | conv d c => d.args ++ c.args

/-- What it is to print. -/
def text : Part → List (BitVec 32)
  | lit bytes _ => bytes.map (·.setWidth 32)
  | conv _ c => c.text

end Part

/-! ### One conversion -/

/-- The local `width` of a directive. -/
theorem toNat_width_sub (d : Directive) (n : ℕ) :
    (d.opts.width.toInt - n).toNat = d.width.toNat - n ∧ -1 ≤ d.opts.width.toInt := by
  have hvalue := toNat_value_sub d.width n
  have hlow := neg_one_le_value d.width
  by_cases hzero : d.precision.isSome ∧ d.width.value.toInt < 0
  · have hopts : d.opts.width = 0 := if_pos hzero
    have hzero' : (0 : BitVec 32).toInt = 0 := rfl
    rw [hopts, hzero']
    omega
  · have hopts : d.opts.width = d.width.value := if_neg hzero
    rw [hopts]
    exact ⟨hvalue, hlow⟩

/-- A directive with its conversion character is a format of its own. -/
theorem prints_directive (d : Directive) {ch : Byte} (hconv : isConv ch) {ap : Args}
    {text : List (BitVec 32)} (h : output (d.fmt ch) (d.args ++ ap) = .ok (text, [])) :
    Prints (chr '%' :: (d.body ++ [ch])) (d.args ++ ap) text := by
  have hne : ¬ isFlag ch ∧ ch ≠ 0 := by
    rcases (isConv_iff ch).mp hconv with rfl | rfl | rfl | rfl | rfl | rfl | rfl | rfl | rfl <;>
      decide
  refine ⟨?_, ?_, h⟩
  · simp only [List.mem_cons, List.mem_append, List.not_mem_nil, or_false, not_or]
    exact ⟨by decide, fun hb => (isFlag_body d 0 hb).ne.2 rfl, hne.2.symm⟩
  · rw [Uncut, items_esc (isFlag_body d) hne.1 []]
    intro i hi
    rcases List.mem_cons.mp hi with rfl | hi
    · trivial
    · exact absurd hi List.not_mem_nil

/-- A number in its field. -/
theorem output_number {d : Directive} {l : Length} (hl : d.lflag = l.lflag) (c : NumConv)
    (v : BitVec l.bits) : output (d.fmt c.ch) (d.args ++ [l.arg v]) =
      .ok ((c.sign v ++ Conv.field d (c.digits v)).map (·.signExtend 32), []) := by
  have hconv : isConv c.ch := by cases c <;> decide
  have hwidth := (toNat_width_sub d (c.digits v).length).2
  rw [Conv.field, ← (toNat_width_sub d (c.digits v).length).1]
  refine output_directive d hconv ?_
  by_cases hc : c = .d
  · subst hc
    exact convert_signed _ hwidth hl v
  · rw [NumConv.sign, if_neg fun h => hc h.1, List.nil_append]
    exact convert_unsigned_arg _ hwidth hl v hc

/-- A pointer in its field. -/
theorem output_pointer (d : Directive) (v : BitVec 32) :
    output (d.fmt (chr 'p')) (d.args ++ [.word v]) =
      .ok (([chr '0', chr 'x'] ++ Conv.field d (numeral 16 v.toNat)).map (·.signExtend 32),
        []) := by
  have hbound : v.toNat < 2 ^ 64 := by
    have hlt := v.isLt
    omega
  refine output_directive d (by decide) ?_
  rw [convert_p, vaInt, ok_bind, printnum_field (by decide) hbound
    (toNat_width_sub d 0).2, (toNat_width_sub d (numeral 16 v.toNat).length).1]
  rfl

/-- Its character is one of the conversions. -/
theorem Conv.isConv_ch {d : Directive} (c : Conv d) : isConv c.ch := by
  cases c with
  | number l length c v =>
      change isConv c.ch
      cases c <;> decide
  | _ => exact (isConv_iff _).mpr (by simp [Conv.ch])

/-- **One conversion**, of any kind. -/
theorem Conv.prints {d : Directive} (c : Conv d) :
    Prints (chr '%' :: (d.body ++ [c.ch])) (d.args ++ c.args) c.text := by
  refine prints_directive d c.isConv_ch ?_
  cases c with
  | char c => exact output_directive d (Conv.char c : Conv d).isConv_ch rfl
  | number l length c v => exact output_number length c v
  | pointer v => exact output_pointer d v
  | string a length lasts =>
      obtain ⟨flags, width, precision, lflag⟩ := d
      obtain rfl : lflag = 0 := length
      exact printsField_of_lasts flags width precision a lasts
  | error e negates => exact output_error d negates
  | percent => exact output_directive d (Conv.percent : Conv d).isConv_ch rfl

/-! ### Formats -/

/-- **The parts**, one after the other. -/
theorem parts_print (ps : List Part) :
    Prints (ps.flatMap Part.fmt) (ps.flatMap Part.args) (ps.flatMap Part.text) := by
  induction ps with
  | nil => exact prints_lits (fun b hb => absurd hb List.not_mem_nil)
  | cons p ps ih =>
      rw [List.flatMap_cons, List.flatMap_cons, List.flatMap_cons]
      cases p with
      | lit bytes plain => exact (prints_lits plain).append ih
      | conv d c => exact c.prints.append ih

/-- **What a format means.** Any sink is handed what the parts are to print, in order, and the
arguments behind theirs are left. -/
theorem vprintfmt_parts {σ : Type} (putch : BitVec 32 → σ → σ) (ps : List Part) (rest : Args)
    (s : σ) : vprintfmt putch (ps.flatMap Part.fmt ++ [0]) (ps.flatMap Part.args ++ rest) s =
      .ok ((ps.flatMap Part.text).foldl (fun s c => putch c s) s, rest) := by
  have hparts := parts_print ps
  refine vprintfmt_eq_foldl putch hparts.nul ?_ s
  have hrest := output_cat hparts.nul List.not_mem_nil hparts.uncut hparts.output rest
  have hnil : output ([] ++ [0]) rest = .ok ([], rest) := rfl
  rw [hnil, List.append_nil] at hrest
  rw [hrest]
  exact congrArg (fun text => Except.ok (text, rest)) (List.append_nil _)

/-- On the console, the terminal that it is shows the meaning of the format. -/
theorem cprintf_renders {s₀ s : Console} {a : AnsiTerm} (h : Renders s₀ s a) (ps : List Part) :
    ∃ s', cprintf (ps.flatMap Part.fmt ++ [0]) (ps.flatMap Part.args) s = .ok (s', 0) ∧
      Renders s₀ s' (a.text (ps.flatMap Part.text)) :=
  ⟨_, cprintf_text (parts_print ps) s, foldl_renders h _⟩

/-- A line of `mon_kerninfo`. -/
example : (Part.conv ⟨⟨[chr '0'], by decide, by decide⟩, .digits 8 (by decide) (by decide), none, 0⟩
    (.number .int rfl .x (0x10000C : BitVec 32))).fmt = "%08x".toList.map chr := by
  decide

end Jos
