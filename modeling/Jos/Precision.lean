import Jos.NumberField
import Jos.StringField

/-!
# Precisions

Widths and precisions written out in the format against those that are arguments, and what a
precision bounds. There are two places where the scan reads a number. The loop over digits
begins at the cases `1` to `9` only: a `0` is a flag wherever it stands, also behind the `.`,
so that a precision that is written out is never zero. And the loop over the characters of a
string looks at the precision only behind the character it has read.

## Main results

* `written_agrees_iff`: numbers that are written out mean what they mean as arguments, but for
  the precision 0.
* `not_printsRegion`: as many readable bytes as the precision says are never enough.
* `formatStr_behind`: with one more, it makes no difference what it is.
-/

namespace Jos

/-! ### Numbers that are written out -/

/-- `%.Ns` of a string prints the same as `%.*s` with `N` and the string. -/
def PrecisionAgrees (N : ℕ) (a : StrArg) : Prop :=
  output (escape (chr '.' :: numeralText 10 N) (chr 's')) [a.arg] =
    output (cstr "%.*s") [.word (BitVec.ofNat 32 N), a.arg]

/-- `%W.Ns` of a string prints the same as `%*.*s` with `W`, `N` and the string. -/
def BothAgree (W N : ℕ) (a : StrArg) : Prop :=
  output (escape (numeralText 10 W ++ chr '.' :: numeralText 10 N) (chr 's')) [a.arg] =
    output (cstr "%*.*s") [.word (BitVec.ofNat 32 W), .word (BitVec.ofNat 32 N), a.arg]

/-- `%Wd` of a value prints the same as `%*d` with `W` and the value. -/
def WidthAgrees (W : ℕ) (v : BitVec 32) : Prop :=
  output (escape (numeralText 10 W) (chr 'd')) [.word v] =
    output (cstr "%*d") [.word (BitVec.ofNat 32 W), .word v]

/-- Two escapes print the same if their conversion does with what their flags leave. -/
theorem output_escape_congr {body body' : List Byte} (hbody : ∀ b ∈ body, isFlag b)
    (hbody' : ∀ b ∈ body', isFlag b) {ch : Byte} (hconv : isConv ch) {ap ap' rest rest' : Args}
    {o o' : Opts} (h : flags body none .init ap = .ok (o, rest))
    (h' : flags body' none .init ap' = .ok (o', rest'))
    (hsame : convert (fun c out => out ++ [c]) (printfmt fun c out => out ++ [c]) o ch rest [] =
      convert (fun c out => out ++ [c]) (printfmt fun c out => out ++ [c]) o' ch rest' []) :
    output (escape body ch) ap = output (escape body' ch) ap' := by
  obtain ⟨r, hr⟩ : ∃ r, convert (fun c out => out ++ [c]) (printfmt fun c out => out ++ [c]) o ch
      rest [] = some r :=
    Option.ne_none_iff_exists'.mp (mt (convert_eq_none_iff ..).mp (not_not.mpr hconv))
  exact (output_escape hbody hconv h hr).trans
    (output_escape hbody' hconv h' (hsame.symm.trans hr)).symm

theorem isFlag_numeral (n : ℕ) : ∀ b ∈ numeralText 10 n, isFlag b := by
  intro b hb
  obtain ⟨d, hd, rfl⟩ := List.mem_map.mp hb
  exact Or.inl (isDigit_digitChar (lt_of_mem_numeral (by decide) hd)).1

theorem isFlag_precision (n : ℕ) : ∀ b ∈ chr '.' :: numeralText 10 n, isFlag b := by
  intro b hb
  obtain rfl | hb := List.mem_cons.mp hb
  · decide
  · exact isFlag_numeral n b hb

theorem isFlag_both (w n : ℕ) : ∀ b ∈ numeralText 10 w ++ chr '.' :: numeralText 10 n, isFlag b :=
  fun b hb => (List.mem_append.mp hb).elim (isFlag_numeral w b) (isFlag_precision n b)

/-- The digits of zero are one zero. -/
theorem numeralText_zero : numeralText 10 0 = [chr '0'] := by
  rw [numeralText, numeral_of_lt (by decide)]
  rfl

section

variable {N : ℕ} (ap : Args)

/-- A precision that is not zero is read like a starred one. -/
theorem flags_precision_digits (hN : 0 < N) (o : Opts) (hwidth : 0 ≤ o.width.toInt) :
    flags (chr '.' :: numeralText 10 N) none o ap =
      .ok ({ o with precision := BitVec.ofNat 32 N }, ap) := by
  have hnot : ¬ o.width.toInt < 0 := by omega
  have hdot : flagStep (chr '.') none o ap = some (.ok (none, o, ap)) := by
    have hstep : flagStep (chr '.') none o ap =
        some (.ok (none, if o.width.toInt < 0 then { o with width := 0 } else o, ap)) := rfl
    rw [hstep, if_neg hnot]
  have hnil : ∀ b ∈ ([] : List Byte).head?, ¬ isDigit b := by simp
  have hread := flags_numeral hN hnil o ap
  rw [List.append_nil] at hread
  rw [flags_cons hdot, hread, Opts.processPrecision, if_neg hnot]
  rfl

/-- The precision zero is read as a flag. -/
theorem flags_precision_zero (o : Opts) (hwidth : 0 ≤ o.width.toInt) :
    flags (chr '.' :: numeralText 10 0) none o ap = .ok ({ o with padc := chr '0' }, ap) := by
  have hdot : flagStep (chr '.') none o ap =
      some (.ok (none, if o.width.toInt < 0 then { o with width := 0 } else o, ap)) := rfl
  rw [numeralText_zero, flags_cons hdot, if_neg (by omega)]
  exact flags_cons (rfl : flagStep (chr '0') none o ap = _) []

/-- A dot where there is no width stands for the width zero. -/
theorem flags_dot (body : List Byte) : flags (chr '.' :: body) none .init ap =
    flags (chr '.' :: body) none { Opts.init with width := 0 } ap := by
  have hdot : flagStep (chr '.') none .init ap =
      some (.ok (none, { Opts.init with width := 0 }, ap)) := rfl
  have hagain : flagStep (chr '.') none { Opts.init with width := 0 } ap =
      some (.ok (none, { Opts.init with width := 0 }, ap)) := rfl
  rw [flags_cons hdot, flags_cons hagain]

/-- A width that is written out, in front of a precision. -/
theorem flags_width_dot {W : ℕ} (hW : 0 < W) (body : List Byte) :
    flags (numeralText 10 W ++ chr '.' :: body) none .init ap =
      flags (chr '.' :: body) none { Opts.init with width := BitVec.ofNat 32 W } ap := by
  have hhead : ∀ b ∈ (chr '.' :: body).head?, ¬ isDigit b := by
    intro b hb
    obtain rfl : chr '.' = b := Option.some.inj hb
    decide
  rw [flags_numeral hW hhead]
  rfl

end

/-- With the starred precision zero nothing is printed but the padding. -/
theorem output_starred_zero (w : Width) (a : StrArg) :
    output ((stringDirective .plain w (some 0)).fmt (chr 's'))
      ((stringDirective .plain w (some 0)).args ++ [a.arg]) =
      .ok ((List.replicate w.toNat (chr ' ')).map (·.signExtend 32), []) := by
  have hnone : fieldString (some 0) a.bytes = [] := rfl
  have hfield : stringField .plain w [] = List.replicate w.toNat (chr ' ') := List.append_nil _
  have hmin : min a.bytes.length ((some 0 : Option (BitVec 32)).getD (-1)).toNat = 0 :=
    Nat.min_zero _
  have hge := (startWidth_spec w (some 0)).2.2.2
  have hlasts : Lasts (startWidth w (some 0)) := fun hneg => by omega
  have hprints := printsField_of_lasts .plain w (some 0) a (by
    simp only [FieldLasts, hmin, hnone, List.length_nil, Nat.cast_zero, sub_zero]
    split
    · exact ⟨hlasts, hlasts⟩
    · exact hlasts)
  rwa [PrintsField, hnone, hfield] at hprints

/-- Outputs are the same if the texts they print are. -/
theorem printed_eq_iff {l l' : List Byte} :
    (.ok (l.map (·.signExtend 32), []) : Except Fault (List (BitVec 32) × Args)) =
      .ok (l'.map (·.signExtend 32), []) ↔ l = l' := by
  constructor
  · intro h
    rw [Except.ok.injEq, Prod.mk.injEq] at h
    exact map_signExtend_inj h.1
  · rintro rfl
    rfl

/-- **A precision behind a dot** agrees with a starred one, unless it is zero and there is
something to print. -/
theorem precisionAgrees_iff (N : ℕ) (a : StrArg) : PrecisionAgrees N a ↔ 0 < N ∨ a.bytes = [] := by
  rcases Nat.eq_zero_or_pos N with rfl | hN
  · have hwritten := output_string_escape (isFlag_precision 0) a
      ((flags_dot [a.arg] _).trans (flags_precision_zero [a.arg] _ (by decide))) (k := 0)
      (c := chr ' ') fun rest => rfl
    have hstarred : output (cstr "%.*s") [.word (BitVec.ofNat 32 0), a.arg] =
        .ok ((List.replicate 0 (chr ' ')).map (·.signExtend 32), []) :=
      output_starred_zero .none a
    have hall : taken (-1) a.bytes = a.bytes := if_pos (by decide)
    simp only [Opts.init, hall, shown_false] at hwritten
    rw [PrecisionAgrees, hwritten, hstarred, printed_eq_iff, or_iff_right (Nat.lt_irrefl 0)]
    constructor
    · intro h
      exact (List.append_eq_nil_iff.mp (List.append_eq_nil_iff.mp h).2).1
    · intro h
      rw [h]
      rfl
  · exact iff_of_true (output_escape_congr (isFlag_precision N)
      (isFlag_body (stringDirective .plain .none (some (BitVec.ofNat 32 N)))) (by decide)
      ((flags_dot [a.arg] _).trans (flags_precision_digits [a.arg] hN _ (by decide)))
      (flags_body (stringDirective .plain .none (some (BitVec.ofNat 32 N))) [a.arg]) rfl)
      (Or.inl hN)

section

variable {W : ℕ} (hpos : 0 < W) (hlt : W < 2 ^ 31)
include hpos hlt

/-- A text with zeros in front of it up to the width `W` is a field of blanks only if there are
no zeros. -/
theorem zeros_eq_blanks_iff {t : List Byte} {v : BitVec 32}
    (hv : v = BitVec.ofInt 32 ((W : ℤ) - min t.length (-1 : BitVec 32).toNat)) :
    List.replicate v.toInt.toNat (chr '0') ++ (t ++ List.replicate
      ((if 0 < v.toInt then 0 else v) - BitVec.ofNat 32 t.length).toInt.toNat (chr ' ')) =
        List.replicate W (chr ' ') ↔ t = List.replicate W (chr ' ') := by
  obtain ⟨hle, hn⟩ := length_spec none t
  have hne : chr '0' ≠ chr ' ' := by decide
  constructor
  · intro h
    obtain ⟨hsum, hzeros, hrest⟩ := List.append_eq_replicate_iff.mp h
    obtain ⟨-, htext, -⟩ := List.append_eq_replicate_iff.mp hrest
    simp only [List.length_append, List.length_replicate] at hsum hzeros
    have hnone : v.toInt.toNat = 0 := by
      by_contra hsome
      exact hne (List.eq_of_mem_replicate (hzeros ▸ List.mem_replicate.mpr ⟨hsome, rfl⟩))
    have hfull : t.length = W := by
      by_contra hshort
      have hcounts := counts_of_lt hlt hn hv hle (by omega : t.length < W)
      omega
    rwa [hfull] at htext
  · intro h
    have hlen : t.length = W := by rw [h, List.length_replicate]
    have hmin : min t.length (-1 : BitVec 32).toNat = W := by
      have hall : (-1 : BitVec 32).toNat = 2 ^ 32 - 1 := rfl
      omega
    have hcounts := (counts_of_le hlt (Or.inl rfl) (hv.trans (by rw [hmin])) (Nat.le_refl W)).mpr
      ⟨fun hneg => by omega, fun hneg => by omega⟩
    rw [hlen, hcounts.1, hcounts.2, h]
    simp only [List.replicate_zero, List.nil_append, List.append_nil]

/-- With the precision zero written out behind a width, what is printed is a field of zeros. -/
theorem bothAgree_zero_iff (a : StrArg) :
    BothAgree W 0 a ↔ a.bytes = List.replicate W (chr ' ') := by
  have hint : (BitVec.ofNat 32 W).toInt = W := toInt_ofNat_of_lt hlt
  have hstart : BitVec.ofNat 32 W = BitVec.ofInt 32 W := (BitVec.ofInt_natCast ..).symm
  have hflags : flags (numeralText 10 W ++ chr '.' :: numeralText 10 0) none .init [a.arg] =
      .ok ({ Opts.init with width := BitVec.ofNat 32 W, padc := chr '0' }, [a.arg]) :=
    (flags_width_dot [a.arg] hpos _).trans (flags_precision_zero [a.arg] _ (by
      rw [hint]
      omega))
  have hpads : 0 < (BitVec.ofNat 32 W).toInt ∧ chr '0' ≠ chr '-' :=
    ⟨by rw [hint]; omega, by decide⟩
  obtain ⟨hnul, -⟩ := vaStr_arg a
  have hwritten := output_string_escape (isFlag_both W 0) a hflags fun rest =>
    padBefore_left hnul rest hpads (sub_ofNat hstart _)
  have hstarred : output (cstr "%*.*s") [.word (BitVec.ofNat 32 W), .word (BitVec.ofNat 32 0),
      a.arg] = .ok ((List.replicate W (chr ' ')).map (·.signExtend 32), []) :=
    output_starred_zero (.star W hlt) a
  have hall : taken (-1) a.bytes = a.bytes := if_pos (by decide)
  simp only [Opts.init, hall, shown_false] at hwritten
  rw [BothAgree, hwritten, hstarred, printed_eq_iff]
  exact zeros_eq_blanks_iff hpos hlt rfl

/-- **A width and a precision** agree with starred ones, unless the precision is zero and the
string is not the field of blanks that is due. -/
theorem bothAgree_iff (N : ℕ) (a : StrArg) :
    BothAgree W N a ↔ 0 < N ∨ a.bytes = List.replicate W (chr ' ') := by
  rcases Nat.eq_zero_or_pos N with rfl | hN
  · rw [bothAgree_zero_iff hpos hlt, or_iff_right (Nat.lt_irrefl 0)]
  · have hint : (BitVec.ofNat 32 W).toInt = W := toInt_ofNat_of_lt hlt
    have hopts : (stringDirective .plain (.star W hlt) (some (BitVec.ofNat 32 N))).opts =
        { Opts.init with width := BitVec.ofNat 32 W, precision := BitVec.ofNat 32 N } := by
      rw [Directive.opts, if_neg fun h => absurd h.2 (by
        rw [stringDirective, Width.value, hint]
        omega)]
      rfl
    exact iff_of_true (output_escape_congr (isFlag_both W N)
      (isFlag_body (stringDirective .plain (.star W hlt) (some (BitVec.ofNat 32 N)))) (by decide)
      ((flags_width_dot [a.arg] hpos _).trans (flags_precision_digits [a.arg] hN _ (by
        rw [hint]
        omega)))
      (hopts ▸ flags_body (stringDirective .plain (.star W hlt) (some (BitVec.ofNat 32 N)))
        [a.arg]) rfl) (Or.inl hN)

/-- **A width** agrees with a starred one. -/
theorem widthAgrees (v : BitVec 32) : WidthAgrees W v := by
  have hbody : (numberDirective .plain (.digits W hpos hlt) .int).body = numeralText 10 W :=
    (congrArg _ (List.append_nil _)).trans (List.nil_append _)
  have hsame : ∀ v : BitVec Length.int.bits,
      number .plain (.digits W hpos hlt) .int .d v = number .plain (.star W hlt) .int .d v := by
    intro v
    rw [number_eq, number_eq, Width.toNat, Width.toNat]
  have hdigits : output (escape (numeralText 10 W) (chr 'd')) [.word v] =
      number .plain (.digits W hpos hlt) .int .d v := by
    rw [← hbody]
    rfl
  exact hdigits.trans (hsame v)

end

/-- **When written numbers mean what starred ones mean.** For every `N`, every width and every
string or null pointer: a precision that is written out unless it is zero, when what is printed
must happen to be right all the same, and a width always. -/
theorem written_agrees_iff (N W : ℕ) (hpos : 0 < W) (hlt : W < 2 ^ 31) (a : StrArg)
    (v : BitVec 32) :
    (PrecisionAgrees N a ↔ 0 < N ∨ a.bytes = []) ∧
      (BothAgree W N a ↔ 0 < N ∨ a.bytes = List.replicate W (chr ' ')) ∧ WidthAgrees W v :=
  ⟨precisionAgrees_iff N a, bothAgree_iff hpos hlt N a, widthAgrees hpos hlt v⟩

/-- The precision zero, in a field of three. -/
theorem written_agrees_iff_zero :
    (PrecisionAgrees 0 (letters 1) ↔ 0 < 0 ∨ (letters 1).bytes = []) ∧
      (BothAgree 3 0 (letters 1) ↔ 0 < 0 ∨ (letters 1).bytes = List.replicate 3 (chr ' ')) ∧
        WidthAgrees 3 (-7) :=
  written_agrees_iff 0 3 (by decide) (by decide) (letters 1) (-7)

/-- **`%.0s` of the string `a`** prints it. -/
theorem not_precisionAgrees : ¬ PrecisionAgrees 0 (letters 1) := by
  rw [precisionAgrees_iff]
  decide

/-! ### What a precision bounds -/

section

variable {σ : Type} (putch : BitVec 32 → σ → σ)

/-- A character of a string of which the precision lets through at least one more. -/
theorem strLoop_within (altflag : Bool) {b : Byte} (hb : b ≠ 0) {n : ℕ} (hn : n + 1 < 2 ^ 31)
    (width : BitVec 32) (s : σ) :
    ∃ s', ∀ p, strLoop putch altflag (b :: p) (BitVec.ofNat 32 (n + 1)) width s =
      strLoop putch altflag p (BitVec.ofNat 32 n) (width - 1) s' := by
  have hint : (BitVec.ofNat 32 (n + 1)).toInt = (n + 1 : ℕ) := toInt_ofNat_of_lt hn
  have hless : (BitVec.ofNat 32 n).toInt = n := toInt_ofNat_of_lt (by omega)
  have hsub : BitVec.ofNat 32 (n + 1) - 1 = BitVec.ofNat 32 n := by
    rw [BitVec.ofNat_add]
    exact add_sub_cancel_right _ _
  refine ⟨if altflag = true ∧ ((b.signExtend 32 : BitVec 32).toInt < 0x20 ∨
    0x7E < (b.signExtend 32 : BitVec 32).toInt) then putch ((chr '?').signExtend 32) s
      else putch (b.signExtend 32) s, fun p => ?_⟩
  rw [strLoop]
  simp only [if_neg hb]
  rw [if_neg (by rw [hint]; omega), hsub, if_pos (by rw [hless]; omega)]

section

variable {t : List Byte} (ht : 0 ∉ t) (hlen : t.length < 2 ^ 31)
include ht hlen

/-- The loop over the characters of a region that is as long as the precision says reads the
byte behind it. -/
theorem strLoop_region (altflag : Bool) (width : BitVec 32) (s : σ) :
    strLoop putch altflag t (BitVec.ofNat 32 t.length) width s = .error .arg := by
  induction t generalizing width s with
  | nil => rfl
  | cons b t ih =>
      rw [List.length_cons] at hlen ⊢
      obtain ⟨s', hs'⟩ := strLoop_within putch altflag (fun h => ht (h ▸ List.mem_cons_self)) hlen
        width s
      rw [hs']
      exact ih (fun h => ht (List.mem_cons_of_mem b h)) (by omega) _ _

/-- If there is a byte behind it, it is as good as a NUL. -/
theorem strLoop_behind (altflag : Bool) (b : Byte) (rest : List Byte) (width : BitVec 32) (s : σ) :
    strLoop putch altflag (t ++ b :: rest) (BitVec.ofNat 32 t.length) width s =
      strLoop putch altflag (t ++ [0]) (BitVec.ofNat 32 t.length) width s := by
  induction t generalizing width s with
  | nil =>
      have hend : ∀ (b : Byte) (p : List Byte),
          strLoop putch altflag (b :: p) 0 width s = .ok (s, width) := fun b p => ite_self _
      exact (hend b rest).trans (hend 0 []).symm
  | cons c t ih =>
      rw [List.length_cons] at hlen ⊢
      obtain ⟨s', hs'⟩ := strLoop_within putch altflag (fun h => ht (h ▸ List.mem_cons_self)) hlen
        width s
      rw [List.cons_append, List.cons_append, hs', hs']
      exact ih (fun h => ht (List.mem_cons_of_mem c h)) (by omega) _ _

omit hlen in
/-- The length that is counted for the padding takes no look behind the region. -/
theorem strnlen_region (p : List Byte) : strnlen (t ++ p) t.length = some t.length := by
  induction t with
  | nil => cases p <;> rfl
  | cons b t ih =>
      have hb : b ≠ 0 := fun h => ht (h ▸ List.mem_cons_self)
      rw [List.cons_append, List.length_cons, strnlen, if_neg hb,
        ih fun h => ht (List.mem_cons_of_mem b h), Option.map_some]

variable {o : Opts} (ho : o.precision = BitVec.ofNat 32 t.length)
include ho

/-- The padding in front takes none either. -/
theorem padBefore_region (s : σ) :
    ∃ r, ∀ p, padBefore putch o (t ++ p) s = .ok r := by
  have hnat : o.precision.toNat = t.length := by
    rw [ho, BitVec.toNat_ofNat]
    exact Nat.mod_eq_of_lt (by omega)
  simp only [padBefore, hnat, strnlen_region ht]
  split
  · exact ⟨_, fun p => rfl⟩
  · exact ⟨_, fun p => rfl⟩

/-- **A region of as many bytes as the precision says** is not enough. -/
theorem formatStr_region (s : σ) : formatStr putch o t s = .error .arg := by
  obtain ⟨⟨s', width⟩, hpad⟩ := padBefore_region putch ht hlen ho s
  have hnil := hpad []
  rw [List.append_nil] at hnil
  rw [formatStr, hnil, ok_bind, ho]
  simp only [strLoop_region putch ht hlen]
  rfl

/-- **With one more byte behind it**, whatever it is, it prints like a string that ends. -/
theorem formatStr_behind (b : Byte) (rest : List Byte) (s : σ) :
    formatStr putch o (t ++ b :: rest) s = formatStr putch o (t ++ [0]) s := by
  obtain ⟨⟨s', width⟩, hpad⟩ := padBefore_region putch ht hlen ho s
  rw [formatStr, formatStr, hpad, hpad, ok_bind, ok_bind, ho]
  simp only [strLoop_behind putch ht hlen]

end

end

/-- `%.*s` with the length of the region `t` and a pointer to it, where no byte behind `t` can
be read, prints the bytes of the region in their field. -/
def PrintsRegion (f : Flags) (w : Width) (t : List Byte) : Prop :=
  output ((stringDirective f w (some (BitVec.ofNat 32 t.length))).fmt (chr 's'))
    ((stringDirective f w (some (BitVec.ofNat 32 t.length))).args ++ [.str t]) =
      .ok ((stringField f w t).map (·.signExtend 32), [])

section

variable (f : Flags) (w : Width) {t : List Byte} (ht : 0 ∉ t) (hlen : t.length < 2 ^ 31)
include ht hlen

/-- It reads behind the region instead. -/
theorem output_region :
    output ((stringDirective f w (some (BitVec.ofNat 32 t.length))).fmt (chr 's'))
      ((stringDirective f w (some (BitVec.ofNat 32 t.length))).args ++ [.str t]) =
        .error .arg := by
  refine output_directive _ (by decide) ?_
  rw [convert_s, vaStr, ok_bind, Option.getD_some, formatStr_region _ ht hlen rfl]
  rfl

/-- **A precision does not bound what is read**: for no region of as many bytes as it says, none
of them NUL, in no field. -/
theorem not_printsRegion : ¬ PrintsRegion f w t := by
  rw [PrintsRegion, output_region f w ht hlen]
  intro h
  cases h

/-- What is printed is right wherever there is a byte that can be read behind the region, and
the width lasts. -/
theorem output_behind (b : Byte) (rest : List Byte)
    (hlasts : FieldLasts f w (some (BitVec.ofNat 32 t.length)) t) :
    output ((stringDirective f w (some (BitVec.ofNat 32 t.length))).fmt (chr 's'))
      ((stringDirective f w (some (BitVec.ofNat 32 t.length))).args ++ [.str (t ++ b :: rest)]) =
        .ok ((stringField f w t).map (·.signExtend 32), []) := by
  have hstr := printsField_of_lasts f w (some (BitVec.ofNat 32 t.length)) (.str t [] ht) hlasts
  have hall : fieldString (some (BitVec.ofNat 32 t.length)) t = t := by
    have hint : (BitVec.ofNat 32 t.length).toInt = t.length := toInt_ofNat_of_lt hlen
    rw [fieldString, hint, if_pos (by omega), Int.toNat_natCast, List.take_length]
  have hbytes : (StrArg.str t [] ht).bytes = t := rfl
  rw [PrintsField, hbytes, hall] at hstr
  refine (output_escape_congr (isFlag_body _) (isFlag_body _) (by decide) (flags_body _ _)
    (flags_body _ _) ?_).trans hstr
  have hsame := formatStr_behind (fun c out => out ++ [c]) ht hlen
    (o := (stringDirective f w (some (BitVec.ofNat 32 t.length))).opts) rfl b rest []
  rw [convert_s, convert_s, vaStr, ok_bind, Option.getD_some, hsame]
  rfl

end

/-- A region of two letters, in a field of five that is padded on the right. -/
theorem not_printsRegion_two :
    ¬ PrintsRegion ⟨[chr '-'], by decide, by decide⟩ (.digits 5 (by decide) (by decide))
      [chr 'a', chr 'b'] :=
  not_printsRegion ⟨[chr '-'], by decide, by decide⟩ (.digits 5 (by decide) (by decide))
    (by decide) (by decide)

/-- **`%.*s` with 3 and a pointer to the three bytes `abc`**: a fourth one is read. -/
theorem not_printsRegion_three : ¬ PrintsRegion .plain .none [chr 'a', chr 'b', chr 'c'] := by
  rw [PrintsRegion, output_region .plain .none (by decide) (by decide)]
  intro h
  cases h

end Jos
