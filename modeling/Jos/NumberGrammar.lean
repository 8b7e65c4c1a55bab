import Jos.Strtol

/-!
# The Grammar of Numbers

What `strtol` is meant to recognise at the front of a string: blanks, a sign, a prefix that
selects the base, and digits (`Number`). The longest such prefix of a string is its number; the
parts of a grammar with so many options overlap, so that what is longest has to be shown.

`strtol` takes the parts one after the other and never gives one back. So it leaves `*endptr`
behind the blanks and the sign when no digits follow them, and behind `0x` when no hexadecimal
digit follows, where the number is the `0`.

## Main results

* `strtol_parts`: blanks and sign, and what is behind them.
* `readUnsigned_digits`, `readUnsigned_bare`, `readUnsigned_none`: what is read there.
* `consumesNumber_iff`: when `strtol` consumes exactly the number.
-/

namespace Jos

/-! ### The grammar -/

/-- The character `c` is the digit `d`: a decimal digit, or a letter in either case. -/
def DigitOf (c : Byte) (d : ℕ) : Prop :=
  d < 36 ∧ (c = (cstr "0123456789abcdefghijklmnopqrstuvwxyz").getD d 0 ∨
    c = (cstr "0123456789ABCDEFGHIJKLMNOPQRSTUVWXYZ").getD d 0)

instance (c : Byte) (d : ℕ) : Decidable (DigitOf c d) :=
  inferInstanceAs (Decidable (_ ∧ _))

/-- Digits in base `b` behind those of the number `v`, and the number they make together. -/
inductive Extends (b : ℕ) : ℕ → List Byte → ℕ → Prop
  | nil {v : ℕ} : Extends b v [] v
  | cons {v d n : ℕ} {c : Byte} {ds : List Byte} (hc : DigitOf c d) (hd : d < b)
      (h : Extends b (v * b + d) ds n) : Extends b v (c :: ds) n

/-- One or more digits in base `b`, and their number. -/
def Digits (b : ℕ) (ds : List Byte) (n : ℕ) : Prop :=
  ds ≠ [] ∧ Extends b 0 ds n

/-- The prefix of hexadecimals. -/
def hexPrefix : List Byte :=
  [chr '0', chr 'x']

/-- A number without a sign, in the base given. Base 0 goes by the prefix: `0x`, a leading `0`
for octals, which is a digit itself, or none. -/
inductive Unsigned (base : ℕ) : List Byte → ℕ → Prop
  | given {ds : List Byte} {n : ℕ} (hbase : base ≠ 0) (h : Digits base ds n) : Unsigned base ds n
  | hex {ds : List Byte} {n : ℕ} (hbase : base = 0 ∨ base = 16) (h : Digits 16 ds n) :
      Unsigned base (hexPrefix ++ ds) n
  | octal {ds : List Byte} {n : ℕ} (hbase : base = 0) (h : Digits 8 (chr '0' :: ds) n) :
      Unsigned base (chr '0' :: ds) n
  | decimal {ds : List Byte} {n : ℕ} (hbase : base = 0) (hhead : ds.head? ≠ some (chr '0'))
      (h : Digits 10 ds n) : Unsigned base ds n

/-- A blank or a tab. -/
def isBlank (c : Byte) : Prop :=
  c = chr ' ' ∨ c = chr '\t'

instance (c : Byte) : Decidable (isBlank c) :=
  inferInstanceAs (Decidable (_ ∨ _))

/-- An optional sign, and whether it is a minus. -/
inductive Sign : List Byte → Bool → Prop
  | none : Sign [] false
  | plus : Sign [chr '+'] false
  | minus : Sign [chr '-'] true

/-- A number, with blanks before it. -/
inductive Number (base : ℕ) : List Byte → ℤ → Prop
  | intro {w g r : List Byte} {neg : Bool} {n : ℕ} (hw : ∀ c ∈ w, isBlank c) (hg : Sign g neg)
      (h : Unsigned base r n) : Number base (w ++ (g ++ r)) (if neg then -n else n)

/-- The longest prefix with a property, and its value. -/
def Longest {α β : Type} (P : List α → β → Prop) (s p : List α) (x : β) : Prop :=
  p <+: s ∧ P p x ∧ ∀ p' x', p' <+: s → P p' x' → p'.length ≤ p.length

/-- `strtol` with the base `base` returns the number at the front of the string `s`, modulo
`2 ^ 32`, and sets `*endptr` to the first character behind it; without a number it returns 0,
and `*endptr` is `s`. -/
def ConsumesNumber (base : ℕ) (s rest : List Byte) : Prop :=
  (∀ p x, Longest (Number base) s p x → strtol (s ++ 0 :: rest) (BitVec.ofNat 32 base) =
    some (BitVec.ofInt 32 x, s.drop p.length ++ 0 :: rest)) ∧
  ((∀ p x, p <+: s → ¬ Number base p x) →
    strtol (s ++ 0 :: rest) (BitVec.ofNat 32 base) = some (0, s ++ 0 :: rest))

/-! ### When it is consumed -/

/-- The first character is a digit in base `b`. -/
def BeginsDigit (b : ℕ) (t : List Byte) : Prop :=
  ∃ c ∈ t.head?, ∃ d < b, DigitOf c d

/-- A `0x` in front of no hexadecimal digit, in a base that has this prefix. -/
def BarePrefix (base : ℕ) (t : List Byte) : Prop :=
  (base = 0 ∨ base = 16) ∧ ∃ u, t = hexPrefix ++ u ∧ ¬ BeginsDigit 16 u

/-- What is left behind the blanks and the sign. -/
def unsignedPart (s : List Byte) : List Byte :=
  let t := s.dropWhile fun c => decide (isBlank c)
  if t.head? = some (chr '+') ∨ t.head? = some (chr '-') then t.tail else t

/-- Behind the blanks and the sign there is no bare prefix; and there is a digit, or there are
no blanks and no sign. -/
def Readable (base : ℕ) (s : List Byte) : Prop :=
  ¬ BarePrefix base (unsignedPart s) ∧
    (BeginsDigit (if base = 0 then 10 else base) (unsignedPart s) ∨ unsignedPart s = s)

/-! ### Digits -/

/-- What `strtol` takes for a digit. -/
theorem dig_eq_some_iff {c : Byte} {d : ℕ} : dig c = some d ↔ DigitOf c d := by
  constructor
  · have hall : ∀ c : Byte, ∀ d ∈ dig c, DigitOf c d := by decide
    exact hall c d
  · rintro ⟨hd, h⟩
    have hall : ∀ d < 36, dig ((cstr "0123456789abcdefghijklmnopqrstuvwxyz").getD d 0) = some d ∧
        dig ((cstr "0123456789ABCDEFGHIJKLMNOPQRSTUVWXYZ").getD d 0) = some d := by decide
    obtain rfl | rfl := h
    · exact (hall d hd).1
    · exact (hall d hd).2

theorem DigitOf.unique {c : Byte} {d d' : ℕ} (h : DigitOf c d) (h' : DigitOf c d') : d = d' := by
  rw [← dig_eq_some_iff] at h h'
  exact Option.some.inj (h.symm.trans h')

/-- No digit is a blank, a sign or a NUL. -/
theorem DigitOf.ne {c : Byte} {d : ℕ} (h : DigitOf c d) :
    ¬ isBlank c ∧ c ≠ chr '+' ∧ c ≠ chr '-' ∧ c ≠ 0 := by
  have hall : ∀ c : Byte, (dig c).isSome →
      ¬ isBlank c ∧ c ≠ chr '+' ∧ c ≠ chr '-' ∧ c ≠ 0 := by decide
  exact hall c (by rw [dig_eq_some_iff.mpr h]; rfl)

/-- The letter of the prefix is a digit in large bases only. -/
theorem DigitOf.of_x {d : ℕ} (h : DigitOf (chr 'x') d) : d = 33 :=
  h.unique (dig_eq_some_iff.mp rfl)

theorem digitOf_zero : DigitOf (chr '0') 0 :=
  dig_eq_some_iff.mp rfl

section

variable {b v n : ℕ} {ds : List Byte}

theorem Extends.mem (h : Extends b v ds n) : ∀ c ∈ ds, ∃ d < b, DigitOf c d := by
  induction h with
  | nil => exact fun c hc => absurd hc List.not_mem_nil
  | cons hc hd _ ih => exact List.forall_mem_cons.mpr ⟨⟨_, hd, hc⟩, ih⟩

theorem Extends.unique {n' : ℕ} (h : Extends b v ds n) (h' : Extends b v ds n') : n = n' := by
  induction h with
  | nil =>
      cases h'
      rfl
  | cons hc _ _ ih =>
      cases h' with
      | cons hc' _ h' =>
          obtain rfl := hc.unique hc'
          exact ih h'

/-- Of digits in front of something else, nothing but digits can be taken. -/
theorem length_le_of_digits {r u : List Byte} (hr : ∀ c ∈ r, ∃ d < b, DigitOf c d)
    (hpre : r <+: ds ++ u) (hu : ¬ BeginsDigit b u) : r.length ≤ ds.length := by
  rcases List.prefix_or_prefix_of_prefix hpre (List.prefix_append ds u) with h | ⟨e, rfl⟩
  · exact h.length_le
  · rw [List.prefix_append_right_inj] at hpre
    cases e with
    | nil => rw [List.append_nil]
    | cons c e =>
        obtain ⟨d, hd, hc⟩ := hr c (by simp)
        obtain ⟨u', rfl⟩ := hpre
        exact absurd ⟨c, rfl, d, hd, hc⟩ hu

/-- The digits that come first. -/
theorem exists_run (b v : ℕ) (t : List Byte) :
    ∃ ds u n, t = ds ++ u ∧ Extends b v ds n ∧ ¬ BeginsDigit b u := by
  induction t generalizing v with
  | nil => exact ⟨[], [], v, rfl, .nil, fun ⟨c, hc, _⟩ => absurd hc (by simp)⟩
  | cons c t ih =>
      by_cases h : BeginsDigit b (c :: t)
      · obtain ⟨c', hc, d, hd, hdigit⟩ := h
        obtain rfl : c = c' := Option.some.inj hc
        obtain ⟨ds, u, n, rfl, hds, hu⟩ := ih (v * b + d)
        exact ⟨c :: ds, u, n, rfl, .cons hdigit hd hds, hu⟩
      · exact ⟨[], c :: t, v, rfl, .nil, h⟩

/-- **The loop over the digits** reads those that come first. -/
theorem digitLoop_run (hb : b < 2 ^ 31) (h : Extends b v ds n) {u : List Byte}
    (hu : ¬ BeginsDigit b u) (rest : List Byte) :
    digitLoop (BitVec.ofNat 32 b) (ds ++ (u ++ 0 :: rest)) (BitVec.ofNat 32 v) =
      some (BitVec.ofNat 32 n, u ++ 0 :: rest) := by
  induction h with
  | nil =>
      rw [List.nil_append]
      cases u with
      | nil => rw [List.nil_append, digitLoop, dig_nul]
      | cons c u =>
          rw [List.cons_append, digitLoop]
          cases hc : dig c with
          | none => rfl
          | some d =>
              have hle : (BitVec.ofNat 32 b).toInt ≤ d := by
                rw [toInt_ofNat_of_lt hb]
                by_contra hlt
                exact hu ⟨c, rfl, d, by omega, dig_eq_some_iff.mp hc⟩
              simp only [if_pos hle]
  | @cons v d n c ds hc hd _ ih =>
      rw [List.cons_append, digitLoop_cons hb hd (dig_eq_some_iff.mpr hc), ← BitVec.ofNat_mul,
        ← BitVec.ofNat_add]
      exact ih

end

/-! ### Numbers without a sign -/

theorem Digits.exists_head {b n : ℕ} {ds : List Byte} (h : Digits b ds n) : BeginsDigit b ds := by
  obtain ⟨hne, hds⟩ := h
  cases hds with
  | nil => exact absurd rfl hne
  | cons hc hd _ => exact ⟨_, rfl, _, hd, hc⟩

/-- A digit comes first. -/
theorem Unsigned.exists_head {base n : ℕ} {r : List Byte} (h : Unsigned base r n) :
    ∃ c r' d, r = c :: r' ∧ DigitOf c d := by
  have hcons : ∀ {b : ℕ} {r : List Byte}, BeginsDigit b r →
      ∃ c r' d, r = c :: r' ∧ DigitOf c d := by
    rintro b r ⟨c, hc, d, -, hd⟩
    obtain ⟨r', rfl⟩ := List.head?_eq_some_iff.mp hc
    exact ⟨c, r', d, rfl, hd⟩
  cases h with
  | given _ h => exact hcons h.exists_head
  | hex _ _ => exact ⟨chr '0', _, 0, rfl, digitOf_zero⟩
  | octal _ _ => exact ⟨chr '0', _, 0, rfl, digitOf_zero⟩
  | decimal _ _ h => exact hcons h.exists_head

/-- The prefix of hexadecimals is no number in a base up to 33. -/
theorem not_digits_hexPrefix {b n : ℕ} (hb : b ≤ 33) (ds : List Byte) :
    ¬ Digits b (hexPrefix ++ ds) n := by
  intro h
  obtain ⟨d, hd, hx⟩ := h.2.mem (chr 'x') (by simp [hexPrefix])
  have h33 := hx.of_x
  omega

/-- **A number has one value**: no text can be read in two ways. -/
theorem Unsigned.unique {base n n' : ℕ} {r : List Byte} (h : Unsigned base r n)
    (h' : Unsigned base r n') : n = n' := by
  generalize hs : r = s at h'
  cases h with
  | given hbase h =>
      cases h' with
      | given _ h' => exact h.2.unique (hs ▸ h'.2)
      | hex hbase' _ => exact absurd (hs ▸ h) (not_digits_hexPrefix (by omega) _)
      | octal hbase' _ => exact absurd hbase' hbase
      | decimal hbase' _ _ => exact absurd hbase' hbase
  | hex hbase h =>
      cases h' with
      | given hbase' h' => exact absurd (hs ▸ h') (not_digits_hexPrefix (by omega) _)
      | hex _ h' => exact h.2.unique (List.append_cancel_left hs ▸ h'.2)
      | octal _ h' => exact absurd (hs ▸ h') (not_digits_hexPrefix (by omega) _)
      | decimal _ hhead _ => exact absurd (by rw [← hs]; rfl) hhead
  | octal hbase h =>
      cases h' with
      | given hbase' _ => exact absurd hbase hbase'
      | hex _ _ => exact absurd (hs.symm ▸ h) (not_digits_hexPrefix (by omega) _)
      | octal _ h' => exact h.2.unique (hs ▸ h'.2)
      | decimal _ hhead _ => exact absurd (by rw [← hs]; rfl) hhead
  | decimal hbase hhead h =>
      cases h' with
      | given hbase' _ => exact absurd hbase hbase'
      | hex _ _ => exact absurd (by rw [hs]; rfl) hhead
      | octal _ _ => exact absurd (by rw [hs]; rfl) hhead
      | decimal _ _ h' => exact h.2.unique (hs ▸ h'.2)

/-! ### What is read behind the sign -/

/-- The prefix and the digits. -/
def readUnsigned (base : BitVec 32) (s : List Byte) : Option (BitVec 32 × List Byte) :=
  (takePrefix base s).bind fun r => digitLoop r.1 r.2 0

theorem ofNat_eq_iff {a b : ℕ} (ha : a < 2 ^ 32) (hb : b < 2 ^ 32) :
    BitVec.ofNat 32 a = BitVec.ofNat 32 b ↔ a = b := by
  rw [← BitVec.toNat_inj, BitVec.toNat_ofNat, BitVec.toNat_ofNat, Nat.mod_eq_of_lt ha,
    Nat.mod_eq_of_lt hb]

section

variable {base : ℕ} (hbase : base ≤ 36)
include hbase

/-- Behind a hex prefix. -/
theorem readUnsigned_hex (hhex : base = 0 ∨ base = 16) (s : List Byte) :
    readUnsigned (BitVec.ofNat 32 base) (hexPrefix ++ s) = digitLoop (BitVec.ofNat 32 16) s 0 := by
  have hcond : (BitVec.ofNat 32 base = 0 ∨ BitVec.ofNat 32 base = 16) ∧ chr '0' = chr '0' ∧
      chr 'x' = chr 'x' := by
    obtain rfl | rfl := hhex
    · exact ⟨Or.inl rfl, rfl, rfl⟩
    · exact ⟨Or.inr rfl, rfl, rfl⟩
  rw [readUnsigned, hexPrefix, List.cons_append, List.cons_append, List.nil_append, takePrefix,
    if_pos hcond]
  rfl

/-- Without a hex prefix. -/
theorem readUnsigned_of_not_hex {t : List Byte}
    (hhex : base = 0 ∨ base = 16 → ¬ hexPrefix <+: t) (rest : List Byte) :
    readUnsigned (BitVec.ofNat 32 base) (t ++ 0 :: rest) =
      if base = 0 ∧ t.head? = some (chr '0') then
        digitLoop (BitVec.ofNat 32 8) (t.tail ++ 0 :: rest) 0
      else digitLoop (BitVec.ofNat 32 (if base = 0 then 10 else base)) (t ++ 0 :: rest) 0 := by
  have hzero : BitVec.ofNat 32 base = 0 ↔ base = 0 := ofNat_eq_iff (by omega) (by decide)
  have h16 : BitVec.ofNat 32 base = 16 ↔ base = 16 := ofNat_eq_iff (by omega) (by decide)
  have hprefix : takePrefix (BitVec.ofNat 32 base) (t ++ 0 :: rest) =
      if base = 0 ∧ t.head? = some (chr '0') then some (8, t.tail ++ 0 :: rest)
      else if base = 0 then some (10, t ++ 0 :: rest)
      else some (BitVec.ofNat 32 base, t ++ 0 :: rest) := by
    cases t with
    | nil =>
        have hnul : (0 : Byte) ≠ chr '0' := by decide
        rw [if_neg fun h => absurd h.2 (by simp), List.nil_append]
        cases rest with
        | nil =>
            rw [takePrefix, if_neg fun h => hnul h.2]
            simp only [hzero]
        | cons c rest =>
            rw [takePrefix, if_neg fun h => hnul h.2.1, if_neg fun h => hnul h.2]
            simp only [hzero]
    | cons b t =>
        simp only [List.head?_cons, Option.some.injEq, List.tail_cons]
        cases t with
        | nil =>
            have hx : (0 : Byte) ≠ chr 'x' := by decide
            rw [List.cons_append, List.nil_append, takePrefix, if_neg fun h => hx h.2.2]
            simp only [hzero]
        | cons c t =>
            have hne : ¬ ((BitVec.ofNat 32 base = 0 ∨ BitVec.ofNat 32 base = 16) ∧ b = chr '0' ∧
                c = chr 'x') := by
              rintro ⟨hcond, rfl, rfl⟩
              rw [hzero, h16] at hcond
              exact hhex hcond ⟨t, rfl⟩
            rw [List.cons_append, List.cons_append, takePrefix, if_neg hne]
            simp only [hzero]
  rw [readUnsigned, hprefix]
  split
  · rfl
  · split <;> rfl

/-- The numbers at the front of a text with the hex prefix. -/
theorem length_le_of_hexPrefix (hhex : base = 0 ∨ base = 16) {r v : List Byte} {n : ℕ}
    (h : Unsigned base r n) (hpre : r <+: hexPrefix ++ v) :
    r.length ≤ 1 ∨ ∃ ds, r = hexPrefix ++ ds ∧ ds <+: v ∧ Digits 16 ds n := by
  have hx : ∀ b ≤ 33, ¬ BeginsDigit b (chr 'x' :: v) := by
    rintro b hb ⟨c, hc, d, hd, hdigit⟩
    obtain rfl := Option.some.inj hc
    have h33 := hdigit.of_x
    omega
  have hpre' : r <+: [chr '0'] ++ chr 'x' :: v := hpre
  cases h with
  | given hbase h => exact Or.inl (length_le_of_digits h.2.mem hpre' (hx _ (by omega)))
  | hex _ h => exact Or.inr ⟨_, rfl, (List.prefix_append_right_inj _).mp hpre, h⟩
  | octal _ h => exact Or.inl (length_le_of_digits h.2.mem hpre' (hx _ (by omega)))
  | decimal _ _ h => exact Or.inl (length_le_of_digits h.2.mem hpre' (hx _ (by omega)))

/-- **A bare prefix**: its `0` is the number, and the `x` is taken as well. -/
theorem readUnsigned_bare (hhex : base = 0 ∨ base = 16) {u : List Byte}
    (hu : ¬ BeginsDigit 16 u) (rest : List Byte) :
    readUnsigned (BitVec.ofNat 32 base) (hexPrefix ++ (u ++ 0 :: rest)) =
        some (0, u ++ 0 :: rest) ∧
      Longest (Unsigned base) (hexPrefix ++ u) [chr '0'] 0 := by
  refine ⟨?_, ⟨chr 'x' :: u, rfl⟩, ?_, fun r n hpre h => ?_⟩
  · rw [readUnsigned_hex hbase hhex]
    exact digitLoop_run (by decide) (.nil (v := 0)) hu rest
  · have hzero : ∀ b, 0 < b → Digits b [chr '0'] 0 := fun b hb =>
      ⟨by simp, .cons digitOf_zero hb (by rw [Nat.zero_mul]; exact .nil)⟩
    obtain rfl | rfl := hhex
    · exact .octal rfl (hzero 8 (by decide))
    · exact .given (by decide) (hzero 16 (by decide))
  · obtain hle | ⟨ds, rfl, hds, h⟩ := length_le_of_hexPrefix hbase hhex h hpre
    · exact hle
    · obtain ⟨c, hc, d, hd, hdigit⟩ := h.exists_head
      obtain ⟨u', rfl⟩ := hds
      exact absurd ⟨c, by rw [List.head?_append, hc]; rfl, d, hd, hdigit⟩ hu

/-- Hexadecimals with their prefix. -/
theorem readUnsigned_prefixed (hhex : base = 0 ∨ base = 16) {v : List Byte}
    (hv : BeginsDigit 16 v) (rest : List Byte) :
    ∃ r n u, hexPrefix ++ v = r ++ u ∧
      readUnsigned (BitVec.ofNat 32 base) (hexPrefix ++ (v ++ 0 :: rest)) =
        some (BitVec.ofNat 32 n, u ++ 0 :: rest) ∧
      Longest (Unsigned base) (hexPrefix ++ v) r n := by
  obtain ⟨ds, u, n, rfl, hds, hu⟩ := exists_run 16 0 v
  have hne : ds ≠ [] := by
    rintro rfl
    exact hu hv
  refine ⟨hexPrefix ++ ds, n, u, (List.append_assoc ..).symm, ?_, ?_, .hex hhex ⟨hne, hds⟩,
    fun r n' hpre h => ?_⟩
  · rw [readUnsigned_hex hbase hhex, List.append_assoc]
    exact digitLoop_run (by decide) hds hu rest
  · rw [← List.append_assoc]
    exact List.prefix_append _ _
  · obtain hle | ⟨ds', rfl, hds', h⟩ := length_le_of_hexPrefix hbase hhex h hpre
    · exact Nat.le_trans hle (by simp [hexPrefix])
    · have := length_le_of_digits h.2.mem hds' hu
      simp only [List.length_append]
      omega

omit hbase in
/-- Octals, in base 0. -/
theorem readUnsigned_octal {v : List Byte} (hx : ¬ hexPrefix <+: chr '0' :: v)
    (rest : List Byte) :
    ∃ r n u, chr '0' :: v = r ++ u ∧
      readUnsigned 0 (chr '0' :: v ++ 0 :: rest) = some (BitVec.ofNat 32 n, u ++ 0 :: rest) ∧
      Longest (Unsigned 0) (chr '0' :: v) r n := by
  obtain ⟨ds, u, n, rfl, hds, hu⟩ := exists_run 8 0 v
  have hdigits : Extends 8 0 (chr '0' :: ds) n :=
    .cons digitOf_zero (by decide) (by rw [Nat.zero_mul]; exact hds)
  refine ⟨chr '0' :: ds, n, u, rfl, ?_, ⟨u, rfl⟩, .octal rfl ⟨by simp, hdigits⟩,
    fun r n' hpre h => ?_⟩
  · have hread := readUnsigned_of_not_hex (Nat.zero_le 36) (fun _ => hx) rest
    rw [if_pos ⟨rfl, rfl⟩, List.tail_cons, List.append_assoc] at hread
    exact hread.trans (digitLoop_run (by decide) hds hu rest)
  · have hpre' : r <+: (chr '0' :: ds) ++ u := hpre
    cases h with
    | given h0 _ => exact absurd rfl h0
    | hex _ _ => exact absurd ((List.prefix_append _ _).trans hpre) hx
    | octal _ h => exact length_le_of_digits h.2.mem hpre' hu
    | decimal _ hhead h =>
        obtain ⟨c, hc, -⟩ := h.exists_head
        obtain ⟨w, hw⟩ := hpre
        have hhead' := congrArg List.head? hw
        rw [List.head?_append, hc] at hhead'
        exact absurd (hc.trans hhead') hhead

/-- Digits in the base given, or decimal ones. -/
theorem readUnsigned_plain {t : List Byte} (hx : base = 0 ∨ base = 16 → ¬ hexPrefix <+: t)
    (hzero : base = 0 → t.head? ≠ some (chr '0')) (rest : List Byte) :
    ∃ ds u n, t = ds ++ u ∧
      readUnsigned (BitVec.ofNat 32 base) (t ++ 0 :: rest) =
        some (BitVec.ofNat 32 n, u ++ 0 :: rest) ∧
      Extends (if base = 0 then 10 else base) 0 ds n ∧
      ¬ BeginsDigit (if base = 0 then 10 else base) u ∧
      ∀ r n', r <+: t → Unsigned base r n' → r.length ≤ ds.length := by
  obtain ⟨ds, u, n, rfl, hds, hu⟩ := exists_run (if base = 0 then 10 else base) 0 t
  refine ⟨ds, u, n, rfl, ?_, hds, hu, fun r n' hpre h => ?_⟩
  · rw [readUnsigned_of_not_hex hbase hx, if_neg fun h => hzero h.1 h.2, List.append_assoc]
    exact digitLoop_run (by split <;> omega) hds hu rest
  · cases h with
    | given h0 h =>
        rw [if_neg h0] at hu
        exact length_le_of_digits h.2.mem hpre hu
    | hex hhex _ => exact absurd ((List.prefix_append _ _).trans hpre) (hx hhex)
    | octal h0 _ =>
        obtain ⟨w, hw⟩ := hpre
        exact absurd (by rw [← hw]; rfl) (hzero h0)
    | decimal h0 _ h =>
        rw [if_pos h0] at hu
        exact length_le_of_digits h.2.mem hpre hu

/-- **A number**: all of it is read, and nothing else. -/
theorem readUnsigned_digits {t : List Byte} (hbare : ¬ BarePrefix base t)
    (hdigit : BeginsDigit (if base = 0 then 10 else base) t) (rest : List Byte) :
    ∃ r n u, t = r ++ u ∧
      readUnsigned (BitVec.ofNat 32 base) (t ++ 0 :: rest) =
        some (BitVec.ofNat 32 n, u ++ 0 :: rest) ∧
      Longest (Unsigned base) t r n := by
  by_cases hhex : (base = 0 ∨ base = 16) ∧ hexPrefix <+: t
  · obtain ⟨hhex, v, rfl⟩ := hhex
    have hv : BeginsDigit 16 v := by
      by_contra h
      exact hbare ⟨hhex, v, rfl, h⟩
    rw [List.append_assoc]
    exact readUnsigned_prefixed hbase hhex hv rest
  have hx : base = 0 ∨ base = 16 → ¬ hexPrefix <+: t := fun h hpre => hhex ⟨h, hpre⟩
  by_cases hoct : base = 0 ∧ t.head? = some (chr '0')
  · obtain ⟨rfl, hhead⟩ := hoct
    obtain ⟨v, rfl⟩ := List.head?_eq_some_iff.mp hhead
    exact readUnsigned_octal (hx (Or.inl rfl)) rest
  · obtain ⟨ds, u, n, rfl, hread, hds, hu, hmax⟩ :=
      readUnsigned_plain hbase hx (fun h0 hhead => hoct ⟨h0, hhead⟩) rest
    have hne : ds ≠ [] := by
      rintro rfl
      exact hu hdigit
    refine ⟨ds, n, u, rfl, hread, List.prefix_append _ _, ?_, hmax⟩
    by_cases h0 : base = 0
    · rw [if_pos h0] at hds
      refine .decimal h0 (fun hhead => hoct ⟨h0, ?_⟩) ⟨hne, hds⟩
      rw [List.head?_append, hhead]
      rfl
    · rw [if_neg h0] at hds
      exact .given h0 ⟨hne, hds⟩

/-- **No number**: nothing is read. -/
theorem readUnsigned_none {t : List Byte}
    (hdigit : ¬ BeginsDigit (if base = 0 then 10 else base) t) (rest : List Byte) :
    readUnsigned (BitVec.ofNat 32 base) (t ++ 0 :: rest) = some (0, t ++ 0 :: rest) ∧
      ∀ r n, r <+: t → ¬ Unsigned base r n := by
  have hhead : t.head? ≠ some (chr '0') := by
    intro h
    exact hdigit ⟨chr '0', h, 0, by split <;> omega, digitOf_zero⟩
  have hx : ¬ hexPrefix <+: t := by
    rintro ⟨v, rfl⟩
    exact hhead rfl
  obtain ⟨ds, u, n, rfl, hread, hds, hu, hmax⟩ :=
    readUnsigned_plain hbase (fun _ => hx) (fun _ => hhead) rest
  cases hds with
  | nil =>
      refine ⟨hread, fun r n hpre h => ?_⟩
      obtain ⟨c, r', d, rfl, -⟩ := h.exists_head
      exact absurd (hmax _ n hpre h) (by simp)
  | cons hc hd _ => exact absurd ⟨_, rfl, _, hd, hc⟩ hdigit

end

/-! ### Blanks and sign -/

/-- The parts of a string: blanks, an optional sign, and the rest. -/
structure Parts (s w g : List Byte) (neg : Bool) (t : List Byte) : Prop where
  eq : s = w ++ (g ++ t)
  blanks : ∀ c ∈ w, isBlank c
  sign : Sign g neg
  head : ∀ c ∈ (g ++ t).head?, ¬ isBlank c
  unsigned : g = [] → ∀ c ∈ t.head?, c ≠ chr '+' ∧ c ≠ chr '-'

theorem exists_parts (s : List Byte) : ∃ w g neg, Parts s w g neg (unsignedPart s) := by
  have hsplit := List.takeWhile_append_dropWhile (p := fun c => decide (isBlank c)) (l := s)
  have hblanks : ∀ c ∈ s.takeWhile fun c => decide (isBlank c), isBlank c := fun c hc => by
    have hall := List.all_takeWhile (p := fun c => decide (isBlank c)) (l := s)
    simpa using List.all_eq_true.mp hall c hc
  have hhead : ∀ c ∈ (s.dropWhile fun c => decide (isBlank c)).head?, ¬ isBlank c := by
    intro c hc
    have := List.head?_dropWhile_not (fun c => decide (isBlank c)) s
    rw [hc] at this
    simpa using this
  rw [unsignedPart]
  generalize s.dropWhile (fun c => decide (isBlank c)) = t at hsplit hhead ⊢
  by_cases hplus : t.head? = some (chr '+')
  · obtain ⟨t, rfl⟩ := List.head?_eq_some_iff.mp hplus
    rw [if_pos (Or.inl hplus)]
    exact ⟨_, [chr '+'], false, hsplit.symm, hblanks, .plus, hhead, by simp⟩
  by_cases hminus : t.head? = some (chr '-')
  · obtain ⟨t, rfl⟩ := List.head?_eq_some_iff.mp hminus
    rw [if_pos (Or.inr hminus)]
    exact ⟨_, [chr '-'], true, hsplit.symm, hblanks, .minus, hhead, by simp⟩
  · rw [if_neg (not_or.mpr ⟨hplus, hminus⟩)]
    refine ⟨_, [], false, hsplit.symm, hblanks, .none, hhead, fun _ c hc => ⟨?_, ?_⟩⟩
    · rintro rfl
      exact hplus hc
    · rintro rfl
      exact hminus hc

/-- The blanks are gobbled. -/
theorem gobble_append {w : List Byte} (hw : ∀ c ∈ w, isBlank c) {c : Byte} (hc : ¬ isBlank c)
    (u : List Byte) : gobble (w ++ c :: u) = some (c :: u) := by
  induction w with
  | nil => exact if_neg hc
  | cons b w ih =>
      obtain ⟨hb, hw⟩ := List.forall_mem_cons.mp hw
      exact (if_pos hb).trans (ih hw)

/-- Blanks in front of no blank, in two ways. -/
theorem blanks_eq_of_prefix {w w' u u' : List Byte} (hw : ∀ c ∈ w, isBlank c)
    (hw' : ∀ c ∈ w', isBlank c) (hu : ∀ c ∈ u.head?, ¬ isBlank c)
    (hu' : ∃ c v, u' = c :: v ∧ ¬ isBlank c) (hpre : w' ++ u' <+: w ++ u) :
    w' = w ∧ u' <+: u := by
  obtain ⟨c, v, rfl, hc⟩ := hu'
  induction w generalizing w' with
  | nil =>
      cases w' with
      | nil => exact ⟨rfl, hpre⟩
      | cons b w' =>
          obtain ⟨z, hz⟩ := hpre
          rw [List.nil_append] at hz
          exact absurd (hw' b List.mem_cons_self) (hu b (by rw [← hz]; rfl))
  | cons b w ih =>
      cases w' with
      | nil =>
          obtain ⟨rfl, -⟩ := List.cons_prefix_cons.mp hpre
          exact absurd (hw c List.mem_cons_self) hc
      | cons b' w' =>
          obtain ⟨rfl, htail⟩ := List.cons_prefix_cons.mp hpre
          obtain ⟨rfl, hrest⟩ :=
            ih (List.forall_mem_cons.mp hw).2 (List.forall_mem_cons.mp hw').2 htail
          exact ⟨rfl, hrest⟩

/-- A sign in front of no sign, in two ways. -/
theorem sign_eq_of_prefix {g g' t r : List Byte} {neg neg' : Bool} (hg : Sign g neg)
    (hg' : Sign g' neg') (ht : g = [] → ∀ c ∈ t.head?, c ≠ chr '+' ∧ c ≠ chr '-') {c : Byte}
    (hplus : c ≠ chr '+') (hminus : c ≠ chr '-') (hpre : g' ++ c :: r <+: g ++ t) :
    g' = g ∧ neg' = neg ∧ c :: r <+: t := by
  have hne : chr '+' ≠ chr '-' := by decide
  have hhead : ∀ b v, b :: v <+: t → b ∈ t.head? := by
    rintro b v ⟨z, rfl⟩
    rfl
  cases hg with
  | none =>
      cases hg' with
      | none => exact ⟨rfl, rfl, hpre⟩
      | plus => exact absurd rfl (ht rfl _ (hhead _ _ hpre)).1
      | minus => exact absurd rfl (ht rfl _ (hhead _ _ hpre)).2
  | plus =>
      cases hg' with
      | none => exact absurd (List.cons_prefix_cons.mp hpre).1 hplus
      | plus => exact ⟨rfl, rfl, (List.cons_prefix_cons.mp hpre).2⟩
      | minus => exact absurd (List.cons_prefix_cons.mp hpre).1.symm hne
  | minus =>
      cases hg' with
      | none => exact absurd (List.cons_prefix_cons.mp hpre).1 hminus
      | plus => exact absurd (List.cons_prefix_cons.mp hpre).1 hne
      | minus => exact ⟨rfl, rfl, (List.cons_prefix_cons.mp hpre).2⟩

section

variable {s w g t : List Byte} {neg : Bool} (h : Parts s w g neg t)
include h

/-- **Blanks and sign** are read, and what is left as a number without a sign. -/
theorem strtol_parts (base : BitVec 32) (rest : List Byte) :
    strtol (s ++ 0 :: rest) base =
      (readUnsigned base (t ++ 0 :: rest)).map fun r => (if neg then -r.1 else r.1, r.2) := by
  have hgobble : gobble (s ++ 0 :: rest) = some (g ++ (t ++ 0 :: rest)) := by
    rw [h.eq, List.append_assoc, ← List.append_assoc g]
    have hhead := h.head
    cases hgt : g ++ t with
    | nil =>
        obtain ⟨rfl, rfl⟩ := List.append_eq_nil_iff.mp hgt
        exact gobble_append h.blanks (by decide) rest
    | cons c u =>
        rw [hgt] at hhead
        exact gobble_append h.blanks (hhead c rfl) (u ++ 0 :: rest)
  have hsign : takeSign (g ++ (t ++ 0 :: rest)) = some (neg, t ++ 0 :: rest) := by
    have hnone := h.unsigned
    cases h.sign with
    | plus => rfl
    | minus => rfl
    | none =>
        cases t with
        | nil => rfl
        | cons c t =>
            obtain ⟨hplus, hminus⟩ := hnone rfl c rfl
            exact (if_neg hplus).trans (if_neg hminus)
  rw [strtol, hgobble]
  simp only [Option.bind_eq_bind, Option.bind_some, hsign, readUnsigned]
  rcases takePrefix base (t ++ 0 :: rest) with _ | ⟨base', s'⟩
  · rfl
  · simp only [Option.bind_some]
    generalize digitLoop base' s' 0 = r
    cases r <;> rfl

/-- Every number at the front of a string has its blanks and its sign. -/
theorem number_parts {base : ℕ} {p : List Byte} {x : ℤ} (hpre : p <+: s)
    (hp : Number base p x) : ∃ r n, p = w ++ (g ++ r) ∧ r <+: t ∧ Unsigned base r n ∧
      x = if neg then -(n : ℤ) else n := by
  obtain ⟨hw', hg', hr⟩ := hp
  rename_i w' g' r neg' n
  rw [h.eq] at hpre
  obtain ⟨c, r', d, rfl, hc⟩ := hr.exists_head
  obtain ⟨hblank, hplus, hminus, -⟩ := hc.ne
  have hstart : ∃ c' u, g' ++ c :: r' = c' :: u ∧ ¬ isBlank c' := by
    cases hg' with
    | none => exact ⟨c, r', rfl, hblank⟩
    | plus => exact ⟨chr '+', c :: r', rfl, by decide⟩
    | minus => exact ⟨chr '-', c :: r', rfl, by decide⟩
  obtain ⟨rfl, hsigned⟩ := blanks_eq_of_prefix h.blanks hw' h.head hstart hpre
  obtain ⟨rfl, rfl, hrest⟩ := sign_eq_of_prefix h.sign hg' h.unsigned hplus hminus hsigned
  exact ⟨c :: r', n, rfl, hrest, hr, rfl⟩

/-- The longest number, and its value. -/
theorem longest_parts {base n : ℕ} {r : List Byte} (hr : Longest (Unsigned base) t r n) :
    Longest (Number base) s (w ++ (g ++ r)) (if neg then -(n : ℤ) else n) := by
  obtain ⟨hpre, hnum, hmax⟩ := hr
  refine ⟨?_, .intro h.blanks h.sign hnum, fun p x hp hx => ?_⟩
  · rw [h.eq]
    exact (List.prefix_append_right_inj w).mpr ((List.prefix_append_right_inj g).mpr hpre)
  · obtain ⟨r', n', rfl, hpre', hnum', -⟩ := number_parts h hp hx
    have hle := hmax r' n' hpre' hnum'
    simp only [List.length_append]
    omega

/-- There is only one. -/
theorem longest_parts_unique {base n : ℕ} {r p : List Byte} {x : ℤ}
    (hr : Longest (Unsigned base) t r n) (hp : Longest (Number base) s p x) :
    p = w ++ (g ++ r) ∧ x = if neg then -(n : ℤ) else n := by
  obtain ⟨r', n', rfl, hpre', hnum', rfl⟩ := number_parts h hp.1 hp.2.1
  have hlong := longest_parts h hr
  have hle := hp.2.2 _ _ hlong.1 hlong.2.1
  have hle' := hr.2.2 r' n' hpre' hnum'
  simp only [List.length_append] at hle
  obtain rfl : r' = r :=
    (List.prefix_of_prefix_length_le hpre' hr.1 hle').eq_of_length (by omega)
  rw [hnum'.unique hr.2.1]
  exact ⟨rfl, rfl⟩

/-- What `strtol` makes of a number that is read. -/
theorem strtol_read {base n : ℕ} {u rest : List Byte}
    (hread : readUnsigned (BitVec.ofNat 32 base) (t ++ 0 :: rest) =
      some (BitVec.ofNat 32 n, u)) :
    strtol (s ++ 0 :: rest) (BitVec.ofNat 32 base) =
      some (BitVec.ofInt 32 (if neg then -(n : ℤ) else n), u) := by
  rw [strtol_parts h, hread, Option.map_some]
  cases neg with
  | false => rfl
  | true => simp only [if_true, BitVec.ofInt_neg, BitVec.ofInt_natCast]

end

/-! ### The two ways to go wrong -/

section

variable {base : ℕ} (hbase : base ≤ 36) {s : List Byte} (rest : List Byte)
include hbase

/-- A bare prefix. -/
theorem not_consumesNumber_of_bare (h : BarePrefix base (unsignedPart s)) :
    ¬ ConsumesNumber base s rest := by
  obtain ⟨w, g, neg, hparts⟩ := exists_parts s
  obtain ⟨hhex, u, ht, hu⟩ := h
  obtain ⟨hread, hlong⟩ := readUnsigned_bare hbase hhex hu rest
  rw [← List.append_assoc, ← ht] at hread
  rw [← ht] at hlong
  rintro ⟨hnumber, -⟩
  have heq := hnumber _ _ (longest_parts hparts hlong)
  rw [strtol_read hparts hread, Option.some.injEq, Prod.mk.injEq] at heq
  have hlen := congrArg List.length heq.2
  have hs := congrArg List.length (hparts.eq.trans (by rw [ht]))
  simp only [List.length_append, List.length_drop, List.length_cons, List.length_nil,
    hexPrefix] at hlen hs
  omega

/-- Blanks or a sign, and no number. -/
theorem not_consumesNumber_of_none
    (hdigit : ¬ BeginsDigit (if base = 0 then 10 else base) (unsignedPart s))
    (hne : unsignedPart s ≠ s) : ¬ ConsumesNumber base s rest := by
  obtain ⟨w, g, neg, hparts⟩ := exists_parts s
  obtain ⟨hread, hnone⟩ := readUnsigned_none hbase hdigit rest
  rintro ⟨-, habsent⟩
  have heq := habsent fun p x hp hx => by
    obtain ⟨r, n, -, hpre, hnum, -⟩ := number_parts hparts hp hx
    exact hnone r n hpre hnum
  rw [strtol_read hparts hread, Option.some.injEq, Prod.mk.injEq] at heq
  exact hne (List.append_cancel_right heq.2)

end

/-- **When `strtol` consumes exactly the number.** For every string and base: it returns the
number at the front of the string and `*endptr` is the end of it, or 0 and the string itself,
unless there is a bare prefix, or blanks or a sign without digits. -/
theorem consumesNumber_iff {base : ℕ} (hbase : base ≤ 36) (s rest : List Byte) :
    ConsumesNumber base s rest ↔ Readable base s := by
  constructor
  · intro h
    refine ⟨fun hbare => not_consumesNumber_of_bare hbase rest hbare h, ?_⟩
    by_contra hneither
    obtain ⟨hdigit, hne⟩ := not_or.mp hneither
    exact not_consumesNumber_of_none hbase rest hdigit hne h
  · rintro ⟨hbare, hdigit⟩
    obtain ⟨w, g, neg, hparts⟩ := exists_parts s
    by_cases hbegins : BeginsDigit (if base = 0 then 10 else base) (unsignedPart s)
    · obtain ⟨r, n, u, ht, hread, hlong⟩ := readUnsigned_digits hbase hbare hbegins rest
      refine ⟨fun p x hp => ?_, fun hnone => ?_⟩
      · obtain ⟨rfl, rfl⟩ := longest_parts_unique hparts hlong hp
        rw [strtol_read hparts hread]
        have hdrop : s.drop (w ++ (g ++ r)).length = u := by
          have hsplit : s = w ++ (g ++ r) ++ u := by
            rw [List.append_assoc, List.append_assoc, ← ht]
            exact hparts.eq
          rw [hsplit]
          exact List.drop_left
        rw [hdrop]
      · have hnumber := longest_parts hparts hlong
        exact absurd hnumber.2.1 (hnone _ _ hnumber.1)
    · obtain ⟨hread, hnone⟩ := readUnsigned_none hbase hbegins rest
      have hstrtol := strtol_read hparts (n := 0) hread
      refine ⟨fun p x hp => ?_, fun _ => ?_⟩
      · obtain ⟨r, n, -, hpre, hnum, -⟩ := number_parts hparts hp.1 hp.2.1
        exact absurd hnum (hnone r n hpre)
      · rw [hstrtol, hdigit.resolve_left hbegins]
        cases neg <;> rfl

/-- A negative hexadecimal with its prefix. -/
theorem consumesNumber_iff_hex :
    ConsumesNumber 16 ("-0x1F".toList.map chr) [] ↔ Readable 16 ("-0x1F".toList.map chr) :=
  consumesNumber_iff (by decide) _ []

/-- **A lone `0x`**: the number is the `0`, and the `x` is consumed as well. -/
theorem not_consumesNumber :
    ¬ ∀ (base : ℕ) (s rest : List Byte), base = 0 ∨ 2 ≤ base ∧ base ≤ 36 → 0 ∉ s →
      ConsumesNumber base s rest := by
  intro h
  refine not_consumesNumber_of_bare (by decide) [] ?_ (h 16 hexPrefix [] (by decide) (by decide))
  refine ⟨Or.inr rfl, [], rfl, ?_⟩
  rintro ⟨c, hc, -⟩
  cases hc

end Jos
