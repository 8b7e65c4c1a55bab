import Jos.Console
import Jos.FormatRules

/-!
# Formatted Output on the Console

`kern/printf.c`: the formatter with the console as its sink.
-/

namespace Jos

/-- `putch`. Its `*cnt++` advances the parameter `cnt`, a copy of the pointer, and leaves
the count it points to as it is. -/
def putch (ch : BitVec 32) (s : Console × BitVec 32) : Console × BitVec 32 :=
  (cputchar ch s.1, s.2)

/-- `vcprintf`: the console after it, and the count it returns. -/
def vcprintf (fmt : List Byte) (ap : Args) (s : Console) : Except Fault (Console × BitVec 32) := do
  let (r, _) ← vprintfmt putch fmt ap (s, 0)
  pure r

/-- `cprintf`. -/
def cprintf (fmt : List Byte) (ap : Args) (s : Console) : Except Fault (Console × BitVec 32) :=
  vcprintf fmt ap s

/-! ### Strings -/

/-- The part of a string that a precision lets through: all of it, if it is negative. -/
def taken (precision : BitVec 32) (t : List Byte) : List Byte :=
  if precision.toInt < 0 then t else t.take precision.toInt.toNat

/-- The characters of a string, those outside ` ` to `~` replaced by `?` where there is a `#`. -/
def shown (altflag : Bool) (t : List Byte) : List Byte :=
  t.map fun b => if altflag = true ∧ ¬ (chr ' ' ≤ b ∧ b ≤ chr '~') then chr '?' else b

/-- Without a `#` all characters are shown as they are. -/
theorem shown_false (t : List Byte) : shown false t = t := by
  simp [shown]

/-- A plain `char` is negative from `0x80` on. -/
theorem outside_iff (b : Byte) : ((b.signExtend 32 : BitVec 32).toInt < 0x20 ∨
    0x7E < (b.signExtend 32 : BitVec 32).toInt) ↔ ¬ (chr ' ' ≤ b ∧ b ≤ chr '~') := by
  revert b
  decide

section

variable {σ : Type} (putch : BitVec 32 → σ → σ)

/-- A precision that is used up, and one that is not. -/
theorem toInt_sub_one {precision : BitVec 32} (h : ¬ precision.toInt < 0) :
    (precision - 1).toInt = precision.toInt - 1 := by
  have hone : (1 : BitVec 32).toInt = 1 := rfl
  have hlt := BitVec.toInt_lt (x := precision)
  rw [BitVec.toInt_sub, hone, Int.bmod_eq_of_le (by omega) (by omega)]

/-- **What the loop of `%s` prints** of a string that ends: the characters that the precision
lets through, each of which takes one off the width. -/
theorem strLoop_text (altflag : Bool) {t : List Byte} (ht : 0 ∉ t) (rest : List Byte)
    (precision width : BitVec 32) (s : σ) :
    strLoop putch altflag (t ++ 0 :: rest) precision width s =
      .ok ((shown altflag (taken precision t)).foldl (fun s b => putch (b.signExtend 32) s) s,
        width - BitVec.ofNat 32 (taken precision t).length) := by
  induction t generalizing precision width s with
  | nil =>
      have hnil : taken precision [] = [] := by simp [taken]
      simp [strLoop, hnil, shown]
  | cons b t ih =>
      have hb : b ≠ 0 := fun h => ht (h ▸ List.mem_cons_self)
      have htail : 0 ∉ t := fun h => ht (List.mem_cons_of_mem b h)
      have hchar : (if altflag = true ∧ ((b.signExtend 32 : BitVec 32).toInt < 0x20 ∨
            0x7E < (b.signExtend 32 : BitVec 32).toInt) then putch ((chr '?').signExtend 32) s
          else putch (b.signExtend 32) s) =
          putch ((if altflag = true ∧ ¬ (chr ' ' ≤ b ∧ b ≤ chr '~') then chr '?' else b).signExtend
            32) s := by
        simp only [outside_iff]
        split <;> rfl
      have hwidth : ∀ n, width - 1 - BitVec.ofNat 32 n = width - BitVec.ofNat 32 (n + 1) := by
        intro n
        rw [Nat.add_comm, BitVec.ofNat_add]
        exact sub_sub width 1 _
      rw [List.cons_append, strLoop]
      simp only [if_neg hb, hchar]
      by_cases hneg : precision.toInt < 0
      · have htaken : ∀ l, taken precision l = l := fun l => if_pos hneg
        rw [if_pos hneg, ih htail, htaken, htaken, hwidth]
        rfl
      · rw [if_neg hneg]
        by_cases hzero : 0 ≤ (precision - 1).toInt
        · have htaken : taken precision (b :: t) = b :: taken (precision - 1) t := by
            rw [taken, taken, if_neg hneg, if_neg (by omega), toInt_sub_one hneg]
            rw [toInt_sub_one hneg] at hzero
            obtain ⟨k, hk⟩ : ∃ k : ℕ, precision.toInt = k + 1 :=
              ⟨(precision.toInt - 1).toNat, by omega⟩
            rw [hk, Int.add_sub_cancel]
            rfl
          rw [if_pos hzero, ih htail, htaken, hwidth]
          rfl
        · have htaken : taken precision (b :: t) = [] := by
            rw [toInt_sub_one hneg] at hzero
            rw [taken, if_neg hneg, show precision.toInt = 0 by omega]
            rfl
          rw [if_neg hzero, htaken]
          simp [shown]

/-- The characters of a string that ends can be printed. -/
theorem strLoop_isOk (altflag : Bool) {text : List Byte} (h : 0 ∈ text)
    (precision width : BitVec 32) (s : σ) :
    ∃ r, strLoop putch altflag text precision width s = .ok r := by
  obtain ⟨t, rest, rfl, ht⟩ := List.eq_append_cons_of_mem h
  exact ⟨_, strLoop_text putch altflag ht rest precision width s⟩

/-- The case without a precision and a `#`. -/
theorem strLoop_string {t : List Byte} (ht : 0 ∉ t) (width : BitVec 32) (s : σ) :
    strLoop putch false (t ++ [0]) (-1) width s =
      .ok (t.foldl (fun s b => putch (b.signExtend 32) s) s,
        width - BitVec.ofNat 32 t.length) := by
  have htaken : taken (-1) t = t := if_pos (by decide)
  rw [strLoop_text putch false ht, htaken, shown_false]

/-- **What `%s` prints**: the characters, each as a plain `char`, and blanks while the width
that is left is positive. It starts at minus one. -/
theorem vprintfmt_string {t : List Byte} (ht : 0 ∉ t) (s : σ) :
    vprintfmt putch (cstr "%s") [.str (t ++ [0])] s =
      .ok ((putch ((chr ' ').signExtend 32))^[(-1 - BitVec.ofNat 32 t.length).toInt.toNat]
        (t.foldl (fun s b => putch (b.signExtend 32) s) s), []) := by
  have hnul : (0 : Byte) ∉ stringFmt := by decide
  change vprintfmt putch (stringFmt ++ [0]) [.str (t ++ [0])] s = _
  rw [vprintfmt_items putch hnul, items_stringFmt]
  have hpad : padBefore putch .init (t ++ [0]) s = .ok (s, -1) := if_neg (by decide)
  have hloop := strLoop_string putch ht (-1) s
  have hstr : formatStr putch .init (t ++ [0]) s =
      .ok ((putch ((chr ' ').signExtend 32))^[(-1 - BitVec.ofNat 32 t.length).toInt.toNat]
        (t.foldl (fun s b => putch (b.signExtend 32) s) s)) := by
    rw [formatStr, hpad, ok_bind]
    exact congrArg (· >>= _) hloop
  simp only [runItems, flags, ok_bind, Opts.flush, convert_s, vaStr, Option.getD_some, hstr]

/-- `%s` prints a string that ends. -/
theorem vprintfmt_string_isOk {text : List Byte} (h : 0 ∈ text) (s : σ) :
    ∃ r, vprintfmt putch (cstr "%s") [.str text] s = .ok (r, []) := by
  have hnul : (0 : Byte) ∉ stringFmt := by decide
  change ∃ r, vprintfmt putch (stringFmt ++ [0]) [.str text] s = .ok (r, [])
  rw [vprintfmt_items putch hnul, items_stringFmt]
  obtain ⟨⟨s', width⟩, hloop⟩ := strLoop_isOk putch false h (-1) (-1) s
  have hpad : padBefore putch .init text s = .ok (s, -1) := if_neg (by decide)
  have hstr : ∃ s', formatStr putch .init text s = .ok s' := by
    rw [formatStr, hpad, ok_bind]
    exact ⟨_, congrArg (· >>= _) hloop⟩
  obtain ⟨s', hs'⟩ := hstr
  simp only [runItems, flags, ok_bind, Opts.flush, convert_s, vaStr, Option.getD_some, hs']
  exact ⟨s', rfl⟩

end

/-- A format without escapes is printed byte by byte. -/
theorem cprintf_literal {t : List Byte} (ht : ∀ b ∈ t, b ≠ chr '%' ∧ b ≠ 0) (ap : Args)
    (s : Console) :
    cprintf (t ++ [0]) ap s = .ok (t.foldl (fun s b => cputchar (b.setWidth 32) s) s, 0) := by
  have hnul : (0 : Byte) ∉ t := fun h => (ht 0 h).2 rfl
  have hputs : ∀ s : Console × BitVec 32, puts putch t s =
      (t.foldl (fun s b => cputchar (b.setWidth 32) s) s.1, s.2) := by
    clear ht hnul
    induction t with
    | nil => exact fun s => rfl
    | cons b t ih => exact fun s => ih _
  have hitems := parse_lits (fun b hb => (ht b hb).1) []
  rw [List.append_nil] at hitems
  rw [cprintf, vcprintf, vprintfmt_items putch hnul, items, hitems, runItems_lits, hputs]
  rfl

/-- A string that is printed through `%s`. -/
theorem cprintf_string {t : List Byte} (ht : 0 ∉ t) (s : Console) :
    cprintf (cstr "%s") [.str (t ++ [0])] s =
      .ok ((cputchar 0x20)^[(-1 - BitVec.ofNat 32 t.length).toInt.toNat]
        (t.foldl (fun s b => cputchar (b.signExtend 32) s) s), 0) := by
  have hfold : ∀ (t : List Byte) (s : Console × BitVec 32),
      t.foldl (fun s b => putch (b.signExtend 32) s) s =
        (t.foldl (fun s b => cputchar (b.signExtend 32) s) s.1, s.2) := by
    intro t
    induction t with
    | nil => exact fun s => rfl
    | cons b t ih => exact fun s => ih _
  have hblanks : ∀ (n : ℕ) (s : Console × BitVec 32),
      (putch ((chr ' ').signExtend 32))^[n] s = ((cputchar 0x20)^[n] s.1, s.2) := by
    intro n
    induction n with
    | zero => exact fun s => rfl
    | succ n ih => exact fun s => ih _
  rw [cprintf, vcprintf, vprintfmt_string putch ht, hfold, hblanks]
  rfl

/-- Nothing but its string can keep `cprintf("%s", p)` from printing it. -/
theorem cprintf_string_isOk {text : List Byte} (h : 0 ∈ text) (s : Console) :
    ∃ r, cprintf (cstr "%s") [.str text] s = .ok r := by
  obtain ⟨r, hr⟩ := vprintfmt_string_isOk putch h (s, 0)
  exact ⟨r, by rw [cprintf, vcprintf, hr]; rfl⟩

end Jos
