import Jos.Strtol

/-!
# Directives

A directive of a format as it is usually written: flags, a width, a precision and a length
before the conversion character (`Directive`). Its parts carry what makes them well formed: a
width that is written out begins with no zero, which would be a flag, and no width is larger
than an int can be.

What the scan from `reswitch` on makes of a directive is a record of locals that can be read
off its parts (`Directive.opts`), and so its output is that of its conversion.

## Main results

* `flags_body`: the locals at the conversion character.
* `output_escape`, `output_directive`: what an escape and a directive print.
-/

namespace Jos

/-- The flags of a directive, in any order and number: `-` or `0`, not both, and `#`. -/
structure Flags where
  bytes : List Byte
  mem : ∀ b ∈ bytes, b = chr '-' ∨ b = chr '0' ∨ b = chr '#'
  one : chr '-' ∉ bytes ∨ chr '0' ∉ bytes

namespace Flags

/-- No flags. -/
def plain : Flags where
  bytes := []
  mem := fun _ h => absurd h List.not_mem_nil
  one := Or.inl List.not_mem_nil

/-- Whether there is a `-`. -/
def minus (f : Flags) : Bool :=
  f.bytes.contains (chr '-')

/-- Whether there is a `0`. -/
def zero (f : Flags) : Bool :=
  f.bytes.contains (chr '0')

/-- Whether there is a `#`. -/
def altflag (f : Flags) : Bool :=
  f.bytes.contains (chr '#')

/-- The padding character: a minus, a zero or a blank. -/
def padc (f : Flags) : Byte :=
  if f.minus then chr '-' else if f.zero then chr '0' else chr ' '

theorem padc_of_minus {f : Flags} (h : f.minus = true) : f.padc = chr '-' :=
  if_pos h

theorem padc_of_not_minus {f : Flags} (h : f.minus = false) :
    f.padc = if f.zero then chr '0' else chr ' ' :=
  if_neg (Bool.eq_false_iff.mp h)

end Flags

/-- The width of a directive: none, one that is written out, or a `*` for an argument that is
not negative. -/
inductive Width
  | none
  | digits (w : ℕ) (pos : 0 < w) (lt : w < 2 ^ 31)
  | star (w : ℕ) (lt : w < 2 ^ 31)

namespace Width

/-- Its number; no width is as good as 0. -/
def toNat : Width → ℕ
  | none => 0
  | digits w _ _ => w
  | star w _ => w

/-- Its characters. -/
def bytes : Width → List Byte
  | none => []
  | digits w _ _ => numeralText 10 w
  | star _ _ => [chr '*']

/-- Its argument, if it has one. -/
def args : Width → Args
  | star w _ => [.word (BitVec.ofNat 32 w)]
  | _ => []

/-- The local `width`, if no `.` comes behind it. -/
def value : Width → BitVec 32
  | none => -1
  | digits w _ _ => BitVec.ofNat 32 w
  | star w _ => BitVec.ofNat 32 w

end Width

/-- A directive without its conversion character. The precision is a `.*` for an argument. -/
structure Directive where
  flags : Flags
  width : Width
  precision : Option (BitVec 32)
  lflag : ℕ

namespace Directive

/-- Its characters between the `%` and the conversion character. -/
def body (d : Directive) : List Byte :=
  d.flags.bytes ++ (d.width.bytes ++
    ((if d.precision.isSome then [chr '.', chr '*'] else []) ++ List.replicate d.lflag (chr 'l')))

/-- The format that consists of it and the conversion character. -/
def fmt (d : Directive) (ch : Byte) : List Byte :=
  chr '%' :: (d.body ++ [ch]) ++ [0]

/-- The arguments before the one it converts. -/
def args (d : Directive) : Args :=
  d.width.args ++ (d.precision.map Arg.word).toList

/-- The locals at its conversion character. -/
def opts (d : Directive) : Opts where
  padc := d.flags.padc
  width := if d.precision.isSome ∧ d.width.value.toInt < 0 then 0 else d.width.value
  precision := d.precision.getD (-1)
  lflag := d.lflag
  altflag := d.flags.altflag

end Directive

/-! ### Flags -/

/-- One character of a directive. -/
theorem flags_cons {ch : Byte} {num num' : Option (BitVec 32)} {o o' : Opts} {ap ap' : Args}
    (h : flagStep ch num o ap = some (.ok (num', o', ap'))) (rest : List Byte) :
    flags (ch :: rest) num o ap = flags rest num' o' ap' := by
  rw [flags, h]
  rfl

/-- **The flags**: the padding character is a minus or a zero if there is one, as there are not
both of them. -/
theorem flags_append {bytes : List Byte}
    (hmem : ∀ b ∈ bytes, b = chr '-' ∨ b = chr '0' ∨ b = chr '#')
    (hone : chr '-' ∉ bytes ∨ chr '0' ∉ bytes) (rest : List Byte) (o : Opts) (ap : Args) :
    flags (bytes ++ rest) none o ap =
      flags rest none { o with
        padc := if bytes.contains (chr '-') then chr '-'
          else if bytes.contains (chr '0') then chr '0' else o.padc
        altflag := o.altflag || bytes.contains (chr '#') } ap := by
  induction bytes generalizing o with
  | nil => simp
  | cons b bytes ih =>
      have hmem' : ∀ c ∈ bytes, c = chr '-' ∨ c = chr '0' ∨ c = chr '#' :=
        fun c hc => hmem c (List.mem_cons_of_mem b hc)
      have hone' : chr '-' ∉ bytes ∨ chr '0' ∉ bytes :=
        hone.imp (fun h hc => h (List.mem_cons_of_mem b hc))
          fun h hc => h (List.mem_cons_of_mem b hc)
      have hminus : chr '-' ≠ chr '0' ∧ chr '-' ≠ chr '#' ∧ chr '0' ≠ chr '#' := by decide
      obtain rfl | rfl | rfl := hmem b (List.mem_cons_self ..)
      · have hzero : chr '0' ∉ bytes := hone.elim (fun h => absurd (List.mem_cons_self ..) h)
          fun h hc => h (List.mem_cons_of_mem _ hc)
        rw [List.cons_append, flags_cons (rfl : flagStep (chr '-') none o ap = _), ih hmem' hone']
        simp [hzero, hminus.2.1.symm]
      · have hno : chr '-' ∉ bytes := hone.elim (fun h hc => h (List.mem_cons_of_mem _ hc))
          fun h => absurd (List.mem_cons_self ..) h
        rw [List.cons_append, flags_cons (rfl : flagStep (chr '0') none o ap = _), ih hmem' hone']
        simp [hno, hminus.1, hminus.2.2.symm]
      · rw [List.cons_append, flags_cons (rfl : flagStep (chr '#') none o ap = _), ih hmem' hone']
        simp [hminus.2.1, hminus.2.2]

/-! ### The width -/

/-- A digit, as the scan sees it. -/
theorem isDigit_digitChar {d : ℕ} (h : d < 10) :
    isDigit (digitChar d) ∧ digitVal (digitChar d) = d ∧ digitChar d ≠ chr '-' := by
  revert d
  decide

/-- A number that is being read is put in place by the next character that is no digit. -/
theorem flags_flush {rest : List Byte} (hrest : ∀ b ∈ rest.head?, ¬ isDigit b) (v : BitVec 32)
    (o : Opts) (ap : Args) :
    flags rest (some v) o ap = flags rest none (o.processPrecision v) ap := by
  cases rest with
  | nil => rfl
  | cons b rest =>
      have hstep : flagStep b (some v) o ap = flagStep b none (o.processPrecision v) ap :=
        if_neg (hrest b rfl)
      rw [flags, flags, hstep]
      rfl

/-- Further digits of a number. -/
theorem flags_digits {ds : List ℕ} (hds : ∀ d ∈ ds, d < 10) (rest : List Byte) (v : BitVec 32)
    (o : Opts) (ap : Args) :
    flags (ds.map digitChar ++ rest) (some v) o ap =
      flags rest (some (ds.foldl (fun (v : BitVec 32) (d : ℕ) => v * ((10 : ℕ) : BitVec 32) + d) v))
        o ap := by
  induction ds generalizing v with
  | nil => rfl
  | cons d ds ih =>
      obtain ⟨hdigit, hval, -⟩ := isDigit_digitChar (hds d (List.mem_cons_self ..))
      have hstep : flagStep (digitChar d) (some v) o ap =
          some (.ok (some (v * 10 + digitVal (digitChar d)), o, ap)) := if_pos hdigit
      rw [List.map_cons, List.cons_append, flags_cons hstep,
        ih fun e he => hds e (List.mem_cons_of_mem d he), hval]
      rfl

/-- A number that is written out: its first digit is no flag. -/
theorem flags_numeral {w : ℕ} (hpos : 0 < w) {rest : List Byte}
    (hrest : ∀ b ∈ rest.head?, ¬ isDigit b) (o : Opts) (ap : Args) :
    flags (numeralText 10 w ++ rest) none o ap =
      flags rest none (o.processPrecision (BitVec.ofNat 32 w)) ap := by
  obtain ⟨d, ds, hnum, hzero⟩ := numeral_cons 10 w
  have hlt : ∀ e ∈ d :: ds, e < 10 := fun e he => lt_of_mem_numeral (by decide) (hnum ▸ he)
  have hd : d < 10 := hlt d (List.mem_cons_self ..)
  have hne : d ≠ 0 := fun h => hpos.ne' (hzero h).1
  obtain ⟨hdigit, hval, hminus⟩ := isDigit_digitChar hd
  have hstep : flagStep (digitChar d) none o ap =
      some (.ok (some (0 * 10 + digitVal (digitChar d)), o, ap)) := by
    rw [flagStep, flagCase, if_neg hminus,
      if_neg (mt (digitChar_eq_zero (by omega)).mp hne), if_pos hdigit]
  have hread := foldl_numeral (α := BitVec 32) 10 w
  rw [hnum, List.foldl_cons] at hread
  rw [numeralText, hnum, List.map_cons, List.cons_append, flags_cons hstep,
    flags_digits fun e he => hlt e (List.mem_cons_of_mem d he), hval, flags_flush hrest]
  exact congrArg (fun v => flags rest none (o.processPrecision v) ap) hread

/-- **The width.** -/
theorem flags_width (w : Width) {rest : List Byte} (hrest : ∀ b ∈ rest.head?, ¬ isDigit b)
    {o : Opts} (hwidth : o.width = -1) (hprecision : o.precision = -1) (ap : Args) :
    flags (w.bytes ++ rest) none o (w.args ++ ap) = flags rest none { o with width := w.value }
      ap := by
  have hset : ∀ v, o.processPrecision v = { o with width := v } := by
    intro v
    rw [Opts.processPrecision, if_pos (by rw [hwidth]; decide), ← hprecision]
  cases w with
  | none =>
      rw [Width.value, ← hwidth]
      rfl
  | digits w hpos hlt =>
      have h := flags_numeral hpos hrest o ap
      rw [hset] at h
      exact h
  | star w hlt =>
      rw [Width.value, ← hset]
      exact flags_cons rfl rest

/-! ### The precision and the length -/

/-- **The precision**, with which no width becomes the width 0. -/
theorem flags_precision (precision : Option (BitVec 32)) (rest : List Byte) {o : Opts}
    (hprecision : o.precision = -1) (ap : Args) :
    flags ((if precision.isSome then [chr '.', chr '*'] else []) ++ rest) none o
        ((precision.map Arg.word).toList ++ ap) =
      flags rest none { o with
        width := if precision.isSome ∧ o.width.toInt < 0 then 0 else o.width
        precision := precision.getD (-1) } ap := by
  cases precision with
  | none =>
      simp only [Option.isSome_none, Bool.false_eq_true, false_and, if_false, Option.getD_none]
      rw [← hprecision]
      rfl
  | some p =>
      simp only [Option.isSome_some, if_true, true_and, Option.getD_some]
      have hdot : flagStep (chr '.') none o (.word p :: ap) =
          some (.ok (none, if o.width.toInt < 0 then { o with width := 0 } else o,
            .word p :: ap)) := rfl
      have hstar : ∀ o : Opts, flagStep (chr '*') none o (.word p :: ap) =
          some (.ok (none, o.processPrecision p, ap)) := fun o => rfl
      refine (flags_cons hdot _).trans ((flags_cons (hstar _) rest).trans ?_)
      by_cases hneg : o.width.toInt < 0
      · have hzero : ¬ (0 : BitVec 32).toInt < 0 := by decide
        rw [if_pos hneg, if_pos hneg, Opts.processPrecision, if_neg hzero]
      · rw [if_neg hneg, if_neg hneg, Opts.processPrecision, if_neg hneg]

/-- **The length.** -/
theorem flags_length (k : ℕ) (o : Opts) (ap : Args) :
    flags (List.replicate k (chr 'l')) none o ap = .ok ({ o with lflag := o.lflag + k }, ap) := by
  induction k generalizing o with
  | zero => rfl
  | succ k ih =>
      rw [List.replicate_succ, flags_cons (rfl : flagStep (chr 'l') none o ap = _), ih,
        Nat.add_assoc, Nat.add_comm 1]

/-! ### The directive -/

/-- What stands behind the width begins with no digit. -/
theorem not_isDigit_head (p : Bool) (k : ℕ) :
    ∀ b ∈ ((if p then [chr '.', chr '*'] else []) ++ List.replicate k (chr 'l')).head?,
      ¬ isDigit b := by
  intro b hb
  cases p with
  | true =>
      obtain rfl : chr '.' = b := Option.some.inj hb
      decide
  | false =>
      cases k with
      | zero => exact absurd hb (by simp)
      | succ k =>
          obtain rfl : chr 'l' = b := Option.some.inj hb
          decide

/-- **The locals at the conversion character.** -/
theorem flags_body (d : Directive) (ap : Args) :
    flags d.body none .init (d.args ++ ap) = .ok (d.opts, ap) := by
  rw [Directive.body, flags_append d.flags.mem d.flags.one, Directive.args, List.append_assoc,
    flags_width d.width (not_isDigit_head _ _) rfl rfl, flags_precision d.precision _ rfl,
    flags_length]
  simp only [Opts.init, Bool.false_or, Nat.zero_add]
  rfl

/-- The characters of a directive are flags, as the scan takes them. -/
theorem isFlag_body (d : Directive) : ∀ b ∈ d.body, isFlag b := by
  intro b hb
  rw [Directive.body] at hb
  rcases List.mem_append.mp hb with hb | hb
  · obtain rfl | rfl | rfl := d.flags.mem b hb <;> decide
  rcases List.mem_append.mp hb with hb | hb
  · cases hwidth : d.width with
    | none =>
        rw [hwidth] at hb
        exact absurd hb List.not_mem_nil
    | digits w =>
        rw [hwidth] at hb
        obtain ⟨e, he, rfl⟩ := List.mem_map.mp hb
        exact Or.inl (isDigit_digitChar (lt_of_mem_numeral (by decide) he)).1
    | star w =>
        rw [hwidth] at hb
        obtain rfl := List.mem_singleton.mp hb
        decide
  rcases List.mem_append.mp hb with hb | hb
  · split at hb
    · obtain rfl | rfl : b = chr '.' ∨ b = chr '*' := by simpa using hb
      all_goals decide
    · exact absurd hb List.not_mem_nil
  · obtain rfl := List.eq_of_mem_replicate hb
    decide

/-- The format of one escape. -/
def escape (body : List Byte) (ch : Byte) : List Byte :=
  chr '%' :: (body ++ [ch]) ++ [0]

/-- What an escape prints is what its conversion prints with the locals that its flags leave. -/
theorem output_escape {body : List Byte} (hbody : ∀ b ∈ body, isFlag b) {ch : Byte}
    (hconv : isConv ch) {ap ap' : Args} {o : Opts}
    (hflags : flags body none .init ap = .ok (o, ap'))
    {r : Except Fault (List (BitVec 32) × Args)}
    (h : convert (fun c out => out ++ [c]) (printfmt fun c out => out ++ [c]) o ch ap' [] =
      some r) : output (escape body ch) ap = r := by
  have hne : ¬ isFlag ch ∧ ch ≠ 0 := by
    rcases (isConv_iff ch).mp hconv with rfl | rfl | rfl | rfl | rfl | rfl | rfl | rfl | rfl <;>
      decide
  have hnul : (0 : Byte) ∉ chr '%' :: (body ++ [ch]) := by
    simp only [List.mem_cons, List.mem_append, List.not_mem_nil, or_false, not_or]
    exact ⟨by decide, fun hb => (hbody 0 hb).ne.2 rfl, hne.2.symm⟩
  rw [output, escape, vprintfmt_items _ hnul, items_esc hbody hne.1 [], runItems, hflags, ok_bind]
  simp only [h]
  cases r with
  | error e => rfl
  | ok r => rfl

/-- **What a directive prints** is what its conversion prints with these locals. -/
theorem output_directive (d : Directive) {ch : Byte} (hconv : isConv ch) {ap : Args}
    {r : Except Fault (List (BitVec 32) × Args)}
    (h : convert (fun c out => out ++ [c]) (printfmt fun c out => out ++ [c]) d.opts ch ap [] =
      some r) : output (d.fmt ch) (d.args ++ ap) = r :=
  output_escape (isFlag_body d) hconv (flags_body d ap) h

end Jos
