import Jos.Printf
import Jos.Snprintf

/-!
# What the Print Calls Return

`cprintf` and `vsnprintf` print with the same formatter, and each is meant to return the
number of characters printed. `sprintputch` counts them. `putch` does not: its `*cnt++`
moves its copy of the pointer on, so `vcprintf` returns the 0 it began with.

The two counts are alike exactly for the formats that print nothing, which can be told
from the format and its arguments (`Silent`): every item of the format is a `%s` with no
width to fill, and its string is empty or its precision is 0.

## Main results

* `vcprintf_output`: what `vcprintf` does to the console, and that it returns 0.
* `output_eq_nil_iff`: a format prints nothing if and only if it is `Silent`.
* `countsAlike_iff`: when the print calls count alike.
-/

namespace Jos

/-! ### Formats that print nothing -/

/-- A `%s` with the locals `o` prints nothing of the string `p`. -/
def Opts.Blank (o : Opts) (p : List Byte) : Prop :=
  o.width.toInt ≤ 0 ∧ (o.precision = 0 ∨ p.head? = some 0)

/-- Items that print nothing with the arguments given: blank string conversions. -/
inductive Silent : List Item → Args → Prop
  | nil (ap : Args) : Silent [] ap
  | str {body : List Byte} {is : List Item} {o : Opts} {p : Option (List Byte)}
      {ap ap' ap'' : Args} (hflags : flags body none .init ap = .ok (o, ap'))
      (hstr : vaStr ap' = .ok (p, ap'')) (hblank : o.Blank (p.getD (cstr "(null)")))
      (h : Silent is ap'') : Silent (.esc body (chr 's') :: is) ap

/-- The sink that knows only whether anything has been printed. -/
def touch (_ : BitVec 32) (_ : Bool) : Bool :=
  true

@[simp] theorem touch_eq (c : BitVec 32) (b : Bool) : touch c b = true := rfl

theorem touch_iterate (c : BitVec 32) (n : ℕ) (b : Bool) :
    (touch c)^[n] b = true ↔ b = true ∨ 0 < n := by
  cases n with
  | zero => simp
  | succ n => simp [Function.iterate_succ_apply']

/-- Characters are printed literally. -/
theorem puts_touch (c : Byte) (l : List Byte) (b : Bool) : puts touch (c :: l) b = true := by
  induction l generalizing c b with
  | nil => rfl
  | cons d l ih => exact ih d _

/-- A number has at least one digit. -/
theorem printnum_touch (num base : ℕ) (width : BitVec 32) (padc : Byte) (b : Bool) :
    printnum touch num base width padc b = true := rfl

/-- **The characters of a string.** Either there are none to print or the sink is touched. -/
theorem strLoop_touch {altflag : Bool} {p : List Byte} {precision width width' : BitVec 32}
    {b b' : Bool} (h : strLoop touch altflag p precision width b = .ok (b', width')) :
    if precision = 0 ∨ p.head? = some 0 then b' = b ∧ width' = width else b' = true := by
  induction p generalizing precision width b with
  | nil => cases h
  | cons c p ih =>
      have hput : (if altflag = true ∧ ((c.signExtend 32 : BitVec 32).toInt < 0x20 ∨
          0x7E < (c.signExtend 32 : BitVec 32).toInt) then touch ((chr '?').signExtend 32) b
          else touch (c.signExtend 32) b) = true := by
        split <;> rfl
      have hrest : ∀ {precision width : BitVec 32},
          strLoop touch altflag p precision width true = .ok (b', width') → b' = true := by
        intro precision width h
        have h := ih h
        split at h
        · exact h.1
        · exact h
      rw [strLoop] at h
      simp only [hput, List.head?_cons, Option.some.injEq] at h ⊢
      by_cases hc : c = 0
      · rw [if_pos hc] at h
        cases h
        simp [hc]
      rw [if_neg hc] at h
      by_cases hneg : precision.toInt < 0
      · have hne : precision ≠ 0 := by
          rintro rfl
          exact absurd hneg (by decide)
        rw [if_pos hneg] at h
        rw [if_neg (not_or.mpr ⟨hne, hc⟩)]
        exact hrest h
      rw [if_neg hneg] at h
      by_cases hzero : precision = 0
      · subst hzero
        rw [if_neg (by decide)] at h
        cases h
        simp
      · have hpos : 0 ≤ (precision - 1).toInt := by
          have hne : precision.toInt ≠ 0 := fun h => hzero (BitVec.eq_of_toInt_eq h)
          rw [toInt_sub_one hneg]
          omega
        rw [if_pos hpos] at h
        rw [if_neg (not_or.mpr ⟨hzero, hc⟩)]
        exact hrest h

/-- A string of no characters, as `strnlen` counts them. -/
theorem strnlen_of_empty {p : List Byte} {precision : BitVec 32}
    (h : precision = 0 ∨ p.head? = some 0) : strnlen p precision.toNat = some 0 := by
  rcases h with rfl | h
  · exact strnlen.eq_1 p
  · obtain ⟨c, p⟩ | _ := p
    · cases h
    · cases h
      cases precision.toNat <;> rfl

/-- **The case of `%s`.** -/
theorem formatStr_touch {o : Opts} {p : List Byte} {b b' : Bool}
    (h : formatStr touch o p b = .ok b') : b' = true ↔ b = true ∨ ¬ o.Blank p := by
  rw [formatStr] at h
  rcases hpad : padBefore touch o p b with e | ⟨b₁, w₁⟩
  · rw [hpad] at h
    cases h
  rw [hpad, ok_bind] at h
  rcases hloop : strLoop touch o.altflag p o.precision w₁ b₁ with e | ⟨b₂, w₂⟩
  · simp only [hloop] at h
    cases h
  simp only [hloop, ok_bind] at h
  cases h
  have hchars := strLoop_touch hloop
  rw [touch_iterate]
  by_cases hempty : o.precision = 0 ∨ p.head? = some 0
  · rw [if_pos hempty] at hchars
    obtain ⟨rfl, rfl⟩ := hchars
    have hblank : o.Blank p ↔ ¬ 0 < o.width.toInt := by
      rw [Opts.Blank, not_lt]
      exact and_iff_left hempty
    rw [hblank, not_not]
    rw [padBefore, strnlen_of_empty hempty] at hpad
    split at hpad
    · -- the width is filled in front of the string
      rename_i hwidth
      cases hpad
      have hsub : o.width - BitVec.ofNat 32 0 = o.width := by simp
      simp only [hsub, touch_iterate, if_pos hwidth.1]
      have hpos := hwidth.1
      constructor
      · exact fun _ => Or.inr hpos
      · exact fun _ => Or.inl (Or.inr (by omega))
    · -- or behind it
      cases hpad
      exact or_congr_right (by omega)
  · rw [if_neg hempty] at hchars
    exact iff_of_true (Or.inl hchars) (Or.inr fun h => hempty h.2)

/-- The conversion `%s`. -/
theorem convert_touch_str {pf : List Byte → Args → Bool → Except Fault (Bool × Args)} {o : Opts}
    {ap ap' : Args} {b b' : Bool}
    (h : convert touch pf o (chr 's') ap b = some (.ok (b', ap'))) :
    ∃ p, vaStr ap = .ok (p, ap') ∧ (b' = true ↔ b = true ∨ ¬ o.Blank (p.getD (cstr "(null)"))) := by
  rw [convert_s, Option.some.injEq] at h
  rcases hstr : vaStr ap with e | ⟨p, ap₁⟩
  · rw [hstr] at h
    cases h
  rw [hstr, ok_bind] at h
  rcases hformat : formatStr touch o (p.getD (cstr "(null)")) b with e | b₁
  · rw [hformat] at h
    cases h
  rw [hformat] at h
  cases h
  exact ⟨p, rfl, formatStr_touch hformat⟩

/-- The messages of the error table are not empty. -/
theorem errorString_head {err : BitVec 32} {p : List Byte} (h : errorString err = some p) :
    p.head? ≠ some 0 := by
  have hmem : some p ∈ errorTable := by
    rw [errorString, List.getD_eq_getElem?_getD] at h
    rcases hget : errorTable[(4 * err).toNat / 4]? with _ | q
    · rw [hget] at h
      cases h
    · rw [hget] at h
      exact h ▸ List.mem_of_getElem? hget
  have htable : ∀ q ∈ errorTable, ∀ p ∈ q, p.head? ≠ some 0 := by decide
  exact htable _ hmem p rfl

/-- The case of `%e` prints a message. -/
theorem formatErr_touch {err : BitVec 32} {b b' : Bool} {ap : Args}
    (h : formatErr (printfmt touch) err b = .ok (b', ap)) : b' = true := by
  have herror : ∀ err, printfmt touch (cstr "error %d") [.word err] b = .ok (true, []) := by
    intro err
    have hnul : (0 : Byte) ∉ errorFmt := by decide
    change vprintfmt touch (errorFmt ++ [0]) [.word err] b = _
    have hget : getint (Opts.flush none .init).lflag [.word err] = .ok (err.signExtend 64, []) :=
      rfl
    rw [vprintfmt_items touch hnul, items_errorFmt, runItems_lits, runItems_esc]
    simp only [flags, ok_bind, convert_d, Option.elim_some, hget, printnum_touch, ite_self,
      runItems]
  rw [formatErr] at h
  split at h
  · rw [herror] at h
    cases h
    rfl
  · rename_i p hp
    have hnul : (0 : Byte) ∉ stringFmt := by decide
    have hhead : p.head? ≠ some 0 := by
      obtain ⟨-, hp⟩ := Option.ite_none_left_eq_some.mp hp
      exact errorString_head hp
    change vprintfmt touch (stringFmt ++ [0]) [.str p] b = _ at h
    rw [vprintfmt_items touch hnul, items_stringFmt, runItems_esc] at h
    simp only [flags, ok_bind, convert_s, Option.elim_some, vaStr, Option.getD_some] at h
    rcases hformat : formatStr touch (Opts.flush none .init) p b with e | b₁
    · rw [hformat] at h
      cases h
    rw [hformat] at h
    cases h
    refine (formatStr_touch hformat).mpr (Or.inr fun hblank => ?_)
    exact hblank.2.elim (by decide) hhead

/-- The other conversions print something. -/
theorem convert_touch_of_ne {o : Opts} {ch : Byte} (hconv : isConv ch) (hne : ch ≠ chr 's')
    {ap ap' : Args} {b b' : Bool}
    (h : convert touch (printfmt touch) o ch ap b = some (.ok (b', ap'))) : b' = true := by
  have hint : ∀ {x : Except Fault (BitVec 64 × Args)},
      (x >>= fun r => (.ok (true, r.2) : Except Fault (Bool × Args))) = .ok (b', ap') →
        b' = true := by
    rintro (e | r) h
    · cases h
    · cases h
      rfl
  have hword : ∀ {x : Except Fault (BitVec 32 × Args)},
      (x >>= fun r => (.ok (true, r.2) : Except Fault (Bool × Args))) = .ok (b', ap') →
        b' = true := by
    rintro (e | r) h
    · cases h
    · cases h
      rfl
  rcases (isConv_iff ch).mp hconv with rfl | rfl | rfl | rfl | rfl | rfl | rfl | rfl | rfl
  · exact hword (Option.some.inj h)
  · rw [convert_e, Option.some.injEq] at h
    rcases hap : vaInt ap with e | r
    · rw [hap] at h
      cases h
    rw [hap, ok_bind] at h
    rcases herr : formatErr (printfmt touch) r.1 b with e | x
    · rw [herr] at h
      cases h
    rw [herr] at h
    cases h
    exact formatErr_touch herr
  · exact absurd rfl hne
  · rw [convert_d] at h
    simp only [printnum_touch, ite_self] at h
    exact hint (Option.some.inj h)
  · exact hint (Option.some.inj h)
  · exact hint (Option.some.inj h)
  · exact hword (Option.some.inj h)
  · exact hint (Option.some.inj h)
  · cases h
    rfl

/-! ### Whole formats -/

/-- A `%s` in front of other items. -/
theorem silent_str_iff {body : List Byte} {is : List Item} {o : Opts} {p : Option (List Byte)}
    {ap ap' ap'' : Args} (hflags : flags body none .init ap = .ok (o, ap'))
    (hstr : vaStr ap' = .ok (p, ap'')) :
    Silent (.esc body (chr 's') :: is) ap ↔ o.Blank (p.getD (cstr "(null)")) ∧ Silent is ap'' := by
  constructor
  · rintro (_ | ⟨hflags', hstr', hblank, h⟩)
    rw [hflags] at hflags'
    cases hflags'
    rw [hstr] at hstr'
    cases hstr'
    exact ⟨hblank, h⟩
  · rintro ⟨hblank, h⟩
    exact .str hflags hstr hblank h

/-- No other item is silent. -/
theorem silent_cons {i : Item} {is : List Item} {ap : Args} (h : Silent (i :: is) ap) :
    ∃ body, i = .esc body (chr 's') := by
  cases h with
  | str => exact ⟨_, rfl⟩

/-- **A run over items** touches the sink unless they are silent. -/
theorem runItems_touch {is : List Item} {ap ap' : Args} {b b' : Bool}
    (h : runItems touch (printfmt touch) is ap b = .ok (b', ap')) :
    b' = true ↔ b = true ∨ ¬ Silent is ap := by
  induction is generalizing ap b with
  | nil =>
      cases h
      exact (or_iff_left (not_not.mpr (.nil _))).symm
  | cons i is ih =>
      -- an item that touches the sink, and is no `%s`
      have hloud : ∀ {ap₁}, runItems touch (printfmt touch) is ap₁ true = .ok (b', ap') →
          (∀ body, i ≠ .esc body (chr 's')) → (b' = true ↔ b = true ∨ ¬ Silent (i :: is) ap) := by
        intro ap₁ h hne
        refine iff_of_true ((ih h).mpr (Or.inl rfl)) (Or.inr fun hs => ?_)
        obtain ⟨body, heq⟩ := silent_cons hs
        exact hne body heq
      cases i with
      | lit c => exact hloud h fun body heq => Item.noConfusion heq
      | esc body ch =>
          rw [runItems_esc] at h
          rcases hflags : flags body none .init ap with e | ⟨o, ap₁⟩
          · rw [hflags] at h
            cases h
          rw [hflags, ok_bind] at h
          by_cases hconv : isConv ch
          · rcases hc : convert touch (printfmt touch) o ch ap₁ b with _ | e | ⟨b₁, ap₂⟩
            · exact absurd ((convert_eq_none_iff ..).mp hc) (not_not.mpr hconv)
            · simp only [hc, Option.elim_some, error_bind] at h
              cases h
            simp only [hc, Option.elim_some, ok_bind] at h
            by_cases hs : ch = chr 's'
            · subst hs
              obtain ⟨p, hstr, hb⟩ := convert_touch_str hc
              rw [ih h, hb, silent_str_iff hflags hstr, or_assoc, not_and_or]
            · rw [convert_touch_of_ne hconv hs hc] at h
              refine hloud h fun body heq => hs ?_
              cases heq
              rfl
          · rw [(convert_eq_none_iff ..).mpr hconv, Option.elim_none, puts_touch] at h
            refine hloud h fun body heq => hconv ?_
            cases heq
            decide
      | cut body =>
          rw [runItems] at h
          rcases hflags : flags body none .init ap with e | ⟨o, ap₁⟩
          · rw [hflags] at h
            cases h
          rw [hflags] at h
          cases h
          refine iff_of_true (puts_touch _ _ _) (Or.inr fun hs => ?_)
          obtain ⟨body, heq⟩ := silent_cons hs
          cases heq

/-- **Which formats print nothing.** -/
theorem output_eq_nil_iff {t : List Byte} (ht : 0 ∉ t) {ap rest : Args}
    {out : List (BitVec 32)} (h : output (t ++ [0]) ap = .ok (out, rest)) :
    out = [] ↔ Silent (items t) ap := by
  have hrel := vprintfmt_agree (p := fun c out => out ++ [c]) (q := touch)
    (R := fun out b => out ≠ [] ↔ b = true) (fun c out b _ => by simp) ht ap
    (show ([] : List (BitVec 32)) ≠ [] ↔ false = true by simp)
  change Agree _ (output (t ++ [0]) ap) _ at hrel
  rw [h] at hrel
  rcases htouch : vprintfmt touch (t ++ [0]) ap false with e | ⟨b, ap'⟩
  · rw [htouch] at hrel
    cases hrel
  rw [htouch] at hrel
  rw [vprintfmt_items touch ht] at htouch
  obtain ⟨hb, -⟩ : _ ∧ _ := by
    cases hrel with
    | ok h => exact h
  have hsilent := runItems_touch htouch
  rw [← hb, or_iff_right (by decide), not_iff_not] at hsilent
  exact hsilent

/-! ### What the calls return -/

/-- **What `vcprintf` does**: every character goes to the console, and 0 is returned. -/
theorem vcprintf_output {t : List Byte} (ht : 0 ∉ t) {ap rest : Args}
    {out : List (BitVec 32)} (h : output (t ++ [0]) ap = .ok (out, rest)) (s : Console) :
    vcprintf (t ++ [0]) ap s = .ok (out.foldl (fun s c => cputchar c s) s, 0) := by
  have hfold : ∀ r : Console × BitVec 32, out.foldl (fun r c => putch c r) r =
      (out.foldl (fun s c => cputchar c s) r.1, r.2) := by
    clear h
    induction out with
    | nil => exact fun r => rfl
    | cons c out ih => exact fun r => ih _
  rw [vcprintf, vprintfmt_eq_foldl putch ht h, hfold]
  rfl

/-- The print calls count alike: `vcprintf` and `cprintf`, on a console in the state `s`,
return the number of the characters they pass to `cputchar`, and `vsnprintf` returns the
same int with any buffer of at least one byte. -/
def CountsAlike (t : List Byte) (ap : Args) (s : Console) : Prop :=
  ∃ (out : List (BitVec 32)) (rest : Args) (s' : Console) (rc : BitVec 32),
    output (t ++ [0]) ap = .ok (out, rest) ∧
    s' = out.foldl (fun s c => cputchar c s) s ∧ rc.toInt = out.length ∧
    vcprintf (t ++ [0]) ap s = .ok (s', rc) ∧ cprintf (t ++ [0]) ap s = .ok (s', rc) ∧
    ∀ mem buf n, buf ≠ 0 → 1 ≤ n.toInt → buf.toNat + n.toNat ≤ 2 ^ 32 →
      ∃ mem', vsnprintf mem buf n (t ++ [0]) ap = .ok (mem', rc)

/-- **When the print calls count alike.** For a format and its arguments with an output of
fewer than `2 ^ 31` characters: if and only if every item of the format is a string
conversion that prints nothing. -/
theorem countsAlike_iff {t : List Byte} (ht : 0 ∉ t) {ap rest : Args} {out : List (BitVec 32)}
    (h : output (t ++ [0]) ap = .ok (out, rest)) (hlen : out.length < 2 ^ 31) (s : Console) :
    CountsAlike t ap s ↔ Silent (items t) ap := by
  rw [← output_eq_nil_iff ht h]
  constructor
  · rintro ⟨out', rest', s', rc, hout, -, hrc, hcall, -⟩
    rw [h] at hout
    cases hout
    rw [vcprintf_output ht h] at hcall
    cases hcall
    exact List.length_eq_zero_iff.mp (Int.ofNat.inj hrc.symm)
  · rintro rfl
    refine ⟨[], rest, s, 0, h, rfl, rfl, vcprintf_output ht h s, vcprintf_output ht h s, ?_⟩
    intro mem buf n hbuf hn hend
    obtain ⟨mem', hcall, -⟩ := vsnprintf_stores ht mem h hbuf hn hend
    exact ⟨mem', hcall⟩

/-- A string of no characters, on the console as it comes up. -/
theorem countsAlike_iff_empty :
    let s := cgaInit 0xA55A (Console.statics ⟨fun _ => 0, []⟩ ⟨0, fun _ => 0⟩)
    CountsAlike ("%s".toList.map chr) [.str [0]] s ↔
      Silent (items ("%s".toList.map chr)) [.str [0]] := by
  have hout : output ("%s".toList.map chr ++ [0]) [.str [0]] = .ok ([], []) := rfl
  exact countsAlike_iff (by decide) hout (by decide) _

/-- **The counts differ.** `cprintf("a")` passes one character to `cputchar`, and returns 0. -/
theorem not_countsAlike_letter :
    ¬ CountsAlike ("a".toList.map chr) []
      (cgaInit 0xA55A (Console.statics ⟨fun _ => 0, []⟩ ⟨0, fun _ => 0⟩)) := by
  rintro ⟨out, rest, s', rc, hout, -, hrc, hcall, -⟩
  have ha : output ("a".toList.map chr ++ [0]) [] = .ok ([0x61], []) := rfl
  rw [ha] at hout
  cases hout
  rw [vcprintf_output (by decide) ha] at hcall
  cases hcall
  exact absurd hrc (by decide)

end Jos
