import Jos.Format

/-!
# Rules for the Formatter

What every part of the formatter keeps, proved from the bottom up with the rules of
`Jos.Fallible`: it treats the sink as a black box (`runItems_agree`), it fails for want of
arguments only (`runItems_onlyFails`), and it does not look behind the arguments it reads
(`runItems_local`).

## Main results

* `vprintfmt_eq`: the recursive equation of `vprintfmt` and `printfmt`.
* `vprintfmt_agree`: two sinks whose `putch` keeps a relation are related afterwards.
* `vprintfmt_onlyFails`: the only way to fail is an argument that is missing.
* `vprintfmt_local`: arguments behind those that are read make no difference.
-/

namespace Jos

/-! ### Plain `char`s -/

/-- A plain `char` in more bits, cut down to fewer. -/
theorem setWidth_signExtend {v w : ℕ} (hvw : v ≤ w) (b : Byte) :
    (b.signExtend w).setWidth v = b.signExtend v := by
  apply BitVec.eq_of_getLsbD_eq
  intro i hi
  simp only [BitVec.getLsbD_setWidth, BitVec.getLsbD_signExtend, hi, show i < w by omega,
    decide_true, Bool.true_and]

/-- The low byte of a plain `char`. -/
theorem lowByte_signExtend (b : Byte) : ((b.signExtend 32 : BitVec 32).setWidth 8 : Byte) = b := by
  rw [setWidth_signExtend (by omega), BitVec.signExtend_eq_setWidth_of_le _ le_rfl,
    BitVec.setWidth_eq]

/-! ### The two inner formats -/

/-- The format of an unknown error. -/
def errorFmt : List Byte :=
  "error %d".toList.map chr

/-- The format of a known one. -/
def stringFmt : List Byte :=
  "%s".toList.map chr

/-- The formats that `%e` prints with have no NUL inside. -/
theorem nul_notMem_inner {f : List Byte} (hf : f ∈ [errorFmt, stringFmt]) : (0 : Byte) ∉ f := by
  revert f
  decide

/-- The items of `error %d`. -/
theorem items_errorFmt :
    items errorFmt = ("error ".toList.map chr).map Item.lit ++ [.esc [] (chr 'd')] := by
  decide

/-- The item of `%s`. -/
theorem items_stringFmt : items stringFmt = [.esc [] (chr 's')] := by
  decide

section

variable {σ : Type} (putch : BitVec 32 → σ → σ)

/-! ### The recursion -/

/-- The inner formatter is called on two formats only. -/
theorem convert_congr {pf qf : List Byte → Args → σ → Except Fault (σ × Args)}
    (herror : ∀ ap s, pf (cstr "error %d") ap s = qf (cstr "error %d") ap s)
    (hstring : ∀ ap s, pf (cstr "%s") ap s = qf (cstr "%s") ap s) (o : Opts) (ch : Byte)
    (ap : Args) (s : σ) : convert putch pf o ch ap s = convert putch qf o ch ap s := by
  simp only [convert, formatErr, herror, hstring]

/-- The scan uses the function for nested formats at the two formats of `%e` only. -/
theorem scanLoop_congr {pf qf : List Byte → Args → σ → Except Fault (σ × Args)}
    (herror : ∀ ap s, pf (cstr "error %d") ap s = qf (cstr "error %d") ap s)
    (hstring : ∀ ap s, pf (cstr "%s") ap s = qf (cstr "%s") ap s) (fmt : List Byte)
    (fuel pos : ℕ) (ap : Args) (s : σ) :
    scanLoop putch pf fmt fuel pos ap s = scanLoop putch qf fmt fuel pos ap s := by
  induction fuel generalizing pos ap s with
  | zero => rfl
  | succ fuel ih => simp only [scanLoop, convert_congr putch herror hstring, ih]

/-- The conversions other than `%e` do not call the inner formatter. -/
theorem convert_of_ne {ch : Byte} (hch : ch ≠ chr 'e')
    (pf qf : List Byte → Args → σ → Except Fault (σ × Args)) (o : Opts) (ap : Args) (s : σ) :
    convert putch pf o ch ap s = convert putch qf o ch ap s := by
  simp only [convert, if_neg hch]

/-- Nor do the two formats. -/
theorem vprintfmtBody_error (pf qf : List Byte → Args → σ → Except Fault (σ × Args))
    (ap : Args) (s : σ) :
    vprintfmtBody putch pf (cstr "error %d") ap s =
      vprintfmtBody putch qf (cstr "error %d") ap s := by
  have hnul : (0 : Byte) ∉ errorFmt := by decide
  have hd : chr 'd' ≠ chr 'e' := by decide
  change vprintfmtBody putch pf (errorFmt ++ [0]) ap s =
    vprintfmtBody putch qf (errorFmt ++ [0]) ap s
  rw [vprintfmtBody_eq putch pf hnul, vprintfmtBody_eq putch qf hnul, items_errorFmt,
    runItems_lits, runItems_lits]
  simp only [runItems, convert_of_ne putch hd pf qf]

/-- `%s` does not use it at all. -/
theorem vprintfmtBody_string (pf qf : List Byte → Args → σ → Except Fault (σ × Args))
    (ap : Args) (s : σ) :
    vprintfmtBody putch pf (cstr "%s") ap s = vprintfmtBody putch qf (cstr "%s") ap s := by
  have hnul : (0 : Byte) ∉ stringFmt := by decide
  have hs : chr 's' ≠ chr 'e' := by decide
  change vprintfmtBody putch pf (stringFmt ++ [0]) ap s =
    vprintfmtBody putch qf (stringFmt ++ [0]) ap s
  rw [vprintfmtBody_eq putch pf hnul, vprintfmtBody_eq putch qf hnul, items_stringFmt]
  simp only [runItems, convert_of_ne putch hs pf qf]

/-- **The recursive equation.** `vprintfmt` calls `printfmt`, which calls `vprintfmt`. -/
theorem vprintfmt_eq (fmt : List Byte) (ap : Args) (s : σ) :
    vprintfmt putch fmt ap s = vprintfmtBody putch (printfmt putch) fmt ap s :=
  scanLoop_congr putch (fun ap s => vprintfmtBody_error putch _ _ ap s)
    (fun ap s => vprintfmtBody_string putch _ _ ap s) fmt _ 0 ap s

/-- **What `vprintfmt` does with a format.** -/
theorem vprintfmt_items {t : List Byte} (ht : 0 ∉ t) (ap : Args) (s : σ) :
    vprintfmt putch (t ++ [0]) ap s = runItems putch (printfmt putch) (items t) ap s := by
  rw [vprintfmt_eq, vprintfmtBody_eq putch _ ht]

end

/-! ### Two sinks -/

section

variable {σ τ : Type} {p : BitVec 32 → σ → σ} {q : BitVec 32 → τ → τ} {R : σ → τ → Prop}

/-- A sink and something else, related and the same. -/
def Both (R : σ → τ → Prop) {β : Type} (x : σ × β) (y : τ × β) : Prop :=
  R x.1 y.1 ∧ x.2 = y.2

variable (hput : ∀ c s t, R s t → R (p c s) (q c t))
include hput

/-- Literal text keeps the sinks related. -/
theorem puts_rel (l : List Byte) {s : σ} {t : τ} (h : R s t) : R (puts p l s) (puts q l t) := by
  induction l generalizing s t with
  | nil => exact h
  | cons b l ih => exact ih (hput _ _ _ h)

/-- The digits of a number do, with the padding in front of them. -/
theorem printnumTo_rel (fuel num base : ℕ) (width : BitVec 32) (padc : Byte) {s : σ} {t : τ}
    (h : R s t) :
    R (printnumTo p fuel num base width padc s) (printnumTo q fuel num base width padc t) := by
  induction fuel generalizing num width s t with
  | zero => exact h
  | succ fuel ih =>
      rw [printnumTo, printnumTo]
      refine hput _ _ _ ?_
      split
      · exact ih _ _ h
      · exact rel_iterate (hput _) _ h

/-- The characters of a string and the padding behind them do. -/
theorem strLoop_agree (altflag : Bool) (text : List Byte) (precision width : BitVec 32) {s : σ}
    {t : τ} (h : R s t) :
    Agree (Both R) (strLoop p altflag text precision width s)
      (strLoop q altflag text precision width t) := by
  induction text generalizing precision width s t with
  | nil => exact .error _
  | cons b text ih =>
      rw [strLoop, strLoop]
      have hchar : R
          (if altflag ∧ ((b.signExtend 32 : BitVec 32).toInt < 0x20 ∨
            0x7E < (b.signExtend 32 : BitVec 32).toInt) then p ((chr '?').signExtend 32) s
          else p (b.signExtend 32) s)
          (if altflag ∧ ((b.signExtend 32 : BitVec 32).toInt < 0x20 ∨
            0x7E < (b.signExtend 32 : BitVec 32).toInt) then q ((chr '?').signExtend 32) t
          else q (b.signExtend 32) t) := by
        split <;> exact hput _ _ _ h
      split
      · exact .ok ⟨h, rfl⟩
      split
      · exact ih _ _ hchar
      split
      · exact ih _ _ hchar
      · exact .ok ⟨h, rfl⟩

/-- The padding in front of a string does. -/
theorem padBefore_agree (o : Opts) (text : List Byte) {s : σ} {t : τ} (h : R s t) :
    Agree (Both R) (padBefore p o text s) (padBefore q o text t) := by
  rw [padBefore, padBefore]
  split
  · split
    · exact .error _
    · exact .ok ⟨rel_iterate (hput _) _ h, rfl⟩
  · exact .ok ⟨h, rfl⟩

/-- The case of `%s` does as a whole. -/
theorem formatStr_agree (o : Opts) (text : List Byte) {s : σ} {t : τ} (h : R s t) :
    Agree R (formatStr p o text s) (formatStr q o text t) := by
  refine (padBefore_agree hput o text h).bind ?_
  rintro ⟨s', width⟩ ⟨t', width'⟩ ⟨h', rfl⟩
  refine (strLoop_agree hput o.altflag text o.precision width h').bind ?_
  rintro ⟨s'', width'⟩ ⟨t'', width''⟩ ⟨h'', rfl⟩
  exact .ok (rel_iterate (hput _) _ h'')

section

variable {pf : List Byte → Args → σ → Except Fault (σ × Args)}
  {qf : List Byte → Args → τ → Except Fault (τ × Args)}
  (hpf : ∀ f ∈ [errorFmt, stringFmt], ∀ ap s t, R s t →
    Agree (Both R) (pf (f ++ [0]) ap s) (qf (f ++ [0]) ap t))
include hpf

omit hput in
/-- The case of `%e` does when the nested formats do. -/
theorem formatErr_agree (err : BitVec 32) {s : σ} {t : τ} (h : R s t) :
    Agree (Both R) (formatErr pf err s) (formatErr qf err t) := by
  rw [formatErr, formatErr]
  split
  · exact hpf errorFmt (List.mem_cons_self ..) _ _ _ h
  · exact hpf stringFmt (List.mem_cons_of_mem _ (List.mem_singleton_self _)) _ _ _ h

/-- **One conversion**, over inner formatters that keep the relation. -/
theorem convert_agree (o : Opts) (ch : Byte) (ap : Args) {s : σ} {t : τ} (h : R s t) :
    Option.Rel (Agree (Both R)) (convert p pf o ch ap s) (convert q qf o ch ap t) := by
  have hnum : ∀ (num base : ℕ) (ap : Args) {s t}, R s t → Agree (Both R)
      (.ok (printnum p num base o.width o.padc s, ap) : Except Fault _)
      (.ok (printnum q num base o.width o.padc t, ap)) :=
    fun num base ap s t h => .ok ⟨printnumTo_rel hput 64 num base _ _ h, rfl⟩
  by_cases hconv : isConv ch
  · rcases (isConv_iff ch).mp hconv with rfl | rfl | rfl | rfl | rfl | rfl | rfl | rfl | rfl
    · exact .some (.bind_same _ fun r => .ok ⟨hput _ _ _ h, rfl⟩)
    · exact .some (.bind_same _ fun r => (formatErr_agree hpf r.1 h).bind
        fun x y hxy => .ok ⟨hxy.1, rfl⟩)
    · exact .some (.bind_same _ fun r => (formatStr_agree hput o _ h).bind
        fun x y hxy => .ok ⟨hxy, rfl⟩)
    · refine .some (.bind_same _ fun r => ?_)
      obtain ⟨num, ap'⟩ := r
      dsimp only
      split
      · exact hnum _ _ _ (hput _ _ _ h)
      · exact hnum _ _ _ h
    · exact .some (.bind_same _ fun r => hnum _ _ _ h)
    · exact .some (.bind_same _ fun r => hnum _ _ _ h)
    · exact .some (.bind_same _ fun r => hnum _ _ _ (hput _ _ _ (hput _ _ _ h)))
    · exact .some (.bind_same _ fun r => hnum _ _ _ h)
    · exact .some (.ok ⟨hput _ _ _ h, rfl⟩)
  · rw [(convert_eq_none_iff p pf o ch ap s).mpr hconv,
      (convert_eq_none_iff q qf o ch ap t).mpr hconv]
    exact .none

/-- **A run over items.** -/
theorem runItems_agree (is : List Item) (ap : Args) {s : σ} {t : τ} (h : R s t) :
    Agree (Both R) (runItems p pf is ap s) (runItems q qf is ap t) := by
  induction is generalizing ap s t with
  | nil => exact .ok ⟨h, rfl⟩
  | cons i is ih =>
      cases i with
      | lit b => exact ih ap (hput _ _ _ h)
      | esc body ch =>
          refine .bind_same _ ?_
          rintro ⟨o, ap'⟩
          have hconv := convert_agree hput hpf o ch ap' h
          dsimp only
          generalize convert p pf o ch ap' s = x at hconv ⊢
          generalize convert q qf o ch ap' t = y at hconv ⊢
          cases hconv with
          | none => exact ih ap' (puts_rel hput _ h)
          | some hxy =>
              refine hxy.bind ?_
              rintro ⟨s', ap'⟩ ⟨t', ap''⟩ ⟨h', rfl⟩
              exact ih ap' h'
      | cut body => exact .bind_same _ fun r => .ok ⟨puts_rel hput _ h, rfl⟩

end

/-- The inner formatter. -/
theorem printfmtNested_agree {t : List Byte} (ht : 0 ∉ t) (ap : Args) {s : σ} {s' : τ}
    (h : R s s') :
    Agree (Both R) (printfmtNested p (t ++ [0]) ap s) (printfmtNested q (t ++ [0]) ap s') := by
  rw [printfmtNested, printfmtNested, vprintfmtBody_eq p _ ht, vprintfmtBody_eq q _ ht]
  exact runItems_agree hput (fun _ _ _ _ _ _ => .error _) (items t) ap h

/-- **The sink is a black box.** -/
theorem vprintfmt_agree {t : List Byte} (ht : 0 ∉ t) (ap : Args) {s : σ} {s' : τ}
    (h : R s s') :
    Agree (Both R) (vprintfmt p (t ++ [0]) ap s) (vprintfmt q (t ++ [0]) ap s') := by
  rw [vprintfmt, vprintfmt, vprintfmtBody_eq p _ ht, vprintfmtBody_eq q _ ht]
  exact runItems_agree hput
    (fun f hf ap s t h => printfmtNested_agree hput (nul_notMem_inner hf) ap h) (items t) ap h

end

/-- **Any sink** is handed the characters of the output in order. -/
theorem vprintfmt_eq_foldl {σ : Type} (putch : BitVec 32 → σ → σ) {t : List Byte} (ht : 0 ∉ t)
    {ap rest : Args} {out : List (BitVec 32)} (h : output (t ++ [0]) ap = .ok (out, rest)) (s : σ) :
    vprintfmt putch (t ++ [0]) ap s = .ok (out.foldl (fun s c => putch c s) s, rest) := by
  have hrel := vprintfmt_agree (p := fun c out => out ++ [c]) (q := putch)
    (R := fun out s' => s' = out.foldl (fun s c => putch c s) s)
    (fun c out s' h => by rw [h, List.foldl_append]; rfl) ht ap
    (show s = ([] : List (BitVec 32)).foldl (fun s c => putch c s) s from rfl)
  change Agree _ (output (t ++ [0]) ap) _ at hrel
  rw [h] at hrel
  generalize vprintfmt putch (t ++ [0]) ap s = x at hrel ⊢
  cases hrel with
  | ok h => exact congrArg Except.ok (Prod.ext h.1 h.2.symm)

/-! ### Failing -/

/-- An `int` can only be missing. -/
theorem vaInt_onlyFails (ap : Args) : OnlyFails (· = .arg) (vaInt ap) := by
  rw [vaInt.eq_def]
  split
  · exact onlyFails_ok _ _
  · exact onlyFails_error rfl

/-- A `long long` can only be missing. -/
theorem vaLlong_onlyFails (ap : Args) : OnlyFails (· = .arg) (vaLlong ap) := by
  rw [vaLlong.eq_def]
  split
  · exact onlyFails_ok _ _
  · exact onlyFails_error rfl

/-- A string can only be missing. -/
theorem vaStr_onlyFails (ap : Args) : OnlyFails (· = .arg) (vaStr ap) := by
  rw [vaStr.eq_def]
  split
  · exact onlyFails_ok _ _
  · split
    · exact onlyFails_ok _ _
    · exact onlyFails_error rfl
  · exact onlyFails_error rfl

/-- An unsigned number of any length can only be missing. -/
theorem getuint_onlyFails (lflag : ℕ) (ap : Args) :
    OnlyFails (· = .arg) (getuint lflag ap) := by
  rw [getuint]
  split
  · exact vaLlong_onlyFails ap
  · exact (vaInt_onlyFails ap).bind fun r => onlyFails_ok _ _

/-- A signed number of any length can only be missing. -/
theorem getint_onlyFails (lflag : ℕ) (ap : Args) : OnlyFails (· = .arg) (getint lflag ap) := by
  rw [getint]
  split
  · exact vaLlong_onlyFails ap
  · exact (vaInt_onlyFails ap).bind fun r => onlyFails_ok _ _

/-- The flags of an escape fail only where a star finds no argument. -/
theorem flags_onlyFails (body : List Byte) (num : Option (BitVec 32)) (o : Opts) (ap : Args) :
    OnlyFails (· = .arg) (flags body num o ap) := by
  induction body generalizing num o ap with
  | nil => exact onlyFails_ok _ _
  | cons ch body ih =>
      rw [flags]
      by_cases hflag : isFlag ch
      · rcases flagStep_cases hflag num o with ⟨-, h⟩ | ⟨-, num', o', h⟩
        · rw [h]
          exact ((vaInt_onlyFails ap).bind fun r => onlyFails_ok _ _).bind fun r => ih _ _ _
        · rw [h]
          exact ih num' o' ap
      · rw [(flagStep_eq_none_iff ch num o ap).mpr hflag]
        exact onlyFails_ok _ _

section

variable {σ : Type} (putch : BitVec 32 → σ → σ)

/-- The characters of a string fail only where the string has no end. -/
theorem strLoop_onlyFails (altflag : Bool) (text : List Byte) (precision width : BitVec 32)
    (s : σ) : OnlyFails (· = .arg) (strLoop putch altflag text precision width s) := by
  induction text generalizing precision width s with
  | nil => exact onlyFails_error rfl
  | cons b text ih =>
      rw [strLoop]
      split
      · exact onlyFails_ok _ _
      split
      · exact ih _ _ _
      split
      · exact ih _ _ _
      · exact onlyFails_ok _ _

/-- The padding in front of a string fails only there. -/
theorem padBefore_onlyFails (o : Opts) (text : List Byte) (s : σ) :
    OnlyFails (· = .arg) (padBefore putch o text s) := by
  rw [padBefore]
  split
  · split
    · exact onlyFails_error rfl
    · exact onlyFails_ok _ _
  · exact onlyFails_ok _ _

/-- So does the case of `%s`. -/
theorem formatStr_onlyFails (o : Opts) (text : List Byte) (s : σ) :
    OnlyFails (· = .arg) (formatStr putch o text s) :=
  (padBefore_onlyFails putch o text s).bind fun _ =>
    (strLoop_onlyFails putch _ _ _ _ _).bind fun _ => onlyFails_ok _ _

section

variable {pf : List Byte → Args → σ → Except Fault (σ × Args)}
  (hpf : ∀ f ∈ [errorFmt, stringFmt], ∀ ap s, OnlyFails (· = .arg) (pf (f ++ [0]) ap s))
include hpf

/-- The case of `%e` fails as the nested formats do. -/
theorem formatErr_onlyFails (err : BitVec 32) (s : σ) :
    OnlyFails (· = .arg) (formatErr pf err s) := by
  rw [formatErr]
  split
  · exact hpf errorFmt (List.mem_cons_self ..) _ _
  · exact hpf stringFmt (List.mem_cons_of_mem _ (List.mem_singleton_self _)) _ _

/-- **One conversion.** -/
theorem convert_onlyFails (o : Opts) {ch : Byte} (hconv : isConv ch) (ap : Args) (s : σ) :
    ∃ r, convert putch pf o ch ap s = some r ∧ OnlyFails (· = .arg) r := by
  rcases (isConv_iff ch).mp hconv with rfl | rfl | rfl | rfl | rfl | rfl | rfl | rfl | rfl
  · exact ⟨_, rfl, (vaInt_onlyFails ap).bind fun r => onlyFails_ok _ _⟩
  · exact ⟨_, rfl, (vaInt_onlyFails ap).bind fun r =>
      (formatErr_onlyFails hpf _ _).bind fun x => onlyFails_ok _ _⟩
  · exact ⟨_, rfl, (vaStr_onlyFails ap).bind fun r =>
      (formatStr_onlyFails putch _ _ _).bind fun x => onlyFails_ok _ _⟩
  · refine ⟨_, convert_d putch pf o ap s, (getint_onlyFails _ ap).bind fun r => ?_⟩
    split <;> exact onlyFails_ok _ _
  · exact ⟨_, rfl, (getuint_onlyFails _ ap).bind fun r => onlyFails_ok _ _⟩
  · exact ⟨_, rfl, (getuint_onlyFails _ ap).bind fun r => onlyFails_ok _ _⟩
  · exact ⟨_, rfl, (vaInt_onlyFails ap).bind fun r => onlyFails_ok _ _⟩
  · exact ⟨_, rfl, (getuint_onlyFails _ ap).bind fun r => onlyFails_ok _ _⟩
  · exact ⟨_, rfl, onlyFails_ok _ _⟩

/-- **A run over items.** -/
theorem runItems_onlyFails (is : List Item) (ap : Args) (s : σ) :
    OnlyFails (· = .arg) (runItems putch pf is ap s) := by
  induction is generalizing ap s with
  | nil => exact onlyFails_ok _ _
  | cons i is ih =>
      cases i with
      | lit b => exact ih ap _
      | esc body ch =>
          refine (flags_onlyFails body none .init ap).bind ?_
          rintro ⟨o, ap'⟩
          dsimp only
          by_cases hconv : isConv ch
          · obtain ⟨r, hr, hfails⟩ := convert_onlyFails putch hpf o hconv ap' s
            rw [hr]
            exact hfails.bind fun r => ih _ _
          · rw [(convert_eq_none_iff putch pf o ch ap' s).mpr hconv]
            exact ih _ _
      | cut body => exact (flags_onlyFails body none .init ap).bind fun r => onlyFails_ok _ _

end

/-- **Running out of arguments is the only way to fail.** In particular the scan pointer
stays inside the format, the terminating NUL included, and the loop ends. -/
theorem vprintfmt_onlyFails {t : List Byte} (ht : 0 ∉ t) (ap : Args) (s : σ) :
    OnlyFails (· = .arg) (vprintfmt putch (t ++ [0]) ap s) := by
  rw [vprintfmt_items putch ht]
  refine runItems_onlyFails putch (fun f hf ap s => ?_) (items t) ap s
  -- the two inner formats do not call the formatter again, so any inner formatter will do
  have hnul := nul_notMem_inner hf
  have hbody : printfmt putch (f ++ [0]) ap s =
      vprintfmtBody putch (fun _ _ s => .ok (s, [])) (f ++ [0]) ap s := by
    rcases List.mem_cons.mp hf with rfl | hf
    · exact vprintfmtBody_error putch _ _ ap s
    · rw [List.mem_singleton.mp hf]
      exact vprintfmtBody_string putch _ _ ap s
  rw [hbody, vprintfmtBody_eq putch _ hnul]
  exact runItems_onlyFails putch (fun _ _ _ _ => onlyFails_ok _ _) _ ap s

end

/-! ### Reading arguments -/

/-- An `int` is read from the front of the arguments. -/
theorem vaInt_local : Reader.Local vaInt := by
  rintro (_ | ⟨v | v | p, ap⟩) a ap' h bp
  · exact nomatch h
  · cases h
    rfl
  · exact nomatch h
  · exact nomatch h

/-- A `long long` is read from the front of the arguments. -/
theorem vaLlong_local : Reader.Local vaLlong := by
  rintro (_ | ⟨v | v | p, ap⟩) a ap' h bp
  · exact nomatch h
  · exact nomatch h
  · cases h
    rfl
  · exact nomatch h

/-- A string is read from the front of the arguments. -/
theorem vaStr_local : Reader.Local vaStr := by
  rintro (_ | ⟨v | v | p, ap⟩) a ap' h bp
  · exact nomatch h
  · rw [vaStr] at h
    rw [List.cons_append, vaStr]
    split at h
    · rw [if_pos ‹_›]
      cases h
      rfl
    · exact nomatch h
  · exact nomatch h
  · cases h
    rfl

/-- So is an unsigned number of any length. -/
theorem getuint_local (lflag : ℕ) : Reader.Local (getuint lflag) := by
  by_cases h : 2 ≤ lflag
  · have heq : getuint lflag = vaLlong := funext fun ap => if_pos h
    rw [heq]
    exact vaLlong_local
  · have heq : getuint lflag = fun ap => vaInt ap >>= fun r => .ok (r.1.setWidth 64, r.2) :=
      funext fun ap => if_neg h
    rw [heq]
    exact vaInt_local.bind fun v => Reader.local_ok _

/-- So is a signed number of any length. -/
theorem getint_local (lflag : ℕ) : Reader.Local (getint lflag) := by
  by_cases h : 2 ≤ lflag
  · have heq : getint lflag = vaLlong := funext fun ap => if_pos h
    rw [heq]
    exact vaLlong_local
  · have heq : getint lflag = fun ap => vaInt ap >>= fun r => .ok (r.1.signExtend 64, r.2) :=
      funext fun ap => if_neg h
    rw [heq]
    exact vaInt_local.bind fun v => Reader.local_ok _

/-- The stars of an escape are read from the front of the arguments. -/
theorem flags_local (body : List Byte) (num : Option (BitVec 32)) (o : Opts) :
    Reader.Local (flags body num o) := by
  induction body generalizing num o with
  | nil => exact Reader.local_ok _
  | cons ch body ih =>
      by_cases hflag : isFlag ch
      · rcases flagStep_cases hflag num o with ⟨-, h⟩ | ⟨-, num', o', h⟩
        · have heq : flags (ch :: body) num o = fun ap => vaInt ap >>= fun r =>
              flags body none ((o.flush num).processPrecision r.1) r.2 := by
            funext ap
            rw [flags, h]
            rcases vaInt ap with e | ⟨v, ap'⟩ <;> rfl
          rw [heq]
          exact vaInt_local.bind (g := fun v => flags body none ((o.flush num).processPrecision v))
            fun v => ih _ _
        · have heq : flags (ch :: body) num o = flags body num' o' := by
            funext ap
            rw [flags, h]
            rfl
          rw [heq]
          exact ih num' o'
      · have heq : flags (ch :: body) num o = fun ap => .ok (o.flush num, ap) := by
          funext ap
          rw [flags, (flagStep_eq_none_iff ch num o ap).mpr hflag]
        rw [heq]
        exact Reader.local_ok _

section

variable {σ : Type} (putch : BitVec 32 → σ → σ)
  (pf : List Byte → Args → σ → Except Fault (σ × Args))

/-- A step that reads no argument. -/
theorem local_step {α β : Type} (x : Except Fault α) (f : α → β) :
    Reader.Local fun ap : Args => x >>= fun a => .ok (f a, ap) := by
  cases x with
  | error e => exact fun _ _ _ h => nomatch h
  | ok a => exact Reader.local_ok _

/-- **One conversion.** -/
theorem convert_local (o : Opts) {ch : Byte} (hconv : isConv ch) (s : σ) :
    ∃ f : Reader Fault Arg σ, f.Local ∧ ∀ ap, convert putch pf o ch ap s = some (f ap) := by
  have hprint : ∀ (num base : ℕ) (s : σ), Reader.Local fun ap : Args =>
      (.ok (printnum putch num base o.width o.padc s, ap) : Except Fault (σ × Args)) :=
    fun num base s => Reader.local_ok _
  have hnum : ∀ base, Reader.Local fun ap => getuint o.lflag ap >>= fun r =>
      .ok (printnum putch r.1.toNat base o.width o.padc s, r.2) :=
    fun base => (getuint_local o.lflag).bind fun v => hprint v.toNat base s
  rcases (isConv_iff ch).mp hconv with rfl | rfl | rfl | rfl | rfl | rfl | rfl | rfl | rfl
  · have h := vaInt_local.bind fun v => Reader.local_ok (putch v s)
    exact ⟨_, h, fun ap => convert_c putch pf o ap s⟩
  · have h := vaInt_local.bind fun v => local_step (formatErr pf v s) Prod.fst
    exact ⟨_, h, fun ap => convert_e putch pf o ap s⟩
  · have h := vaStr_local.bind fun v =>
      local_step (formatStr putch o (v.getD (cstr "(null)")) s) id
    exact ⟨_, h, fun ap => convert_s putch pf o ap s⟩
  · have hsigned : ∀ v : BitVec 64, Reader.Local fun ap : Args =>
        if v.toInt < 0 then
          (.ok (printnum putch (-v).toNat 10 o.width o.padc (putch ((chr '-').signExtend 32) s),
            ap) : Except Fault (σ × Args))
        else .ok (printnum putch v.toNat 10 o.width o.padc s, ap) := by
      intro v
      split
      · exact hprint _ _ _
      · exact hprint _ _ _
    exact ⟨_, (getint_local o.lflag).bind hsigned, fun ap => convert_d putch pf o ap s⟩
  · exact ⟨_, hnum 10, fun ap => convert_u putch pf o ap s⟩
  · exact ⟨_, hnum 8, fun ap => convert_o putch pf o ap s⟩
  · have h := vaInt_local.bind fun v => hprint v.toNat 16
      (putch ((chr 'x').signExtend 32) (putch ((chr '0').signExtend 32) s))
    exact ⟨_, h, fun ap => convert_p putch pf o ap s⟩
  · exact ⟨_, hnum 16, fun ap => convert_x putch pf o ap s⟩
  · exact ⟨_, Reader.local_ok _, fun ap => convert_percent putch pf o ap s⟩

/-- A directive reads its flags first, and its conversion next. -/
theorem runItems_esc (body : List Byte) (ch : Byte) (is : List Item) (ap : Args) (s : σ) :
    runItems putch pf (.esc body ch :: is) ap s = flags body none .init ap >>= fun r =>
      (convert putch pf r.1 ch r.2 s).elim
        (runItems putch pf is r.2 (puts putch (chr '%' :: (body ++ [ch])) s))
        fun x => x >>= fun x => runItems putch pf is x.2 x.1 := by
  rw [runItems]
  refine congrArg (_ >>= ·) (funext fun r => ?_)
  cases hconv : convert putch pf r.1 ch r.2 s with
  | none => simp only [hconv, Option.elim_none]
  | some x => simp only [hconv, Option.elim_some]

/-- **A run over items.** -/
theorem runItems_local (is : List Item) (s : σ) :
    Reader.Local fun ap => runItems putch pf is ap s := by
  induction is generalizing s with
  | nil => exact Reader.local_ok s
  | cons i is ih =>
      cases i with
      | lit b => exact ih _
      | esc body ch =>
          simp only [runItems_esc]
          refine (flags_local body none .init).bind (g := fun o ap =>
            (convert putch pf o ch ap s).elim
              (runItems putch pf is ap (puts putch (chr '%' :: (body ++ [ch])) s))
              fun r => r >>= fun r => runItems putch pf is r.2 r.1) ?_
          intro o
          by_cases hconv : isConv ch
          · obtain ⟨f, hf, heq⟩ := convert_local putch pf o hconv s
            simp only [heq, Option.elim_some]
            exact hf.bind (g := fun s ap => runItems putch pf is ap s) fun s => ih s
          · simp only [fun ap => (convert_eq_none_iff putch pf o ch ap s).mpr hconv,
              Option.elim_none]
            exact ih _
      | cut body =>
          exact (flags_local body none .init).bind
            (g := fun _ ap => .ok (puts putch (chr '%' :: body) s, ap)) fun _ => Reader.local_ok _

/-- **Arguments behind those that are read make no difference.** -/
theorem vprintfmt_local {t : List Byte} (ht : 0 ∉ t) (s : σ) :
    Reader.Local fun ap => vprintfmt putch (t ++ [0]) ap s := by
  simp only [fun ap => vprintfmt_items putch ht ap s]
  exact runItems_local putch _ (items t) s

end

end Jos
