import Jos.Fallible
import Jos.Printfmt

/-!
# Formats as Lists of Items

What a format says: a list of literal characters and escapes (`Item`), which `items` reads
off the bytes, and which `runItems` carries out one after the other. The loop of
`vprintfmt`, with its scan pointer that moves back at an unknown escape, does the same
(`vprintfmtBody_eq`); everything else about formats is then an induction over items.

## Main results

* `reswitch_append`: the scan from `reswitch` on reads the flags and stops at the first
  character that is none.
* `scanLoop_eq`, `vprintfmtBody_eq`: **the formatter carries out the items of its
  format**, inside the string and in at most as many rounds as the format has bytes.
-/

namespace Jos

/-! ### Items -/

/-- A character of an escape that is not its last. -/
def isFlag (ch : Byte) : Prop :=
  isDigit ch ∨ ch = chr '-' ∨ ch = chr '*' ∨ ch = chr '.' ∨ ch = chr '#' ∨ ch = chr 'l'

instance (ch : Byte) : Decidable (isFlag ch) :=
  inferInstanceAs (Decidable (_ ∨ _))

/-- A conversion character. -/
def isConv (ch : Byte) : Prop :=
  ch ∈ [chr 'c', chr 'e', chr 's', chr 'd', chr 'u', chr 'o', chr 'p', chr 'x', chr '%']

instance (ch : Byte) : Decidable (isConv ch) :=
  inferInstanceAs (Decidable (_ ∈ _))

/-- A part of a format: a literal character, an escape with its flags and its last
character, or an escape that the end of the string cuts off. -/
inductive Item
  | lit (b : Byte)
  | esc (body : List Byte) (ch : Byte)
  | cut (body : List Byte)
deriving DecidableEq

/-- The items of a format, from inside an escape with the flags `body` or from outside. -/
def parse : Option (List Byte) → List Byte → List Item
  | none, [] => []
  | none, b :: t => if b = chr '%' then parse (some []) t else .lit b :: parse none t
  | some body, [] => [.cut body]
  | some body, b :: t =>
      if isFlag b then parse (some (body ++ [b])) t else .esc body b :: parse none t

/-- The items of a format. -/
def items (t : List Byte) : List Item :=
  parse none t

/-- An item that the end of the string does not cut off. -/
def Item.Whole : Item → Prop
  | lit _ => True
  | esc _ _ => True
  | cut _ => False

instance : DecidablePred Item.Whole
  | .lit _ => .isTrue trivial
  | .esc _ _ => .isTrue trivial
  | .cut _ => .isFalse id

/-- No escape of the format is cut off by its end. -/
def Uncut (t : List Byte) : Prop :=
  ∀ i ∈ items t, i.Whole

instance (t : List Byte) : Decidable (Uncut t) :=
  inferInstanceAs (Decidable (∀ i ∈ items t, i.Whole))

section

variable {σ : Type} (putch : BitVec 32 → σ → σ)

/-- Characters printed literally. -/
def puts (l : List Byte) (s : σ) : σ :=
  l.foldl (fun s b => putch (b.setWidth 32) s) s

/-- The locals after the flags of an escape, and the arguments left. -/
def flags : List Byte → Option (BitVec 32) → Opts → Args → Except Fault (Opts × Args)
  | [], num, o, ap => .ok (o.flush num, ap)
  | ch :: rest, num, o, ap =>
      match flagStep ch num o ap with
      | none => .ok (o.flush num, ap)
      | some r => do
          let (num, o, ap) ← r
          flags rest num o ap

/-- The items carried out in order, over the inner formatter. An unknown escape, and one
that is cut off, is printed as it stands. -/
def runItems (pf : List Byte → Args → σ → Except Fault (σ × Args)) :
    List Item → Args → σ → Except Fault (σ × Args)
  | [], ap, s => .ok (s, ap)
  | .lit b :: is, ap, s => runItems pf is ap (putch (b.setWidth 32) s)
  | .esc body ch :: is, ap, s => do
      let (o, ap) ← flags body none .init ap
      match convert putch pf o ch ap s with
      | some r => do
          let (s, ap) ← r
          runItems pf is ap s
      | none => runItems pf is ap (puts putch (chr '%' :: (body ++ [ch])) s)
  | .cut body :: _, ap, s => do
      let (_, ap) ← flags body none .init ap
      pure (puts putch (chr '%' :: body) s, ap)

/-! ### Flags -/

/-- The cases that go on with `reswitch` are those of the flags. -/
theorem flagCase_eq_none_iff (ch : Byte) (o : Opts) (ap : Args) :
    flagCase ch o ap = none ↔ ¬ isFlag ch := by
  have hflag : ∀ r : Except Fault (Option (BitVec 32) × Opts × Args), isFlag ch →
      (some r = none ↔ ¬ isFlag ch) :=
    fun r h => iff_of_false (Option.some_ne_none r) (not_not.mpr h)
  rw [flagCase]
  split
  · exact hflag _ (Or.inr (Or.inl ‹_›))
  split
  · exact hflag _ (Or.inl (by rw [‹ch = chr '0'›]; decide))
  split
  · exact hflag _ (Or.inl ‹_›)
  split
  · exact hflag _ (Or.inr (Or.inr (Or.inl ‹_›)))
  split
  · exact hflag _ (Or.inr (Or.inr (Or.inr (Or.inl ‹_›))))
  split
  · exact hflag _ (Or.inr (Or.inr (Or.inr (Or.inr (Or.inl ‹_›)))))
  split
  · exact hflag _ (Or.inr (Or.inr (Or.inr (Or.inr (Or.inr ‹_›)))))
  · refine iff_of_true rfl ?_
    rintro (h | h | h | h | h | h) <;> contradiction

/-- Which characters are flags depends on nothing read before. -/
theorem flagStep_eq_none_iff (ch : Byte) (num : Option (BitVec 32)) (o : Opts) (ap : Args) :
    flagStep ch num o ap = none ↔ ¬ isFlag ch := by
  cases num with
  | none => exact flagCase_eq_none_iff ch o ap
  | some precision =>
      rw [flagStep]
      by_cases hdigit : isDigit ch
      · have hflag : isFlag ch := Or.inl hdigit
        simp [hdigit, hflag]
      · rw [if_neg hdigit]
        exact flagCase_eq_none_iff ch _ ap

/-- The flags other than `*` read no argument. -/
theorem flagCase_of_ne {ch : Byte} (hflag : isFlag ch) (hstar : ch ≠ chr '*') (o : Opts) :
    ∃ num o', ∀ ap, flagCase ch o ap = some (.ok (num, o', ap)) := by
  simp only [flagCase, if_neg hstar]
  by_cases hminus : ch = chr '-'
  · exact ⟨_, _, fun ap => if_pos hminus⟩
  by_cases h0 : ch = chr '0'
  · simp only [if_neg hminus, if_pos h0]
    exact ⟨_, _, fun ap => rfl⟩
  by_cases hdigit : isDigit ch
  · simp only [if_neg hminus, if_neg h0, if_pos hdigit]
    exact ⟨_, _, fun ap => rfl⟩
  by_cases hdot : ch = chr '.'
  · simp only [if_neg hminus, if_neg h0, if_neg hdigit, if_pos hdot]
    exact ⟨_, _, fun ap => rfl⟩
  by_cases hsharp : ch = chr '#'
  · simp only [if_neg hminus, if_neg h0, if_neg hdigit, if_neg hdot, if_pos hsharp]
    exact ⟨_, _, fun ap => rfl⟩
  · have hl : ch = chr 'l' := by
      rcases hflag with h | h | h | h | h | h <;> first | exact h | exact absurd h ‹_›
    simp only [if_neg hminus, if_neg h0, if_neg hdigit, if_neg hdot, if_neg hsharp, if_pos hl]
    exact ⟨_, _, fun ap => rfl⟩

/-- **What one flag does**, after a number or not: a `*` reads an argument, and the others
read none. -/
theorem flagStep_cases {ch : Byte} (hflag : isFlag ch) (num : Option (BitVec 32)) (o : Opts) :
    (ch = chr '*' ∧ ∀ ap, flagStep ch num o ap =
      some (vaInt ap >>= fun r => .ok (none, (o.flush num).processPrecision r.1, r.2))) ∨
    (ch ≠ chr '*' ∧ ∃ num' o', ∀ ap, flagStep ch num o ap = some (.ok (num', o', ap))) := by
  by_cases hstar : ch = chr '*'
  · subst hstar
    exact Or.inl ⟨rfl, fun ap => by cases num <;> rfl⟩
  refine Or.inr ⟨hstar, ?_⟩
  cases num with
  | none => exact flagCase_of_ne hflag hstar o
  | some precision =>
      by_cases hdigit : isDigit ch
      · exact ⟨_, _, fun ap => if_pos hdigit⟩
      · obtain ⟨num', o', h⟩ := flagCase_of_ne hflag hstar (o.processPrecision precision)
        exact ⟨num', o', fun ap => (if_neg hdigit).trans (h ap)⟩

/-- **What `reswitch` reads**: the flags, and the first character that is none. -/
theorem reswitch_append {body : List Byte} (hbody : ∀ b ∈ body, isFlag b) {ch : Byte}
    (hch : ¬ isFlag ch) (rest : List Byte) (pos : ℕ) (num : Option (BitVec 32)) (o : Opts)
    (ap : Args) :
    reswitch (body ++ ch :: rest) pos num o ap =
      (flags body num o ap >>= fun r => .ok (r.1, ch, pos + body.length + 1, r.2)) := by
  induction body generalizing pos num o ap with
  | nil =>
      rw [List.nil_append, reswitch, (flagStep_eq_none_iff ch num o ap).mpr hch, flags]
      rfl
  | cons b body ih =>
      rw [List.cons_append, reswitch, flags]
      rcases hstep : flagStep b num o ap with _ | r
      · exact absurd (hbody b (List.mem_cons_self ..)) ((flagStep_eq_none_iff b num o ap).mp hstep)
      rcases r with e | ⟨num', o', ap'⟩
      · rfl
      · simp only [ok_bind]
        rw [ih (fun x hx => hbody x (List.mem_cons_of_mem b hx)), List.length_cons,
          Nat.add_right_comm pos 1, Nat.add_assoc pos]

/-! ### Reading items -/

/-- The list up to the first element with a property. -/
theorem exists_first {α : Type} (P : α → Prop) {l : List α} (h : ∃ x ∈ l, P x) :
    ∃ u c v, l = u ++ c :: v ∧ (∀ x ∈ u, ¬ P x) ∧ P c := by
  induction l with
  | nil => obtain ⟨x, hx, -⟩ := h; exact absurd hx List.not_mem_nil
  | cons b l ih =>
      by_cases hb : P b
      · exact ⟨[], b, l, rfl, fun x hx => absurd hx List.not_mem_nil, hb⟩
      · obtain ⟨x, hx, hP⟩ := h
        rcases List.mem_cons.mp hx with rfl | hx
        · exact absurd hP hb
        obtain ⟨u, c, v, rfl, hu, hc⟩ := ih ⟨x, hx, hP⟩
        exact ⟨b :: u, c, v, rfl, List.forall_mem_cons.mpr ⟨hb, hu⟩, hc⟩

/-- Characters before the first `%`. -/
theorem parse_lits {u : List Byte} (hu : ∀ b ∈ u, b ≠ chr '%') (t : List Byte) :
    parse none (u ++ t) = u.map Item.lit ++ parse none t := by
  induction u with
  | nil => rfl
  | cons b u ih =>
      rw [List.cons_append, parse, if_neg (hu b (List.mem_cons_self ..)),
        ih fun x hx => hu x (List.mem_cons_of_mem b hx)]
      rfl

/-- The flags of an escape. -/
theorem parse_flags {body : List Byte} (hbody : ∀ b ∈ body, isFlag b) (body₀ t : List Byte) :
    parse (some body₀) (body ++ t) = parse (some (body₀ ++ body)) t := by
  induction body generalizing body₀ with
  | nil => rw [List.nil_append, List.append_nil]
  | cons b body ih =>
      rw [List.cons_append, parse, if_pos (hbody b (List.mem_cons_self ..)),
        ih fun x hx => hbody x (List.mem_cons_of_mem b hx), List.append_assoc,
        List.singleton_append]

/-- An escape, whole. -/
theorem items_esc {body : List Byte} (hbody : ∀ b ∈ body, isFlag b) {ch : Byte}
    (hch : ¬ isFlag ch) (t : List Byte) :
    items (chr '%' :: (body ++ ch :: t)) = .esc body ch :: items t := by
  rw [items, parse, if_pos rfl, parse_flags hbody, List.nil_append, parse, if_neg hch]
  rfl

/-- An escape, cut off. -/
theorem items_cut {body : List Byte} (hbody : ∀ b ∈ body, isFlag b) :
    items (chr '%' :: body) = [.cut body] := by
  have h := parse_flags hbody [] []
  rw [List.append_nil, List.nil_append] at h
  rw [items, parse, if_pos rfl, h, parse]

/-- Literal characters are printed. -/
theorem runItems_lits (pf : List Byte → Args → σ → Except Fault (σ × Args)) (u : List Byte)
    (is : List Item) (ap : Args) (s : σ) :
    runItems putch pf (u.map Item.lit ++ is) ap s = runItems putch pf is ap (puts putch u s) := by
  induction u generalizing s with
  | nil => rfl
  | cons b u ih =>
      rw [List.map_cons, List.cons_append, runItems, ih]
      rfl

/-! ### The loop -/

/-- The literal loop stops at the first `%` or NUL. -/
theorem literal_append {u : List Byte} (hu : ∀ b ∈ u, b ≠ chr '%' ∧ b ≠ 0) (t : List Byte)
    (pos : ℕ) (s : σ) :
    literal putch (u ++ t) pos s = literal putch t (pos + u.length) (puts putch u s) := by
  induction u generalizing pos s with
  | nil => rfl
  | cons b u ih =>
      obtain ⟨hpercent, hnul⟩ := hu b (List.mem_cons_self ..)
      rw [List.cons_append, literal, if_neg hpercent, if_neg hnul,
        ih fun x hx => hu x (List.mem_cons_of_mem b hx), List.length_cons, Nat.add_assoc,
        Nat.add_comm 1]
      rfl

/-- The default case goes back to the `%` of the escape. -/
theorem rewind_append (u : List Byte) {body : List Byte} (hbody : ∀ b ∈ body, b ≠ chr '%')
    (t : List Byte) (k : ℕ) (hk : k ≤ body.length) :
    rewind (u ++ chr '%' :: (body ++ t)) (u.length + 1 + k) = .ok (u.length + 1) := by
  induction k with
  | zero =>
      rw [Nat.add_zero, rewind, List.getElem?_append_right (Nat.le_refl _), Nat.sub_self]
      exact if_pos rfl
  | succ k ih =>
      have hlt : k < body.length := hk
      have hget : (u ++ chr '%' :: (body ++ t))[u.length + 1 + k]? = some body[k] := by
        rw [List.getElem?_append_right (by omega),
          show u.length + 1 + k - u.length = k + 1 by omega, List.getElem?_cons_succ,
          List.getElem?_append_left hlt, List.getElem?_eq_getElem hlt]
      rw [← Nat.add_assoc, rewind, hget]
      simp only [if_neg (hbody _ (List.getElem_mem hlt))]
      exact ih (by omega)

/-! ### Conversions -/

section

variable (pf : List Byte → Args → σ → Except Fault (σ × Args)) (o : Opts) (ap : Args) (s : σ)

/-- The case of `%c`. -/
@[simp] theorem convert_c : convert putch pf o (chr 'c') ap s =
    some (vaInt ap >>= fun r => .ok (putch r.1 s, r.2)) := rfl

/-- The case of `%e`. -/
@[simp] theorem convert_e : convert putch pf o (chr 'e') ap s =
    some (vaInt ap >>= fun r => formatErr pf r.1 s >>= fun x => .ok (x.1, r.2)) := rfl

/-- The case of `%s`. -/
@[simp] theorem convert_s : convert putch pf o (chr 's') ap s =
    some (vaStr ap >>= fun r =>
      formatStr putch o (r.1.getD (cstr "(null)")) s >>= fun s => .ok (s, r.2)) := rfl

/-- The case of `%d`. -/
@[simp] theorem convert_d : convert putch pf o (chr 'd') ap s =
    some (getint o.lflag ap >>= fun r =>
      if r.1.toInt < 0 then
        .ok (printnum putch (-r.1).toNat 10 o.width o.padc (putch ((chr '-').signExtend 32) s), r.2)
      else .ok (printnum putch r.1.toNat 10 o.width o.padc s, r.2)) := rfl

/-- The case of `%u`. -/
@[simp] theorem convert_u : convert putch pf o (chr 'u') ap s =
    some (getuint o.lflag ap >>= fun r =>
      .ok (printnum putch r.1.toNat 10 o.width o.padc s, r.2)) := rfl

/-- The case of `%o`. -/
@[simp] theorem convert_o : convert putch pf o (chr 'o') ap s =
    some (getuint o.lflag ap >>= fun r =>
      .ok (printnum putch r.1.toNat 8 o.width o.padc s, r.2)) := rfl

/-- The case of `%p`. -/
@[simp] theorem convert_p : convert putch pf o (chr 'p') ap s =
    some (vaInt ap >>= fun r =>
      .ok (printnum putch r.1.toNat 16 o.width o.padc
        (putch ((chr 'x').signExtend 32) (putch ((chr '0').signExtend 32) s)), r.2)) := rfl

/-- The case of `%x`. -/
@[simp] theorem convert_x : convert putch pf o (chr 'x') ap s =
    some (getuint o.lflag ap >>= fun r =>
      .ok (printnum putch r.1.toNat 16 o.width o.padc s, r.2)) := rfl

/-- The case of `%%`. -/
@[simp] theorem convert_percent : convert putch pf o (chr '%') ap s =
    some (.ok (putch ((chr '%').setWidth 32) s, ap)) := rfl

end

/-- The conversion characters, one by one. -/
theorem isConv_iff (ch : Byte) : isConv ch ↔ ch = chr 'c' ∨ ch = chr 'e' ∨ ch = chr 's' ∨
    ch = chr 'd' ∨ ch = chr 'u' ∨ ch = chr 'o' ∨ ch = chr 'p' ∨ ch = chr 'x' ∨ ch = chr '%' := by
  simp only [isConv, List.mem_cons, List.not_mem_nil, or_false]

/-- Which characters convert depends on nothing else. -/
theorem convert_eq_none_iff (pf : List Byte → Args → σ → Except Fault (σ × Args)) (o : Opts)
    (ch : Byte) (ap : Args) (s : σ) : convert putch pf o ch ap s = none ↔ ¬ isConv ch := by
  constructor
  · intro h hconv
    rcases (isConv_iff ch).mp hconv with rfl | rfl | rfl | rfl | rfl | rfl | rfl | rfl | rfl <;>
      exact Option.some_ne_none _ h
  · intro h
    have hne : ∀ c, isConv c → ch ≠ c := fun c hc heq => h (heq ▸ hc)
    rw [convert, if_neg (hne _ (by decide)), if_neg (hne _ (by decide)),
      if_neg (hne _ (by decide)), if_neg (hne _ (by decide)), if_neg (hne _ (by decide)),
      if_neg (hne _ (by decide)), if_neg (hne _ (by decide)), if_neg (hne _ (by decide)),
      if_neg (hne _ (by decide))]

/-! ### One round -/

/-- A flag is neither a `%` nor the NUL. -/
theorem isFlag.ne {b : Byte} (h : isFlag b) : b ≠ chr '%' ∧ b ≠ 0 := by
  constructor <;> rintro rfl <;> exact absurd h (by decide)

/-- The literal characters of an escape, read as such after its `%`. -/
theorem runItems_rest (pf : List Byte → Args → σ → Except Fault (σ × Args)) {u : List Byte}
    (hu : ∀ b ∈ u, b ≠ chr '%') (t : List Byte) (ap : Args) (s : σ) :
    runItems putch pf (items (u ++ t)) ap (putch ((chr '%').signExtend 32) s) =
      runItems putch pf (items t) ap (puts putch (chr '%' :: u) s) := by
  rw [items, parse_lits hu, runItems_lits]
  rfl

/-- **One escape.** After the `%`, the loop carries out the escape and goes on after it; an
unknown escape costs it one more look at the characters of the escape. -/
theorem scanLoop_esc (pf : List Byte → Args → σ → Except Fault (σ × Args)) {fmt : List Byte}
    {pre body : List Byte} {ch : Byte} {t : List Byte}
    (hfmt : fmt = pre ++ chr '%' :: (body ++ ch :: t)) (hbody : ∀ b ∈ body, isFlag b)
    (hch : ¬ isFlag ch) (fuel : ℕ) (ap : Args) (s : σ) :
    scanLoop putch pf fmt (fuel + 1) pre.length ap s =
      (flags body none .init ap >>= fun r =>
        match convert putch pf r.1 ch r.2 s with
        | some r => r >>= fun r =>
            scanLoop putch pf fmt fuel (pre.length + 1 + body.length + 1) r.2 r.1
        | none =>
            scanLoop putch pf fmt fuel (pre.length + 1) r.2
              (putch ((chr '%').signExtend 32) s)) := by
  have hdrop : fmt.drop pre.length = chr '%' :: (body ++ ch :: t) := by
    rw [hfmt, List.drop_left]
  have hdrop' : fmt.drop (pre.length + 1) = body ++ ch :: t := by
    rw [← List.drop_drop, hdrop, List.drop_one, List.tail_cons]
  rw [scanLoop, hdrop, literal, if_pos rfl]
  simp only [ok_bind]
  rw [hdrop', reswitch_append hbody hch]
  rcases flags body none .init ap with e | ⟨o, ap'⟩
  · rfl
  simp only [ok_bind]
  rcases hconv : convert putch pf o ch ap' s with _ | r
  · have hrewind := rewind_append pre (fun b hb => (hbody b hb).ne.1) (ch :: t) body.length
      (Nat.le_refl _)
    rw [← hfmt] at hrewind
    simp only [Nat.add_sub_cancel, hrewind, ok_bind]
  · rfl

/-- Literal characters take no round of their own. -/
theorem scanLoop_lits (pf : List Byte → Args → σ → Except Fault (σ × Args))
    {fmt pre u t : List Byte} (hfmt : fmt = pre ++ (u ++ t)) (hu : ∀ b ∈ u, b ≠ chr '%' ∧ b ≠ 0)
    (fuel : ℕ) (ap : Args) (s : σ) :
    scanLoop putch pf fmt (fuel + 1) pre.length ap s =
      scanLoop putch pf fmt (fuel + 1) (pre ++ u).length ap (puts putch u s) := by
  have hdrop : fmt.drop pre.length = u ++ t := by rw [hfmt, List.drop_left]
  have hdrop' : fmt.drop (pre ++ u).length = t := by
    rw [hfmt, ← List.append_assoc, List.drop_left]
  rw [scanLoop, scanLoop, hdrop, hdrop', literal_append putch hu, List.length_append]

section

variable (pf : List Byte → Args → σ → Except Fault (σ × Args)) {fmt pre v : List Byte} {fuel : ℕ}
  (hback : ∀ ap s, scanLoop putch pf fmt fuel (pre.length + 1) ap s =
    runItems putch pf (items v) ap s)
include hback

/-- A round on a whole escape, given what the rounds behind the `%` and those behind the
escape do. -/
theorem scanLoop_item {body w : List Byte} {ch : Byte} (hv : v = body ++ ch :: w)
    (hfmt : fmt = pre ++ chr '%' :: (body ++ ch :: (w ++ [0]))) (hbody : ∀ b ∈ body, isFlag b)
    (hch : ¬ isFlag ch)
    (hafter : ∀ ap s, scanLoop putch pf fmt fuel (pre.length + 1 + body.length + 1) ap s =
      runItems putch pf (items w) ap s) (ap : Args) (s : σ) :
    scanLoop putch pf fmt (fuel + 1) pre.length ap s =
      runItems putch pf (items (chr '%' :: v)) ap s := by
  rw [hv, scanLoop_esc putch pf hfmt hbody hch, items_esc hbody hch, runItems]
  rcases flags body none .init ap with e | ⟨o, ap'⟩
  · rfl
  simp only [ok_bind]
  rcases hconv : convert putch pf o ch ap' s with _ | r
  -- an unknown escape: the `%` alone is printed, and the rest is text
  · have hunknown := (convert_eq_none_iff putch pf o ch ap' s).mp hconv
    have hne : ch ≠ chr '%' := by
      rintro rfl
      exact hunknown (by decide)
    have hlit : ∀ b ∈ body ++ [ch], b ≠ chr '%' := fun b hb =>
      (List.mem_append.mp hb).elim (fun h => (hbody b h).ne.1)
        fun h => by rwa [List.mem_singleton.mp h]
    have hrest := runItems_rest putch pf hlit w ap' s
    rw [List.append_assoc, List.singleton_append, ← hv] at hrest
    simp only [hback, hrest]
  · rcases r with e | ⟨s', ap''⟩
    · rfl
    · exact hafter ap'' s'

/-- A round on an escape that the end of the format cuts off. -/
theorem scanLoop_cut (hfmt : fmt = pre ++ (chr '%' :: v ++ [0])) (hbody : ∀ b ∈ v, isFlag b)
    (ap : Args) (s : σ) :
    scanLoop putch pf fmt (fuel + 1) pre.length ap s =
      runItems putch pf (items (chr '%' :: v)) ap s := by
  have hesc : fmt = pre ++ chr '%' :: (v ++ 0 :: []) := hfmt
  rw [scanLoop_esc putch pf hesc hbody (by decide), items_cut hbody, runItems]
  rcases flags v none .init ap with e | ⟨o, ap'⟩
  · rfl
  have hnone := (convert_eq_none_iff putch pf o 0 ap' s).mpr (by decide)
  have hrest := runItems_rest putch pf (fun b hb => (hbody b hb).ne.1) [] ap' s
  rw [List.append_nil] at hrest
  simp only [ok_bind, hnone, hback, hrest]
  rfl

end

/-- A round that begins at a `%` carries out one escape, given that the rounds after it
carry out what is left. -/
theorem scanLoop_percent (pf : List Byte → Args → σ → Except Fault (σ × Args))
    {fmt : List Byte} {fuel : ℕ}
    (ih : ∀ {pre t : List Byte}, fmt = pre ++ (t ++ [0]) → 0 ∉ t → t.length < fuel →
      ∀ ap s, scanLoop putch pf fmt fuel pre.length ap s = runItems putch pf (items t) ap s)
    {pre v : List Byte} (hfmt : fmt = pre ++ (chr '%' :: v ++ [0])) (hv : 0 ∉ v)
    (hfuel : v.length < fuel) (ap : Args) (s : σ) :
    scanLoop putch pf fmt (fuel + 1) pre.length ap s =
      runItems putch pf (items (chr '%' :: v)) ap s := by
  -- what the round does when it finds the escape unknown
  have hback : ∀ ap s, scanLoop putch pf fmt fuel (pre.length + 1) ap s =
      runItems putch pf (items v) ap s := by
    intro ap s
    have hpre : fmt = (pre ++ [chr '%']) ++ (v ++ [0]) := by
      rw [hfmt, List.append_assoc]
      rfl
    have h := ih hpre hv hfuel ap s
    rwa [List.length_append, List.length_singleton] at h
  by_cases hflag : ∃ b ∈ v, ¬ isFlag b
  · obtain ⟨body, ch, w, rfl, hbody, hch⟩ := exists_first (¬ isFlag ·) hflag
    have hesc : fmt = pre ++ chr '%' :: (body ++ ch :: (w ++ [0])) := by
      rw [hfmt, List.cons_append, List.append_assoc]
      rfl
    have hafter : fmt = (pre ++ chr '%' :: (body ++ [ch])) ++ (w ++ [0]) := by
      rw [hesc]
      simp only [List.append_assoc, List.cons_append, List.nil_append]
    have hlen : (pre ++ chr '%' :: (body ++ [ch])).length = pre.length + 1 + body.length + 1 := by
      simp only [List.length_append, List.length_cons, List.length_nil]
      omega
    rw [List.length_append, List.length_cons] at hfuel
    refine scanLoop_item putch pf hback rfl hesc (fun b hb => not_not.mp (hbody b hb)) hch
      (fun ap s => ?_) ap s
    have h := ih hafter (fun h => hv (List.mem_append_right _ (List.mem_cons_of_mem ch h)))
      (by omega) ap s
    rwa [hlen] at h
  · refine scanLoop_cut putch pf hback hfmt (fun b hb => ?_) ap s
    by_contra h
    exact hflag ⟨b, hb, h⟩

/-- **The loop carries out the items** of what is left of the format, inside the format and
in fewer rounds than there are bytes left. -/
theorem scanLoop_eq (pf : List Byte → Args → σ → Except Fault (σ × Args)) {fmt pre t : List Byte}
    (hfmt : fmt = pre ++ (t ++ [0])) (ht : 0 ∉ t) {fuel : ℕ} (hfuel : t.length < fuel)
    (ap : Args) (s : σ) :
    scanLoop putch pf fmt fuel pre.length ap s = runItems putch pf (items t) ap s := by
  -- every round but the last consumes a `%`, so fewer bytes are left for fewer rounds
  induction fuel generalizing pre t ap s with
  | zero => exact absurd hfuel (Nat.not_lt_zero _)
  | succ fuel ih =>
      by_cases hpercent : ∃ b ∈ t, b = chr '%'
      · obtain ⟨u, c, v, rfl, hu, rfl⟩ := exists_first (· = chr '%') hpercent
        rw [List.mem_append, List.mem_cons, not_or, not_or] at ht
        obtain ⟨hu0, -, hv0⟩ := ht
        rw [List.length_append, List.length_cons] at hfuel
        have hlits : fmt = pre ++ (u ++ (chr '%' :: v ++ [0])) := by
          rw [hfmt, List.append_assoc]
        have hpre : fmt = (pre ++ u) ++ (chr '%' :: v ++ [0]) := by
          rw [hlits, List.append_assoc]
        rw [scanLoop_lits putch pf hlits fun b hb => ⟨hu b hb, fun h => hu0 (h ▸ hb)⟩,
          scanLoop_percent putch pf ih hpre hv0 (by omega), items, items, parse_lits hu,
          runItems_lits]
      · have hu : ∀ b ∈ t, b ≠ chr '%' := fun b hb h => hpercent ⟨b, hb, h⟩
        have hdrop : fmt.drop (pre ++ t).length = [0] := by
          rw [hfmt, ← List.append_assoc, List.drop_left]
        have hitems := parse_lits hu []
        rw [List.append_nil] at hitems
        rw [scanLoop_lits putch pf hfmt fun b hb => ⟨hu b hb, fun h => ht (h ▸ hb)⟩, items, hitems,
          runItems_lits, scanLoop, hdrop]
        rfl

/-- **The formatter carries out the items of its format.** -/
theorem vprintfmtBody_eq (pf : List Byte → Args → σ → Except Fault (σ × Args)) {t : List Byte}
    (ht : 0 ∉ t) (ap : Args) (s : σ) :
    vprintfmtBody putch pf (t ++ [0]) ap s = runItems putch pf (items t) ap s := by
  have hfuel : t.length < (t ++ [0]).length + 1 := by
    rw [List.length_append]
    omega
  exact scanLoop_eq putch pf (List.nil_append (t ++ [0])).symm ht hfuel ap s

end

end Jos
