import Jos.Messages
import Jos.StringField

/-!
# Error Codes

The case of `%e`. An error code and its negation are to print the same, and so the code takes
the negation of a negative one and looks the result up in a table. There is one int whose
negation wraps around to itself: it stays negative, passes a check that has an upper side only,
and is what the table is indexed with.

## Main results

* `formatErr_eq`: what the case of `%e` does, in terms of the index that it uses.
* `output_error`: what it prints of a code that can be negated.
* `printsError_iff`: error codes print as they should, but for the most negative int.
-/

namespace Jos

/-! ### The index and the text -/

/-- The local `err` behind the negation. -/
def absErr (e : BitVec 32) : BitVec 32 :=
  if e.toInt < 0 then -e else e

/-- The index that is used into `error_string`, if one is. -/
def errIndex (e : BitVec 32) : Option (BitVec 32) :=
  if maxError ≤ (absErr e).toInt then none else some (absErr e)

/-- The text that is due for a code of magnitude `n`: that of the table, without its NUL, where
the table has one. -/
def errorText (n : ℕ) : List Byte :=
  match errorTable.getD n none with
  | none => "error ".toList.map chr ++ numeralText 10 n
  | some p => p.dropLast

/-- What `%e` prints of a code, whatever the flags, the width and the precision. -/
def printedError (d : Directive) (e : BitVec 32) : Except Fault (List (BitVec 32) × Args) :=
  output (d.fmt (chr 'e')) (d.args ++ [.word e])

/-- A code prints as it should: the index is in the table, the text is the one that is due for
its magnitude, and the negated code prints the same, if there is one. -/
structure PrintsError (d : Directive) (e : BitVec 32) : Prop where
  index : ∀ i ∈ errIndex e, 0 ≤ i.toInt ∧ i.toInt < maxError
  text : printedError d e = .ok ((errorText e.toInt.natAbs).map (·.signExtend 32), [])
  symmetric : ∀ e', e'.toInt = -e.toInt → printedError d e' = printedError d e

/-! ### The case of `%e` -/

/-- **The case of `%e`**: the table is read at the index, and without an index or a text the
number is printed. -/
theorem formatErr_eq {σ : Type} (pf : List Byte → Args → σ → Except Fault (σ × Args))
    (e : BitVec 32) (s : σ) :
    formatErr pf e s = ((errIndex e).bind errorString).elim
      (pf (cstr "error %d") [.word (absErr e)] s) fun p => pf (cstr "%s") [.str p] s := by
  rw [formatErr, errIndex, absErr]
  by_cases hlarge : maxError ≤ (if e.toInt < 0 then -e else e).toInt
  · simp only [if_pos hlarge, Option.bind_none, Option.elim_none]
  · simp only [if_neg hlarge, Option.bind_some]
    cases errorString (if e.toInt < 0 then -e else e) with
    | none => rfl
    | some p => rfl

/-- Only the case itself decides what `%e` prints. -/
theorem printedError_eq (d : Directive) (e : BitVec 32) :
    printedError d e =
      (formatErr (printfmt fun c out => out ++ [c]) e []).map fun r => (r.1, []) := by
  refine output_directive d (by decide) ?_
  rw [convert_e, vaInt, ok_bind]
  cases formatErr (printfmt fun c out => out ++ [c]) e [] with
  | error e => rfl
  | ok r => rfl

/-- The format of an unknown error prints a word and the number. -/
theorem output_errorFmt (err : BitVec 32) :
    output (cstr "error %d") [.word err] =
      .ok (("error ".toList.map chr ++ signedText err.toInt).map (·.signExtend 32), []) := by
  have hword := prints_text (s := "error ") rfl
  have hnumber : Prints ("%d".toList.map chr) [.word err]
      ((signedText err.toInt).map (·.signExtend 32)) := ⟨by decide, by decide, output_decimal err⟩
  rw [List.map_append]
  exact (hword.append hnumber).output

/-- The format of a known one prints its text. -/
theorem output_stringFmt {p : List Byte} (hp : some p ∈ errorTable) :
    output (cstr "%s") [.str p] = .ok (p.dropLast.map (·.signExtend 32), []) := by
  have htexts : ∀ q ∈ errorTable, ∀ p ∈ q, p.dropLast ++ [0] = p ∧ 0 ∉ p.dropLast ∧
      p.dropLast.length ≤ 19 := by
    decide
  obtain ⟨hend, hnul, hlen⟩ := htexts _ hp p rfl
  have hprints := output_str hnul [] (hlen.trans (by norm_num))
  rwa [hend] at hprints

/-! ### Codes that can be negated -/

/-- The negation does not wrap around. -/
theorem toInt_absErr {e : BitVec 32} (h : e.toInt ≠ -2 ^ 31) :
    (absErr e).toInt = e.toInt.natAbs := by
  have hle := BitVec.le_toInt (x := e)
  have hlt := BitVec.toInt_lt (x := e)
  rw [absErr]
  split
  · rw [BitVec.toInt_neg, Int.bmod_eq_of_le (by omega) (by omega)]
    omega
  · omega

/-- The table is read at the magnitude of the code, if it is that long. -/
theorem errIndex_bind {e : BitVec 32} (h : e.toInt ≠ -2 ^ 31) :
    (errIndex e).bind errorString = errorTable.getD e.toInt.natAbs none := by
  have habs := toInt_absErr h
  have htable : ∀ n < maxError, errorString (BitVec.ofNat 32 n) = errorTable.getD n none := by
    decide
  rw [errIndex]
  by_cases hlarge : maxError ≤ (absErr e).toInt
  · have hlength : errorTable.length ≤ e.toInt.natAbs := by
      rw [habs] at hlarge
      exact Int.ofNat_le.mp hlarge
    rw [if_pos hlarge, Option.bind_none, List.getD_eq_getElem?_getD,
      List.getElem?_eq_none hlength, Option.getD_none]
  · have hword : absErr e = BitVec.ofNat 32 e.toInt.natAbs := by
      rw [← BitVec.ofInt_natCast, ← habs, BitVec.ofInt_toInt]
    rw [if_neg hlarge, Option.bind_some, hword]
    exact htable _ (by omega)

/-- **What `%e` prints of a code that can be negated**: the text for its magnitude. -/
theorem output_error (d : Directive) {e : BitVec 32} (h : e.toInt ≠ -2 ^ 31) :
    printedError d e = .ok ((errorText e.toInt.natAbs).map (·.signExtend 32), []) := by
  rw [printedError_eq, formatErr_eq, errIndex_bind h, errorText]
  cases htext : errorTable.getD e.toInt.natAbs none with
  | none =>
      have hsigned : signedText (absErr e).toInt = numeralText 10 e.toInt.natAbs := by
        rw [toInt_absErr h, signedText, if_neg (by omega), Int.natAbs_natCast]
      have hprints := output_errorFmt (absErr e)
      rw [hsigned] at hprints
      exact congrArg (Except.map fun r => (r.1, [])) hprints
  | some p =>
      have hmem : some p ∈ errorTable := by
        rw [List.getD_eq_getElem?_getD] at htext
        cases hget : errorTable[e.toInt.natAbs]? with
        | none =>
            rw [hget] at htext
            cases htext
        | some q =>
            rw [hget, Option.getD_some] at htext
            exact htext ▸ List.mem_of_getElem? hget
      exact congrArg (Except.map fun r => (r.1, [])) (output_stringFmt hmem)

/-! ### The most negative int -/

/-- It is its own negation. -/
theorem absErr_min {e : BitVec 32} (h : e.toInt = -2 ^ 31) : absErr e = e := by
  have hmin : e = BitVec.intMin 32 := BitVec.eq_of_toInt_eq h
  rw [hmin]
  decide

/-- It is used as an index. -/
theorem errIndex_min {e : BitVec 32} (h : e.toInt = -2 ^ 31) : errIndex e = some e := by
  rw [errIndex, absErr_min h, if_neg (by omega)]

/-- **When error codes print symmetrically.** For every directive and every code, unless it is
the most negative int. -/
theorem printsError_iff (d : Directive) (e : BitVec 32) :
    PrintsError d e ↔ e.toInt ≠ -2 ^ 31 := by
  constructor
  · intro hprints hmin
    have hindex := (hprints.index e (errIndex_min hmin)).1
    omega
  · intro h
    refine ⟨?_, output_error d h, ?_⟩
    · intro i hi
      have habs := toInt_absErr h
      rw [errIndex] at hi
      split at hi
      · cases hi
      · cases hi
        omega
    · intro e' he'
      have h' : e'.toInt ≠ -2 ^ 31 := by
        have hlt := BitVec.toInt_lt (x := e)
        omega
      rw [output_error d h, output_error d h', he', Int.natAbs_neg]

/-- **The code -2147483648** prints with a minus sign. -/
theorem not_printsError : ¬ PrintsError ⟨.plain, .none, none, 0⟩ (BitVec.intMin 32) := by
  intro hprints
  have hindex := hprints.index (BitVec.intMin 32) (errIndex_min rfl)
  revert hindex
  decide

end Jos
