import Jos.FormatLaws
import Jos.NumberField
import Jos.Printf

/-!
# Messages

The messages of the kernel: literal text with a few conversions in it. What they print is put
together from what their pieces print.

## Main results

* `prints_text`, `prints_number`, `prints_string`, `prints_precision`: the pieces.
* `prints_between`: a piece between two others.
* `cprintf_prints`: a message that has been put together can be printed to the console.
-/

namespace Jos

/-- The characters of a literal, as they are printed. -/
def printedText (s : String) : List (BitVec 32) :=
  (s.toList.map chr).map (·.setWidth 32)

/-- The literal has no conversion in it, and no NUL. -/
def plainText (s : String) : Bool :=
  s.toList.all fun c => chr c != chr '%' && chr c != 0

/-- Literal text. -/
theorem prints_text {s : String} (hs : plainText s = true) :
    Prints (s.toList.map chr) [] (printedText s) := by
  refine prints_lits (List.forall_mem_map.mpr fun c hc => ?_)
  have h := List.all_eq_true.mp hs c hc
  rwa [Bool.and_eq_true, bne_iff_ne, bne_iff_ne] at h

/-- A number without a field. -/
theorem prints_number (c : NumConv) (v : BitVec 32) :
    ∃ text, Prints [chr '%', c.ch] [.word v] text := by
  have hnumber : ∀ v : BitVec Length.int.bits, ∃ text, number .plain .none .int c v =
      .ok (text, []) := fun v => ⟨_, number_eq .plain .none .int c v⟩
  obtain ⟨text, hprint⟩ := hnumber v
  have hfmt : (numberDirective .plain .none .int).fmt c.ch = [chr '%', c.ch] ++ [0] := rfl
  refine ⟨text, ?_, ?_, by rw [← hfmt]; exact hprint⟩
  · cases c <;> decide
  · cases c <;> decide

/-- A string. -/
theorem prints_string {p : List Byte} (hp : 0 ∈ p) :
    ∃ text, Prints ("%s".toList.map chr) [.str p] text := by
  obtain ⟨text, hprint⟩ := vprintfmt_string_isOk (fun c out => out ++ [c]) hp []
  exact ⟨text, by decide, by decide, hprint⟩

/-- A string with a precision, whatever the precision. -/
theorem prints_precision (n : BitVec 32) {p : List Byte} (hp : 0 ∈ p) :
    ∃ text, Prints ("%.*s".toList.map chr) [.word n, .str p] text := by
  obtain ⟨⟨out, width⟩, hloop⟩ := strLoop_isOk (fun c out => out ++ [c]) false hp n 0 []
  have hwidth : (Directive.mk .plain .none (some n) 0).opts.width = 0 := rfl
  have hpad : padBefore (fun c out => out ++ [c]) (Directive.mk .plain .none (some n) 0).opts p [] =
      .ok ([], 0) := if_neg fun h => by
    rw [hwidth] at h
    exact absurd h.1 (by decide)
  have hconv : ∃ text,
      convert (fun c out => out ++ [c]) (printfmt fun c out => out ++ [c])
        (Directive.mk .plain .none (some n) 0).opts (chr 's') [.str p] [] =
          some (.ok (text, [])) := by
    rw [convert_s, vaStr, ok_bind, Option.getD_some, formatStr, hpad, ok_bind]
    exact ⟨_, congrArg (fun r => some (r >>= _ >>= _)) hloop⟩
  obtain ⟨text, htext⟩ := hconv
  exact ⟨text, by decide, by decide, output_directive (Directive.mk .plain .none (some n) 0)
    (by decide) htext⟩

/-- A piece between two literals. -/
theorem prints_between {s t : String} (hs : plainText s = true) (ht : plainText t = true)
    {F : List Byte} {ap : Args} {text : List (BitVec 32)} (h : Prints F ap text) :
    Prints (s.toList.map chr ++ (F ++ t.toList.map chr)) ap
      (printedText s ++ (text ++ printedText t)) := by
  have hall := (prints_text hs).append (h.append (prints_text ht))
  rwa [List.nil_append, List.append_nil] at hall

/-- **A message** is printed to the console. -/
theorem cprintf_prints {t : List Byte} {ap : Args} {text : List (BitVec 32)} (h : Prints t ap text)
    (c : Console) : ∃ r, cprintf (t ++ [0]) ap c = .ok r := by
  rw [cprintf, vcprintf, vprintfmt_eq_foldl putch h.nul h.output]
  exact ⟨_, rfl⟩

end Jos
