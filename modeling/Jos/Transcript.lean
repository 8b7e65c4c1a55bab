import Jos.Ansi
import Jos.Messages

/-!
# Transcripts

What has been printed, while the rest of the kernel stores to the memory between two characters
(`Printed`): to the ports, the cursor, the attribute and the parser that makes no difference, and
as long as it leaves the screen alone the cells are those of the text as well.

## Main results

* `Printed.append`: a text, and then another one.
* `Printed.renders`: what the screen shows of a text, and what the ports receive.
* `cprintf_text`: what a message prints is its text.
-/

namespace Jos

open Console

/-! ### Texts -/

/-- The characters of a text, each through `cputchar`. -/
def Console.print (text : List (BitVec 32)) (s : Console) : Console :=
  text.foldl (fun s c => cputchar c s) s

/-- The text has been printed, and something may have been stored beside it, but not on the
screen. -/
structure Printed (text : List (BitVec 32)) (s s' : Console) : Prop where
  upToMem : UpToMem (s.print text) s'
  /-- the terminal that the console was has become what the text makes of it -/
  renders : ∀ {s₀ a}, Renders s₀ s a → Renders s₀ s' (a.text text)

/-- Printing is printed. -/
theorem printed_print (text : List (BitVec 32)) (s : Console) : Printed text s (s.print text) where
  upToMem := .refl _
  renders := fun h => foldl_renders h text

/-- Something has been stored, but not on the screen. -/
theorem printed_nil {s : Console} {m : Mem}
    (hm : ∀ a, OnScreen s.crtBuf a → m.byte a = s.mem.byte a) : Printed [] s (s.withMem m) where
  upToMem := ⟨m, rfl⟩
  renders := by
    intro s₀ a h
    have hcell : ∀ i < crtCols * 25, (s.withMem m).cell i = s.cell i := by
      intro i hi
      have hlow : m.byte (s.cellAddr i) = s.mem.byte (s.cellAddr i) := hm _ ⟨i, hi, Or.inl rfl⟩
      have hhigh : m.byte (s.cellAddr i + 1) = s.mem.byte (s.cellAddr i + 1) :=
        hm _ ⟨i, hi, Or.inr rfl⟩
      change (m.byte (s.cellAddr i + 1) ++ m.byte (s.cellAddr i) : BitVec 16) = s.cell i
      rw [hlow, hhigh]
      rfl
    refine ⟨h.passes.upToMem ⟨s.mem, rfl⟩, h.pen, h.shown.congr hcell, ?_⟩
    obtain ⟨scanner, pen, screen, sent⟩ := a
    cases scanner with
    | text => trivial
    | esc => trivial
    | csi vs v =>
        obtain ⟨hcollected, hv⟩ := h.scans
        exact ⟨⟨Parses.refl _, rfl, hcollected.esc, hcollected.nparams, hcollected.params⟩, hv⟩

/-- **One text after another.** -/
theorem Printed.append {t u : List (BitVec 32)} {s₁ s₂ s₃ : Console} (h₁ : Printed t s₁ s₂)
    (h₂ : Printed u s₂ s₃) : Printed (t ++ u) s₁ s₃ where
  upToMem := by
    rw [Console.print, List.foldl_append]
    exact (foldl_upToMem (fun c _ _ h => consPutc_upToMem c h) u h₁.upToMem).trans h₂.upToMem
  renders := fun h => by
    rw [AnsiTerm.text, List.foldl_append]
    exact h₂.renders (h₁.renders h)

/-! ### Messages -/

/-- **A message** prints its text, and `cprintf` returns 0. -/
theorem cprintf_text {t : List Byte} {ap : Args} {text : List (BitVec 32)} (h : Prints t ap text)
    (s : Console) : cprintf (t ++ [0]) ap s = .ok (s.print text, 0) := by
  have hfold : ∀ (l : List (BitVec 32)) (s : Console × BitVec 32),
      l.foldl (fun s c => putch c s) s = (s.1.print l, s.2) := by
    intro l
    induction l with
    | nil => exact fun s => rfl
    | cons c l ih => exact fun s => ih (putch c s)
  rw [cprintf, vcprintf, vprintfmt_eq_foldl putch h.nul h.output, hfold]
  rfl

end Jos
