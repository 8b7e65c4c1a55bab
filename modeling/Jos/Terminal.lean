import Mathlib.Algebra.NeZero
import Mathlib.Algebra.Order.Ring.Nat
import Mathlib.Data.Nat.Basic
import Mathlib.Logic.Function.Basic
import Mathlib.Tactic.Common

/-!
# The Unbounded Terminal

What a scrolling text screen is for: a terminal whose rows never end. Its cells are
numbered through from the first row ever printed, so that a cell keeps its number when
the view moves on; the view is the `rows` rows from `top` on, and the cursor is inside
the view by construction — the bounds are fields.

A screen of `rows * cols` cells with a relative cursor *shows* such a terminal when it is
exactly the view (`Shows`). The rules below say how the operations of a screen — store and
advance, scroll when the cursor has left — correspond to the operations of the terminal.
Nothing here refers to a particular screen, cell or size.

## Main results

* `Shows.settle_stay`, `Shows.settle_scroll`: a screen that follows the cursor past the
  view by moving its rows up shows the terminal whose view has moved down one row.
* `Term.top_settle`: the view moves, by one row, exactly when the cursor has left it.
* `Term.cell_settle`: moving the view blanks the row that comes into view and no other.
* `Term.Typed.put`, `Term.Typed.backspace`: a text at the cursor that is typed and erased.
* `Shows.text`: where a screen shows the text at the cursor.
* `Term.map_put` and the like: the operations do not look at what is in the cells.
-/

namespace Jos

/-- A terminal of endless rows of `cols` cells, seen through a window of `rows` rows. Cell
`cols * r + c` is column `c` of row `r`. -/
structure Term (α : Type*) (rows cols : ℕ) where
  cell : ℕ → α
  cur : ℕ
  top : ℕ
  above : cols * top ≤ cur
  below : cur < cols * (top + rows)

namespace Term

variable {α : Type*} {rows cols : ℕ}

/-- A terminal with a screen already on it: the screen is the first rows, the view is all
of them. -/
def ofScreen (screen : ℕ → α) (pos : ℕ) (h : pos < cols * rows) : Term α rows cols where
  cell := screen
  cur := pos
  top := 0
  above := by simp
  below := by simpa using h

variable [NeZero rows]

/-- Bring the cursor back into view: when it has left the window by a row, the window
moves down one row, and the row that comes into view is blank. -/
def settle (blank : α) (cell : ℕ → α) (cur top : ℕ) (habove : cols * top ≤ cur)
    (hbelow : cur < cols * (top + rows + 1)) : Term α rows cols :=
  if h : cur < cols * (top + rows) then
    { cell := cell, cur := cur, top := top, above := habove, below := h }
  else
    { cell := fun i =>
        if cols * (top + rows) ≤ i ∧ i < cols * (top + rows + 1) then blank else cell i
      cur := cur
      top := top + 1
      above := by
        have hrows : top + 1 ≤ top + rows := Nat.add_le_add_left (Nat.pos_of_neZero rows) top
        exact le_trans (Nat.mul_le_mul_left cols hrows) (Nat.le_of_not_lt h)
      below := by rwa [Nat.add_right_comm] }

/-! ### How the window moves -/

/-- The window moves exactly when the cursor has left it, and then by one row. -/
theorem top_settle (blank : α) (cell : ℕ → α) (cur top : ℕ) (habove : cols * top ≤ cur)
    (hbelow : cur < cols * (top + rows + 1)) :
    (settle blank cell cur top habove hbelow : Term α rows cols).top =
      if cur < cols * (top + rows) then top else top + 1 := by
  rw [settle]
  split <;> rfl

/-- Moving the window blanks the row that comes into view, and no other cell. -/
theorem cell_settle (blank : α) (cell : ℕ → α) (cur top : ℕ) (habove : cols * top ≤ cur)
    (hbelow : cur < cols * (top + rows + 1)) (i : ℕ) :
    (settle blank cell cur top habove hbelow : Term α rows cols).cell i =
      if ¬ cur < cols * (top + rows) ∧ cols * (top + rows) ≤ i ∧ i < cols * (top + rows + 1)
      then blank else cell i := by
  rw [settle]
  by_cases h : cur < cols * (top + rows)
  · rw [dif_pos h, if_neg fun h' => h'.1 h]
  · rw [dif_neg h]
    exact if_congr ⟨fun h' => ⟨h, h'⟩, fun h' => h'.2⟩ rfl rfl

/-! ### Operations -/

variable [NeZero cols]

/-- A position up to the end of a row is before the end of the next. -/
theorem lt_cols_mul_succ {cur n : ℕ} (h : cur ≤ cols * n) : cur < cols * (n + 1) := by
  have hcols : 0 < cols := Nat.pos_of_neZero cols
  rw [Nat.mul_succ]
  omega

/-- Write a cell at the cursor and advance, wrapping into the next row. -/
def put (blank v : α) (t : Term α rows cols) : Term α rows cols :=
  settle blank (Function.update t.cell t.cur v) (t.cur + 1) t.top (by have := t.above; omega)
    (lt_cols_mul_succ t.below)

/-- Go to the start of the next row. -/
def newline (blank : α) (t : Term α rows cols) : Term α rows cols :=
  settle blank t.cell (cols * (t.cur / cols + 1)) t.top
    (by
      have h := Nat.div_add_mod t.cur cols
      have hmod := Nat.mod_lt t.cur (Nat.pos_of_neZero cols)
      have habove := t.above
      rw [Nat.mul_succ]
      omega)
    (lt_cols_mul_succ (Nat.mul_le_mul_left cols (Nat.div_lt_of_lt_mul t.below)))

/-- Go to the start of the current row. -/
def carriageReturn (t : Term α rows cols) : Term α rows cols where
  cell := t.cell
  cur := cols * (t.cur / cols)
  top := t.top
  above := Nat.mul_le_mul_left cols
    ((Nat.le_div_iff_mul_le (Nat.pos_of_neZero cols)).mpr (by rw [Nat.mul_comm]; exact t.above))
  below := lt_of_le_of_lt (Nat.mul_div_le t.cur cols) t.below

/-- Step back one cell and write it, unless the cursor is on the first visible cell. -/
def backspace (v : α) (t : Term α rows cols) : Term α rows cols :=
  if h : cols * t.top < t.cur then
    { cell := Function.update t.cell (t.cur - 1) v
      cur := t.cur - 1
      top := t.top
      above := by omega
      below := by have := t.below; omega }
  else t

/-! ### Other cells -/

section

variable {β : Type*} (f : α → β)

/-- The terminal with every cell seen through `f`. -/
def map (t : Term α rows cols) : Term β rows cols where
  cell i := f (t.cell i)
  cur := t.cur
  top := t.top
  above := t.above
  below := t.below

omit [NeZero cols] in
/-- Cells are mapped before or after the window settles. -/
theorem map_settle (blank : α) (cell : ℕ → α) (cur top : ℕ) (habove : cols * top ≤ cur)
    (hbelow : cur < cols * (top + rows + 1)) :
    (settle blank cell cur top habove hbelow : Term α rows cols).map f =
      settle (f blank) (fun i => f (cell i)) cur top habove hbelow := by
  rw [settle, settle]
  split
  · rfl
  · simp only [map, apply_ite f]

/-- Cells are mapped before or after one is put. -/
theorem map_put (blank v : α) (t : Term α rows cols) :
    (t.put blank v).map f = (t.map f).put (f blank) (f v) := by
  have hcell : (fun i => f (Function.update t.cell t.cur v i)) =
      Function.update (fun i => f (t.cell i)) t.cur (f v) := by
    funext i
    simp only [Function.update_apply, apply_ite f]
  rw [put, put, map_settle]
  simp only [map, hcell]

/-- Cells are mapped before or after a new line. -/
theorem map_newline (blank : α) (t : Term α rows cols) :
    (t.newline blank).map f = (t.map f).newline (f blank) := by
  rw [newline, map_settle]
  rfl

omit [NeZero rows] [NeZero cols] in
/-- Cells are mapped before or after a step back. -/
theorem map_backspace (v : α) (t : Term α rows cols) :
    (t.backspace v).map f = (t.map f).backspace (f v) := by
  have hcell : (fun i => f (Function.update t.cell (t.cur - 1) v i)) =
      Function.update (fun i => f (t.cell i)) (t.cur - 1) (f v) := by
    funext i
    simp only [Function.update_apply, apply_ite f]
  by_cases h : cols * t.top < t.cur
  · have h' : cols * (t.map f).top < (t.map f).cur := h
    rw [backspace, backspace, dif_pos h, dif_pos h']
    simp only [map, hcell]
  · have h' : ¬ cols * (t.map f).top < (t.map f).cur := h
    rw [backspace, backspace, dif_neg h, dif_neg h']

/-- Cells are mapped before or after some are put. -/
theorem map_iterate_put (blank v : α) (n : ℕ) (t : Term α rows cols) :
    ((put blank v)^[n] t).map f = (put (f blank) (f v))^[n] (t.map f) := by
  induction n with
  | zero => rfl
  | succ n ih => rw [Function.iterate_succ_apply', Function.iterate_succ_apply', map_put, ih]

end

/-! ### Text at the cursor -/

/-- The text `l`, read off the cells with `f`, stands right before the cursor, and the
view begins at its first cell or above. -/
structure Typed {β : Type*} (f : α → β) (start : ℕ) (l : List β) (t : Term α rows cols) :
    Prop where
  cur : t.cur = start + l.length
  visible : cols * t.top ≤ start
  cell : ∀ j (h : j < l.length), f (t.cell (start + j)) = l[j]

omit [NeZero rows] [NeZero cols] in
/-- No text at the cursor. -/
theorem typed_nil {β : Type*} (f : α → β) (t : Term α rows cols) :
    t.Typed f t.cur ([] : List β) :=
  ⟨rfl, t.above, fun _ h => absurd h (Nat.not_lt_zero _)⟩

/-- A cell that is written lengthens the text, however the window moves, as long as the
text and one more row fit into it. -/
theorem Typed.put {β : Type*} {f : α → β} {start : ℕ} {l : List β} {t : Term α rows cols}
    (h : t.Typed f start l) (hlen : l.length + 1 + cols ≤ cols * rows) (blank v : α) :
    (t.put blank v).Typed f start (l ++ [f v]) := by
  have hcur := h.cur
  have hvisible := h.visible
  have hbelow := t.below
  have hend : cols * (t.top + rows) = cols * t.top + cols * rows := Nat.mul_add ..
  refine ⟨?_, ?_, fun j hj => ?_⟩
  · have hput : (t.put blank v).cur = t.cur + 1 := by
      rw [Term.put, settle]
      split <;> rfl
    rw [hput, List.length_append, List.length_singleton, hcur]
    rfl
  · rw [Term.put, top_settle]
    split
    · exact hvisible
    · have hrow : cols * (t.top + 1) = cols * t.top + cols := Nat.mul_succ ..
      omega
  · rw [List.length_append, List.length_singleton] at hj
    -- the row that comes into view lies behind the cursor
    rw [Term.put, cell_settle, if_neg (by omega), Function.update_apply]
    by_cases hlast : j = l.length
    · subst hlast
      rw [if_pos hcur.symm, List.getElem_concat_length rfl]
    · rw [if_neg (by omega), h.cell j (by omega), List.getElem_append_left (by omega)]

omit [NeZero rows] [NeZero cols] in
/-- Stepping back takes the last cell off the text. -/
theorem Typed.backspace {β : Type*} {f : α → β} {start : ℕ} {l : List β}
    {t : Term α rows cols} (h : t.Typed f start l) (hl : 0 < l.length) (v : α) :
    (t.backspace v).Typed f start l.dropLast := by
  have hcur := h.cur
  have hvisible := h.visible
  rw [Term.backspace, dif_pos (by omega)]
  refine ⟨?_, hvisible, fun j hj => ?_⟩
  · simp only [List.length_dropLast]
    omega
  · rw [List.length_dropLast] at hj
    have hne : start + j ≠ t.cur - 1 := by omega
    rw [List.getElem_dropLast, ← h.cell j (by omega)]
    exact congrArg f (Function.update_of_ne hne v t.cell)

end Term

/-! ### Screens -/

/-- A screen with its cursor *shows* a terminal: its cells are the visible ones, in
order, and its cursor is the terminal's relative to the first of them. -/
structure Shows {α : Type*} {rows cols : ℕ} (screen : ℕ → α) (pos : ℕ)
    (t : Term α rows cols) : Prop where
  cell : ∀ i < cols * rows, screen i = t.cell (cols * t.top + i)
  cur : cols * t.top + pos = t.cur

namespace Shows

variable {α : Type*} {rows cols : ℕ} {screen : ℕ → α} {pos : ℕ} {t : Term α rows cols}

theorem ofScreen (screen : ℕ → α) (pos : ℕ) (h : pos < cols * rows) :
    Shows screen pos (Term.ofScreen screen pos h : Term α rows cols) :=
  ⟨fun i _ => by simp [Term.ofScreen], by simp [Term.ofScreen]⟩

/-- The position that is shown is on the screen. -/
theorem pos_lt (h : Shows screen pos t) : pos < cols * rows := by
  have hcur := h.cur
  have hbelow := t.below
  rw [Nat.mul_add] at hbelow
  omega

/-- A screen that agrees on every cell shows the same terminal. -/
theorem congr {screen' : ℕ → α} (h : Shows screen pos t)
    (hcell : ∀ i < cols * rows, screen' i = screen i) : Shows screen' pos t :=
  ⟨fun i hi => (hcell i hi).trans (h.cell i hi), h.cur⟩

/-- The text at the cursor stands on the screen right before its cursor. -/
theorem text {β : Type*} {f : α → β} {start : ℕ} {l : List β} (h : Shows screen pos t)
    (ht : t.Typed f start l) :
    l.length ≤ pos ∧ ∀ j (hj : j < l.length), f (screen (pos - l.length + j)) = l[j] := by
  have hcur := h.cur
  have hcur' := ht.cur
  have hvisible := ht.visible
  have hpos := h.pos_lt
  refine ⟨by omega, fun j hj => ?_⟩
  rw [h.cell _ (by omega), ← ht.cell j hj]
  congr 2
  omega

variable [NeZero rows] {blank : α} {cell : ℕ → α} {cur top : ℕ}
  {habove : cols * top ≤ cur} {hbelow : cur < cols * (top + rows + 1)}

/-- While the cursor stays in view, so does every cell. -/
theorem settle_stay (hcell : ∀ i < cols * rows, screen i = cell (cols * top + i))
    (hcur : cols * top + pos = cur) (hpos : pos < cols * rows) :
    Shows screen pos (Term.settle blank cell cur top habove hbelow : Term α rows cols) := by
  have hin : cur < cols * (top + rows) := by rw [Nat.mul_add]; omega
  rw [Term.settle, dif_pos hin]
  exact ⟨hcell, hcur⟩

/-- When the cursor leaves the view, moving every row up by one and blanking the last one
is what the moved window shows: no visible cell is lost, doubled or out of order. -/
theorem settle_scroll {screen' : ℕ → α}
    (hcell : ∀ i < cols * rows, screen i = cell (cols * top + i))
    (hcur : cols * top + pos = cur) (hpos : cols * rows ≤ pos)
    (hscroll : ∀ i < cols * rows,
      screen' i = if i < cols * rows - cols then screen (i + cols) else blank) :
    Shows screen' (pos - cols)
      (Term.settle blank cell cur top habove hbelow : Term α rows cols) := by
  have hout : ¬ cur < cols * (top + rows) := by rw [Nat.mul_add]; omega
  have hcols : cols ≤ cols * rows := Nat.le_mul_of_pos_right cols (Nat.pos_of_neZero rows)
  rw [Term.settle, dif_neg hout]
  have hrow : cols * (top + 1) = cols * top + cols := Nat.mul_succ cols top
  have hend : cols * (top + rows) = cols * top + cols * rows := Nat.mul_add cols top rows
  have hend' : cols * (top + rows + 1) = cols * (top + rows) + cols := Nat.mul_succ cols _
  refine ⟨fun i hi => ?_, by simp only [hrow]; omega⟩
  simp only [hscroll i hi, hrow]
  by_cases hlow : i < cols * rows - cols
  · rw [if_pos hlow, if_neg (by omega), hcell (i + cols) (by omega)]
    congr 1
    omega
  · rw [if_neg hlow, if_pos (by omega)]

end Shows

end Jos
