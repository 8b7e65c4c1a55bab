import Jos.Printf
import Mathlib.Data.Finset.Basic

/-!
# The Keyboard

`kbd_proc_data` of `kern/console.c`: scan codes to characters, with the modifier state in
the static `shift`. One bit of `shift` stands for both keys of a kind, and a release clears
it, whichever of the two keys is still down.

A scan code is what a key sends when it is pressed, repeated or released: its make code, or
that with the top bit set, behind an `E0` for some keys (`Key`). Beside the driver's state a
run keeps the set of keys that are down (`Board`).

## Main results

* `scan_press`, `scan_release`: what a complete scan code does to the modifier bits.
* `run_follows_iff`: the modifier bits follow the keys exactly as long as no modifier key is
  released while the other key of its kind is down.
-/

namespace Jos

/-! ### Constants -/

abbrev no : Byte := 0

abbrev shiftBit : BitVec 32 := 0x01
abbrev ctl : BitVec 32 := 0x02
abbrev alt : BitVec 32 := 0x04
abbrev capslock : BitVec 32 := 0x08
abbrev numlock : BitVec 32 := 0x10
abbrev scrolllock : BitVec 32 := 0x20
abbrev e0esc : BitVec 32 := 0x40

abbrev keyHome : Byte := 0xE0
abbrev keyEnd : Byte := 0xE1
abbrev keyUp : Byte := 0xE2
abbrev keyDn : Byte := 0xE3
abbrev keyLf : Byte := 0xE4
abbrev keyRt : Byte := 0xE5
abbrev keyPgup : Byte := 0xE6
abbrev keyPgdn : Byte := 0xE7
abbrev keyIns : Byte := 0xE8
abbrev keyDel : Byte := 0xE9

/-- The status bits: data in the buffer, and data from the mouse. -/
abbrev kbsDib : Byte := 0x01
abbrev kbsTerr : Byte := 0x20

/-! ### Tables -/

/-- A table of 256 bytes, given by its first entries and some later ones; the rest are 0. -/
def table (first : List Byte) (later : List (Byte × Byte)) (i : Byte) : Byte :=
  (later.lookup i).getD (first.getD i.toNat no)

/-- `shiftcode`. -/
def shiftcode : Byte → Byte :=
  table [] [(0x1D, 0x02), (0x2A, 0x01), (0x36, 0x01), (0x38, 0x04), (0x9D, 0x02), (0xB8, 0x04)]

/-- `togglecode`. -/
def togglecode : Byte → Byte :=
  table [] [(0x3A, 0x08), (0x45, 0x10), (0x46, 0x20)]

/-- The entries that `normalmap` and `shiftmap` have in common from `0x9C` on. -/
def keypad : List (Byte × Byte) :=
  [(0xC7, keyHome), (0x9C, chr '\n'), (0xB5, chr '/'), (0xC8, keyUp), (0xC9, keyPgup),
    (0xCB, keyLf), (0xCD, keyRt), (0xCF, keyEnd), (0xD0, keyDn), (0xD1, keyPgdn),
    (0xD2, keyIns), (0xD3, keyDel)]

/-- `normalmap`. -/
def normalmap : Byte → Byte :=
  table
    [no, 0x1B, chr '1', chr '2', chr '3', chr '4', chr '5', chr '6',
      chr '7', chr '8', chr '9', chr '0', chr '-', chr '=', 0x08, chr '\t',
      chr 'q', chr 'w', chr 'e', chr 'r', chr 't', chr 'y', chr 'u', chr 'i',
      chr 'o', chr 'p', chr '[', chr ']', chr '\n', no, chr 'a', chr 's',
      chr 'd', chr 'f', chr 'g', chr 'h', chr 'j', chr 'k', chr 'l', chr ';',
      0x27, 0x60, no, 0x5C, chr 'z', chr 'x', chr 'c', chr 'v',
      chr 'b', chr 'n', chr 'm', chr ',', chr '.', chr '/', no, chr '*',
      no, chr ' ', no, no, no, no, no, no,
      no, no, no, no, no, no, no, chr '7',
      chr '8', chr '9', chr '-', chr '4', chr '5', chr '6', chr '+', chr '1',
      chr '2', chr '3', chr '0', chr '.', no, no, no, no]
    keypad

/-- `shiftmap`. -/
def shiftmap : Byte → Byte :=
  table
    [no, 0x1B, chr '!', chr '@', chr '#', chr '$', chr '%', chr '^',
      chr '&', chr '*', chr '(', chr ')', chr '_', chr '+', 0x08, chr '\t',
      chr 'Q', chr 'W', chr 'E', chr 'R', chr 'T', chr 'Y', chr 'U', chr 'I',
      chr 'O', chr 'P', 0x7B, 0x7D, chr '\n', no, chr 'A', chr 'S',
      chr 'D', chr 'F', chr 'G', chr 'H', chr 'J', chr 'K', chr 'L', chr ':',
      0x22, chr '~', no, chr '|', chr 'Z', chr 'X', chr 'C', chr 'V',
      chr 'B', chr 'N', chr 'M', chr '<', chr '>', chr '?', no, chr '*',
      no, chr ' ', no, no, no, no, no, no,
      no, no, no, no, no, no, no, chr '7',
      chr '8', chr '9', chr '-', chr '4', chr '5', chr '6', chr '+', chr '1',
      chr '2', chr '3', chr '0', chr '.', no, no, no, no]
    keypad

/-- `C`. -/
def ctlChar (c : Char) : Byte :=
  chr c - chr '@'

/-- `ctlmap`. -/
def ctlmap : Byte → Byte :=
  table
    [no, no, no, no, no, no, no, no,
      no, no, no, no, no, no, no, no,
      ctlChar 'Q', ctlChar 'W', ctlChar 'E', ctlChar 'R',
      ctlChar 'T', ctlChar 'Y', ctlChar 'U', ctlChar 'I',
      ctlChar 'O', ctlChar 'P', no, no, chr '\r', no, ctlChar 'A', ctlChar 'S',
      ctlChar 'D', ctlChar 'F', ctlChar 'G', ctlChar 'H',
      ctlChar 'J', ctlChar 'K', ctlChar 'L', no,
      no, no, no, 0x5C - chr '@', ctlChar 'Z', ctlChar 'X', ctlChar 'C', ctlChar 'V',
      ctlChar 'B', ctlChar 'N', ctlChar 'M', no, no, ctlChar '/', no, no]
    [(0x97, keyHome), (0xB5, ctlChar '/'), (0xC8, keyUp), (0xC9, keyPgup), (0xCB, keyLf),
      (0xCD, keyRt), (0xCF, keyEnd), (0xD0, keyDn), (0xD1, keyPgdn), (0xD2, keyIns),
      (0xD3, keyDel)]

/-- `charcode`. -/
def charcode (i : BitVec 32) : Byte → Byte :=
  if i = 0 then normalmap
  else if i = 1 then shiftmap
  else ctlmap

/-! ### The driver -/

/-- The driver's state: the static `shift`, and the console it prints to. -/
structure Kbd where
  shift : BitVec 32
  console : Console

/-- `kbd_proc_data`, on what it reads from the status port and the data port: what it
returns, and the state after it. -/
def kbdProcData (stat data : Byte) (s : Kbd) : Except Fault (BitVec 32 × Kbd) :=
  if stat &&& kbsDib = 0 then .ok (-1, s)
  -- ignore data from mouse
  else if stat &&& kbsTerr ≠ 0 then .ok (-1, s)
  else if data = 0xE0 then
    -- E0 escape character
    .ok (0, { s with shift := s.shift ||| e0esc })
  else if data &&& 0x80 ≠ 0 then
    -- key released
    let data := if s.shift &&& e0esc ≠ 0 then data else data &&& 0x7F
    .ok (0, { s with shift := s.shift &&& ~~~((shiftcode data).setWidth 32 ||| e0esc) })
  else
    -- last character was an E0 escape; or with 0x80
    let data' := if s.shift &&& e0esc ≠ 0 then data ||| 0x80 else data
    let shift := if s.shift &&& e0esc ≠ 0 then s.shift &&& ~~~e0esc else s.shift
    let shift := shift ||| (shiftcode data').setWidth 32
    let shift := shift ^^^ (togglecode data').setWidth 32
    let c : BitVec 32 := (charcode (shift &&& (ctl ||| shiftBit)) data').setWidth 32
    let c :=
      if shift &&& capslock ≠ 0 then
        if 0x61 ≤ c.toInt ∧ c.toInt ≤ 0x7A then c + (0x41 - 0x61)
        else if 0x41 ≤ c.toInt ∧ c.toInt ≤ 0x5A then c + (0x61 - 0x41)
        else c
      else c
    -- Ctrl-Alt-Del: reboot
    if ~~~shift &&& (ctl ||| alt) = 0 ∧ c = keyDel.setWidth 32 then do
      let (console, _) ← cprintf (cstr "Rebooting!\n") [] s.console
      pure (c, { shift := shift, console := console.outb 0x92 0x3 })
    else .ok (c, { s with shift := shift })

/-- The driver called once for every byte that comes from the keyboard. -/
def scan : List Byte → Kbd → Except Fault Kbd
  | [], s => .ok s
  | b :: bs, s => do
      let (_, s) ← kbdProcData kbsDib b s
      scan bs s

/-! ### Keys -/

/-- The kinds of modifier keys. -/
inductive Modifier
  | shift
  | ctl
  | alt
deriving DecidableEq

/-- The bit of `shift` for the keys of a kind. -/
def Modifier.mask : Modifier → BitVec 32
  | shift => shiftBit
  | ctl => Jos.ctl
  | alt => Jos.alt

/-- Its number. -/
def Modifier.bit : Modifier → ℕ
  | shift => 0
  | ctl => 1
  | alt => 2

/-- A key: its make code, and whether its codes come behind an `E0`. A make code has the top
bit clear, and its break code is not the prefix itself. -/
structure Key where
  prefixed : Bool
  make : Byte
  make_lt : make < 0x80
  make_ne : make ≠ 0x60
deriving DecidableEq

/-- The modifier keys: left and right shift, and control and alt on both sides. -/
def Key.modifier (k : Key) : Option Modifier :=
  if k.prefixed = false ∧ (k.make = 0x2A ∨ k.make = 0x36) then some .shift
  else if k.make = 0x1D then some .ctl
  else if k.make = 0x38 then some .alt
  else none

/-- What a key sends when it is pressed, and again while it is down. -/
def Key.press (k : Key) : List Byte :=
  if k.prefixed then [0xE0, k.make] else [k.make]

/-- What a key sends when it is released. -/
def Key.release (k : Key) : List Byte :=
  if k.prefixed then [0xE0, k.make ||| 0x80] else [k.make ||| 0x80]

/-- Something the user does. Pressing a key that is down is an automatic repetition. -/
inductive KeyEvent
  | press (k : Key)
  | release (k : Key)

/-- The keys that are down after an event. -/
def KeyEvent.held (e : KeyEvent) (held : Finset Key) : Finset Key :=
  match e with
  | press k => insert k held
  | release k => held.erase k

/-- The driver's state, and the keys that are down. -/
structure Board where
  kbd : Kbd
  held : Finset Key

/-- The scan code of an event. -/
def KeyEvent.scanCode : KeyEvent → List Byte
  | press k => k.press
  | release k => k.release

/-- An event: its complete scan code is handled by the driver. -/
def Board.step (b : Board) (e : KeyEvent) : Except Fault Board := do
  let kbd ← scan e.scanCode b.kbd
  pure { kbd := kbd, held := e.held b.held }

/-- A run of events. -/
def Board.run : List KeyEvent → Board → Except Fault Board
  | [], b => .ok b
  | e :: es, b => do
      let b ← b.step e
      Board.run es b

/-- No key is down, and `shift` is as it is initialised. -/
def Board.start (console : Console) : Board where
  kbd := { shift := 0, console := console }
  held := ∅

/-- The bit of every kind is set if and only if a key of this kind is down. -/
def Board.Follows (b : Board) : Prop :=
  ∀ m : Modifier, b.kbd.shift &&& m.mask ≠ 0 ↔ ∃ k ∈ b.held, k.modifier = some m

/-! ### The tables, as the driver uses them -/

/-- The index under which the tables list a key. -/
def Key.code (k : Key) : Byte :=
  if k.prefixed then k.make ||| 0x80 else k.make

/-- The bit of a modifier is one of the low byte. -/
theorem Modifier.bit_lt (m : Modifier) : m.bit < 8 ∧ m.bit < 32 := by
  cases m <;> decide

/-- **The table of modifiers is right**: it has the bit of the kind of a key, and no other. -/
theorem getLsbD_shiftcode (k : Key) (m : Modifier) :
    (shiftcode k.code).getLsbD m.bit = true ↔ k.modifier = some m := by
  obtain ⟨p, b, hb, -⟩ := k
  simp only [Key.code, Key.modifier]
  cases p <;> cases m <;> (revert b; decide)

/-- A table has no bit that none of its entries has. -/
theorem getLsbD_table {later : List (Byte × Byte)} {n : ℕ}
    (h : (later.all fun e => !e.2.getLsbD n) = true) (i : Byte) :
    (table [] later i).getLsbD n = false := by
  rw [table]
  cases hlookup : later.lookup i with
  | none => exact BitVec.getLsbD_zero
  | some v =>
      obtain ⟨l₁, l₂, rfl, -⟩ := List.lookup_eq_some_iff.mp hlookup
      have hv := List.all_eq_true.mp h (i, v) (by simp)
      simpa using hv

/-- The table of modifiers never has the bit of the prefix, and the table of toggles has none
of these bits. -/
theorem getLsbD_shiftcode_e0esc (b : Byte) : (shiftcode b).getLsbD 6 = false :=
  getLsbD_table rfl b

/-- The toggles are not the bits of the modifiers, nor the escape bit. -/
theorem getLsbD_togglecode (b : Byte) (m : Modifier) :
    (togglecode b).getLsbD m.bit = false ∧ (togglecode b).getLsbD 6 = false := by
  refine ⟨getLsbD_table ?_ b, getLsbD_table rfl b⟩
  cases m <;> rfl

/-- The bytes of a key, as the driver tells them apart. -/
theorem Key.make_spec (k : Key) : k.make ≠ 0xE0 ∧ k.make &&& 0x80 = 0 ∧ k.make ||| 0x80 ≠ 0xE0 ∧
    (k.make ||| 0x80) &&& 0x80 ≠ 0 ∧ (k.make ||| 0x80) &&& 0x7F = k.make := by
  obtain ⟨p, b, hb, hne⟩ := k
  simp only
  clear p
  revert b
  decide

/-- A bit, tested. -/
theorem and_twoPow_ne_zero (x : BitVec 32) {i : ℕ} (hi : i < 32) :
    x &&& BitVec.twoPow 32 i ≠ 0 ↔ x.getLsbD i = true := by
  have hbit : (BitVec.twoPow 32 i).getLsbD i = true := by
    rw [BitVec.getLsbD_twoPow]
    simp [hi]
  rw [BitVec.and_twoPow]
  split
  · rename_i h
    refine iff_of_true (fun hzero => ?_) h
    rw [hzero] at hbit
    exact absurd hbit (by simp)
  · rename_i h
    exact iff_of_false (not_not.mpr rfl) h

/-- The escape bit is tested for. -/
theorem and_e0esc (x : BitVec 32) : x &&& e0esc ≠ 0 ↔ x.getLsbD 6 = true :=
  and_twoPow_ne_zero x (i := 6) (by decide)

/-- The bit of a modifier is tested for. -/
theorem and_mask (x : BitVec 32) (m : Modifier) : x &&& m.mask ≠ 0 ↔ x.getLsbD m.bit = true := by
  have hmask : m.mask = BitVec.twoPow 32 m.bit := by cases m <;> rfl
  rw [hmask]
  exact and_twoPow_ne_zero x m.bit_lt.2

/-! ### One byte -/

/-- The prefix. -/
theorem kbdProcData_e0 (s : Kbd) :
    kbdProcData kbsDib 0xE0 s = .ok (0, { s with shift := s.shift ||| e0esc }) := by
  rw [kbdProcData, if_neg (by decide), if_neg (by decide), if_pos rfl]

/-- A byte with the top bit set, with or without the prefix. -/
theorem kbdProcData_break {data : Byte} (hne : data ≠ 0xE0) (hbreak : data &&& 0x80 ≠ 0)
    (s : Kbd) :
    kbdProcData kbsDib data s = .ok (0, { s with
      shift := s.shift &&& ~~~((shiftcode (if s.shift.getLsbD 6 then data else data &&& 0x7F)
        ).setWidth 32 ||| e0esc) }) := by
  rw [kbdProcData, if_neg (by decide), if_neg (by decide), if_neg hne, if_pos hbreak]
  simp only [and_e0esc]

/-- Capital and small letters swapped, as under caps lock, are still bytes. -/
theorem exists_swapCase (b : Byte) : ∃ c : Byte,
    (if 0x61 ≤ (b.setWidth 32).toInt ∧ (b.setWidth 32).toInt ≤ 0x7A then
      b.setWidth 32 + (0x41 - 0x61)
    else if 0x41 ≤ (b.setWidth 32).toInt ∧ (b.setWidth 32).toInt ≤ 0x5A then
      b.setWidth 32 + (0x61 - 0x41)
    else b.setWidth 32) = c.setWidth 32 := by
  have hint : (b.setWidth 32).toInt = b.toNat := by
    rw [BitVec.toInt_eq_toNat_of_lt, BitVec.toNat_setWidth] <;> bv_omega
  rw [hint]
  split
  · exact ⟨b - 0x20, by bv_omega⟩
  · split
    · exact ⟨b + 0x20, by bv_omega⟩
    · exact ⟨b, rfl⟩

/-- A byte with the top bit clear, with or without the prefix: whatever character it stands
for, and whether it reboots or not. The character is a byte. -/
theorem kbdProcData_make {data : Byte} (hne : data ≠ 0xE0) (hmake : data &&& 0x80 = 0)
    (s : Kbd) {shift : BitVec 32}
    (hshift : shift = ((if s.shift.getLsbD 6 then s.shift &&& ~~~e0esc else s.shift) |||
      (shiftcode (if s.shift.getLsbD 6 then data ||| 0x80 else data)).setWidth 32) ^^^
      (togglecode (if s.shift.getLsbD 6 then data ||| 0x80 else data)).setWidth 32) :
    ∃ (c : Byte) (s' : Kbd), kbdProcData kbsDib data s = .ok (c.setWidth 32, s') ∧
      s'.shift = shift := by
  rw [kbdProcData, if_neg (by decide), if_neg (by decide), if_neg hne,
    if_neg (not_not.mpr hmake)]
  extract_lets data' shift₁ shift₂ shift₃ c₁ c₂
  have hshift₃ : shift₃ = shift := by
    rw [hshift]
    simp only [shift₃, shift₂, shift₁, data', and_e0esc]
  obtain ⟨c, hc⟩ : ∃ c : Byte, c₂ = c.setWidth 32 := by
    by_cases hcaps : shift₃ &&& capslock ≠ 0
    · simp only [c₂, if_pos hcaps]
      exact exists_swapCase _
    · exact ⟨_, if_neg hcaps⟩
  have hprint := cprintf_literal (t := "Rebooting!\n".toList.map chr) (by decide) [] s.console
  change cprintf (cstr "Rebooting!\n") [] s.console = _ at hprint
  rw [hprint, hc]
  -- the two branches differ in the console only
  split
  · exact ⟨c, _, rfl, hshift₃⟩
  · exact ⟨c, _, rfl, hshift₃⟩

/-- **A byte from the keyboard** is used up, and a byte is returned for it: never -1. -/
theorem exists_kbdProcData (data : Byte) (s : Kbd) :
    ∃ (c : Byte) (s' : Kbd), kbdProcData kbsDib data s = .ok (c.setWidth 32, s') := by
  by_cases he0 : data = 0xE0
  · subst he0
    exact ⟨0, _, kbdProcData_e0 s⟩
  by_cases hbreak : data &&& 0x80 ≠ 0
  · exact ⟨0, _, kbdProcData_break he0 hbreak s⟩
  · obtain ⟨c, s', hstep, -⟩ := kbdProcData_make he0 (not_not.mp hbreak) s rfl
    exact ⟨c, s', hstep⟩

/-! ### One scan code -/

/-- The bits of the prefix. -/
theorem getLsbD_e0esc (m : Modifier) : e0esc.getLsbD m.bit = false ∧ e0esc.getLsbD 6 = true := by
  cases m <;> decide

/-- The state behind the prefix of a key, if it has one. -/
def Kbd.primed (p : Bool) (s : Kbd) : Kbd :=
  if p then { s with shift := s.shift ||| e0esc } else s

/-- A scan code is its last byte, behind the prefix. -/
theorem scan_primed (p : Bool) (b : Byte) (s : Kbd) :
    scan (if p then [0xE0, b] else [b]) s =
      (kbdProcData kbsDib b (s.primed p) >>= fun r => .ok r.2) := by
  cases p with
  | false => rfl
  | true =>
      change (kbdProcData kbsDib 0xE0 s >>= fun r => scan [b] r.2) = _
      rw [kbdProcData_e0]
      rfl

section

variable {s : Kbd} (he : s.shift.getLsbD 6 = false) (p : Bool)
include he

/-- The bit of the prefix says whether there was one. -/
theorem primed_e0esc : (s.primed p).shift.getLsbD 6 = p := by
  cases p with
  | false => exact he
  | true =>
      change (s.shift ||| e0esc).getLsbD 6 = true
      rw [BitVec.getLsbD_or, (getLsbD_e0esc .shift).2, Bool.or_true]

/-- Taking it away again leaves the state before it. -/
theorem primed_done :
    (if p then (s.primed p).shift &&& ~~~e0esc else (s.primed p).shift) = s.shift := by
  cases p with
  | false => rfl
  | true =>
      have hbit : e0esc = BitVec.twoPow 32 6 := rfl
      change (s.shift ||| e0esc) &&& ~~~e0esc = s.shift
      apply BitVec.eq_of_getLsbD_eq
      intro i hi
      rw [BitVec.getLsbD_and, BitVec.getLsbD_or, BitVec.getLsbD_not, hbit,
        BitVec.getLsbD_twoPow]
      by_cases h6 : 6 = i
      · subst h6
        rw [he]
        decide
      · simp only [h6, hi, decide_true, decide_false, Bool.and_false, Bool.or_false,
          Bool.not_false, Bool.and_true]

end

/-- The prefix is no modifier. -/
theorem primed_bit (p : Bool) (s : Kbd) (m : Modifier) :
    (s.primed p).shift.getLsbD m.bit = s.shift.getLsbD m.bit := by
  cases p with
  | false => rfl
  | true =>
      change (s.shift ||| e0esc).getLsbD m.bit = _
      rw [BitVec.getLsbD_or, (getLsbD_e0esc m).1, Bool.or_false]

/-- **A press** sets the bit of the key's kind. -/
theorem scan_press (k : Key) {s : Kbd} (he : s.shift.getLsbD 6 = false) :
    ∃ s', scan k.press s = .ok s' ∧ s'.shift.getLsbD 6 = false ∧
      ∀ m : Modifier, s'.shift.getLsbD m.bit = true ↔
        s.shift.getLsbD m.bit = true ∨ k.modifier = some m := by
  obtain ⟨hne, hmake, -⟩ := k.make_spec
  obtain ⟨c, s', hstep, hs'⟩ : ∃ (c : Byte) (s' : Kbd),
      kbdProcData kbsDib k.make (s.primed k.prefixed) = .ok (c.setWidth 32, s') ∧ s'.shift =
        (s.shift ||| (shiftcode k.code).setWidth 32) ^^^ (togglecode k.code).setWidth 32 := by
    refine kbdProcData_make hne hmake _ ?_
    rw [primed_e0esc he, primed_done he]
    rfl
  refine ⟨s', ?_, ?_, fun m => ?_⟩
  · rw [Key.press, scan_primed, hstep, ok_bind]
  · rw [hs', BitVec.getLsbD_xor, BitVec.getLsbD_or, BitVec.getLsbD_setWidth,
      BitVec.getLsbD_setWidth, (getLsbD_togglecode k.code .shift).2, getLsbD_shiftcode_e0esc, he]
    rfl
  · rw [hs', BitVec.getLsbD_xor, BitVec.getLsbD_or, BitVec.getLsbD_setWidth,
      BitVec.getLsbD_setWidth, (getLsbD_togglecode k.code m).1, decide_eq_true m.bit_lt.2,
      Bool.true_and, Bool.true_and, Bool.xor_false, Bool.or_eq_true, getLsbD_shiftcode]

/-- **A release** clears the bit of the key's kind. -/
theorem scan_release (k : Key) {s : Kbd} (he : s.shift.getLsbD 6 = false) :
    ∃ s', scan k.release s = .ok s' ∧ s'.shift.getLsbD 6 = false ∧
      ∀ m : Modifier, s'.shift.getLsbD m.bit = true ↔
        s.shift.getLsbD m.bit = true ∧ k.modifier ≠ some m := by
  obtain ⟨-, -, hne, hbreak, hback⟩ := k.make_spec
  have hcode : (if (s.primed k.prefixed).shift.getLsbD 6 then k.make ||| 0x80
      else (k.make ||| 0x80) &&& 0x7F) = k.code := by
    rw [primed_e0esc he, hback]
    rfl
  have hstep := kbdProcData_break hne hbreak (s.primed k.prefixed)
  rw [hcode] at hstep
  refine ⟨_, by rw [Key.release, scan_primed, hstep, ok_bind], ?_, fun m => ?_⟩
  · simp only [BitVec.getLsbD_and, BitVec.getLsbD_not, BitVec.getLsbD_or,
      (getLsbD_e0esc .shift).2, Bool.or_true, Bool.not_true, Bool.and_false]
  · simp only [BitVec.getLsbD_and, BitVec.getLsbD_not, BitVec.getLsbD_or, primed_bit,
      BitVec.getLsbD_setWidth, decide_eq_true m.bit_lt.2, (getLsbD_e0esc m).1, Bool.true_and,
      Bool.or_false, Bool.and_eq_true, Bool.not_eq_true', ← getLsbD_shiftcode, ne_eq,
      Bool.not_eq_true]

/-! ### Runs -/

/-- Of the kind of the key `k`, another key is down. -/
def TwinHeld (held : Finset Key) (k : Key) : Prop :=
  ∃ m, k.modifier = some m ∧ ∃ k' ∈ held, k' ≠ k ∧ k'.modifier = some m

/-- The keys that are down after a run of events. -/
def heldAfter (es : List KeyEvent) (held : Finset Key) : Finset Key :=
  es.foldl (fun held e => e.held held) held

/-- An event after which the bits follow the keys if they did before. -/
def KeyEvent.Clean (held : Finset Key) : KeyEvent → Prop
  | press _ => True
  | release k => ¬ TwinHeld held k

/-- Between scan codes no prefix is pending. -/
def Board.Ready (b : Board) : Prop :=
  b.kbd.shift.getLsbD 6 = false

/-- **One event.** -/
theorem step_spec {b : Board} (hb : b.Ready) (e : KeyEvent) :
    ∃ b', b.step e = .ok b' ∧ b'.Ready ∧ b'.held = e.held b.held ∧
      (b.Follows → (b'.Follows ↔ e.Clean b.held)) := by
  cases e with
  | press k =>
      obtain ⟨s', hscan, hready, hbits⟩ := scan_press k hb
      refine ⟨{ kbd := s', held := insert k b.held }, ?_, hready, rfl, fun h => ?_⟩
      · rw [Board.step, KeyEvent.scanCode, hscan]
        rfl
      · refine iff_of_true (fun m => ?_) trivial
        have hm := h m
        rw [and_mask] at hm ⊢
        rw [hbits, hm, Finset.exists_mem_insert, or_comm]
  | release k =>
      obtain ⟨s', hscan, hready, hbits⟩ := scan_release k hb
      refine ⟨{ kbd := s', held := b.held.erase k }, ?_, hready, rfl, fun h => ?_⟩
      · rw [Board.step, KeyEvent.scanCode, hscan]
        rfl
      · -- the bits of the other kinds follow as before
        have hkind : ∀ m, (s'.shift &&& m.mask ≠ 0 ↔
            ∃ k' ∈ b.held.erase k, k'.modifier = some m) ↔
              ¬ (k.modifier = some m ∧ ∃ k' ∈ b.held, k' ≠ k ∧ k'.modifier = some m) := by
          intro m
          have hm := h m
          rw [and_mask] at hm ⊢
          rw [hbits, hm]
          simp only [Finset.mem_erase]
          by_cases hk : k.modifier = some m
          · constructor
            · rintro hiff ⟨-, k', hk', hne, hmod⟩
              exact (hiff.mpr ⟨k', ⟨hne, hk'⟩, hmod⟩).2 hk
            · rintro hno
              refine iff_of_false (fun h => h.2 hk) ?_
              rintro ⟨k', ⟨hne, hk'⟩, hmod⟩
              exact hno ⟨hk, k', hk', hne, hmod⟩
          · refine iff_of_true ⟨?_, ?_⟩ fun h => hk h.1
            · rintro ⟨⟨k', hk', hmod⟩, -⟩
              refine ⟨k', ⟨?_, hk'⟩, hmod⟩
              rintro rfl
              exact hk hmod
            · rintro ⟨k', ⟨-, hk'⟩, hmod⟩
              exact ⟨⟨k', hk', hmod⟩, hk⟩
        constructor
        · rintro hfollows ⟨m, hk, htwin⟩
          exact (hkind m).mp (hfollows m) ⟨hk, htwin⟩
        · intro hclean m
          exact (hkind m).mpr fun htwin => hclean ⟨m, htwin⟩

/-- **A run.** -/
theorem run_follows {b : Board} (hb : b.Ready) (h : b.Follows) (es : List KeyEvent) :
    (∀ pre, pre <+: es → ∃ b', Board.run pre b = .ok b' ∧ b'.Follows) ↔
      ∀ pre e post, es = pre ++ e :: post → e.Clean (heldAfter pre b.held) := by
  induction es generalizing b with
  | nil =>
      refine iff_of_true (fun pre hpre => ?_) (fun pre e post heq => ?_)
      · rw [List.prefix_nil.mp hpre]
        exact ⟨b, rfl, h⟩
      · exact absurd heq (by simp)
  | cons e es ih =>
      obtain ⟨b', hstep, hb', hheld, hclean⟩ := step_spec hb e
      have hrun : ∀ pre, Board.run (e :: pre) b = Board.run pre b' := by
        intro pre
        rw [Board.run, hstep, ok_bind]
      constructor
      · intro hall
        have h' : b'.Follows := by
          obtain ⟨b'', hb'', hfollows⟩ := hall [e] ⟨es, rfl⟩
          rw [hrun, Board.run, Except.ok.injEq] at hb''
          exact hb'' ▸ hfollows
        have htail := (ih hb' h').mp fun pre hpre => by
          rw [← hrun]
          exact hall (e :: pre) (List.cons_prefix_cons.mpr ⟨rfl, hpre⟩)
        rintro (_ | ⟨e₀, pre⟩) e' post heq
        · obtain ⟨rfl, -⟩ := List.cons.inj heq
          exact (hclean h).mp h'
        · obtain ⟨rfl, hes⟩ := List.cons.inj heq
          have hpost := htail pre e' post hes
          rw [hheld] at hpost
          exact hpost
      · intro hall pre hpre
        have h' : b'.Follows := (hclean h).mpr (hall [] e es rfl)
        rcases List.prefix_cons_iff.mp hpre with rfl | ⟨pre', rfl, hpre'⟩
        · exact ⟨b, rfl, h⟩
        · rw [hrun]
          refine (ih hb' h').mpr (fun pre e' post hes => ?_) pre' hpre'
          rw [hheld]
          exact hall (e :: pre) e' post (by rw [hes]; rfl)

/-- The keyboard as the kernel starts. -/
theorem start_follows (console : Console) :
    (Board.start console).Ready ∧ (Board.start console).Follows := by
  have hzero : ∀ i, (0#32).getLsbD i = false := fun i => BitVec.getLsbD_zero
  refine ⟨hzero 6, fun m => iff_of_false ?_ ?_⟩
  · rw [and_mask]
    exact fun h => Bool.false_ne_true ((hzero m.bit).symm.trans h)
  · rintro ⟨k, hk, -⟩
    exact absurd hk (Finset.notMem_empty k)

/-- **When the modifier state follows the keys.** In every run of presses, repetitions and
releases that begins with no key down: after each scan code of the run the bits of `shift`
follow the keys that are down, if and only if no modifier key of the run is released while
the other key of its kind is down. -/
theorem run_follows_iff (console : Console) (es : List KeyEvent) :
    (∀ pre, pre <+: es → ∃ b, Board.run pre (Board.start console) = .ok b ∧ b.Follows) ↔
      ∀ pre k post, es = pre ++ .release k :: post → ¬ TwinHeld (heldAfter pre ∅) k := by
  obtain ⟨hready, hfollows⟩ := start_follows console
  rw [run_follows hready hfollows es]
  constructor
  · intro h pre k post heq
    exact h pre (.release k) post heq
  · intro h pre e post heq
    cases e with
    | press k => exact trivial
    | release k => exact h pre k post heq

/-- **Both shift keys down, and one released**: the bit is clear, and the other key is down. -/
theorem not_run_follows :
    ¬ ∀ pre, pre <+: [KeyEvent.press ⟨false, 0x2A, by decide, by decide⟩,
        .press ⟨false, 0x36, by decide, by decide⟩, .release ⟨false, 0x36, by decide, by decide⟩] →
      ∃ b, Board.run pre (Board.start (Console.statics ⟨fun _ => 0, []⟩ ⟨0, fun _ => 0⟩)) = .ok b ∧
        b.Follows := by
  intro h
  obtain ⟨hready, hfollows⟩ := start_follows (Console.statics ⟨fun _ => 0, []⟩ ⟨0, fun _ => 0⟩)
  have hclean := (run_follows hready hfollows _).mp h
    [.press ⟨false, 0x2A, by decide, by decide⟩, .press ⟨false, 0x36, by decide, by decide⟩]
    (.release ⟨false, 0x36, by decide, by decide⟩) [] rfl
  refine hclean ⟨.shift, by decide, ⟨false, 0x2A, by decide, by decide⟩, ?_, by decide, by decide⟩
  simp [heldAfter, KeyEvent.held]

end Jos
