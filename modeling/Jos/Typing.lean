import Jos.Polling
import Jos.Running

/-!
# Typing

What the keyboard driver returns, by what the user does. `Keyboard` is the user's side: the keys
that are down, and whether caps lock is on. A key that is pressed types the character that is
printed on it, with the modifier keys that are down (`Key.char`); the driver does the same
from its bits of `shift`, as long as they follow the keys.

## Main results

* `kbdProcData_char`: the character for a make code, by the bits of `shift`.
* `step_types`: one key.
* `run_types`: **the driver types what the keyboard says**, in every run of presses and releases
  after which the bits follow the keys.
* `strokes_typed`: how to type a text.
* `typed_session`: a text that is typed at the keyboard is served by the monitor.
-/

namespace Jos

/-! ### The keyboard -/

/-- Capital and small letters swapped. -/
def swapCase (c : Byte) : Byte :=
  if 0x61 ≤ c ∧ c ≤ 0x7A then c - 0x20
  else if 0x41 ≤ c ∧ c ≤ 0x5A then c + 0x20
  else c

/-- What a key types. -/
def Key.char (k : Key) (ctl shift caps : Bool) : Byte :=
  let c := if ctl then ctlmap k.code else if shift then shiftmap k.code else normalmap k.code
  if caps then swapCase c else c

/-- The user's side: the keys that are down, and caps lock. -/
structure Keyboard where
  held : Finset Key
  caps : Bool

/-- A key of this kind is down. -/
def Keyboard.down (kb : Keyboard) (m : Modifier) : Bool :=
  decide (∃ k ∈ kb.held, k.modifier = some m)

/-- The keyboard after an event. Caps lock is switched whenever its key is pressed. -/
def Keyboard.after (kb : Keyboard) (e : KeyEvent) : Keyboard where
  held := e.held kb.held
  caps :=
    match e with
    | .press k => kb.caps ^^ k.code == 0x3A
    | .release _ => kb.caps

/-- What an event types. -/
def Keyboard.types (kb : Keyboard) (e : KeyEvent) : List Byte :=
  match e with
  | .press k =>
      let kb := kb.after e
      [k.char (kb.down .ctl) (kb.down .shift) kb.caps].filter (· ≠ 0)
  | .release _ => []

/-- What a run of events types. -/
def Keyboard.typed : List KeyEvent → Keyboard → List Byte
  | [], _ => []
  | e :: es, kb => kb.types e ++ Keyboard.typed es (kb.after e)

/-- The keyboard after a run of events. -/
def Keyboard.run (es : List KeyEvent) (kb : Keyboard) : Keyboard :=
  es.foldl Keyboard.after kb

/-! ### The character for a make code -/

/-- What caps lock does, on ints. -/
theorem swapCase_setWidth (b : Byte) :
    (if 0x61 ≤ (b.setWidth 32).toInt ∧ (b.setWidth 32).toInt ≤ 0x7A then
      b.setWidth 32 + (0x41 - 0x61)
    else if 0x41 ≤ (b.setWidth 32).toInt ∧ (b.setWidth 32).toInt ≤ 0x5A then
      b.setWidth 32 + (0x61 - 0x41)
    else b.setWidth 32) = (swapCase b).setWidth 32 := by
  rw [toInt_byte, swapCase]
  split_ifs <;> bv_omega

/-- The column of the tables, by the bits for control and shift. -/
theorem charcode_bits (shift : BitVec 32) :
    charcode (shift &&& (ctl ||| shiftBit)) =
      if shift.getLsbD 1 then ctlmap else if shift.getLsbD 0 then shiftmap else normalmap := by
  have hand : (shift &&& (ctl ||| shiftBit)).toNat = shift.toNat % 4 :=
    Nat.and_two_pow_sub_one_eq_mod shift.toNat 2
  have h0 : shift.getLsbD 0 = decide (shift.toNat % 2 = 1) := by
    rw [BitVec.getLsbD, Nat.testBit_zero]
  have h1 : shift.getLsbD 1 = decide (shift.toNat / 2 % 2 = 1) := by
    rw [BitVec.getLsbD, Nat.testBit_succ, Nat.testBit_zero]
  have hzero : shift &&& (ctl ||| shiftBit) = 0 ↔ shift.toNat % 4 = 0 := by
    rw [← hand]
    exact ⟨fun h => by rw [h]; rfl, fun h => BitVec.eq_of_toNat_eq h⟩
  have hone : shift &&& (ctl ||| shiftBit) = 1 ↔ shift.toNat % 4 = 1 := by
    rw [← hand]
    exact ⟨fun h => by rw [h]; rfl, fun h => BitVec.eq_of_toNat_eq h⟩
  rw [charcode, h0, h1]
  simp only [hzero, hone, decide_eq_true_eq]
  split_ifs <;> first | rfl | omega

/-- **A make code**, with or without the prefix: the character, the bits, and the console, which
is only printed to at Ctrl-Alt-Del. -/
theorem kbdProcData_char {data : Byte} (hne : data ≠ 0xE0) (hmake : data &&& 0x80 = 0) (s : Kbd)
    {data' : Byte} (hdata : data' = if s.shift.getLsbD 6 then data ||| 0x80 else data)
    {shift : BitVec 32}
    (hshift : shift = ((if s.shift.getLsbD 6 then s.shift &&& ~~~e0esc else s.shift) |||
      (shiftcode data').setWidth 32) ^^^ (togglecode data').setWidth 32) {c : Byte}
    (hc : c = if shift.getLsbD 3 then swapCase (charcode (shift &&& (ctl ||| shiftBit)) data')
      else charcode (shift &&& (ctl ||| shiftBit)) data') :
    ∃ s' : Kbd, kbdProcData kbsDib data s = .ok (c.setWidth 32, s') ∧ s'.shift = shift ∧
      (shift.getLsbD 2 = false → s'.console = s.console) := by
  rw [kbdProcData, if_neg (by decide), if_neg (by decide), if_neg hne,
    if_neg (not_not.mpr hmake)]
  extract_lets data₁ shift₁ shift₂ shift₃ c₁ c₂
  have hdata₁ : data₁ = data' := by
    rw [hdata]
    simp only [data₁, and_e0esc]
  have hshift₃ : shift₃ = shift := by
    rw [hshift]
    simp only [shift₃, shift₂, shift₁, hdata₁, and_e0esc]
  have hcaps : shift &&& capslock ≠ 0 ↔ shift.getLsbD 3 = true :=
    and_twoPow_ne_zero shift (i := 3) (by decide)
  have hc₂ : c₂ = c.setWidth 32 := by
    simp only [c₂, c₁, hshift₃, hdata₁, hcaps, hc]
    by_cases h3 : shift.getLsbD 3 = true
    · rw [if_pos h3, if_pos h3, swapCase_setWidth]
    · rw [if_neg h3, if_neg h3]
  have hprint := cprintf_literal (t := "Rebooting!\n".toList.map chr) (by decide) [] s.console
  change cprintf (cstr "Rebooting!\n") [] s.console = _ at hprint
  rw [hprint, hc₂]
  split
  · rename_i hdel
    refine ⟨_, rfl, hshift₃, fun halt => ?_⟩
    -- the bit for alt is set
    have hbit := congrArg (BitVec.getLsbD · 2) hdel.1
    simp only [hshift₃, BitVec.getLsbD_and, BitVec.getLsbD_not, halt] at hbit
    exact absurd hbit (by decide)
  · exact ⟨_, rfl, hshift₃, fun _ => rfl⟩

/-! ### One key -/

/-- The driver follows the user: no prefix is pending, the bits follow the keys, and caps lock is
as it is. -/
structure Kbd.Tracks (s : Kbd) (kb : Keyboard) : Prop where
  ready : s.shift.getLsbD 6 = false
  mods : ∀ m : Modifier, s.shift.getLsbD m.bit = kb.down m
  caps : s.shift.getLsbD 3 = kb.caps

/-- In the words of `Jos.Keyboard`. -/
theorem follows_iff (s : Kbd) (kb : Keyboard) : Board.Follows ⟨s, kb.held⟩ ↔
    ∀ m : Modifier, s.shift.getLsbD m.bit = kb.down m := by
  refine forall_congr' fun m => ?_
  rw [and_mask]
  constructor
  · intro h
    exact Bool.eq_iff_iff.mpr (h.trans decide_eq_true_iff.symm)
  · intro h
    rw [h]
    exact decide_eq_true_iff

/-- `scan` does not look at what is returned. -/
theorem scan_eq_scanned (bs : List Byte) (s : Kbd) : scan bs s = (scanned bs s).map Prod.snd := by
  induction bs generalizing s with
  | nil => rfl
  | cons b bs ih =>
      rw [scan, scanned]
      rcases kbdProcData kbsDib b s with e | r
      · rfl
      · simp only [ok_bind]
        rw [ih]
        rcases scanned bs r.2 with e | r' <;> rfl

/-- The tables say nothing else about caps lock. -/
theorem getLsbD_caps (b : Byte) :
    (shiftcode b).getLsbD 3 = false ∧ (togglecode b).getLsbD 3 = (b == 0x3A) := by
  refine ⟨getLsbD_table rfl b, ?_⟩
  revert b
  decide

/-- The last byte of a scan code, behind the prefix of the key. -/
theorem scanned_primed (p : Bool) {b : Byte} {s s' : Kbd} {c : Byte}
    (h : kbdProcData kbsDib b (s.primed p) = .ok (c.setWidth 32, s')) :
    ∃ cs, scanned (if p then [0xE0, b] else [b]) s = .ok (cs, s') ∧
      cs.filter (· ≠ 0) = [c].filter (· ≠ 0) := by
  cases p with
  | false =>
      refine ⟨[c], ?_, rfl⟩
      change scanned [b] s = _
      rw [scanned_cons (s := s) h]
      rfl
  | true =>
      have h' : kbdProcData kbsDib b { s with shift := s.shift ||| e0esc } =
          .ok (c.setWidth 32, s') := h
      refine ⟨[0, c], ?_, List.filter_cons_of_neg (by decide)⟩
      change scanned [0xE0, b] s = _
      rw [scanned_cons (c := 0) (kbdProcData_e0 s), scanned_cons h']
      rfl

/-- The prefix is nothing to the rest of the state. -/
theorem primed_console (p : Bool) (s : Kbd) : (s.primed p).console = s.console := by
  cases p <;> rfl

/-- A prefix does not change caps lock. -/
theorem primed_caps (p : Bool) (s : Kbd) :
    (s.primed p).shift.getLsbD 3 = s.shift.getLsbD 3 := by
  cases p with
  | false => rfl
  | true =>
      change (s.shift ||| e0esc).getLsbD 3 = _
      rw [BitVec.getLsbD_or]
      exact Bool.or_false _

section

variable {s s' : Kbd} {kb : Keyboard} (h : s.Tracks kb)
include h

/-- The bits after an event. -/
theorem Kbd.Tracks.bits {e : KeyEvent} (hclean : e.Clean kb.held) {cs : List Byte}
    (hscan : scanned e.scanCode s = .ok (cs, s')) : s'.shift.getLsbD 6 = false ∧
      ∀ m : Modifier, s'.shift.getLsbD m.bit = (kb.after e).down m := by
  obtain ⟨b', hstep, hready, -, hfollows⟩ := step_spec (b := ⟨s, kb.held⟩) h.ready e
  rw [Board.step, scan_eq_scanned, hscan] at hstep
  cases hstep
  have hboth := (hfollows ((follows_iff s kb).mpr h.mods)).mpr hclean
  exact ⟨hready, (follows_iff s' (kb.after e)).mp hboth⟩

/-- **A key is pressed**: the driver returns what it types. -/
theorem scanned_press (k : Key) : ∃ cs s', scanned k.press s = .ok (cs, s') ∧
    s'.Tracks (kb.after (.press k)) ∧ cs.filter (· ≠ 0) = kb.types (.press k) ∧
    ((kb.after (.press k)).down .alt = false → s'.console = s.console) := by
  obtain ⟨hne, hmake, -⟩ := k.make_spec
  have hdata : k.code =
      if (s.primed k.prefixed).shift.getLsbD 6 then k.make ||| 0x80 else k.make := by
    rw [primed_e0esc h.ready, Key.code]
  have hshift : (s.shift ||| (shiftcode k.code).setWidth 32) ^^^ (togglecode k.code).setWidth 32 =
      ((if (s.primed k.prefixed).shift.getLsbD 6 then (s.primed k.prefixed).shift &&& ~~~e0esc
        else (s.primed k.prefixed).shift) ||| (shiftcode k.code).setWidth 32) ^^^
        (togglecode k.code).setWidth 32 := by
    rw [primed_e0esc h.ready, primed_done h.ready]
  obtain ⟨s', hstep, hs', hconsole⟩ :=
    kbdProcData_char hne hmake (s.primed k.prefixed) hdata hshift rfl
  obtain ⟨cs, hscan, hcs⟩ := scanned_primed k.prefixed hstep
  obtain ⟨hready, hmods⟩ := h.bits (e := .press k) trivial hscan
  have hcaps : s'.shift.getLsbD 3 = (kb.after (.press k)).caps := by
    rw [hs', BitVec.getLsbD_xor, BitVec.getLsbD_or, BitVec.getLsbD_setWidth,
      BitVec.getLsbD_setWidth, (getLsbD_caps k.code).1, (getLsbD_caps k.code).2, h.caps]
    simp [Keyboard.after]
  refine ⟨cs, s', hscan, ⟨hready, hmods, hcaps⟩, ?_, fun halt => ?_⟩
  · have hctl : s'.shift.getLsbD 1 = (kb.after (.press k)).down .ctl := hmods .ctl
    have hshift : s'.shift.getLsbD 0 = (kb.after (.press k)).down .shift := hmods .shift
    have happly : ∀ x y : Bool, (if x then ctlmap else if y then shiftmap else normalmap) k.code =
        if x then ctlmap k.code else if y then shiftmap k.code else normalmap k.code := by
      intro x y
      cases x <;> cases y <;> rfl
    rw [hcs, ← hs', hcaps, charcode_bits, hctl, hshift, happly]
    rfl
  · rw [hconsole (by rw [← hs']; exact (hmods .alt).trans halt), primed_console]

/-- **A key is released**: the driver returns nothing. -/
theorem scanned_release (k : Key) (hclean : (KeyEvent.release k).Clean kb.held) :
    ∃ cs s', scanned k.release s = .ok (cs, s') ∧ s'.Tracks (kb.after (.release k)) ∧
      cs.filter (· ≠ 0) = [] ∧ s'.console = s.console := by
  obtain ⟨-, -, hne, hbreak, hmake⟩ := k.make_spec
  have hstep := kbdProcData_break hne hbreak (s.primed k.prefixed)
  obtain ⟨cs, hscan, hcs⟩ := scanned_primed (c := 0) k.prefixed hstep
  obtain ⟨hready, hmods⟩ := h.bits hclean hscan
  refine ⟨cs, _, hscan, ⟨hready, hmods, ?_⟩, ?_, primed_console _ _⟩
  · have he0esc : e0esc.getLsbD 3 = false := rfl
    simp only [BitVec.getLsbD_and, BitVec.getLsbD_not, BitVec.getLsbD_or, BitVec.getLsbD_setWidth,
      (getLsbD_caps _).1, he0esc, primed_caps, h.caps, Bool.and_false, Bool.or_self, Bool.not_false]
    exact Bool.and_true _
  · rw [hcs]
    exact List.filter_cons_of_neg (by decide)

end

/-! ### Runs -/

/-- No modifier key of the run is released while the other key of its kind is down. -/
def CleanRun : List KeyEvent → Finset Key → Prop
  | [], _ => True
  | e :: es, held => e.Clean held ∧ CleanRun es (e.held held)

/-- In the words of `Jos.Keyboard`. -/
theorem cleanRun_iff (es : List KeyEvent) (held : Finset Key) : CleanRun es held ↔
    ∀ pre e post, es = pre ++ e :: post → e.Clean (heldAfter pre held) := by
  induction es generalizing held with
  | nil => exact iff_of_true trivial fun pre e post h => absurd h (by simp)
  | cons e es ih =>
      rw [CleanRun, ih]
      constructor
      · rintro ⟨hfirst, hrest⟩ (_ | ⟨e', pre⟩) e'' post h
        · obtain ⟨rfl, -⟩ := List.cons.inj h
          exact hfirst
        · obtain ⟨rfl, hes⟩ := List.cons.inj h
          exact hrest pre e'' post hes
      · intro h
        refine ⟨h [] e es rfl, fun pre e' post hes => ?_⟩
        exact h (e :: pre) e' post (by rw [hes]; rfl)

/-- One run after another. -/
theorem cleanRun_append (es es' : List KeyEvent) (held : Finset Key) :
    CleanRun (es ++ es') held ↔ CleanRun es held ∧ CleanRun es' (heldAfter es held) := by
  induction es generalizing held with
  | nil => exact (iff_of_eq (true_and _)).symm
  | cons e es ih =>
      rw [List.cons_append, CleanRun, CleanRun, ih, and_assoc]
      rfl

/-- What is typed in two runs. -/
theorem typed_append (es es' : List KeyEvent) (kb : Keyboard) :
    Keyboard.typed (es ++ es') kb = Keyboard.typed es kb ++ Keyboard.typed es' (kb.run es) := by
  induction es generalizing kb with
  | nil => rfl
  | cons e es ih =>
      rw [List.cons_append, Keyboard.typed, Keyboard.typed, ih, List.append_assoc]
      rfl

/-- The keys that are held after a run. -/
theorem run_held (es : List KeyEvent) (kb : Keyboard) :
    (kb.run es).held = heldAfter es kb.held := by
  induction es generalizing kb with
  | nil => rfl
  | cons e es ih => exact ih (kb.after e)

/-- One run of bytes after another. -/
theorem scanned_append {bs bs' cs cs' : List Byte} {s s₁ s₂ : Kbd}
    (h : scanned bs s = .ok (cs, s₁)) (h' : scanned bs' s₁ = .ok (cs', s₂)) :
    scanned (bs ++ bs') s = .ok (cs ++ cs', s₂) := by
  induction bs generalizing s cs with
  | nil =>
      cases h
      exact h'
  | cons b bs ih =>
      obtain ⟨⟨c, s₀⟩, hstep, h⟩ := ok_of_bind h
      obtain ⟨⟨cs₀, s₃⟩, hrest, h⟩ := ok_of_bind h
      cases h
      simp only [List.cons_append, scanned, hstep, ih hrest, ok_bind]
      rfl

/-- Without an alt key there is no Ctrl-Alt-Del. -/
theorem down_alt_after {kb : Keyboard} (h : kb.down .alt = false) {e : KeyEvent}
    (he : ∀ k, e = .press k → k.modifier ≠ some .alt) : (kb.after e).down .alt = false := by
  rw [Keyboard.down, decide_eq_false_iff_not] at h ⊢
  rintro ⟨k, hk, hmod⟩
  cases e with
  | press k' =>
      rcases Finset.mem_insert.mp hk with rfl | hk
      · exact he k rfl hmod
      · exact h ⟨k, hk, hmod⟩
  | release k' => exact h ⟨k, Finset.mem_of_mem_erase hk, hmod⟩

/-- **The driver types what the keyboard says.** Whatever keys are pressed, repeated and released,
as long as no modifier key is released while the other key of its kind is down: the bytes that
the driver returns are what is typed, by the keys that are down, and after it the bits
of `shift` still say which these are. Induction on the events. -/
theorem run_types {es : List KeyEvent} {kb : Keyboard} {s : Kbd} (h : s.Tracks kb)
    (hclean : CleanRun es kb.held) :
    ∃ cs s', scanned (es.flatMap KeyEvent.scanCode) s = .ok (cs, s') ∧ s'.Tracks (kb.run es) ∧
      cs.filter (· ≠ 0) = Keyboard.typed es kb ∧
      (kb.down .alt = false → (∀ k, .press k ∈ es → k.modifier ≠ some .alt) →
        s'.console = s.console) := by
  induction es generalizing kb s with
  | nil => exact ⟨[], s, rfl, h, rfl, fun _ _ => rfl⟩
  | cons e es ih =>
      obtain ⟨cs₁, s₁, hscan₁, h₁, hcs₁, hconsole₁⟩ : ∃ cs s', scanned e.scanCode s = .ok (cs, s') ∧
          s'.Tracks (kb.after e) ∧ cs.filter (· ≠ 0) = kb.types e ∧
          ((kb.after e).down .alt = false → s'.console = s.console) := by
        cases e with
        | press k => exact scanned_press h k
        | release k =>
            obtain ⟨cs, s', hscan, h', hcs, hconsole⟩ := scanned_release h k hclean.1
            exact ⟨cs, s', hscan, h', hcs, fun _ => hconsole⟩
      obtain ⟨cs₂, s₂, hscan₂, h₂, hcs₂, hconsole₂⟩ := ih h₁ hclean.2
      refine ⟨cs₁ ++ cs₂, s₂, scanned_append hscan₁ hscan₂, h₂, ?_, fun halt hes => ?_⟩
      · rw [List.filter_append, hcs₁, hcs₂, Keyboard.typed]
      · have halt₁ := down_alt_after (e := e) halt fun k hk =>
          hes k (by rw [hk]; exact List.mem_cons_self)
        rw [hconsole₂ halt₁ fun k hk => hes k (List.mem_cons_of_mem e hk), hconsole₁ halt₁]

/-- The keyboard as the kernel starts. -/
def Keyboard.start : Keyboard where
  held := ∅
  caps := false

/-- The driver starts with no key down. -/
theorem start_tracks (console : Console) :
    Kbd.Tracks { shift := 0, console := console } Keyboard.start where
  ready := (start_follows console).1
  mods := (follows_iff _ Keyboard.start).mp (start_follows console).2
  caps := BitVec.getLsbD_zero

/-! ### Typing a text -/

/-- The keys without a prefix, as far as the tables list any. -/
def mainKeys : List Key :=
  (List.range 0x60).filterMap fun n =>
    if h : BitVec.ofNat 8 n < 0x80 ∧ BitVec.ofNat 8 n ≠ 0x60 then
      some ⟨false, BitVec.ofNat 8 n, h.1, h.2⟩
    else none

/-- The key that has a character in a table. -/
def keyOf (map : Byte → Byte) (c : Byte) : Option Key :=
  mainKeys.find? fun k => map k.code == c

/-- The left shift key, and the left control key. -/
def leftShift : Key :=
  ⟨false, 0x2A, by decide, by decide⟩

def leftCtl : Key :=
  ⟨false, 0x1D, by decide, by decide⟩

/-- A key, while another one is held down. -/
def chord (m k : Key) : List KeyEvent :=
  [.press m, .press k, .release k, .release m]

/-- How to type a character. -/
def strokes (c : Byte) : Option (List KeyEvent) :=
  match keyOf normalmap c, keyOf shiftmap c, keyOf ctlmap c with
  | some k, _, _ => some [.press k, .release k]
  | none, some k, _ => some (chord leftShift k)
  | none, none, some k => some (chord leftCtl k)
  | none, none, none => none

/-- **Every printable character can be typed**, and so can a newline, a backspace and a tab. -/
theorem strokes_ascii : ∀ c : Byte, 0x20 ≤ c ∧ c ≤ 0x7E ∨ c ∈ [0x08, 0x09, 0x0A, 0x0D] →
    (strokes c).isSome = true := by
  decide +kernel

/-- A key that has a character is no modifier key, and not caps lock. -/
theorem plain_key (k : Key)
    (h : normalmap k.code ≠ 0 ∨ shiftmap k.code ≠ 0 ∨ ctlmap k.code ≠ 0) :
    k.modifier = none ∧ (k.code == 0x3A) = false := by
  obtain ⟨p, b, hb, hne⟩ := k
  simp only [Key.code, Key.modifier] at h ⊢
  cases p <;> (revert b; decide)

/-- The character of the key that is found. -/
theorem keyOf_eq {map : Byte → Byte} {c : Byte} {k : Key} (h : keyOf map c = some k) :
    map k.code = c := by
  have hfound := List.find?_some h
  exact eq_of_beq hfound

section

variable (kb : Keyboard) {k : Key} (hk : k.modifier = none ∧ (k.code == 0x3A) = false)
include hk

/-- A plain key leaves the modifiers as they are. -/
theorem after_press_plain : (kb.after (.press k)).caps = kb.caps ∧
    ∀ m, (kb.after (.press k)).down m = kb.down m := by
  refine ⟨?_, fun m => ?_⟩
  · change (kb.caps ^^ k.code == 0x3A) = kb.caps
    rw [hk.2, Bool.xor_false]
  · have hnew : (∃ k' ∈ insert k kb.held, k'.modifier = some m) ↔
        ∃ k' ∈ kb.held, k'.modifier = some m := by
      rw [Finset.exists_mem_insert, hk.1]
      exact or_iff_right (by simp)
    exact decide_eq_decide.mpr hnew

/-- It types its character, with the modifiers as they are. -/
theorem types_press_plain : kb.types (.press k) =
    [k.char (kb.down .ctl) (kb.down .shift) kb.caps].filter (· ≠ 0) := by
  obtain ⟨hcaps, hdown⟩ := after_press_plain kb hk
  simp only [Keyboard.types, hdown, hcaps]

/-- Pressed and released while it was up, it is up again. -/
theorem run_plain (hup : k ∉ kb.held) : kb.run [.press k, .release k] = kb := by
  obtain ⟨hcaps, -⟩ := after_press_plain kb hk
  obtain ⟨held, caps⟩ := kb
  change Keyboard.mk ((insert k held).erase k) _ = _
  rw [Finset.erase_insert hup]
  exact congrArg (Keyboard.mk held) hcaps

end

/-- A nonzero character is still one under caps lock. -/
theorem swapCase_ne_zero {c : Byte} (hc : c ≠ 0) : swapCase c ≠ 0 := by
  rw [swapCase]
  split_ifs <;> bv_omega

/-- The character itself, or the other case of it under caps lock. -/
def underCaps (caps : Bool) (c : Byte) : Byte :=
  if caps then swapCase c else c

/-- A letter under caps lock is no NUL. -/
theorem filter_underCaps {c : Byte} (hc : c ≠ 0) (caps : Bool) :
    [underCaps caps c].filter (· ≠ 0) = [underCaps caps c] := by
  have hne : underCaps caps c ≠ 0 := by
    rw [underCaps]
    split
    · exact swapCase_ne_zero hc
    · exact hc
  exact List.filter_cons_of_pos (by simpa using hne)

/-- A way to type a character, beginning and ending with no key down. -/
structure Types (es : List KeyEvent) (c : Byte) : Prop where
  typed : ∀ caps, Keyboard.typed es ⟨∅, caps⟩ = [underCaps caps c]
  run : ∀ caps, Keyboard.run es ⟨∅, caps⟩ = ⟨∅, caps⟩
  clean : CleanRun es ∅
  alt : ∀ k, .press k ∈ es → k.modifier ≠ some .alt

/-- A key alone. -/
theorem types_alone {k : Key} {c : Byte} (hc : c ≠ 0) (hk : normalmap k.code = c) :
    Types [.press k, .release k] c := by
  have hplain := plain_key k (.inl (by rwa [hk]))
  refine ⟨fun caps => ?_, fun caps => run_plain _ hplain (Finset.notMem_empty k), ?_, ?_⟩
  · have hnone : ∀ m, Keyboard.down ⟨∅, caps⟩ m = false := fun m => by simp [Keyboard.down]
    rw [Keyboard.typed, types_press_plain _ hplain, hnone, hnone, Key.char]
    simp only [Bool.false_eq_true, if_false, hk]
    change [underCaps caps c].filter _ ++ [] = _
    rw [filter_underCaps hc, List.append_nil]
  · refine ⟨trivial, ?_, trivial⟩
    rintro ⟨m, hm, -⟩
    rw [hplain.1] at hm
    cases hm
  · intro k' hk'
    simp only [List.mem_cons, KeyEvent.press.injEq, List.not_mem_nil, or_false, reduceCtorEq] at hk'
    rw [hk', hplain.1]
    simp

/-- A key, while a modifier key is held down. -/
theorem types_chord {m k : Key} (kind : Modifier) (hm : m.modifier = some kind)
    (hkind : kind ≠ .alt) (hcode : m.code ≠ 0x3A) (hzero : ∀ x y z, m.char x y z = 0) {c : Byte}
    (hc : c ≠ 0) (hplain : k.modifier = none ∧ (k.code == 0x3A) = false)
    (hk : ∀ caps, k.char (decide (kind = .ctl)) (decide (kind = .shift)) caps = underCaps caps c) :
    Types (chord m k) c := by
  have hpress : ∀ caps, Keyboard.after ⟨∅, caps⟩ (.press m) = ⟨{m}, caps⟩ := by
    intro caps
    have hcaps : (m.code == 0x3A) = false := beq_false_of_ne hcode
    change Keyboard.mk (insert m ∅) (caps ^^ m.code == 0x3A) = _
    rw [hcaps, Bool.xor_false, insert_empty_eq]
  have hup : k ∉ ({m} : Finset Key) := by
    rw [Finset.mem_singleton]
    rintro rfl
    rw [hplain.1] at hm
    cases hm
  have hrun : ∀ caps, Keyboard.run [.press k, .release k] ⟨{m}, caps⟩ = ⟨{m}, caps⟩ :=
    fun caps => run_plain _ hplain hup
  refine ⟨fun caps => ?_, fun caps => ?_, ?_, ?_⟩
  · have hdown : ∀ kind', Keyboard.down ⟨{m}, caps⟩ kind' = decide (kind = kind') := by
      intro kind'
      simp [Keyboard.down, hm]
    have hsilent : Keyboard.types ⟨∅, caps⟩ (.press m) = [] := by
      rw [Keyboard.types, hzero]
      rfl
    rw [chord, Keyboard.typed, hsilent, hpress, Keyboard.typed, types_press_plain _ hplain, hdown,
      hdown, hk, filter_underCaps hc]
    rfl
  · change Keyboard.after (Keyboard.run [.press k, .release k]
      (Keyboard.after ⟨∅, caps⟩ (.press m))) (.release m) = _
    rw [hpress, hrun]
    change Keyboard.mk (Finset.erase {m} m) caps = _
    rw [Finset.erase_singleton]
  · have hheld : (insert k (insert m ∅) : Finset Key).erase k = {m} := by
      rw [insert_empty_eq, Finset.erase_insert hup]
    refine ⟨trivial, trivial, ?_, ?_, trivial⟩
    · rintro ⟨kind', hkind', -⟩
      rw [hplain.1] at hkind'
      cases hkind'
    · change ¬ TwinHeld ((insert k (insert m ∅) : Finset Key).erase k) m
      rw [hheld]
      rintro ⟨-, -, k', hk', hne, -⟩
      exact hne (Finset.mem_singleton.mp hk')
  · intro k' hk'
    simp only [chord, List.mem_cons, KeyEvent.press.injEq, List.not_mem_nil, or_false,
      reduceCtorEq] at hk'
    rcases hk' with rfl | rfl
    · rw [hm]
      exact fun hsome => hkind (Option.some.inj hsome)
    · rw [hplain.1]
      simp

/-- **Typing a character.** -/
theorem types_strokes {c : Byte} (hc : c ≠ 0) {es : List KeyEvent} (h : strokes c = some es) :
    Types es c := by
  rw [strokes] at h
  cases hn : keyOf normalmap c with
  | some k =>
      rw [hn] at h
      cases h
      exact types_alone hc (keyOf_eq hn)
  | none =>
      cases hs : keyOf shiftmap c with
      | some k =>
          rw [hn, hs] at h
          cases h
          have hplain := plain_key k (.inr (.inl (by rwa [keyOf_eq hs])))
          refine types_chord .shift rfl (by decide) (by decide) (by decide) hc hplain
            fun caps => ?_
          rw [Key.char, ← keyOf_eq hs]
          rfl
      | none =>
          cases hctl : keyOf ctlmap c with
          | some k =>
              rw [hn, hs, hctl] at h
              cases h
              have hplain := plain_key k (.inr (.inr (by rwa [keyOf_eq hctl])))
              refine types_chord .ctl rfl (by decide) (by decide) (by decide) hc hplain
                fun caps => ?_
              rw [Key.char, ← keyOf_eq hctl]
              rfl
          | none =>
              rw [hn, hs, hctl] at h
              cases h

/-- How to type a text. -/
def textStrokes (text : List Byte) : List KeyEvent :=
  text.flatMap fun c => (strokes c).getD []

/-- **Typing a text**, beginning with no key down and without caps lock. Induction on the text. -/
theorem types_text {text : List Byte} (htext : ∀ c ∈ text, c ≠ 0 ∧ (strokes c).isSome = true) :
    Keyboard.typed (textStrokes text) Keyboard.start = text ∧
      Keyboard.start.run (textStrokes text) = Keyboard.start ∧ CleanRun (textStrokes text) ∅ ∧
      ∀ k, .press k ∈ textStrokes text → k.modifier ≠ some .alt := by
  induction text with
  | nil => exact ⟨rfl, rfl, trivial, fun k hk => absurd hk (by simp [textStrokes])⟩
  | cons c text ih =>
      obtain ⟨htyped, hrun, hclean, halt⟩ := ih fun c' hc' => htext c' (List.mem_cons_of_mem c hc')
      obtain ⟨hc, hsome⟩ := htext c List.mem_cons_self
      obtain ⟨es, hes⟩ := Option.isSome_iff_exists.mp hsome
      have h := types_strokes hc hes
      have hcons : textStrokes (c :: text) = es ++ textStrokes text := by
        rw [textStrokes, List.flatMap_cons, hes]
        rfl
      have hfirst : Keyboard.start.run es = Keyboard.start := h.run false
      have hheld : heldAfter es ∅ = ∅ :=
        (run_held es Keyboard.start).symm.trans (congrArg Keyboard.held hfirst)
      rw [hcons]
      refine ⟨?_, ?_, ?_, fun k hk => ?_⟩
      · rw [typed_append, hfirst, htyped]
        exact congrArg (· ++ text) (h.typed false)
      · rw [Keyboard.run, List.foldl_append]
        exact (congrArg (Keyboard.run (textStrokes text)) hfirst).trans hrun
      · exact (cleanRun_append _ _ _).mpr ⟨h.clean, by rwa [hheld]⟩
      · exact (List.mem_append.mp hk).elim (h.alt k) (halt k)

/-! ### From the keys to the monitor -/

/-- What the polls deposit is what the driver returns, if nothing comes in on the serial line. -/
theorem pollSteps_deposited {as : List Arrival} (hrx : ∀ a ∈ as, a.rx = []) {s s' : Kbd}
    {steps : List InputStep} (h : pollSteps as s = .ok (steps, s')) :
    ∃ cs, scanned (as.flatMap Arrival.scan) s = .ok (cs, s') ∧ ∀ r : History,
      (steps.foldl History.step r).deposited = r.deposited ++ cs.filter (· ≠ 0) := by
  induction as generalizing s steps with
  | nil =>
      cases h
      exact ⟨[], rfl, fun r => (List.append_nil _).symm⟩
  | cons a as ih =>
      obtain ⟨cs₁, s₁, rest, hcs₁, hrest, rfl⟩ := pollSteps_cons h
      obtain ⟨cs₂, hcs₂, hall⟩ := ih (fun a' ha' => hrx a' (List.mem_cons_of_mem a ha')) hrest
      refine ⟨cs₁ ++ cs₂, scanned_append hcs₁ hcs₂, fun r => ?_⟩
      have hone : InputStep.deposits (.consGetc a.rx cs₁) r.input = cs₁.filter (· ≠ 0) := by
        rw [hrx a List.mem_cons_self]
        simp [InputStep.deposits, Input.received]
      rw [List.foldl_cons, hall, History.step, hone, List.filter_append, List.append_assoc]

/-- What the polls deposit, for a run of events. -/
theorem events_deposited {es : List KeyEvent} (hclean : CleanRun es ∅) {console : Console}
    {as : List Arrival} (hrx : ∀ a ∈ as, a.rx = [])
    (hscan : as.flatMap Arrival.scan = es.flatMap KeyEvent.scanCode) {steps : List InputStep}
    {s' : Kbd} (hsteps : pollSteps as { shift := 0, console := console } = .ok (steps, s')) :
    s'.Tracks (Keyboard.start.run es) ∧
      ((∀ k, .press k ∈ es → k.modifier ≠ some .alt) → s'.console = console) ∧
      ∀ serialExists, (History.run serialExists steps).deposited =
        Keyboard.typed es Keyboard.start := by
  obtain ⟨cs, s₁, hcs, htracks, hbytes, hconsole⟩ := run_types (start_tracks console) hclean
  obtain ⟨cs', hcs', hdeposited⟩ := pollSteps_deposited hrx hsteps
  rw [hscan, hcs] at hcs'
  cases hcs'
  refine ⟨htracks, hconsole (by simp [Keyboard.down, Keyboard.start]), fun serialExists => ?_⟩
  rw [History.run, hdeposited, hbytes, List.nil_append]

/-- As long as no more than 511 bytes have come in at all, there is room. -/
theorem roomy_of_short {serialExists : Bool} {steps : List InputStep}
    (h : (History.run serialExists steps).deposited.length < consBufSize) :
    Roomy serialExists steps := by
  rintro pre st post rfl
  have hgrow : ∀ (l : List InputStep) (r : History),
      r.deposited.length ≤ (l.foldl History.step r).deposited.length := by
    intro l
    induction l with
    | nil => exact fun r => Nat.le_refl _
    | cons st l ih =>
        intro r
        refine Nat.le_trans ?_ (ih (r.step st))
        rw [History.step, List.length_append]
        omega
  have hall : History.run serialExists (pre ++ st :: post) =
      post.foldl History.step ((History.run serialExists pre).step st) := List.foldl_append
  have hprefix := hgrow post ((History.run serialExists pre).step st)
  have hstep : ((History.run serialExists pre).step st).deposited.length =
      (History.run serialExists pre).deposited.length +
        (st.deposits (History.run serialExists pre).input).length := List.length_append
  rw [hall] at h
  rw [History.peak]
  omega

/-- **What is typed is read**, however the scan codes are spread over the polls, as long as there
is room in the ring: with enough polls `getchar` returns it, byte by byte. Without the alt
keys nothing has been printed by the driver. -/
theorem events_read {es : List KeyEvent} (hclean : CleanRun es ∅) {serialExists : Bool}
    {console : Console} {as : List Arrival} (hrx : ∀ a ∈ as, a.rx = [])
    (hscan : as.flatMap Arrival.scan = es.flatMap KeyEvent.scanCode) {steps : List InputStep}
    {s' : Kbd} (hsteps : pollSteps as { shift := 0, console := console } = .ok (steps, s'))
    (hroom : Roomy serialExists steps) {n : ℕ}
    (hn : (Keyboard.typed es Keyboard.start).length ≤ n) :
    ∃ p', p'.kbc.kbd.Tracks (Keyboard.start.run es) ∧
      ((∀ k, .press k ∈ es → k.modifier ≠ some .alt) → p'.kbc.kbd.console = console) ∧
      Converges (keys (Keyboard.typed es Keyboard.start), p') fun fuel =>
        (Ports.start serialExists console).chars fuel (as ++ List.replicate n .none) := by
  obtain ⟨htracks, hconsole, hall⟩ := events_deposited hclean hrx hscan hsteps
  obtain ⟨p', hkbd, hchars⟩ := chars_drained hsteps hroom (n := n) (by rw [hall]; exact hn)
  rw [hall] at hchars
  exact ⟨p', by rwa [hkbd], by rwa [hkbd], hchars⟩

/-- **From the keys to `getchar`.** The keys of a keyboard are pressed, repeated and released in any
order, but no modifier key is released while the other key of its kind is down. However the
scan codes are spread over the polls, as long as there is room in the ring, `getchar` returns
what is typed, by the keys that are down at each press and by caps lock. -/
theorem keyboard_read (es : List KeyEvent)
    (hclean : ∀ pre k post, es = pre ++ .release k :: post → ¬ TwinHeld (heldAfter pre ∅) k)
    (serialExists : Bool) (console : Console) {as : List Arrival} (hrx : ∀ a ∈ as, a.rx = [])
    (hscan : as.flatMap Arrival.scan = es.flatMap KeyEvent.scanCode) {steps : List InputStep}
    {s' : Kbd} (hsteps : pollSteps as { shift := 0, console := console } = .ok (steps, s'))
    (hroom : Roomy serialExists steps) {n : ℕ}
    (hn : (Keyboard.typed es Keyboard.start).length ≤ n) :
    ∃ p', p'.kbc.kbd.Tracks (Keyboard.start.run es) ∧
      Converges (keys (Keyboard.typed es Keyboard.start), p') fun fuel =>
        (Ports.start serialExists console).chars fuel (as ++ List.replicate n .none) := by
  have hrun : CleanRun es ∅ := by
    refine (cleanRun_iff es ∅).mpr fun pre e post h => ?_
    cases e with
    | press k => exact trivial
    | release k => exact hclean pre k post h
  obtain ⟨p', htracks, -, hchars⟩ := events_read hrun hrx hscan hsteps hroom hn
  exact ⟨p', htracks, hchars⟩

/-- `a` under the left shift key, each byte at a poll of its own. -/
theorem keyboard_read_shift : ∃ p', Converges (keys [chr 'A'], p') fun fuel =>
    (Ports.start true (Console.statics ⟨fun _ => 0, []⟩ ⟨0, fun _ => 0⟩)).chars fuel
      ([⟨[], [0x2A]⟩, ⟨[], [0x1E]⟩, ⟨[], [0x9E]⟩, ⟨[], [0xAA]⟩] ++ List.replicate 1 .none) := by
  have hclean : CleanRun (chord leftShift ⟨false, 0x1E, by decide, by decide⟩) ∅ :=
    (types_strokes (c := chr 'A') (by decide) rfl).clean
  obtain ⟨⟨steps, s'⟩, hsteps⟩ := exists_pollSteps
    [⟨[], [0x2A]⟩, ⟨[], [0x1E]⟩, ⟨[], [0x9E]⟩, ⟨[], [0xAA]⟩]
    { shift := 0, console := Console.statics ⟨fun _ => 0, []⟩ ⟨0, fun _ => 0⟩ }
  obtain ⟨-, -, hall⟩ := events_deposited hclean (by simp) rfl hsteps
  have hring : Roomy true steps := roomy_of_short (by rw [hall]; decide)
  obtain ⟨p', -, hchars⟩ := keyboard_read
    (chord leftShift ⟨false, 0x1E, by decide, by decide⟩)
    (fun pre k post h => (cleanRun_iff _ ∅).mp hclean pre (.release k) post h) true
    (Console.statics ⟨fun _ => 0, []⟩ ⟨0, fun _ => 0⟩) (by simp) rfl hsteps hring (n := 1)
    (by decide)
  exact ⟨p', hchars⟩

/-- **From the keys to the monitor.** A text is typed at the keyboard of a kernel that is in the
monitor. However its scan codes are spread over the polls of `getchar`, as long as there is room
in the ring, `getchar` returns the text, and the monitor serves its lines, in order. -/
theorem typed_session (i : Image) (y : Symbols) (site : Site) (argvAt : Addr) (fuel : ℕ) {x : Exec}
    (h : x.Sound i) (hroom : i.bootstack.toNat + (site.room + 20) ≤ x.ebp.toNat)
    (hstabs : 2 * i.stabs.length + 1 < fuel) (hcalls : x.calls.length + 1 < fuel)
    (stack : Kernel Cpu → Argv) (tf : BitVec 32) (line : List Byte) (buf : ℕ → Byte)
    {text : List Byte} (htext : ∀ c ∈ text, c ≠ 0 ∧ (strokes c).isSome = true)
    (serialExists : Bool) {as : List Arrival} (hrx : ∀ a ∈ as, a.rx = [])
    (hscan : as.flatMap Arrival.scan = (textStrokes text).flatMap KeyEvent.scanCode)
    {steps : List InputStep} {s' : Kbd}
    (hsteps : pollSteps as { shift := 0, console := x.console } = .ok (steps, s'))
    (hring : Roomy serialExists steps) {n : ℕ} (hn : text.length ≤ n) :
    ∃ p' s out,
      Converges (keys text, p') (fun fuel => (Ports.start serialExists x.console).chars fuel
        (as ++ List.replicate n .none)) ∧
      p'.kbc.kbd.console = x.console ∧
      monitor (i.handlers y site argvAt fuel) stack tf (keys text) buf ⟨line, x.console, x.cpu⟩ =
        .ok (.more s x.cpu) ∧
      Holds s ((openLine text).foldl typeKey []) ∧
      Transcript (KernelReply i y site fuel x) (endedLines text) out ∧
      Printed (welcomeText ++ out ++ lineText (openLine text)) x.console s.console := by
  obtain ⟨htyped, -, hclean, halt⟩ := types_text htext
  obtain ⟨p', -, hconsole, hchars⟩ := events_read hclean hrx hscan hsteps hring (n := n)
    (by rwa [htyped])
  rw [htyped] at hchars
  have hwork := handlers_work site argvAt fuel h hroom hstabs hcalls y tf
  obtain ⟨s, w, out, hrun, hholds, ⟨rfl, -⟩, htrans, hprint⟩ :=
    monitor_session hwork stack text buf (k := ⟨line, x.console, x.cpu⟩) (like_refl x)
  exact ⟨p', s, out, hchars, hconsole halt, hrun, hholds, htrans, hprint⟩

/-- `Help` is typed, and Enter, its scan codes all at once. -/
theorem typed_session_help : ∃ (x : Exec) (p' : Ports) (s : Line),
    x.Sound bareImage ∧
    Converges (keys ("Help\n".toList.map chr), p')
      (fun fuel => (Ports.start true x.console).chars fuel
        ([⟨[], (textStrokes ("Help\n".toList.map chr)).flatMap KeyEvent.scanCode⟩] ++
          List.replicate 5 .none)) ∧
    monitor (bareImage.handlers bareSymbols ⟨24, 0xF0100800, by decide⟩ 0 16)
      (fun _ => Vector.replicate maxArgs none) 0 (keys ("Help\n".toList.map chr)) (fun _ => 0)
      ⟨[], x.console, x.cpu⟩ = .ok (.more s x.cpu) := by
  obtain ⟨x, h, hebp, hcalls, -⟩ := i386Init_reaches (i := bareImage) ⟨0xA55A, 0⟩
    (Console.statics ⟨fun _ => 0, []⟩ ⟨0, fun _ => 0⟩)
  have htop : bareImage.top = 0xF0118000 := rfl
  have hroom : bareImage.bootstack.toNat + (24 + 20) ≤ x.ebp.toNat := by
    change 0xF0110000 + (24 + 20) ≤ _
    omega
  have htext : ∀ c ∈ "Help\n".toList.map chr, c ≠ 0 ∧ (strokes c).isSome = true := by decide
  have hrx : ∀ a ∈ [(⟨[], (textStrokes ("Help\n".toList.map chr)).flatMap KeyEvent.scanCode⟩ :
      Arrival)], a.rx = [] := by simp
  obtain ⟨⟨steps, s'⟩, hsteps⟩ := exists_pollSteps
    [⟨[], (textStrokes ("Help\n".toList.map chr)).flatMap KeyEvent.scanCode⟩]
    { shift := 0, console := x.console }
  obtain ⟨htyped, -, hclean, -⟩ := types_text htext
  obtain ⟨-, -, hall⟩ := events_deposited hclean hrx (List.flatMap_singleton _ _) hsteps
  have hring : Roomy true steps := roomy_of_short (by rw [hall, htyped]; decide)
  obtain ⟨p', s, -, hchars, -, hrun, -⟩ := typed_session bareImage bareSymbols
    ⟨24, 0xF0100800, by decide⟩ 0 16 h hroom (by decide)
    (by rw [hcalls, List.length_singleton]; decide) (fun _ => Vector.replicate maxArgs none) 0 []
    (fun _ => 0) htext true hrx (List.flatMap_singleton _ _) hsteps hring (n := 5) (by decide)
  exact ⟨x, p', s, h, hchars, hrun⟩

end Jos
