import Jos.Input
import Jos.Keyboard
import Jos.Loop

/-!
# Bytes from the Mouse

The keyboard controller has one output buffer for two devices, the keyboard and the mouse.
It is a queue here: the status port tells whether there is a byte and which device it is
from, and a read of the data port takes the byte at the head away. Nothing else does.

`kbd_proc_data` reads the status first, and the data only if it is going to use them. So it
leaves a byte from the mouse where it is, behind the same result -1 with which it tells
`cons_intr` that there are no more data.

## Main results

* `kbdIntr_spec`: `kbd_intr` handles the bytes up to the first one from the mouse.
* `kbdIntr_mouse`: with a byte from the mouse at the head, it does nothing.
* `discardsMouse_iff`: bytes from the mouse are discarded only if there are none.
-/

namespace Jos

/-! ### The controller -/

/-- A byte in the controller's buffer, and whether it is from the mouse. -/
structure PortByte where
  auxiliary : Bool
  data : Byte
deriving DecidableEq

/-- The controller's buffer, and the driver's state. -/
structure Kbc where
  queue : List PortByte
  kbd : Kbd

namespace Kbc

/-- `inb(KBSTATP)`. -/
def inbKbstatp (k : Kbc) : Byte :=
  match k.queue with
  | [] => 0
  | b :: _ => if b.auxiliary then kbsDib ||| kbsTerr else kbsDib

/-- `inb(KBDATAP)`: the byte at the head, which is taken away. -/
def inbKbdatap (k : Kbc) : Byte × Kbc :=
  match k.queue with
  | [] => (0, k)
  | b :: q => (b.data, { k with queue := q })

/-- `kbd_proc_data`, at the ports. -/
def kbdProcData (k : Kbc) : Except Fault (BitVec 32 × Kbc) :=
  let stat := k.inbKbstatp
  if stat &&& kbsDib = 0 then .ok (-1, k)
  -- ignore data from mouse
  else if stat &&& kbsTerr ≠ 0 then .ok (-1, k)
  else do
    let (data, k) := k.inbKbdatap
    let (c, kbd) ← Jos.kbdProcData stat data k.kbd
    pure (c, { k with kbd := kbd })

end Kbc

section

variable {σ : Type}

/-- One round of the loop of `cons_intr`, `proc` being called on the state of its device. -/
def consIntrCall (proc : σ → Except Fault (BitVec 32 × σ)) (s : σ × Ring Byte) :
    Except Fault (Round (σ × Ring Byte) (σ × Ring Byte)) := do
  let (c, dev) ← proc s.1
  if c = -1 then pure (.leave (dev, s.2))
  else if c = 0 then pure (.next (dev, s.2))
  else pure (.next (dev, s.2.push consBufSize (c.setWidth 8)))

/-- `cons_intr`, calling `proc` until it returns -1. -/
def consIntrProc (proc : σ → Except Fault (BitVec 32 × σ)) (fuel : ℕ) (dev : σ)
    (cons : Ring Byte) : Except Fault (σ × Ring Byte) :=
  loop .fuel (consIntrCall proc) fuel (dev, cons)

end

/-- `kbd_intr`, at the ports. -/
def Kbc.kbdIntr (fuel : ℕ) (k : Kbc) (cons : Ring Byte) : Except Fault (Kbc × Ring Byte) :=
  consIntrProc Kbc.kbdProcData fuel k cons

/-- Bytes from the mouse make no difference: `kbd_intr` leaves the queue empty, and the input
ring and the shift state as it leaves them for the queue without these bytes. -/
def DiscardsMouse (q : List PortByte) (kbd : Kbd) (cons : Ring Byte) : Prop :=
  ∃ r r' : Kbc × Ring Byte,
    Converges r (fun fuel => Kbc.kbdIntr fuel ⟨q, kbd⟩ cons) ∧
    Converges r' (fun fuel => Kbc.kbdIntr fuel ⟨q.filter fun b => !b.auxiliary, kbd⟩ cons) ∧
    r.1.queue = [] ∧ r.2 = r'.2 ∧ r.1.kbd.shift = r'.1.kbd.shift

/-! ### The loop -/

/-- A byte from the keyboard. -/
def PortByte.key (data : Byte) : PortByte where
  auxiliary := false
  data := data

/-- A round with a byte from the keyboard at the head. -/
theorem consIntrCall_key (data : Byte) (q : List PortByte) (s : Kbd) (cons : Ring Byte) :
    ∃ (c : Byte) (s' : Kbd), kbdProcData kbsDib data s = .ok (c.setWidth 32, s') ∧
      consIntrCall Kbc.kbdProcData (⟨.key data :: q, s⟩, cons) =
        .ok (.next (⟨q, s'⟩, consIntrRound cons c)) := by
  obtain ⟨c, s', hstep⟩ := exists_kbdProcData data s
  refine ⟨c, s', hstep, ?_⟩
  have hport : Kbc.kbdProcData ⟨.key data :: q, s⟩ = .ok (c.setWidth 32, ⟨q, s'⟩) := by
    have hstat : Kbc.inbKbstatp ⟨.key data :: q, s⟩ = kbsDib := rfl
    rw [Kbc.kbdProcData, hstat, if_neg (by decide), if_neg (by decide)]
    change (kbdProcData kbsDib data s >>= fun r => .ok (r.1, (⟨q, r.2⟩ : Kbc))) = _
    rw [hstep, ok_bind]
  have hne : c.setWidth 32 ≠ (-1 : BitVec 32) := by bv_omega
  rw [consIntrCall, hport, ok_bind]
  simp only [if_neg hne, consIntrRound]
  by_cases hc : c = 0
  · rw [if_pos hc, if_pos (by rw [hc]; rfl)]
    rfl
  · rw [if_neg hc, if_neg (by bv_omega), BitVec.setWidth_setWidth_of_le _ (by decide),
      BitVec.setWidth_eq]
    rfl

/-- A round with no byte, or with a byte from the mouse, is the last. -/
theorem consIntrCall_leave {q : List PortByte} (hq : ∀ b ∈ q.head?, b.auxiliary = true) (s : Kbd)
    (cons : Ring Byte) : consIntrCall Kbc.kbdProcData (⟨q, s⟩, cons) =
      .ok (.leave (⟨q, s⟩, cons)) := by
  have hport : Kbc.kbdProcData ⟨q, s⟩ = .ok (-1, ⟨q, s⟩) := by
    cases q with
    | nil =>
        have hstat : Kbc.inbKbstatp ⟨[], s⟩ = 0 := rfl
        rw [Kbc.kbdProcData, hstat, if_pos (by decide)]
    | cons b q =>
        have hstat : Kbc.inbKbstatp ⟨b :: q, s⟩ = kbsDib ||| kbsTerr := if_pos (hq b rfl)
        rw [Kbc.kbdProcData, hstat, if_neg (by decide), if_pos (by decide)]
  rw [consIntrCall, hport, ok_bind]
  rfl

/-- **`kbd_intr` handles the bytes up to the first one from the mouse**, and leaves that one
and the rest. Induction on the bytes before it. -/
theorem kbdIntr_spec (front : List Byte) {rest : List PortByte}
    (hrest : ∀ b ∈ rest.head?, b.auxiliary = true) (s : Kbd) (cons : Ring Byte) :
    ∃ (cs : List Byte) (s' : Kbd), scan front s = .ok s' ∧
      Converges (⟨rest, s'⟩, consIntr cs cons)
        (fun fuel => Kbc.kbdIntr fuel ⟨front.map .key ++ rest, s⟩ cons) := by
  suffices hloops : ∃ (cs : List Byte) (s' : Kbd), scan front s = .ok s' ∧
      Loops .fuel (fun _ => consIntrCall Kbc.kbdProcData) (⟨front.map .key ++ rest, s⟩, cons)
        (⟨rest, s'⟩, consIntr cs cons) by
    obtain ⟨cs, s', hscan, hloops⟩ := hloops
    exact ⟨cs, s', hscan, hloops.converges⟩
  induction front generalizing s cons with
  | nil =>
      refine ⟨[], s, rfl, .leave ⟨0, fun _ _ => ?_⟩⟩
      exact consIntrCall_leave hrest s cons
  | cons data front ih =>
      obtain ⟨c, s₁, hdata, hround⟩ := consIntrCall_key data (front.map .key ++ rest) s cons
      obtain ⟨cs, s', hscan, hloops⟩ := ih s₁ (consIntrRound cons c)
      refine ⟨c :: cs, s', ?_, .next ⟨0, fun _ _ => hround⟩ hloops⟩
      rw [scan, hdata, ok_bind]
      exact hscan

/-- With a byte from the mouse at the head, `kbd_intr` does nothing. -/
theorem kbdIntr_mouse {b : PortByte} (hb : b.auxiliary = true) (q : List PortByte) (s : Kbd)
    (cons : Ring Byte) :
    Converges (⟨b :: q, s⟩, cons) (fun fuel => Kbc.kbdIntr fuel ⟨b :: q, s⟩ cons) := by
  have hhead : ∀ b' ∈ (b :: q).head?, b'.auxiliary = true := by
    rintro b' hb'
    rwa [← Option.some.inj hb']
  have hloops : Loops .fuel (fun _ => consIntrCall Kbc.kbdProcData) (⟨b :: q, s⟩, cons)
      (⟨b :: q, s⟩, cons) := .leave ⟨0, fun _ _ => consIntrCall_leave hhead s cons⟩
  exact hloops.converges

/-- A queue up to the first byte from the mouse. -/
theorem exists_front (q : List PortByte) : ∃ (front : List Byte) (rest : List PortByte),
    q = front.map .key ++ rest ∧ ∀ b ∈ rest.head?, b.auxiliary = true := by
  induction q with
  | nil => exact ⟨[], [], rfl, by simp⟩
  | cons b q ih =>
      obtain ⟨aux, data⟩ := b
      cases aux with
      | true => exact ⟨[], ⟨true, data⟩ :: q, rfl, by simp⟩
      | false =>
          obtain ⟨front, rest, rfl, hrest⟩ := ih
          exact ⟨data :: front, rest, rfl, hrest⟩

/-- **When bytes from the mouse are discarded.** `kbd_intr` leaves the queue of the controller
empty, and the input ring and the shift state as it would leave them without the bytes from
the mouse, if and only if there is no such byte in the queue. -/
theorem discardsMouse_iff (q : List PortByte) (kbd : Kbd) (cons : Ring Byte) :
    DiscardsMouse q kbd cons ↔ ∀ b ∈ q, b.auxiliary = false := by
  obtain ⟨front, rest, rfl, hrest⟩ := exists_front q
  obtain ⟨cs, s', -, hend⟩ := kbdIntr_spec front hrest kbd cons
  constructor
  · rintro ⟨r, -, hr, -, hempty, -⟩
    obtain rfl := hr.unique hend
    obtain rfl : rest = [] := hempty
    rw [List.append_nil]
    exact List.forall_mem_map.mpr fun data _ => rfl
  · intro hall
    have hfilter : (front.map PortByte.key ++ rest).filter (fun b => !b.auxiliary) =
        front.map .key ++ rest := by
      refine List.filter_eq_self.mpr fun b hb => ?_
      rw [hall b hb]
      rfl
    have hnil : rest = [] := by
      rcases rest with _ | ⟨b, rest⟩
      · rfl
      · exact absurd (hrest b rfl) (by rw [hall b (by simp)]; exact Bool.false_ne_true)
    rw [DiscardsMouse, hfilter]
    exact ⟨_, _, hend, hend, hnil, rfl, rfl⟩

/-- **A movement of the mouse, and then the key `a`**: both bytes stay in the queue. -/
theorem not_discardsMouse :
    ¬ DiscardsMouse [⟨true, 0x08⟩, ⟨false, 0x1E⟩]
      ⟨0, Console.statics ⟨fun _ => 0, []⟩ ⟨0, fun _ => 0⟩⟩ ⟨fun _ => 0, 0, 0⟩ := by
  rintro ⟨r, -, hr, -, hempty, -⟩
  obtain rfl := hr.unique (kbdIntr_mouse rfl _ _ _)
  exact absurd hempty (by simp)

end Jos
