import Jos.Escape

/-!
# Control Sequences

What the parser of `cons_putc` makes of whole control sequences, that is, of `ESC [`, bytes
from 0x20 to 0x3F, and a final byte from 0x40 on. It gives up at the first byte that is no
digit and no semicolon, and what comes after that byte is text.

## Main results

* `ignoredWhole_iff`: **unknown sequences are ignored whole** exactly when all their bytes
  but the last are digits and semicolons.
-/

namespace Jos

open Console

/-! ### Inside a sequence -/

/-- A byte inside a sequence, as `cons_putc` takes it. -/
theorem consPutc_csi {s : Console} (he : s.esc = 2) (b : Byte) :
    consPutc (b.setWidth 32) s = csiPutc (b.setWidth 32) s := by
  rw [consPutc_eq, consPutcBody_csi _ _ he, byte_and_0xFF]

theorem consBytes_append (t u : List Byte) (s : Console) :
    consBytes (t ++ u) s = consBytes u (consBytes t s) :=
  List.foldl_append

/-- The first two bytes of a sequence. -/
theorem consBytes_start {s : Console} (he : s.esc = 0) (t : List Byte) :
    consBytes (0x1B :: 0x5B :: t) s =
      consBytes t { s with esc := 2, param := -1, nparams := 0 } := by
  have hesc : consPutc ((0x1B : Byte).setWidth 32) s = { s with esc := 1 } := by
    rw [consPutc_eq, consPutcBody_text _ _ he]
    exact if_pos (by decide)
  rw [consBytes, List.foldl_cons, hesc]
  rfl

/-- A run of parameter bytes. -/
theorem consBytes_params {t : List Byte} (ht : ∀ b ∈ t, isParam b) {s : Console}
    (he : s.esc = 2) :
    Parses s (consBytes t s) ∧ (consBytes t s).crtAttr = s.crtAttr ∧ (consBytes t s).esc = 2 := by
  induction t generalizing s with
  | nil => exact ⟨Parses.refl s, rfl, he⟩
  | cons b t ih =>
      obtain ⟨hb, hattr, hesc⟩ := csiPutc_param (ht b List.mem_cons_self) s
      rw [← consPutc_csi he] at hb hattr hesc
      obtain ⟨hrest, hattr', hesc'⟩ :=
        ih (fun x hx => ht x (List.mem_cons_of_mem b hx)) (hesc.trans he)
      exact ⟨hb.trans hrest, hattr'.trans hattr, hesc'⟩

/-- A sequence that is still open has had parameter bytes only. -/
theorem isParam_of_open {t : List Byte} {s : Console} (he : s.esc = 2)
    (hopen : ∀ k ≤ t.length, (consBytes (t.take k) s).esc ≠ 0) : ∀ b ∈ t, isParam b := by
  induction t generalizing s with
  | nil => exact fun b hb => absurd hb List.not_mem_nil
  | cons b t ih =>
      have hb : isParam b := by
        by_contra hfinal
        refine hopen 1 (Nat.succ_le_succ (Nat.zero_le _)) ?_
        change (consPutc (b.setWidth 32) s).esc = 0
        rw [consPutc_csi he]
        rw [csiPutc_final hfinal]
      have hesc : (consPutc (b.setWidth 32) s).esc = 2 := by
        rw [consPutc_csi he, (csiPutc_param hb s).2.2, he]
      exact List.forall_mem_cons.mpr
        ⟨hb, ih hesc fun k hk => hopen (k + 1) (Nat.succ_le_succ hk)⟩

/-! ### Unknown sequences -/

/-- A control sequence, of parameter bytes, intermediate bytes and a final byte. -/
def controlSequence (params inter : List Byte) (final : Byte) : List Byte :=
  0x1B :: 0x5B :: (params ++ inter ++ [final])

/-- The bytes send nothing to any device and leave the cursor, the screen and the attribute
alone, and the parser is in its ground state after the last of them and not before. -/
def IgnoredWhole (bs : List Byte) (s : Console) : Prop :=
  Parses s (consBytes bs s) ∧ (consBytes bs s).crtAttr = s.crtAttr ∧ (consBytes bs s).esc = 0 ∧
    ∀ k, 0 < k → k < bs.length → (consBytes (bs.take k) s).esc ≠ 0

section

variable {params inter : List Byte} {final : Byte} {s : Console} (he : s.esc = 0)
include he

/-- The state behind a part of the sequence that has at least its first two bytes. -/
theorem consBytes_take {k : ℕ} (hk : k ≤ (params ++ inter).length) :
    consBytes ((controlSequence params inter final).take (k + 2)) s =
      consBytes ((params ++ inter).take k) { s with esc := 2, param := -1, nparams := 0 } := by
  rw [controlSequence, List.take_succ_cons, List.take_succ_cons, consBytes_start he,
    List.take_append_of_le_length hk]

/-- The state behind the first byte. -/
theorem consBytes_take_one :
    (consBytes ((controlSequence params inter final).take 1) s).esc = 1 := by
  change (consPutc 0x1B s).esc = 1
  rw [consPutc_eq, consPutcBody_text _ _ he, if_pos (by decide)]

/-- An unknown sequence of parameter bytes, as a whole. -/
theorem consBytes_unknown (hparams : ∀ b ∈ params, isParam b) (hfinal : ¬ isParam final)
    (hm : final ≠ 0x6D) :
    consBytes (controlSequence params [] final) s =
      { consBytes params { s with esc := 2, param := -1, nparams := 0 } with esc := 0 } := by
  have hesc := (consBytes_params hparams
    (s := { s with esc := 2, param := -1, nparams := 0 }) rfl).2.2
  rw [controlSequence, consBytes_start he, List.append_nil, consBytes_append]
  change consPutc (final.setWidth 32) (consBytes params _) = _
  rw [consPutc_csi hesc, csiPutc_final hfinal, if_neg hm]

/-- A sequence that stays open until its final byte has parameter bytes only. -/
theorem isParam_of_ignoredWhole (h : IgnoredWhole (controlSequence params inter final) s) :
    ∀ b ∈ params ++ inter, isParam b := by
  refine isParam_of_open (s := { s with esc := 2, param := -1, nparams := 0 }) rfl fun k hk => ?_
  have hopen := h.2.2.2 (k + 2) (by omega) (by
    simp only [controlSequence, List.length_cons, List.length_append] at hk ⊢
    omega)
  rwa [consBytes_take he hk] at hopen

/-- An unknown sequence of parameter bytes is ignored whole. -/
theorem ignoredWhole_of_isParam (hparams : ∀ b ∈ params, isParam b) (hfinal : ¬ isParam final)
    (hm : final ≠ 0x6D) : IgnoredWhole (controlSequence params [] final) s := by
  obtain ⟨hrun, hattr, -⟩ := consBytes_params hparams
    (s := { s with esc := 2, param := -1, nparams := 0 }) rfl
  refine ⟨?_, ?_, ?_, fun k hpos hlt => ?_⟩
  · rw [consBytes_unknown he hparams hfinal hm]
    exact ((startCsi_parses s).trans hrun).trans (setEsc_parses _ 0)
  · rw [consBytes_unknown he hparams hfinal hm]
    exact hattr
  · rw [consBytes_unknown he hparams hfinal hm]
  -- after the first byte the mode is 1, and from the second on it is 2
  · obtain ⟨k, rfl⟩ := Nat.exists_eq_succ_of_ne_zero hpos.ne'
    cases k with
    | zero =>
        rw [consBytes_take_one he]
        decide
    | succ k =>
        have hk : k ≤ (params ++ []).length := by
          simp only [controlSequence, List.length_cons, List.length_append,
            List.length_nil] at hlt ⊢
          omega
        have hopen := (consBytes_params (t := params.take k)
          (fun b hb => hparams b (List.mem_of_mem_take hb))
          (s := { s with esc := 2, param := -1, nparams := 0 }) rfl).2.2
        rw [consBytes_take he hk, List.append_nil, hopen]
        decide

end

/-- **When an unknown sequence is ignored whole.** All its parameter bytes are digits and
semicolons, and it has no intermediate bytes. -/
theorem ignoredWhole_iff {params inter : List Byte} {final : Byte}
    (hinter : ∀ b ∈ inter, 0x20 ≤ b ∧ b ≤ 0x2F) (hfinal : 0x40 ≤ final ∧ final ≤ 0x7E)
    (hm : final ≠ 0x6D) {s : Console} (he : s.esc = 0) :
    IgnoredWhole (controlSequence params inter final) s ↔
      (∀ b ∈ params, isParam b) ∧ inter = [] := by
  have hend : ¬ isParam final := by
    rintro (⟨-, h⟩ | h)
    · exact absurd (BitVec.le_trans hfinal.1 h) (by decide)
    · exact absurd (h ▸ hfinal.1) (by decide)
  constructor
  · intro h
    have hbody := isParam_of_ignoredWhole he h
    refine ⟨fun b hb => hbody b (List.mem_append_left _ hb), ?_⟩
    -- an intermediate byte is below all parameter bytes
    refine List.eq_nil_iff_forall_not_mem.mpr fun b hb => ?_
    obtain ⟨-, hhigh⟩ := hinter b hb
    obtain ⟨hlow, -⟩ | h3B := hbody b (List.mem_append_right _ hb)
    · exact absurd (BitVec.le_trans hlow hhigh) (by decide)
    · exact absurd (h3B ▸ hhigh) (by decide)
  · rintro ⟨hparams, rfl⟩
    exact ignoredWhole_of_isParam he hparams hend hm

/-- `ESC [ 2 J` in the ground state. -/
theorem ignoredWhole_iff_clear :
    IgnoredWhole (controlSequence [0x32] [] 0x4A) (statics ⟨fun _ => 0, []⟩ ⟨0, fun _ => 0⟩) ↔
      (∀ b ∈ [(0x32 : Byte)], isParam b) ∧ ([] : List Byte) = [] :=
  ignoredWhole_iff (by decide) (by decide) (by decide) rfl

/-- **An unknown sequence is not always ignored whole.** After `ESC [ ?` the parser is in its
ground state, and `25h` is text. -/
theorem not_ignoredWhole_cursor :
    ¬ ∀ (params inter : List Byte) (final : Byte) (s : Console),
      (∀ b ∈ params, 0x30 ≤ b ∧ b ≤ 0x3F) → (∀ b ∈ inter, 0x20 ≤ b ∧ b ≤ 0x2F) →
      0x40 ≤ final ∧ final ≤ 0x7E → final ≠ 0x6D → s.esc = 0 →
      IgnoredWhole (controlSequence params inter final) s := by
  intro h
  obtain ⟨-, -, -, hbefore⟩ := h [0x3F, 0x32, 0x35] [] 0x68
    (statics ⟨fun _ => 0, []⟩ ⟨0, fun _ => 0⟩) (by decide) (by decide) (by decide) (by decide) rfl
  exact hbefore 3 (by decide) (by decide) rfl

end Jos
