import Jos.SymbolSearch
import Jos.Commands
import Jos.TestBacktrace
import Jos.StringField
import Mathlib.Data.List.TakeWhile
import Mathlib.Data.Int.Range
import Mathlib.Order.Filter.AtTopBot.Basic
import Mathlib.Order.Filter.Finite

/-!
# What a Debug Lookup Finds

`debuginfo_eip` on a table that is in order: the files, and the functions, by ascending address,
and the lines of a function by ascending offset. An address then has a place (`Place.Of`): its
file, the function in it, and the line, each the last entry of its type that does not lie above
the address, and the lookup finds it.

The three searches are those of `Jos.SymbolSearch`, which go astray on two entries at the address
and right behind it. So each of them has a condition on these two addresses (`Spaced`).

## Main results

* `debuginfoEip_finds`: **the lookup finds the place** of an address in a function.
* `debuginfoEip_assembly`: it finds the line in a file without functions.
* `debuginfoEip_below`: it fails below all files.
* `monBacktrace_places`: so the backtrace says where each active call returns to.
-/

namespace Jos

/-! ### Regions -/

/-- The entries of a range are not both at the address `a` and right behind it. -/
def Spaced (key : ℤ → Option ℕ) (left right : ℤ) (a : ℕ) : Prop :=
  (∀ i, left ≤ i → i ≤ right → key i ≠ some a) ∨
    a + 1 < 2 ^ 32 ∧ ∀ i, left ≤ i → i ≤ right → key i ≠ some (a + 1)

/-- Such regions can be looked for. -/
instance decidableIsGreatest {P : ℤ → Prop} [DecidablePred P] {left right k : ℤ} :
    Decidable (IsGreatest {i | left ≤ i ∧ i ≤ right ∧ P i} k) :=
  decidable_of_iff ((left ≤ k ∧ k ≤ right ∧ P k) ∧ ∀ i, left ≤ i → i ≤ right → P i → i ≤ k)
    (and_congr Iff.rfl ⟨fun h _ hi => h _ hi.1 hi.2.1 hi.2.2, fun h _ hl hr hi => h ⟨hl, hr, hi⟩⟩)

instance decidableIsLeast {P : ℤ → Prop} [DecidablePred P] {left right k : ℤ} :
    Decidable (IsLeast {i | left ≤ i ∧ i ≤ right ∧ P i} k) :=
  decidable_of_iff ((left ≤ k ∧ k ≤ right ∧ P k) ∧ ∀ i, left ≤ i → i ≤ right → P i → k ≤ i)
    (and_congr Iff.rfl ⟨fun h _ hi => h _ hi.1 hi.2.1 hi.2.2, fun h _ hl hr hi => h ⟨hl, hr, hi⟩⟩)

instance decidableExistsSome {α : Type} {o : Option α} {p : α → Prop} [DecidablePred p] :
    Decidable (∃ v, o = some v ∧ p v) :=
  inferInstanceAs (Decidable (∃ v ∈ o, p v))

instance decidableBrackets {key : ℤ → Option ℕ} {left right : ℤ} {a : ℕ} {region : ℤ × ℤ} :
    Decidable (Brackets key left right a region) :=
  decidable_of_iff
    (IsGreatest {i | left ≤ i ∧ i ≤ right ∧ ∃ v, key i = some v ∧ v ≤ a} region.1 ∧
      (IsLeast {i | left ≤ i ∧ i ≤ right ∧ ∃ v, key i = some v ∧ a < v} (region.2 + 1) ∨
        (∀ i, left ≤ i → i ≤ right → ∀ v ∈ key i, v ≤ a) ∧ region.2 = right))
    (and_congr Iff.rfl (or_congr Iff.rfl (and_congr
      ⟨fun h i v hl hr hv => h i hl hr v hv, fun h i hl hr v hv => h i v hl hr hv⟩ Iff.rfl)))

section

variable {key : ℤ → Option ℕ} {left right : ℤ} {a : ℕ} {region region' : ℤ × ℤ}

/-- One region brackets an address. -/
theorem Brackets.unique (h : Brackets key left right a region)
    (h' : Brackets key left right a region') : region = region' := by
  have hleft : region.1 = region'.1 := h.1.unique h'.1
  refine Prod.ext hleft ?_
  rcases h.2 with hleast | ⟨hnone, hend⟩
  · rcases h'.2 with hleast' | ⟨hnone', -⟩
    · exact add_right_cancel (hleast.unique hleast')
    · obtain ⟨hl, hr, v, hv, ha⟩ := hleast.1
      exact absurd (hnone' _ v hl hr hv) (not_le.mpr ha)
  · rcases h'.2 with hleast' | ⟨-, hend'⟩
    · obtain ⟨hl, hr, v, hv, ha⟩ := hleast'.1
      exact absurd (hnone _ v hl hr hv) (not_le.mpr ha)
    · rw [hend, hend']

/-- The region is a part of the range, and not empty. -/
theorem Brackets.inside (hasc : Ascending key left right) (h : Brackets key left right a region) :
    left ≤ region.1 ∧ region.1 ≤ region.2 ∧ region.2 ≤ right := by
  obtain ⟨hl, hr, v, hv, hva⟩ := h.1.1
  rcases h.2 with hleast | ⟨-, hend⟩
  · obtain ⟨hl', hr', w, hw, haw⟩ := hleast.1
    refine ⟨hl, ?_, by omega⟩
    by_contra hlt
    exact absurd (hasc _ _ w v hl' (by omega) hr hw hv) (by omega)
  · exact ⟨hl, by omega, by omega⟩

/-- Behind its first entry the region has none of the type. -/
theorem Brackets.free (hasc : Ascending key left right) (h : Brackets key left right a region) :
    Free key (region.1 + 1) region.2 := by
  obtain ⟨hl, hle, hr⟩ := h.inside hasc
  intro i hi hi'
  cases hv : key i with
  | none => rfl
  | some v =>
      exfalso
      rcases le_or_gt v a with hva | hva
      · have hlast := h.1.2 ⟨by omega, by omega, v, hv, hva⟩
        omega
      · rcases h.2 with hleast | ⟨hnone, -⟩
        · have hfirst := hleast.2 ⟨by omega, by omega, v, hv, hva⟩
          omega
        · exact absurd (hnone i v (by omega) (by omega) hv) (not_le.mpr hva)

end

section

variable {stabs : List Stab} {type : Byte} {left right : ℤ} {addr : Addr}

/-- **The search finds the region.** -/
theorem search_finds (hleft : 0 ≤ left) (hright : right < stabs.length)
    (hasc : Ascending (stabValue stabs type) left right)
    (hspaced : Spaced (stabValue stabs type) left right addr.toNat) {region : ℤ × ℤ}
    (h : Brackets (stabValue stabs type) left right addr.toNat region) :
    Converges region fun fuel => stabBinsearch fuel stabs left right type addr := by
  obtain ⟨hl, hr, v, hv, hva⟩ := h.1.1
  obtain ⟨region', hconv, hiff⟩ :=
    stabBinsearch_brackets_iff hleft hright hasc ⟨region.1, v, hl, hr, hv, hva⟩
  rw [h.unique (hiff.mpr (steady_of_ne hasc hspaced))]
  exact hconv

/-- **No region** begins behind entry 0 when the entries all lie above the address. -/
theorem search_none (hhead : stabValue stabs type 0 = none) (hright : right < stabs.length)
    (hroom : -1 ≤ right) (hasc : Ascending (stabValue stabs type) 0 right)
    (habove : ∀ i v, 0 ≤ i → i ≤ right → stabValue stabs type i = some v → addr.toNat < v) :
    ∃ r, Converges (0, r) fun fuel => stabBinsearch fuel stabs 0 right type addr := by
  have hs : (Search.start 0 right addr).Inside stabs := ⟨le_refl 0, hright, rfl⟩
  obtain ⟨s, hloop, hin, hend, hmiss⟩ := search_misses type hs
    (show (0 : ℤ) ≤ right + 1 by omega) hasc
    fun i hi hi' hv => lt_irrefl _ (habove i _ hi hi' hv)
  have hflanks : Flanks (stabValue stabs type) addr.toNat 0 right s.l s.r := hmiss.flanks
  have hr := hflanks.right
  have hstart : s.left = 0 := by
    rcases hmiss.left with h | ⟨h, h', v, hv, hva⟩
    · exact h
    · exact absurd (habove _ v h h' hv) (not_lt.mpr hva.le)
  cases hany : s.anyMatches with
  | false =>
      refine ⟨-1, stabBinsearch_converges hloop ?_⟩
      rw [hany, hstart]
      rfl
  | true =>
      obtain ⟨l, hregion, hle, hl, -, hkey⟩ := exists_region hloop hin hany (by omega)
      have hlr : s.r = s.right := hin.right
      have hzero : l = 0 := by
        rcases hkey with hkey | ⟨v, hv⟩
        · rcases hl with hl | hl
          · -- the region has lost all of the range, entry 0 as well
            by_contra hne
            have hroom' : (0 : ℤ) ≤ s.r + 1 := hflanks.room
            rcases hflanks.edge with heq | ⟨v, hv⟩
            · have hfree : Free (stabValue stabs type) (Search.start 0 right addr).l
                  (Search.start 0 right addr).r := free_of_lt (show right < 0 by omega)
              rw [hmiss.unmatched hfree] at hany
              cases hany
            · have hfirst : s.r + 1 = 0 := by omega
              rw [hfirst, hhead] at hv
              cases hv
          · omega
        · have h0 := (stabValue_eq_some.mp hv).1
          have hbelow := hflanks.below l v h0 (by omega) hv
          exact absurd (habove l v h0 (by omega) hv) (not_lt.mpr hbelow.le)
      rw [hzero] at hregion
      exact ⟨s.right, hregion⟩

end

/-! ### Walking down -/

/-- An index inside the table can be read. -/
theorem fetch_eq {α : Type} {outside : ℤ → LookupFault} {table : List α} {i : ℤ} {a : α}
    (h0 : 0 ≤ i) (h : table[i.toNat]? = some a) : fetch outside table i = .ok a := by
  rw [fetch, if_pos h0, h]

/-- **Walking down** to the last entry that is not skipped. -/
theorem walkDown_finds {stabs : List Stab} {floor m k : ℤ} {skip : Stab → Bool}
    (hfloor : 0 ≤ floor) (hm : m < stabs.length)
    (hk : IsGreatest {i | floor ≤ i ∧ i ≤ m ∧ ∃ stab, stabs[i.toNat]? = some stab ∧ ¬ skip stab}
      k) : Converges k fun fuel => walkDown fuel stabs floor skip m := by
  obtain ⟨⟨hfk, hkm, stab, hstab, hkeep⟩, hgreatest⟩ := hk
  refine ⟨stabs.length + 1, fun fuel hfuel => ?_⟩
  obtain ⟨m', hwalk, hle, -, hpassed, hmet⟩ := walkDown_returns skip hfloor hm hfuel
  have hge : k ≤ m' := by
    by_contra hlt
    obtain ⟨stab', hstab', hskip⟩ := hpassed k (by omega) hkm
    obtain rfl : stab = stab' := Option.some.inj (hstab.symm.trans hstab')
    exact hkeep hskip
  have hle' : m' ≤ k := hgreatest ⟨by omega, hle, hmet (by omega)⟩
  rwa [le_antisymm hge hle']

/-- The parameters that directly follow an entry. -/
def params (stabs : List Stab) (i : ℤ) : ℕ :=
  ((stabs.drop (i + 1).toNat).takeWhile fun stab => stab.nType = nPSYM).length

/-- The entry at an index, and what comes behind it. -/
theorem exists_entry {stabs : List Stab} {i : ℤ} (h0 : 0 ≤ i) (hi : i < stabs.length) :
    ∃ stab, stabs[i.toNat]? = some stab ∧
      stabs.drop i.toNat = stab :: stabs.drop (i + 1).toNat := by
  have hin : i.toNat < stabs.length := by omega
  have hnext : (i + 1).toNat = i.toNat + 1 := by omega
  rw [hnext]
  exact ⟨stabs[i.toNat], List.getElem?_eq_getElem hin, List.drop_eq_getElem_cons hin⟩

/-- The loop that counts them. Induction on how many there are. -/
theorem narg_loops {stabs : List Stab} {rfun : ℤ} (hr : rfun < stabs.length) {run : ℕ} {i : ℤ}
    (h0 : 0 ≤ i)
    (hrun : ((stabs.drop i.toNat).takeWhile fun stab => stab.nType = nPSYM).length = run)
    (hroom : i + run ≤ rfun) (n : ℤ) :
    Loops .fuel (fun _ => nargRound stabs rfun) (i, n) (n + run) := by
  induction run generalizing i n with
  | zero =>
      refine Loops.leave ?_
      rw [Nat.cast_zero, add_zero]
      by_cases hlt : i < rfun
      · obtain ⟨stab, hstab, hdrop⟩ := exists_entry h0 (hlt.trans hr)
        have htype : ¬ stab.nType = nPSYM := by
          intro htype
          rw [hdrop, List.takeWhile_cons, if_pos (decide_eq_true htype)] at hrun
          cases hrun
        have hround : nargRound stabs rfun (i, n) = .ok (.leave n) := by
          rw [nargRound, if_pos hlt, fetch_eq h0 hstab, ok_bind, if_neg htype]
          rfl
        rw [hround]
        exact converges_ok _
      · rw [nargRound, if_neg hlt]
        exact converges_ok _
  | succ run ih =>
      obtain ⟨stab, hstab, hdrop⟩ := exists_entry h0 (show i < stabs.length by omega)
      have htype : stab.nType = nPSYM := by
        by_contra htype
        rw [hdrop, List.takeWhile_cons, if_neg (by simpa using htype)] at hrun
        cases hrun
      have hrest : ((stabs.drop (i + 1).toNat).takeWhile fun stab =>
          stab.nType = nPSYM).length = run := by
        rw [hdrop, List.takeWhile_cons, if_pos (decide_eq_true htype), List.length_cons] at hrun
        exact Nat.succ.inj hrun
      have hround : nargRound stabs rfun (i, n) = .ok (.next (i + 1, n + 1)) := by
        rw [nargRound, if_pos (by omega), fetch_eq h0 hstab, ok_bind, if_pos htype]
        rfl
      have hconv : Converges (.next (i + 1, n + 1)) fun _ : ℕ => nargRound stabs rfun (i, n) := by
        rw [hround]
        exact converges_ok _
      have hcount : n + 1 + (run : ℤ) = n + ((run + 1 : ℕ) : ℤ) := by
        push_cast
        ring
      rw [← hcount]
      exact .next hconv (ih (by omega) hrest (by push_cast at hroom ⊢; omega) (n + 1))

/-- They end before an entry of another type. -/
theorem params_lt {stabs : List Stab} {i j : ℤ} (h0 : 0 ≤ i) (hij : i < j) {stab : Stab}
    (hstab : stabs[j.toNat]? = some stab) (htype : stab.nType ≠ nPSYM) :
    i + params stabs i < j := by
  by_contra hge
  set run := (stabs.drop (i + 1).toNat).takeWhile fun stab => stab.nType = nPSYM with hrun
  have hin : j.toNat - (i + 1).toNat < run.length := by
    rw [params, ← hrun] at hge
    omega
  obtain ⟨rest, hrest⟩ : run <+: stabs.drop (i + 1).toNat := List.takeWhile_prefix _
  have hget : stabs[j.toNat]? = some run[j.toNat - (i + 1).toNat] := by
    rw [← List.getElem?_eq_getElem hin, ← List.getElem?_append_left hin, hrest, List.getElem?_drop]
    congr 1
    omega
  have hmem : stab ∈ run := Option.some.inj (hget.symm.trans hstab) ▸ List.getElem_mem hin
  rw [hrun] at hmem
  have hrunType := List.mem_takeWhile_imp hmem
  exact htype (of_decide_eq_true hrunType)

/-- **The parameters are counted**, if the function goes on behind them. -/
theorem fnNarg_finds {stabs : List Stab} {lfun rfun : ℤ} (h0 : 0 ≤ lfun)
    (hr : rfun < stabs.length) (hroom : lfun + params stabs lfun < rfun) (info : Eipdebuginfo) :
    Converges { info with eipFnNarg := info.eipFnNarg + params stabs lfun }
      fun fuel => fnNarg fuel stabs lfun rfun info := by
  have hrun : ((stabs.drop (lfun + 1).toNat).takeWhile fun stab => stab.nType = nPSYM).length =
      params stabs lfun := rfl
  have hloop := narg_loops hr (show 0 ≤ lfun + 1 by omega) hrun (by omega) info.eipFnNarg
  simp only [fnNarg, if_pos (show lfun < rfun by omega)]
  exact hloop.converges.bind (converges_ok _)

/-! ### Places -/

/-- A table in order, behind its header. -/
structure InOrder (stabs : List Stab) : Prop where
  header : ∀ stab, stabs[0]? = some stab → stab.nType = 0
  files : Ascending (stabValue stabs nSO) 0 (stabs.length - 1)
  functions : Ascending (stabValue stabs nFUN) 0 (stabs.length - 1)
  /-- the lines of one function, or of one file without functions -/
  lines : ∀ l r, Free (stabValue stabs nSO) (l + 1) r → Free (stabValue stabs nFUN) (l + 1) r →
    Ascending (stabValue stabs nSLINE) l r

/-- The entry names the source file of the lines behind it: that of a file with an address, or
an included one. -/
def Stab.NamesSource (stab : Stab) : Prop :=
  stab.nType = nSOL ∨ stab.nType = nSO ∧ stab.nValue ≠ 0

instance decidableNamesSource : DecidablePred Stab.NamesSource :=
  fun stab => inferInstanceAs (Decidable (stab.nType = nSOL ∨ stab.nType = nSO ∧ stab.nValue ≠ 0))

/-- Where an address is in the table: where the entries of its file, its function and its line
begin and end, the entry that names the source file, and the entries themselves. -/
structure Place where
  lfile : ℤ
  rfile : ℤ
  lfun : ℤ
  rfun : ℤ
  lline : ℤ
  rline : ℤ
  lsrc : ℤ
  fn : Stab
  line : Stab
  src : Stab

/-- The place is that of the address: each entry is the last one of its type that does not lie
above the address, in what is left to look at. -/
structure Place.Of (stabs : List Stab) (addr : Addr) (p : Place) : Prop where
  file : Brackets (stabValue stabs nSO) 0 (stabs.length - 1) addr.toNat (p.lfile, p.rfile)
  function : Brackets (stabValue stabs nFUN) p.lfile p.rfile addr.toNat (p.lfun, p.rfun)
  fn : stabs[p.lfun.toNat]? = some p.fn
  offset : Brackets (stabValue stabs nSLINE) p.lfun p.rfun (addr - p.fn.nValue).toNat
    (p.lline, p.rline)
  line : stabs[p.lline.toNat]? = some p.line
  source : IsGreatest {i | p.lfile ≤ i ∧ i ≤ p.lline ∧
    ∃ stab, stabs[i.toNat]? = some stab ∧ stab.NamesSource} p.lsrc
  src : stabs[p.lsrc.toNat]? = some p.src

/-- The searches for the place do not go astray. -/
structure Place.Clear (stabs : List Stab) (addr : Addr) (p : Place) : Prop where
  file : Spaced (stabValue stabs nSO) 0 (stabs.length - 1) addr.toNat
  function : Spaced (stabValue stabs nFUN) p.lfile p.rfile addr.toNat
  line : Spaced (stabValue stabs nSLINE) p.lfun p.rfun (addr - p.fn.nValue).toNat

/-- The characters of a string. -/
def stringText (bytes : List Byte) : List Byte :=
  bytes.takeWhile (· ≠ 0)

/-- The name in a string: it ends at a colon, or where the string does. -/
def nameText (bytes : List Byte) : List Byte :=
  (stringText bytes).takeWhile (· ≠ chr ':')

/-- What the lookup is to say of a place. -/
def Place.info (stabs : List Stab) (stabstr : List Byte) (p : Place) : Eipdebuginfo where
  eipFile := stabText stabstr p.src .unknown
  eipLine := p.line.nDesc.toNat
  eipFnName := stabText stabstr p.fn .unknown
  eipFnNamelen := (nameText ((stabText stabstr p.fn .unknown).bytes stabstr)).length
  eipFnAddr := p.fn.nValue
  eipFnNarg := params stabs p.lfun

/-- The name ends where `strfind` comes to. -/
theorem strfind_colon {bytes : List Byte} (h : 0 ∈ bytes) :
    strfind bytes (chr ':') = some (nameText bytes).length := by
  induction bytes with
  | nil => cases h
  | cons b bytes ih =>
      rw [strfind, nameText, stringText, List.takeWhile_cons]
      by_cases hb : b = 0
      · simp [hb]
      rw [if_neg hb, if_pos (decide_eq_true hb), List.takeWhile_cons]
      by_cases hcolon : b = chr ':'
      · simp [hcolon]
      · rw [if_neg hcolon, ih ((List.mem_cons.mp h).resolve_left (Ne.symm hb)),
          if_pos (decide_eq_true hcolon)]
        rfl

/-- The name of a function is found in a string table that ends in a NUL. -/
theorem fnNamelen_eq {stabstr : List Byte} (hlast : stabstr.getLast? = some 0)
    {info : Eipdebuginfo} (hname : info.eipFnName.Inside stabstr) :
    fnNamelen stabstr info =
      .ok { info with eipFnNamelen := (nameText (info.eipFnName.bytes stabstr)).length } := by
  rw [fnNamelen, strfind_colon (hname.nul hlast)]

/-- **The source file** is the nearest one that is named. -/
theorem fileInfo_finds {stabs : List Stab} {stabstr : List Byte} {lfile lline lsrc : ℤ} {src : Stab}
    (hlfile : 0 ≤ lfile) (hlline : lline < stabs.length)
    (hsource : IsGreatest {i | lfile ≤ i ∧ i ≤ lline ∧
      ∃ stab, stabs[i.toNat]? = some stab ∧ stab.NamesSource} lsrc)
    (hsrc : stabs[lsrc.toNat]? = some src) (info : Eipdebuginfo) :
    Converges { info with eipFile := stabText stabstr src info.eipFile }
      fun fuel => fileInfo fuel stabs stabstr lfile lline info := by
  have hskip : ∀ stab : Stab, ¬ (decide (stab.nType ≠ nSOL ∧
      (stab.nType ≠ nSO ∨ stab.nValue = 0)) = true) ↔ stab.NamesSource := by
    intro stab
    rw [decide_eq_true_iff, Stab.NamesSource]
    tauto
  have hle : lfile ≤ lsrc := hsource.1.1
  simp only [← hskip] at hsource
  have hwalk := walkDown_finds hlfile hlline hsource
  refine hwalk.bind ?_
  simp only [if_pos hle, fetch_eq (hlfile.trans hle) hsrc, ok_bind]
  exact converges_ok _

/-! ### The lookup -/

section

variable {stabs : List Stab} {stabstr : List Byte} {addr : Addr}

/-- The entry at the head of a region. -/
theorem Brackets.entry {type : Byte} {left right : ℤ} {a : ℕ} {region : ℤ × ℤ}
    (h : Brackets (stabValue stabs type) left right a region) :
    0 ≤ region.1 ∧ ∃ stab, stabs[region.1.toNat]? = some stab ∧ stab.nType = type := by
  obtain ⟨-, -, v, hv, -⟩ := h.1.1
  obtain ⟨h0, stab, hstab, htype, -⟩ := stabValue_eq_some.mp hv
  exact ⟨h0, stab, hstab, htype⟩

/-- No region begins with the header. -/
theorem Brackets.pos (ho : InOrder stabs) {type : Byte} (htype : type ≠ 0) {left right : ℤ} {a : ℕ}
    {region : ℤ × ℤ} (h : Brackets (stabValue stabs type) left right a region) :
    0 < region.1 := by
  obtain ⟨h0, stab, hstab, rfl⟩ := h.entry
  rcases eq_or_lt_of_le h0 with hzero | hpos
  · rw [← hzero] at hstab
    exact absurd (ho.header stab hstab) htype
  · exact hpos

/-- The part of `debuginfo_eip` that looks for the line, in the region that `s` ends with. -/
def lineLookup (fuel : ℕ) (stabs : List Stab) (stabstr : List Byte) (lfile lfun rfun : ℤ)
    (s : Eipdebuginfo × Addr × ℤ × ℤ) : Except LookupFault (ℤ × Eipdebuginfo) := do
  let info ← fnNamelen stabstr s.1
  let (lline, rline) ← stabBinsearch fuel stabs s.2.2.1 s.2.2.2 nSLINE s.2.1
  if lline > rline then pure (-1, info)
  else
    let stab ← fetch .stab stabs lline
    let info := { info with eipLine := stab.nDesc.toNat }
    let info ← fileInfo fuel stabs stabstr lfile lline info
    let info ← fnNarg fuel stabs lfun rfun info
    pure (0, info)

/-- The part that looks for the function, in the region of its file. -/
def functionLookup (fuel : ℕ) (stabs : List Stab) (stabstr : List Byte) (lfile rfile : ℤ)
    (addr : Addr) (info : Eipdebuginfo) : Except LookupFault (ℤ × Eipdebuginfo) := do
  let (lfun, rfun) ← stabBinsearch fuel stabs lfile rfile nFUN addr
  let s ← fnInfo stabs stabstr lfile rfile lfun rfun addr info
  lineLookup fuel stabs stabstr lfile lfun rfun s

/-- What `debuginfo_eip` starts from. -/
def Eipdebuginfo.start (addr : Addr) : Eipdebuginfo where
  eipFile := .unknown
  eipLine := 0
  eipFnName := .unknown
  eipFnNamelen := 9
  eipFnAddr := addr
  eipFnNarg := 0

/-- The lookup, up to the search for the file. -/
theorem debuginfoEip_eq (hlast : stabstr.getLast? = some 0) (haddr : ulim ≤ addr) (fuel : ℕ) :
    debuginfoEip fuel stabs stabstr addr = (do
      let (lfile, rfile) ← stabBinsearch fuel stabs 0 (stabs.length - 1) nSO addr
      if lfile = 0 then pure (-1, .start addr)
      else functionLookup fuel stabs stabstr lfile rfile addr (.start addr)) := by
  have hne : stabstr.length ≠ 0 := by
    rintro h
    rw [List.eq_nil_of_length_eq_zero h] at hlast
    cases hlast
  obtain ⟨last, hfetch, hget⟩ := fetch_last_returns .stabstr hne
  obtain rfl : last = 0 := Option.some.inj (hget.symm.trans hlast)
  rw [debuginfoEip, if_neg (BitVec.not_lt.mpr haddr), if_neg hne, hfetch]
  rfl

/-- **The line is found**, and what belongs to it. -/
theorem lineLookup_finds (hlast : stabstr.getLast? = some 0) {lfile lfun rfun : ℤ}
    {s : Eipdebuginfo × Addr × ℤ × ℤ} (hname : s.1.eipFnName.Inside stabstr)
    (hlfile : 0 ≤ lfile) (hleft : lfile ≤ s.2.2.1) (hright : s.2.2.2 < stabs.length)
    (hasc : Ascending (stabValue stabs nSLINE) s.2.2.1 s.2.2.2)
    (hspaced : Spaced (stabValue stabs nSLINE) s.2.2.1 s.2.2.2 s.2.1.toNat) {lline rline : ℤ}
    (hline : Brackets (stabValue stabs nSLINE) s.2.2.1 s.2.2.2 s.2.1.toNat (lline, rline))
    {line : Stab} (hstab : stabs[lline.toNat]? = some line) {lsrc : ℤ} {src : Stab}
    (hsource : IsGreatest {i | lfile ≤ i ∧ i ≤ lline ∧
      ∃ stab, stabs[i.toNat]? = some stab ∧ stab.NamesSource} lsrc)
    (hsrc : stabs[lsrc.toNat]? = some src) {narg : ℤ}
    (hnarg : ∀ info : Eipdebuginfo, Converges { info with eipFnNarg := info.eipFnNarg + narg }
      fun fuel => fnNarg fuel stabs lfun rfun info) :
    Converges (0, { s.1 with
        eipFile := stabText stabstr src s.1.eipFile
        eipLine := line.nDesc.toNat
        eipFnNamelen := (nameText (s.1.eipFnName.bytes stabstr)).length
        eipFnNarg := s.1.eipFnNarg + narg })
      fun fuel => lineLookup fuel stabs stabstr lfile lfun rfun s := by
  obtain ⟨hl, hlr, hr⟩ := hline.inside hasc
  dsimp only at hl hlr hr
  have hsearch := search_finds (hlfile.trans hleft) hright hasc hspaced hline
  simp only [lineLookup, fnNamelen_eq hlast hname, ok_bind]
  refine hsearch.bind ?_
  simp only [if_neg (not_lt.mpr hlr), fetch_eq (hlfile.trans (hleft.trans hl)) hstab, ok_bind]
  exact (fileInfo_finds hlfile (by omega) hsource hsrc _).bind
    ((hnarg _).bind (converges_ok _))

section

variable (ho : InOrder stabs) (hlast : stabstr.getLast? = some 0) (haddr : ulim ≤ addr)
include ho hlast haddr

/-- **The lookup finds the place** of an address in a function: the source file, the line, the
name of the function up to its colon, its address, and the number of its parameters. -/
theorem debuginfoEip_finds {p : Place} (hp : p.Of stabs addr) (hclear : p.Clear stabs addr) :
    Converges (0, p.info stabs stabstr) fun fuel => debuginfoEip fuel stabs stabstr addr := by
  have hend : (stabs.length : ℤ) - 1 < stabs.length := by omega
  have hlfile : 0 < p.lfile := hp.file.pos ho (by decide)
  obtain ⟨-, hfile, hrfile⟩ := hp.file.inside ho.files
  have hfunAsc := ho.functions.mono hlfile.le hrfile
  obtain ⟨hlfun, hfun, hrfun⟩ := hp.function.inside hfunAsc
  dsimp only at hfile hrfile hlfun hfun hrfun
  have hlineAsc : Ascending (stabValue stabs nSLINE) p.lfun p.rfun :=
    ho.lines _ _ ((hp.file.free ho.files).mono (by dsimp only; omega) hrfun)
      (hp.function.free hfunAsc)
  -- the line comes behind the parameters
  have hroom : p.lfun + params stabs p.lfun < p.rfun := by
    obtain ⟨hl, hlr, hr⟩ := hp.offset.inside hlineAsc
    obtain ⟨-, line, hline, hsline⟩ := hp.offset.entry
    obtain ⟨h0, fn, hfn, hnfun⟩ := hp.function.entry
    dsimp only at hl hlr hr hline h0 hfn
    have hne : p.lfun ≠ p.lline := by
      intro heq
      obtain rfl : fn = line := by
        rw [heq, hline] at hfn
        exact (Option.some.inj hfn).symm
      rw [hsline] at hnfun
      exact absurd hnfun (by decide)
    have hlt := params_lt h0 (lt_of_le_of_ne hl hne) hline (by rw [hsline]; decide)
    omega
  have hline := lineLookup_finds (s := (⟨.unknown, 0, stabText stabstr p.fn .unknown, 9,
      p.fn.nValue, 0⟩, addr - p.fn.nValue, p.lfun, p.rfun)) hlast (stabText_inside p.fn trivial)
    hlfile.le hlfun (show p.rfun < stabs.length by omega) hlineAsc hclear.line hp.offset hp.line
    hp.source hp.src (fnNarg_finds (hlfile.le.trans hlfun) (by omega) hroom)
  simp only [debuginfoEip_eq hlast haddr]
  refine (search_finds (le_refl 0) hend ho.files hclear.file hp.file).bind ?_
  simp only [if_neg hlfile.ne', functionLookup]
  refine (search_finds hlfile.le (by omega) hfunAsc hclear.function hp.function).bind ?_
  simp only [fnInfo, if_pos hfun, fetch_eq (hlfile.le.trans hlfun) hp.fn, ok_bind]
  simp only [zero_add] at hline
  exact hline

end

/-- The table of a file with one function, of one parameter and two lines. -/
def oneFunction : List Stab :=
  [⟨1, 0, 5, 0⟩, ⟨1, nSO, 0, 0xF0100000⟩, ⟨5, nFUN, 0, 0xF0100010⟩, ⟨9, nPSYM, 0, 8⟩,
    ⟨0, nSLINE, 3, 0⟩, ⟨0, nSLINE, 4, 6⟩]

theorem oneFunction_inOrder : InOrder oneFunction where
  header := by
    rintro stab hstab
    cases hstab
    rfl
  files := ascending_of_pairwise (by decide)
  functions := ascending_of_pairwise (by decide)
  lines := fun _ _ _ _ => ascending_of_pairwise (by decide)

/-- The place of an address in its first line. -/
def firstLine : Place where
  lfile := 1
  rfile := 5
  lfun := 2
  rfun := 5
  lline := 4
  rline := 4
  lsrc := 1
  fn := ⟨5, nFUN, 0, 0xF0100010⟩
  line := ⟨0, nSLINE, 3, 0⟩
  src := ⟨1, nSO, 0, 0xF0100000⟩

theorem firstLine_of : firstLine.Of oneFunction 0xF0100014 where
  file := by decide
  function := by decide
  fn := rfl
  offset := by decide
  line := rfl
  source := by decide
  src := rfl

theorem firstLine_clear : firstLine.Clear oneFunction 0xF0100014 where
  file := Or.inl (by decide)
  function := Or.inl (by decide)
  line := Or.inl (by decide)

/-- An address in its first line. -/
theorem debuginfoEip_finds_one : Converges
    (0, ({ eipFile := .stabstr 1, eipLine := 3, eipFnName := .stabstr 5, eipFnNamelen := 1,
           eipFnAddr := 0xF0100010, eipFnNarg := 1 } : Eipdebuginfo))
    fun fuel => debuginfoEip fuel oneFunction (0 :: cstr "a.c" ++ cstr "f:F") 0xF0100014 :=
  debuginfoEip_finds oneFunction_inOrder (by decide) (by decide) firstLine_of firstLine_clear

section

variable (ho : InOrder stabs) (hlast : stabstr.getLast? = some 0) (haddr : ulim ≤ addr)
include ho hlast haddr

/-- **In a file without functions**, as the assembler leaves it, the line is found by its address,
and the rest is left as it was. -/
theorem debuginfoEip_assembly {lfile rfile lline rline lsrc : ℤ} {line src : Stab}
    (hfile : Brackets (stabValue stabs nSO) 0 (stabs.length - 1) addr.toNat (lfile, rfile))
    (hfileSpaced : Spaced (stabValue stabs nSO) 0 (stabs.length - 1) addr.toNat)
    (hnone : Free (stabValue stabs nFUN) lfile rfile)
    (hline : Brackets (stabValue stabs nSLINE) lfile rfile addr.toNat (lline, rline))
    (hlineSpaced : Spaced (stabValue stabs nSLINE) lfile rfile addr.toNat)
    (hstab : stabs[lline.toNat]? = some line)
    (hsource : IsGreatest {i | lfile ≤ i ∧ i ≤ lline ∧
      ∃ stab, stabs[i.toNat]? = some stab ∧ stab.NamesSource} lsrc)
    (hsrc : stabs[lsrc.toNat]? = some src) :
    Converges (0, { Eipdebuginfo.start addr with
        eipFile := stabText stabstr src .unknown
        eipLine := line.nDesc.toNat })
      fun fuel => debuginfoEip fuel stabs stabstr addr := by
  have hend : (stabs.length : ℤ) - 1 < stabs.length := by omega
  have hlfile : 0 < lfile := hfile.pos ho (by decide)
  obtain ⟨-, hle, hrfile⟩ := hfile.inside ho.files
  dsimp only at hle hrfile
  have hright : rfile < stabs.length := by omega
  have habsent : ∀ i v, lfile ≤ i → i ≤ rfile → stabValue stabs nFUN i = some v → addr.toNat < v :=
    fun i v hi hi' hv => absurd hv (hnone.not_key hi hi')
  obtain ⟨⟨lfun, rfun⟩, hsearch, hempty⟩ := stabBinsearch_absent_iff hlfile.le hright
    (ho.functions.mono hlfile.le hrfile) habsent
  have hlt : rfun < lfun := hempty.mpr hnone
  have hnarg : ∀ info : Eipdebuginfo, Converges { info with eipFnNarg := info.eipFnNarg + 0 }
      fun fuel => fnNarg fuel stabs lfun rfun info := by
    intro info
    simp only [fnNarg, if_neg (not_lt.mpr hlt.le), add_zero]
    exact converges_ok _
  have hlineAsc : Ascending (stabValue stabs nSLINE) lfile rfile :=
    ho.lines _ _ (hfile.free ho.files) (hnone.mono (Int.le_add_one (le_refl lfile)) (le_refl rfile))
  have hfound := lineLookup_finds (s := (.start addr, addr, lfile, rfile)) hlast trivial hlfile.le
    (le_refl lfile) hright hlineAsc hlineSpaced hline hstab hsource hsrc hnarg
  simp only [debuginfoEip_eq hlast haddr]
  refine (search_finds (le_refl 0) hend ho.files hfileSpaced hfile).bind ?_
  simp only [if_neg hlfile.ne', functionLookup]
  refine hsearch.bind ?_
  simp only [fnInfo, if_neg (not_le.mpr hlt), ok_bind]
  simp only [add_zero] at hfound
  exact hfound

end

/-- The table of a file of the assembler. -/
def noFunction : List Stab :=
  [⟨1, 0, 3, 0⟩, ⟨1, nSO, 0, 0xF0100000⟩, ⟨0, nSLINE, 3, 0xF0100000⟩, ⟨0, nSLINE, 4, 0xF0100006⟩]

theorem noFunction_inOrder : InOrder noFunction where
  header := by
    rintro stab hstab
    cases hstab
    rfl
  files := ascending_of_pairwise (by decide)
  functions := ascending_of_pairwise (by decide)
  lines := fun _ _ _ _ => ascending_of_pairwise (by decide)

/-- An address in its first line. -/
theorem debuginfoEip_assembly_one : Converges
    (0, { Eipdebuginfo.start 0xF0100002 with eipFile := .stabstr 1, eipLine := 3 })
    fun fuel => debuginfoEip fuel noFunction (0 :: cstr "a.S") 0xF0100002 := by
  have hlast : (0 :: cstr "a.S").getLast? = some 0 := by decide
  have haddr : ulim ≤ (0xF0100002 : Addr) := by decide
  have hfile : Brackets (stabValue noFunction nSO) 0 (noFunction.length - 1)
      (0xF0100002 : Addr).toNat (1, 3) := by decide
  have hnone : ∀ i, 1 ≤ i → i ≤ 3 → stabValue noFunction nFUN i = none := by decide
  have hline : Brackets (stabValue noFunction nSLINE) 1 3 (0xF0100002 : Addr).toNat (2, 2) := by
    decide
  have hsource : IsGreatest {i : ℤ | 1 ≤ i ∧ i ≤ 2 ∧
      ∃ stab, noFunction[i.toNat]? = some stab ∧ stab.NamesSource} 1 := by decide
  exact debuginfoEip_assembly noFunction_inOrder hlast haddr hfile (Or.inl (by decide)) hnone hline
    (Or.inl (by decide)) rfl hsource rfl

section

variable (ho : InOrder stabs) (hlast : stabstr.getLast? = some 0) (haddr : ulim ≤ addr)
include ho hlast haddr

/-- **Below all files** the lookup fails, and says nothing of the address. -/
theorem debuginfoEip_below
    (habove : ∀ i v, stabValue stabs nSO i = some v → addr.toNat < v) :
    Converges (-1, .start addr) fun fuel => debuginfoEip fuel stabs stabstr addr := by
  have hhead : stabValue stabs nSO 0 = none := by
    cases hv : stabValue stabs nSO 0 with
    | none => rfl
    | some v =>
        obtain ⟨-, stab, hstab, htype, -⟩ := stabValue_eq_some.mp hv
        rw [ho.header stab hstab] at htype
        exact absurd htype (by decide)
  obtain ⟨r, hsearch⟩ := search_none hhead (show (stabs.length : ℤ) - 1 < stabs.length by omega)
    (by omega) ho.files fun i v _ _ hv => habove i v hv
  simp only [debuginfoEip_eq hlast haddr]
  refine hsearch.bind ?_
  simp only [if_pos]
  exact converges_ok _

end

/-- An address in the file before that of `oneFunction`, which was compiled without stabs. -/
theorem debuginfoEip_below_one : Converges (-1, .start 0xF00FFFF0)
    fun fuel => debuginfoEip fuel oneFunction (0 :: cstr "a.c" ++ cstr "f:F") 0xF00FFFF0 := by
  refine debuginfoEip_below oneFunction_inOrder (by decide) (by decide) fun i v hv => ?_
  have hfiles : ∀ i, 0 ≤ i → i ≤ 5 → ∀ v ∈ stabValue oneFunction nSO i,
      (0xF00FFFF0 : Addr).toNat < v := by
    decide
  obtain ⟨h0, stab, hstab, -⟩ := stabValue_eq_some.mp hv
  have hlen : i.toNat < 6 := (List.getElem?_eq_some_iff.mp hstab).1
  exact hfiles i h0 (by omega) v hv

end

/-! ### The backtrace -/

/-- A string ends with a NUL. -/
theorem exists_stringText {bytes : List Byte} (h : 0 ∈ bytes) :
    0 ∉ stringText bytes ∧ ∃ rest, bytes = stringText bytes ++ 0 :: rest := by
  obtain ⟨t, rest, rfl, ht⟩ := List.eq_append_cons_of_mem h
  have hne : ∀ b ∈ t, decide (b ≠ 0) = true := fun b hb =>
    decide_eq_true fun heq => ht (heq ▸ hb)
  have htext : stringText (t ++ 0 :: rest) = t := by
    rw [stringText, List.takeWhile_append_of_pos hne, List.takeWhile_cons_of_neg (by decide),
      List.append_nil]
  rw [htext]
  exact ⟨ht, rest, rfl⟩

/-- **The first characters of a string**, as many as the precision says. -/
theorem prints_prefix {t : List Byte} (ht : 0 ∉ t) (rest : List Byte) {n : ℕ} (hn : n ≤ t.length)
    (hlt : n < 2 ^ 31) :
    Prints ("%.*s".toList.map chr) [.word (BitVec.ofNat 32 n), .str (t ++ 0 :: rest)]
      (charText (t.take n)) := by
  set o := (Directive.mk .plain .none (some (BitVec.ofNat 32 n)) 0).opts
  have hprecision : o.precision = BitVec.ofNat 32 n := rfl
  have htaken : taken o.precision t = t.take n := by
    rw [hprecision, taken, toInt_ofNat_of_lt hlt, if_neg (by omega), Int.toNat_natCast]
  have hblanks : (0 - BitVec.ofNat 32 n : BitVec 32).toInt.toNat = 0 := by
    rw [sub_ofNat (show (0 : BitVec 32) = BitVec.ofInt 32 0 from rfl) n,
      (toNat_toInt_ofInt_iff (by omega)).mpr fun h => by omega]
    omega
  have hwidth : o.width = 0 := rfl
  have hpad : padBefore (fun c out => out ++ [c]) o (t ++ 0 :: rest) [] =
      .ok ((List.replicate 0 (chr ' ')).map (·.signExtend 32), 0) :=
    if_neg fun h => by
      rw [hwidth] at h
      exact absurd h.1 (by decide)
  have hshown : shown o.altflag (t.take n) = t.take n := shown_false _
  have hconv : convert (fun c out => out ++ [c]) (printfmt fun c out => out ++ [c]) o (chr 's')
      [.str (t ++ 0 :: rest)] [] = some (.ok (charText (t.take n), [])) := by
    rw [convert_s, vaStr, ok_bind, Option.getD_some, formatStr_text ht rest hpad, htaken, hshown,
      List.length_take_of_le hn, hblanks, List.replicate_zero, List.append_nil]
    rfl
  exact ⟨by decide, by decide, output_directive (Directive.mk .plain .none
    (some (BitVec.ofNat 32 n)) 0) (by decide) hconv⟩

/-- The line that is printed for a place. -/
def Place.text (stabstr : List Byte) (eip : Addr) (p : Place) : List (BitVec 32) :=
  printedText "         " ++
    (charText (stringText ((stabText stabstr p.src .unknown).bytes stabstr)) ++
      (printedText ":" ++ (charText (signedText p.line.nDesc.toNat) ++ (printedText ": " ++
        (charText (nameText ((stabText stabstr p.fn .unknown).bytes stabstr)) ++
          (printedText "+" ++ (charText (signedText (eip - p.fn.nValue).toInt) ++
            printedText "\n")))))))

section

variable {stabs : List Stab} {stabstr : List Byte} (hlast : stabstr.getLast? = some 0)
  (hlen : stabstr.length < 2 ^ 31)
include hlast hlen

/-- The string that an entry names. -/
theorem exists_stabText (stab : Stab) : ∃ t rest,
    (stabText stabstr stab .unknown).bytes stabstr = t ++ 0 :: rest ∧ 0 ∉ t ∧ t.length < 2 ^ 31 ∧
      stringText ((stabText stabstr stab .unknown).bytes stabstr) = t := by
  have hinside : (stabText stabstr stab .unknown).Inside stabstr := stabText_inside stab trivial
  obtain ⟨hzero, rest, hrest⟩ := exists_stringText (hinside.nul hlast)
  refine ⟨_, rest, hrest, hzero, (List.takeWhile_sublist _).length_le.trans_lt ?_, rfl⟩
  rw [stabText]
  split
  · rw [Text.bytes, List.length_drop]
    omega
  · rw [Text.bytes]
    decide

/-- **The line for a place.** -/
theorem prints_place_info (eip : Addr) (p : Place) :
    Prints ("         %s:%d: %.*s+%d\n".toList.map chr)
      (infoArgs stabstr eip (p.info stabs stabstr)) (p.text stabstr eip) := by
  obtain ⟨file, restFile, hfile, hzeroFile, hlenFile, hfileText⟩ :=
    exists_stabText hlast hlen p.src
  obtain ⟨name, restName, hname, hzeroName, hlenName, hnameText⟩ :=
    exists_stabText hlast hlen p.fn
  have hpre : nameText ((stabText stabstr p.fn .unknown).bytes stabstr) <+: name := by
    rw [nameText, hnameText]
    exact List.takeWhile_prefix _
  have hprintsFile := prints_str hzeroFile hlenFile restFile
  have hprintsName := prints_prefix hzeroName restName hpre.length_le
    (hpre.length_le.trans_lt hlenName)
  rw [← hfile, ← hfileText] at hprintsFile
  rw [← hname, ← List.prefix_iff_eq_take.mp hpre] at hprintsName
  have hprintsLine := prints_decimal (BitVec.ofInt 32 p.line.nDesc.toNat)
  have hdesc := p.line.nDesc.isLt
  rw [BitVec.toInt_ofInt, Int.bmod_eq_of_le (by omega) (by omega)] at hprintsLine
  exact (prints_text (s := "         ") rfl).append <| hprintsFile.append <|
    (prints_text (s := ":") rfl).append <| hprintsLine.append <|
    (prints_text (s := ": ") rfl).append <| hprintsName.append <|
    (prints_text (s := "+") rfl).append <| (prints_decimal (eip - p.fn.nValue)).append <|
    prints_text (s := "\n") rfl

end

section

variable {i : Image} (ho : InOrder i.stabs) (hlast : i.stabstr.getLast? = some 0)
  (hlen : i.stabstr.length < 2 ^ 31)
include ho hlast hlen

/-- What the backtrace says of an address in a function. -/
theorem infoText_finds {eip : Addr} (heip : ulim ≤ eip) {p : Place} (hp : p.Of i.stabs eip)
    (hclear : p.Clear i.stabs eip) :
    ∃ n, ∀ fuel, n ≤ fuel → i.infoText fuel eip = p.text i.stabstr eip := by
  obtain ⟨n, hfound⟩ := debuginfoEip_finds ho hlast heip hp hclear
  refine ⟨n, fun fuel hfuel => ?_⟩
  have hlookup : debuginfoEip fuel i.stabs i.stabstr eip = .ok (0, p.info i.stabs i.stabstr) :=
    hfound fuel hfuel
  have hout : output infoFmt (infoArgs i.stabstr eip (p.info i.stabs i.stabstr)) =
      .ok (p.text i.stabstr eip, []) := (prints_place_info hlast hlen eip p).output
  rw [Image.infoText, Image.debuginfo, hlookup]
  simp only [hout]

end

/-- The kernel as it stands, with that table, and `i386_init` returns to the first line of the
function. -/
def linedImage : Image :=
  { bareImage with
    stabs := oneFunction
    stabstr := 0 :: cstr "a.c" ++ cstr "f:F"
    header := oneFunction_inOrder.header
    entryRet := 0xF0100014
    ulim_le := by decide }

example : firstLine.text linedImage.stabstr 0xF0100014 =
    printedText "         a.c:3: f+4\n" := by
  have hline : signedText firstLine.line.nDesc.toNat = [chr '3'] := by
    change numeralText 10 3 = _
    rw [numeralText, numeral_of_lt (by decide)]
    rfl
  have hoffset : signedText ((0xF0100014 : Addr) - firstLine.fn.nValue).toInt = [chr '4'] := by
    change numeralText 10 4 = _
    rw [numeralText, numeral_of_lt (by decide)]
    rfl
  rw [Place.text, hline, hoffset]
  rfl

end Jos
