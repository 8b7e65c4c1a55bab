import Jos.LibString
import Jos.Loop
import Jos.Printfmt

/-!
# Debug Lookup

`kern/kdebug.c`, over any stab table and any string table. Indices are ints, and a read
outside either table is a fault that names the index; so is a loop that uses up its rounds.
A table that fits into memory has fewer than 2^30 entries, so sums of two indices do not
overflow.

Nothing is assumed of the order of the table. A search may leave its left bound one below
where it started, at an entry of another type; all that keeps it inside the table is that
entry 0 has a type that no search looks for.

## Main results

* `stabBinsearch_returns`: the search ends, and brackets a part of the table or nothing.
* `debuginfoEip_wellFormed`, `debuginfoEip_returns`: the lookup ends without a fault, and what
  it fills in is well formed, whatever it returns.
-/

namespace Jos

/-- What goes wrong in a lookup. -/
inductive LookupFault
  /-- the panic on a user address -/
  | userAddress
  /-- a read outside the stab table -/
  | stab (i : ℤ)
  /-- a read outside the string table -/
  | stabstr (i : ℤ)
  /-- a loop that does not end -/
  | fuel

/-- `struct Stab`. -/
structure Stab where
  nStrx : BitVec 32
  nType : Byte
  nDesc : BitVec 16
  nValue : Addr

/-- `N_FUN`. -/
abbrev nFUN : Byte := 0x24

/-- `N_SLINE`. -/
abbrev nSLINE : Byte := 0x44

/-- `N_SO`. -/
abbrev nSO : Byte := 0x64

/-- `N_SOL`. -/
abbrev nSOL : Byte := 0x84

/-- `N_PSYM`. -/
abbrev nPSYM : Byte := 0xA0

/-- `ULIM`. -/
abbrev ulim : Addr := 0xEF800000

/-- A read of a table at an int. -/
def fetch {α : Type} (outside : ℤ → LookupFault) (table : List α) (i : ℤ) :
    Except LookupFault α :=
  if 0 ≤ i then
    match table[i.toNat]? with
    | some a => .ok a
    | none => .error (outside i)
  else .error (outside i)

/-! ### The search -/

/-- A round of `while (m >= floor && skip(stabs[m])) m--`. -/
def walkRound (stabs : List Stab) (floor : ℤ) (skip : Stab → Bool) (m : ℤ) :
    Except LookupFault (Round ℤ ℤ) :=
  if floor ≤ m then do
    let stab ← fetch .stab stabs m
    if skip stab then pure (.next (m - 1)) else pure (.leave m)
  else .ok (.leave m)

/-- `while (m >= floor && skip(stabs[m])) m--`. -/
def walkDown (fuel : ℕ) (stabs : List Stab) (floor : ℤ) (skip : Stab → Bool) (m : ℤ) :
    Except LookupFault ℤ :=
  loop .fuel (walkRound stabs floor skip) fuel m

/-- The variables of `stab_binsearch`: the region, and what its main loop works on. -/
structure Search where
  left : ℤ
  right : ℤ
  l : ℤ
  r : ℤ
  anyMatches : Bool
  addr : Addr

/-- The actual binary search: what it makes of the entry `m`. -/
def searchAt (stab : Stab) (m trueM : ℤ) (s : Search) : Search :=
  if stab.nValue < s.addr then { s with left := m, l := trueM + 1 }
  else if stab.nValue > s.addr then { s with right := m - 1, r := m - 1 }
  else { s with left := m, l := m, addr := s.addr + 1 }

/-- A round of the main loop of `stab_binsearch`. -/
def searchRound (fuel : ℕ) (stabs : List Stab) (type : Byte) (s : Search) :
    Except LookupFault (Round Search Search) :=
  if s.l ≤ s.r then do
    let trueM := (s.l + s.r).tdiv 2
    -- search for earliest stab with right type
    let m ← walkDown fuel stabs s.l
      (fun stab => stab.nType ≠ type ∨ stab.nType = nFUN ∧ stab.nType = 0) trueM
    if m < s.l then pure (.next { s with l := trueM + 1 })
    else
      let stab ← fetch .stab stabs m
      pure (.next (searchAt stab m trueM { s with anyMatches := true }))
  else .ok (.leave s)

/-- `stab_binsearch`: the region it leaves behind. -/
def stabBinsearch (fuel : ℕ) (stabs : List Stab) (left right : ℤ) (type : Byte) (addr : Addr) :
    Except LookupFault (ℤ × ℤ) := do
  let s ← loop .fuel (searchRound fuel stabs type) fuel
    { left := left, right := right, l := left, r := right, anyMatches := false, addr := addr }
  if s.anyMatches then
    -- find rightmost region containing 'addr'
    let l ← walkDown fuel stabs (s.left + 1) (fun stab => stab.nType ≠ type) s.right
    pure (l, s.right)
  else pure (s.left, s.left - 1)

/-! ### The lookup -/

/-- A pointer to text: to the literal `"<unknown>"`, or into the string table. -/
inductive Text
  | unknown
  | stabstr (off : ℕ)

/-- The bytes that can be read from the pointer on. -/
def Text.bytes (stabstr : List Byte) : Text → List Byte
  | .unknown => cstr "<unknown>"
  | .stabstr off => stabstr.drop off

/-- `struct Eipdebuginfo`. -/
structure Eipdebuginfo where
  eipFile : Text
  eipLine : ℤ
  eipFnName : Text
  eipFnNamelen : ℤ
  eipFnAddr : Addr
  eipFnNarg : ℤ

/-- `stabstr + stab.n_strx`, unless that is outside the string table. -/
def stabText (stabstr : List Byte) (stab : Stab) (text : Text) : Text :=
  if stab.nStrx.toNat < stabstr.length then .stabstr stab.nStrx.toNat else text

/-- The function containing the address: what is known of it, and the address and the region
to search for the line number with. -/
def fnInfo (stabs : List Stab) (stabstr : List Byte) (lfile rfile lfun rfun : ℤ) (addr : Addr)
    (info : Eipdebuginfo) : Except LookupFault (Eipdebuginfo × Addr × ℤ × ℤ) :=
  if lfun ≤ rfun then do
    let stab ← fetch .stab stabs lfun
    let info := { info with
      eipFnName := stabText stabstr stab info.eipFnName
      eipFnAddr := stab.nValue }
    pure (info, addr - info.eipFnAddr, lfun, rfun)
  else
    -- no function stab: search the whole file for the line number
    .ok ({ info with eipFnAddr := addr }, addr, lfile, rfile)

/-- `info->eip_fn_namelen`: ignore stuff after the colon. -/
def fnNamelen (stabstr : List Byte) (info : Eipdebuginfo) : Except LookupFault Eipdebuginfo :=
  match strfind (info.eipFnName.bytes stabstr) (chr ':') with
  | some k => .ok { info with eipFnNamelen := k }
  | none => .error (.stabstr stabstr.length)

/-- The source file of the line number stab: the nearest file stab before it. -/
def fileInfo (fuel : ℕ) (stabs : List Stab) (stabstr : List Byte) (lfile lline : ℤ)
    (info : Eipdebuginfo) : Except LookupFault Eipdebuginfo := do
  let lline ← walkDown fuel stabs lfile
    (fun stab => stab.nType ≠ nSOL ∧ (stab.nType ≠ nSO ∨ stab.nValue = 0)) lline
  if lfile ≤ lline then
    let stab ← fetch .stab stabs lline
    pure { info with eipFile := stabText stabstr stab info.eipFile }
  else pure info

/-- A round of the loop that counts parameters, on `lline` and `eip_fn_narg`. -/
def nargRound (stabs : List Stab) (rfun : ℤ) (s : ℤ × ℤ) :
    Except LookupFault (Round (ℤ × ℤ) ℤ) :=
  if s.1 < rfun then do
    let stab ← fetch .stab stabs s.1
    if stab.nType = nPSYM then pure (.next (s.1 + 1, s.2 + 1)) else pure (.leave s.2)
  else .ok (.leave s.2)

/-- The number of arguments of the function. -/
def fnNarg (fuel : ℕ) (stabs : List Stab) (lfun rfun : ℤ) (info : Eipdebuginfo) :
    Except LookupFault Eipdebuginfo :=
  if lfun < rfun then do
    let narg ← loop .fuel (nargRound stabs rfun) fuel (lfun + 1, info.eipFnNarg)
    pure { info with eipFnNarg := narg }
  else .ok info

/-- `debuginfo_eip`: what it returns and what it leaves in `*info`. -/
def debuginfoEip (fuel : ℕ) (stabs : List Stab) (stabstr : List Byte) (addr : Addr) :
    Except LookupFault (ℤ × Eipdebuginfo) :=
  let info : Eipdebuginfo :=
    { eipFile := .unknown
      eipLine := 0
      eipFnName := .unknown
      eipFnNamelen := 9
      eipFnAddr := addr
      eipFnNarg := 0 }
  if addr < ulim then .error .userAddress
  else if stabstr.length = 0 then .ok (-1, info)
  else do
    let last ← fetch .stabstr stabstr (stabstr.length - 1)
    if last ≠ 0 then pure (-1, info)
    else
      let (lfile, rfile) ← stabBinsearch fuel stabs 0 (stabs.length - 1) nSO addr
      if lfile = 0 then pure (-1, info)
      else
        let (lfun, rfun) ← stabBinsearch fuel stabs lfile rfile nFUN addr
        let (info, addr, lline, rline) ← fnInfo stabs stabstr lfile rfile lfun rfun addr info
        let info ← fnNamelen stabstr info
        let (lline, rline) ← stabBinsearch fuel stabs lline rline nSLINE addr
        if lline > rline then pure (-1, info)
        else
          let stab ← fetch .stab stabs lline
          let info := { info with eipLine := stab.nDesc.toNat }
          let info ← fileInfo fuel stabs stabstr lfile lline info
          let info ← fnNarg fuel stabs lfun rfun info
          pure (0, info)

/-! ### Walking down the table -/

/-- An index inside the table can be read. -/
theorem fetch_returns {α : Type} (outside : ℤ → LookupFault) {table : List α} {i : ℤ}
    (h0 : 0 ≤ i) (hi : i < table.length) :
    Returns (fun a => table[i.toNat]? = some a) (fetch outside table i) := by
  have hlt : i.toNat < table.length := by omega
  have hget : table[i.toNat]? = some table[i.toNat] := List.getElem?_eq_getElem hlt
  rw [fetch, if_pos h0, hget]
  exact returns_ok rfl

/-- So can the last entry of a table that is not empty. -/
theorem fetch_last_returns {α : Type} (outside : ℤ → LookupFault) {table : List α}
    (h : table.length ≠ 0) :
    Returns (fun a => table.getLast? = some a) (fetch outside table (table.length - 1)) := by
  have hlast : (table.length - 1 : ℤ) < table.length := Int.sub_lt_self _ (by decide)
  obtain ⟨a, hfetch, ha⟩ := fetch_returns outside (by omega) hlast
  have hindex : (table.length - 1 : ℤ).toNat = table.length - 1 := by omega
  rw [hindex, ← List.getLast?_eq_getElem?] at ha
  exact ⟨a, hfetch, ha⟩

/-- **Walking down** from inside the table to a floor inside it ends, at the start or not
below the floor by more than one, and above it at an entry that is not skipped. What it has
passed was skipped. -/
theorem walkDown_returns {fuel : ℕ} {stabs : List Stab} {floor : ℤ} (skip : Stab → Bool) {m : ℤ}
    (hfloor : 0 ≤ floor) (hm : m < stabs.length) (hfuel : stabs.length < fuel) :
    Returns (fun m' => m' ≤ m ∧ (m' = m ∨ floor ≤ m' + 1) ∧
      (∀ j, m' < j → j ≤ m → ∃ stab, stabs[j.toNat]? = some stab ∧ skip stab) ∧
      (floor ≤ m' → ∃ stab, stabs[m'.toNat]? = some stab ∧ ¬ skip stab))
      (walkDown fuel stabs floor skip m) := by
  refine loop_returns (I := fun m' => m' ≤ m ∧ (m' = m ∨ floor ≤ m' + 1) ∧
      ∀ j, m' < j → j ≤ m → ∃ stab, stabs[j.toNat]? = some stab ∧ skip stab)
    (fun m' => (m' + 1 - floor).toNat) ?_ ⟨le_refl m, Or.inl rfl, fun j _ _ => by omega⟩ (by omega)
  rintro m' ⟨hle, hbelow, hpassed⟩
  rw [walkRound]
  by_cases habove : floor ≤ m'
  · rw [if_pos habove]
    refine (fetch_returns .stab (by omega) (by omega)).bind ?_
    intro stab hstab
    by_cases hskip : skip stab
    · rw [if_pos hskip]
      refine returns_ok ⟨⟨by omega, Or.inr (by omega), fun j hj hjm => ?_⟩, ?_⟩
      · rcases eq_or_lt_of_le (Int.le_of_sub_one_lt hj) with rfl | hlt
        · exact ⟨stab, hstab, hskip⟩
        · exact hpassed j hlt hjm
      · dsimp only
        omega
    · rw [if_neg hskip]
      exact returns_ok ⟨hle, hbelow, hpassed, fun _ => ⟨stab, hstab, hskip⟩⟩
  · rw [if_neg habove]
    exact returns_ok ⟨hle, hbelow, hpassed, fun h => absurd h habove⟩

/-! ### The search -/

/-- The main loop of the search, begun at `start`: it stays inside the table, and once it
has met an entry of its type there is room before that entry. -/
structure Searching (stabs : List Stab) (start : ℤ) (s : Search) : Prop where
  left : 0 ≤ s.left
  l : 0 ≤ s.l
  r : s.r = s.right
  right : s.right < stabs.length
  unmatched : s.anyMatches = false → s.left = start
  matched : s.anyMatches = true → 0 ≤ s.right

/-- 1 if the main loop may find its address at `l`, and so not shrink its interval. -/
def hit (stabs : List Stab) (s : Search) : ℕ :=
  match stabs[s.l.toNat]? with
  | some stab => if stab.nValue = s.addr then 1 else 0
  | none => 0

/-- The variant of the main loop: an exact match at `l` leaves the interval as it is, but the
next round cannot find another there. -/
def searchVariant (stabs : List Stab) (s : Search) : ℕ :=
  2 * (s.r + 1 - s.l).toNat + hit stabs s

theorem hit_le_one (stabs : List Stab) (s : Search) : hit stabs s ≤ 1 := by
  rw [hit]
  split
  · split <;> omega
  · omega

/-- After an exact match at `l` the address has moved on. -/
theorem hit_exact {stabs : List Stab} {s s' : Search} {stab : Stab}
    (hstab : stabs[s.l.toNat]? = some stab) (heq : stab.nValue = s.addr) (hl : s'.l = s.l)
    (haddr : s'.addr = s.addr + 1) : hit stabs s = 1 ∧ hit stabs s' = 0 := by
  have hne : stab.nValue ≠ s.addr + 1 := by
    rw [heq]
    bv_omega
  constructor
  · rw [hit, hstab]
    exact if_pos heq
  · rw [hit, hl, hstab, haddr]
    exact if_neg hne

/-- A smaller interval lowers the variant. -/
theorem searchVariant_lt {stabs : List Stab} {s s' : Search}
    (h : (s'.r + 1 - s'.l).toNat < (s.r + 1 - s.l).toNat) :
    searchVariant stabs s' < searchVariant stabs s := by
  have hhit := hit_le_one stabs s'
  rw [searchVariant, searchVariant]
  omega

/-- **An entry of the right type** that is not the first one keeps the search inside the table,
and lowers the variant. -/
theorem searchAt_good {stabs : List Stab} {start : ℤ} {s : Search} (h : Searching stabs start s)
    {stab : Stab} {m trueM : ℤ} (hstab : stabs[m.toNat]? = some stab) (hm : m ≠ 0)
    (hlm : s.l ≤ m) (htrue : m ≤ trueM) (hr : trueM ≤ s.r) :
    Searching stabs start (searchAt stab m trueM { s with anyMatches := true }) ∧
      searchVariant stabs (searchAt stab m trueM { s with anyMatches := true }) <
        searchVariant stabs s := by
  have hl := h.l
  have hsr := h.r
  have hright := h.right
  rw [searchAt]
  dsimp only
  split
  · refine ⟨⟨?_, ?_, hsr, hright, (nomatch ·), fun _ => ?_⟩, searchVariant_lt ?_⟩
    all_goals dsimp only; omega
  rename_i hge
  split
  · refine ⟨⟨h.left, hl, rfl, ?_, (nomatch ·), fun _ => ?_⟩, searchVariant_lt ?_⟩
    all_goals dsimp only; omega
  rename_i hle
  have heq : stab.nValue = s.addr :=
    BitVec.le_antisymm (BitVec.not_lt.mp hle) (BitVec.not_lt.mp hge)
  refine ⟨⟨?_, ?_, hsr, hright, (nomatch ·), fun _ => ?_⟩, ?_⟩
  iterate 3 (dsimp only; omega)
  by_cases hsame : m = s.l
  · -- the interval is as it was, but the address is not
    subst hsame
    obtain ⟨hnow, hthen⟩ : hit stabs s = 1 ∧ hit stabs { s with addr := s.addr + 1 } = 0 :=
      hit_exact hstab heq rfl rfl
    change 2 * (s.r + 1 - s.l).toNat + hit stabs { s with addr := s.addr + 1 } <
      2 * (s.r + 1 - s.l).toNat + hit stabs s
    omega
  · apply searchVariant_lt
    dsimp only
    omega

/-- **A round of the search** stays inside the table and lowers the variant. -/
theorem searchRound_good {fuel : ℕ} {stabs : List Stab} {type : Byte} {start : ℤ}
    (hhead : ∀ stab, stabs[0]? = some stab → stab.nType ≠ type)
    (hfuel : stabs.length < fuel) {s : Search} (h : Searching stabs start s) :
    Returns (Round.Good (Searching stabs start) (searchVariant stabs) (Searching stabs start) s)
      (searchRound fuel stabs type s) := by
  have hl := h.l
  have hr := h.r
  have hright := h.right
  rw [searchRound]
  by_cases hlr : s.l ≤ s.r
  · rw [if_pos hlr]
    obtain ⟨hlm, hmr⟩ : s.l ≤ (s.l + s.r).tdiv 2 ∧ (s.l + s.r).tdiv 2 ≤ s.r := by
      rw [Int.tdiv_eq_ediv_of_nonneg (by omega)]
      omega
    generalize (s.l + s.r).tdiv 2 = trueM at hlm hmr ⊢
    refine (walkDown_returns _ hl (by omega) hfuel).bind ?_
    rintro m ⟨hm, hbelow, -, hmatch⟩
    by_cases hnone : m < s.l
    · rw [if_pos hnone]
      refine returns_ok ⟨⟨h.left, ?_, hr, hright, h.unmatched, h.matched⟩, searchVariant_lt ?_⟩
      all_goals dsimp only; omega
    rw [if_neg hnone]
    obtain ⟨stab, hstab, htype⟩ := hmatch (by omega)
    -- the entry met is not the first one, which has another type
    have hpos : m ≠ 0 := by
      rintro rfl
      exact htype (decide_eq_true (Or.inl (hhead stab hstab)))
    refine (fetch_returns .stab (by omega) (by omega)).bind ?_
    intro stab hstab
    exact returns_ok (searchAt_good h hstab hpos (by omega) hm hmr)
  · rw [if_neg hlr]
    exact returns_ok h

/-- The region a search from `left` leaves behind: a part of the table, or nothing. -/
def Region (stabs : List Stab) (left : ℤ) (region : ℤ × ℤ) : Prop :=
  (0 ≤ region.1 ∧ region.1 ≤ region.2 ∧ region.2 < stabs.length) ∨
    (region.1 = left ∧ region.2 < region.1)

/-- A region that is not empty is a part of the table. -/
theorem Region.inside {stabs : List Stab} {left : ℤ} {region : ℤ × ℤ}
    (h : Region stabs left region) (hne : region.1 ≤ region.2) :
    0 ≤ region.1 ∧ region.2 < stabs.length := by
  rcases h with ⟨h0, -, hlen⟩ | ⟨-, hempty⟩
  · exact ⟨h0, hlen⟩
  · exact absurd hne (Int.not_le.mpr hempty)

/-- **The search** ends, whatever the table holds. Having met an entry of its type it
brackets a part of the table; else it leaves the empty region at its start. -/
theorem stabBinsearch_returns {fuel : ℕ} {stabs : List Stab} {type : Byte} {left right : ℤ}
    (hhead : ∀ stab, stabs[0]? = some stab → stab.nType ≠ type)
    (hfuel : 2 * stabs.length + 1 < fuel) (hleft : 0 ≤ left) (hright : right < stabs.length)
    (addr : Addr) :
    Returns (Region stabs left) (stabBinsearch fuel stabs left right type addr) := by
  rw [stabBinsearch]
  refine (loop_returns (I := Searching stabs left) (Q := Searching stabs left)
    (searchVariant stabs) (fun s h => searchRound_good hhead (by omega) h) ?_ ?_).bind ?_
  · exact ⟨hleft, hleft, rfl, hright, fun _ => rfl, (nomatch ·)⟩
  · have hhit := hit_le_one stabs
      { left := left, right := right, l := left, r := right, anyMatches := false, addr := addr }
    rw [searchVariant]
    dsimp only
    omega
  intro s hs
  cases hmatch : s.anyMatches with
  | false => exact returns_ok (Or.inr ⟨hs.unmatched hmatch, Int.sub_lt_self _ (by decide)⟩)
  | true =>
      have hroom := hs.matched hmatch
      have hl := hs.left
      refine (walkDown_returns _ (by omega) hs.right (by omega)).bind ?_
      rintro l ⟨hle, hbelow, -, -⟩
      exact returns_ok (Or.inl ⟨by dsimp only; omega, hle, hs.right⟩)

/-- The left bound below its start, at an entry of another type. -/
example : stabBinsearch 10 [⟨0, 0, 0, 0⟩, ⟨0, nSO, 0, 0⟩, ⟨0, nFUN, 0, 9⟩] 2 2 nFUN 5 =
    .ok (1, 1) := rfl

/-! ### The lookup -/

/-- The pointer is to the literal, or into the string table. -/
def Text.Inside (stabstr : List Byte) : Text → Prop
  | .unknown => True
  | .stabstr off => off < stabstr.length

theorem stabText_inside {stabstr : List Byte} (stab : Stab) {text : Text}
    (h : text.Inside stabstr) : (stabText stabstr stab text).Inside stabstr := by
  rw [stabText]
  split
  · rename_i hlt
    exact hlt
  · exact h

/-- In a string table that ends in a NUL it is a pointer to a string. -/
theorem Text.Inside.nul {stabstr : List Byte} (hlast : stabstr.getLast? = some 0) {text : Text}
    (h : text.Inside stabstr) : 0 ∈ text.bytes stabstr := by
  cases text with
  | unknown =>
      rw [Text.bytes]
      decide
  | stabstr off =>
      refine List.mem_of_getLast? ?_
      rw [Text.bytes, List.getLast?_drop, if_neg (Nat.not_le.mpr h), hlast]

/-- The function name: the whole literal, or a run of bytes inside the string table without
a colon or a NUL. -/
def Eipdebuginfo.Named (stabstr : List Byte) (info : Eipdebuginfo) : Prop :=
  (info.eipFnName = .unknown ∧ info.eipFnNamelen = "<unknown>".length) ∨
    ∃ off len : ℕ, info.eipFnName = .stabstr off ∧ info.eipFnNamelen = len ∧
      off + len < stabstr.length ∧
      ∀ b ∈ (stabstr.drop off).take len, b ≠ chr ':' ∧ b ≠ 0

/-- What a lookup may leave behind. -/
structure Eipdebuginfo.WellFormed (stabstr : List Byte) (info : Eipdebuginfo) : Prop where
  named : info.Named stabstr
  file : info.eipFile.Inside stabstr

/-- **The length of the name**: the string table ends in a NUL, so a name that starts inside
it ends inside it. -/
theorem fnNamelen_returns {stabstr : List Byte} (hlast : stabstr.getLast? = some 0)
    {info : Eipdebuginfo} (hname : info.eipFnName.Inside stabstr)
    (hfile : info.eipFile.Inside stabstr) :
    Returns (Eipdebuginfo.WellFormed stabstr) (fnNamelen stabstr info) := by
  rw [fnNamelen]
  cases htext : info.eipFnName with
  | unknown =>
      exact returns_ok ⟨Or.inl ⟨rfl, rfl⟩, hfile⟩
  | stabstr off =>
      rw [htext] at hname
      obtain ⟨len, hlen⟩ := strfind_isSome (chr ':') (hname.nul hlast)
      rw [Text.bytes] at hlen
      obtain ⟨hlt, hrun⟩ := strfind_spec hlen
      rw [List.length_drop] at hlt
      rw [Text.bytes, hlen]
      exact returns_ok ⟨Or.inr ⟨off, len, rfl, rfl, by omega, hrun⟩, hfile⟩

/-- **The function**: a region to search goes on in the table, and the name in the string
table. -/
theorem fnInfo_returns {stabs : List Stab} {stabstr : List Byte} {lfile rfile lfun rfun : ℤ}
    (hlfile : 0 ≤ lfile) (hrfile : rfile < stabs.length)
    (hfun : Region stabs lfile (lfun, rfun)) (addr : Addr) {info : Eipdebuginfo}
    (hname : info.eipFnName.Inside stabstr) :
    Returns (fun r : Eipdebuginfo × Addr × ℤ × ℤ => r.1.eipFnName.Inside stabstr ∧
        r.1.eipFile = info.eipFile ∧ 0 ≤ r.2.2.1 ∧ r.2.2.2 < stabs.length)
      (fnInfo stabs stabstr lfile rfile lfun rfun addr info) := by
  rw [fnInfo]
  by_cases hle : lfun ≤ rfun
  · obtain ⟨h0, hlen⟩ := hfun.inside hle
    rw [if_pos hle]
    refine (fetch_returns .stab h0 (by omega)).bind ?_
    intro stab _
    exact returns_ok ⟨stabText_inside stab hname, rfl, h0, hlen⟩
  · rw [if_neg hle]
    exact returns_ok ⟨hname, rfl, hlfile, hrfile⟩

/-- **The source file** is named in the string table. -/
theorem fileInfo_returns {fuel : ℕ} {stabs : List Stab} {stabstr : List Byte} {lfile lline : ℤ}
    (hlfile : 0 ≤ lfile) (hlline : lline < stabs.length) (hfuel : stabs.length < fuel)
    {info : Eipdebuginfo} (h : info.WellFormed stabstr) :
    Returns (Eipdebuginfo.WellFormed stabstr) (fileInfo fuel stabs stabstr lfile lline info) := by
  rw [fileInfo]
  refine (walkDown_returns _ hlfile hlline hfuel).bind ?_
  rintro m ⟨hm, -, -, -⟩
  by_cases hle : lfile ≤ m
  · rw [if_pos hle]
    refine (fetch_returns .stab (by omega) (by omega)).bind ?_
    intro stab _
    exact returns_ok ⟨h.named, stabText_inside stab h.file⟩
  · rw [if_neg hle]
    exact returns_ok h

/-- **The arguments** are counted inside the table. -/
theorem fnNarg_returns {fuel : ℕ} {stabs : List Stab} {stabstr : List Byte} {left lfun rfun : ℤ}
    (hfun : Region stabs left (lfun, rfun)) (hfuel : stabs.length < fuel)
    {info : Eipdebuginfo} (h : info.WellFormed stabstr) :
    Returns (Eipdebuginfo.WellFormed stabstr) (fnNarg fuel stabs lfun rfun info) := by
  rw [fnNarg]
  by_cases hlt : lfun < rfun
  · obtain ⟨h0, hlen⟩ := hfun.inside (Int.le_of_lt hlt)
    dsimp only at h0 hlen
    rw [if_pos hlt]
    refine (loop_returns (I := fun s : ℤ × ℤ => 0 ≤ s.1) (Q := fun _ => True)
      (fun s => (rfun - s.1).toNat) ?_ (by dsimp only; omega) (by dsimp only; omega)).bind
      fun _ _ => returns_ok ⟨h.named, h.file⟩
    rintro ⟨lline, narg⟩ hlline
    dsimp only at hlline
    rw [nargRound]
    dsimp only
    by_cases hmore : lline < rfun
    · rw [if_pos hmore]
      refine (fetch_returns .stab hlline (by omega)).bind ?_
      intro stab _
      split
      · exact returns_ok ⟨by dsimp only; omega, by dsimp only; omega⟩
      · exact returns_ok trivial
    · rw [if_neg hmore]
      exact returns_ok trivial
  · rw [if_neg hlt]
    exact returns_ok h

/-- **A lookup** in a table whose first entry has a type that no search looks for ends, and reads
inside the two tables only. What it leaves behind is well formed, and names of more than the
literal come from a string table that ends in a NUL. -/
theorem debuginfoEip_wellFormed {fuel : ℕ} {stabs : List Stab} {stabstr : List Byte} {addr : Addr}
    (hhead : ∀ stab, stabs[0]? = some stab →
      stab.nType ≠ nSO ∧ stab.nType ≠ nFUN ∧ stab.nType ≠ nSLINE)
    (hfuel : 2 * stabs.length + 1 < fuel) (haddr : ulim ≤ addr) :
    Returns (fun r : ℤ × Eipdebuginfo => r.2.WellFormed stabstr ∧
        (stabstr.getLast? = some 0 ∨ r.2.eipFile = .unknown ∧ r.2.eipFnName = .unknown))
      (debuginfoEip fuel stabs stabstr addr) := by
  have hwalk : stabs.length < fuel := by omega
  rw [debuginfoEip]
  dsimp only
  rw [if_neg (BitVec.not_lt.mpr haddr)]
  by_cases hempty : stabstr.length = 0
  · rw [if_pos hempty]
    exact returns_ok ⟨⟨Or.inl ⟨rfl, rfl⟩, trivial⟩, Or.inr ⟨rfl, rfl⟩⟩
  rw [if_neg hempty]
  refine (fetch_last_returns .stabstr hempty).bind ?_
  intro last hlast
  by_cases hnul : last ≠ 0
  · rw [if_pos hnul]
    exact returns_ok ⟨⟨Or.inl ⟨rfl, rfl⟩, trivial⟩, Or.inr ⟨rfl, rfl⟩⟩
  rw [if_neg hnul]
  obtain rfl : last = 0 := not_not.mp hnul
  refine (stabBinsearch_returns (fun stab h => (hhead stab h).1) hfuel (le_refl 0) (by omega)
    addr).bind ?_
  rintro ⟨lfile, rfile⟩ hfile
  dsimp only
  by_cases hnofile : lfile = 0
  · rw [if_pos hnofile]
    exact returns_ok ⟨⟨Or.inl ⟨rfl, rfl⟩, trivial⟩, Or.inr ⟨rfl, rfl⟩⟩
  rw [if_neg hnofile]
  obtain ⟨hlfile, -, hrfile⟩ := hfile.resolve_right fun h => hnofile h.1
  refine (stabBinsearch_returns (fun stab h => (hhead stab h).2.1) hfuel hlfile hrfile addr).bind ?_
  rintro ⟨lfun, rfun⟩ hfun
  refine (fnInfo_returns hlfile hrfile hfun addr ?_).bind ?_
  · exact trivial
  rintro ⟨info, addr, lline, rline⟩ ⟨hname, hunknown, hlline, hrline⟩
  refine (fnNamelen_returns hlast hname (hunknown ▸ trivial)).bind ?_
  intro info hinfo
  refine (stabBinsearch_returns (fun stab h => (hhead stab h).2.2) hfuel hlline hrline addr).bind ?_
  rintro ⟨lline', rline'⟩ hline
  dsimp only
  by_cases hnoline : lline' > rline'
  · rw [if_pos hnoline]
    exact returns_ok ⟨hinfo, Or.inl hlast⟩
  rw [if_neg hnoline]
  obtain ⟨h0, hlen⟩ := hline.inside (Int.not_lt.mp hnoline)
  dsimp only at h0 hlen
  have hinside : lline' < stabs.length := by omega
  refine (fetch_returns .stab h0 hinside).bind ?_
  intro stab _
  have hlined : { info with eipLine := stab.nDesc.toNat }.WellFormed stabstr :=
    ⟨hinfo.named, hinfo.file⟩
  refine (fileInfo_returns hlfile hinside hwalk hlined).bind ?_
  intro info hinfo
  refine (fnNarg_returns hfun hwalk hinfo).bind ?_
  intro info hinfo
  exact returns_ok ⟨hinfo, Or.inl hlast⟩

/-- **A lookup is safe on any table** whose first entry has type 0: it ends, reads inside the
two tables only, and what it leaves behind is well formed, whatever it returns. -/
theorem debuginfoEip_returns {fuel : ℕ} {stabs : List Stab} {stabstr : List Byte} {addr : Addr}
    (hhead : ∀ stab, stabs[0]? = some stab → stab.nType = 0)
    (hfuel : 2 * stabs.length + 1 < fuel) (haddr : ulim ≤ addr) :
    Returns (fun r : ℤ × Eipdebuginfo => r.2.WellFormed stabstr)
      (debuginfoEip fuel stabs stabstr addr) := by
  have hother : ∀ stab, stabs[0]? = some stab →
      stab.nType ≠ nSO ∧ stab.nType ≠ nFUN ∧ stab.nType ≠ nSLINE := by
    intro stab hstab
    rw [hhead stab hstab]
    decide
  obtain ⟨r, hr, hwell, -⟩ := debuginfoEip_wellFormed hother hfuel haddr
  exact ⟨r, hr, hwell⟩

/-- A file, a function and a line, with the function's values out of order. -/
theorem debuginfoEip_returns_line :
    Returns (fun r : ℤ × Eipdebuginfo => r.2.WellFormed (cstr "f.c:g:F"))
      (debuginfoEip 10
        [⟨0, 0, 3, 0⟩, ⟨0, nSO, 0, 0xF0100000⟩, ⟨4, nFUN, 0, 0xF0100000⟩, ⟨0, nSLINE, 7, 0⟩]
        (cstr "f.c:g:F") 0xF0100004) := by
  refine debuginfoEip_returns ?_ (by decide) (by decide)
  rintro stab ⟨⟩
  rfl

end Jos
