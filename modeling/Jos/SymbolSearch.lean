import Jos.Bisect
import Jos.Kdebug

/-!
# What the Symbol Search Finds

`stab_binsearch` as a bisection among the entries of one type. Until it has met an entry with
the address it was given it is one (`Meets`), and with no such entry the region it leaves
behind is right. Having met one it goes on "to find *region_right" with the address one higher,
and takes an entry of that address for another exact match.

When all entries of the type lie above the address the region is not empty either: the loop
that looks for its left end stops where the region began.

## Main results

* `search_misses`: what the main loop has done when it meets no entry.
* `stabBinsearch_absent_iff`: when the search reports absence.
* `stabBinsearch_brackets_iff`: when the search brackets the address.
-/

namespace Jos

/-! ### The entries of a type -/

/-- The address of an entry, if it has the type. -/
def stabValue (stabs : List Stab) (type : Byte) (i : ℤ) : Option ℕ :=
  if 0 ≤ i then (stabs[i.toNat]?.filter (·.nType = type)).map (·.nValue.toNat) else none

theorem stabValue_eq_some {stabs : List Stab} {type : Byte} {i : ℤ} {v : ℕ} :
    stabValue stabs type i = some v ↔
      0 ≤ i ∧ ∃ stab, stabs[i.toNat]? = some stab ∧ stab.nType = type ∧ stab.nValue.toNat = v := by
  rw [stabValue]
  by_cases hi : 0 ≤ i
  · rw [if_pos hi, Option.map_eq_some_iff]
    simp only [Option.filter_eq_some_iff, hi, true_and, decide_eq_true_eq, and_assoc]
  · rw [if_neg hi]
    exact iff_of_false (Option.some_ne_none v).symm fun h => hi h.1

/-- **Walking down** to the first entry of the type, or to the floor: no other index is as
`walkDown_returns` says. -/
theorem walk_loops {stabs : List Stab} {type : Byte} {skip : Stab → Bool}
    (hskip : ∀ stab, skip stab = true ↔ stab.nType ≠ type) {floor m t : ℤ} (hfloor : 0 ≤ floor)
    (ht : t < stabs.length) (hmt : m ≤ t) (hfree : Free (stabValue stabs type) (m + 1) t)
    (hpass : floor ≤ m + 1 ∨ m = t) (hstop : floor ≤ m → stabValue stabs type m ≠ none) :
    Loops .fuel (fun _ => walkRound stabs floor skip) t m := by
  refine ⟨stabs.length + 1, fun _ rounds _ hrounds => ?_⟩
  obtain ⟨m', hwalk, hle, hbelow, hpassed, hmet⟩ := walkDown_returns skip hfloor ht hrounds
  have hge : m ≤ m' := by
    by_contra hlt
    obtain ⟨v, hv⟩ := Option.ne_none_iff_exists'.mp (hstop (by omega))
    obtain ⟨-, stab, hstab, htype, -⟩ := stabValue_eq_some.mp hv
    obtain ⟨stab', hstab', hskip'⟩ := hpassed m (by omega) hmt
    obtain rfl : stab = stab' := Option.some.inj (hstab.symm.trans hstab')
    exact (hskip stab).mp hskip' htype
  have hle' : m' ≤ m := by
    by_contra hlt
    obtain ⟨stab, hstab, hkeep⟩ := hmet (by omega)
    have htype : stab.nType = type := not_not.mp (mt (hskip stab).mpr hkeep)
    exact hfree.not_key (by omega) hle (stabValue_eq_some.mpr ⟨by omega, stab, hstab, htype, rfl⟩)
  rw [le_antisymm hge hle']
  exact hwalk

/-! ### Steps of the main loop -/

/-- A step of the main loop, by the last entry of the type not behind the middle. -/
inductive SearchStep (key : ℤ → Option ℕ) (s : Search) : Search → Prop
  | free (h : Free key s.l (mid s.l s.r)) : SearchStep key s { s with l := mid s.l s.r + 1 }
  | below {m : ℤ} {v : ℕ} (h : LastIn key s.l (mid s.l s.r) m v) (hv : v < s.addr.toNat) :
      SearchStep key s { s with left := m, l := mid s.l s.r + 1, anyMatches := true }
  | above {m : ℤ} {v : ℕ} (h : LastIn key s.l (mid s.l s.r) m v) (hv : s.addr.toNat < v) :
      SearchStep key s { s with right := m - 1, r := m - 1, anyMatches := true }
  | exact {m : ℤ} (h : LastIn key s.l (mid s.l s.r) m s.addr.toNat) :
      SearchStep key s { s with left := m, l := m, addr := s.addr + 1, anyMatches := true }

/-- The main loop stays inside the table. -/
structure Search.Inside (stabs : List Stab) (s : Search) : Prop where
  l : 0 ≤ s.l
  r : s.r < stabs.length
  right : s.r = s.right

/-- There is always a step. -/
theorem exists_searchStep (key : ℤ → Option ℕ) (s : Search) : ∃ s', SearchStep key s s' := by
  rcases free_or_lastIn key s.l (mid s.l s.r) with h | ⟨m, v, h⟩
  · exact ⟨_, .free h⟩
  rcases lt_trichotomy v s.addr.toNat with hv | rfl | hv
  · exact ⟨_, .below h hv⟩
  · exact ⟨_, .exact h⟩
  · exact ⟨_, .above h hv⟩

/-- The main loop looks for entries of the type alone: `n_type` cannot be `N_FUN` and 0. -/
theorem skip_iff (type : Byte) (stab : Stab) :
    decide (stab.nType ≠ type ∨ stab.nType = nFUN ∧ stab.nType = 0) = true ↔
      stab.nType ≠ type := by
  rw [decide_eq_true_eq, or_iff_left]
  rintro ⟨hfun, hzero⟩
  rw [hfun] at hzero
  exact absurd hzero (by decide)

/-- A round with no entry up to the middle. -/
theorem searchRound_free {stabs : List Stab} {type : Byte} {s : Search} (hs : s.Inside stabs)
    (hlr : s.l ≤ s.r) (h : Free (stabValue stabs type) s.l (mid s.l s.r)) :
    Converges (.next { s with l := mid s.l s.r + 1 })
      fun fuel => searchRound fuel stabs type s := by
  have hl := hs.l
  have hr := hs.r
  obtain ⟨hge, hle⟩ := mid_mem hlr
  have hmid : (s.l + s.r).tdiv 2 = mid s.l s.r := Int.tdiv_eq_ediv_of_nonneg (by omega)
  have hnone : s.l - 1 < s.l := Int.sub_lt_self _ (by decide)
  have hwalk := walk_loops (skip_iff type) hl (by omega) (show s.l - 1 ≤ mid s.l s.r by omega)
    (h.mono (by omega) (le_refl _)) (Or.inl (by omega)) fun h => absurd h (by omega)
  simp only [searchRound, if_pos hlr, hmid]
  refine hwalk.converges.bind ?_
  simp only [if_pos hnone]
  exact converges_ok _

/-- A round that has met an entry. -/
theorem searchRound_lastIn {stabs : List Stab} {type : Byte} {s : Search} (hs : s.Inside stabs)
    (hlr : s.l ≤ s.r) {m : ℤ} {v : ℕ}
    (h : LastIn (stabValue stabs type) s.l (mid s.l s.r) m v) :
    ∃ stab : Stab, stab.nValue.toNat = v ∧
      Converges (.next (searchAt stab m (mid s.l s.r) { s with anyMatches := true }))
        fun fuel => searchRound fuel stabs type s := by
  have hl := hs.l
  have hr := hs.r
  obtain ⟨hge, hle⟩ := mid_mem hlr
  have hmid : (s.l + s.r).tdiv 2 = mid s.l s.r := Int.tdiv_eq_ediv_of_nonneg (by omega)
  obtain ⟨hm, stab, hstab, -, hv⟩ := stabValue_eq_some.mp h.carries
  have hfetch : fetch .stab stabs m = .ok stab := by
    rw [fetch, if_pos hm, hstab]
  have hsome : stabValue stabs type m ≠ none := by
    rw [h.carries]
    exact Option.some_ne_none v
  have hm' := h.ge
  have hwalk := walk_loops (skip_iff type) hl (by omega) h.le h.free (Or.inl (by omega))
    fun _ => hsome
  refine ⟨stab, hv, ?_⟩
  simp only [searchRound, if_pos hlr, hmid]
  refine hwalk.converges.bind ?_
  simp only [if_neg (not_lt.mpr hm'), hfetch, ok_bind]
  exact converges_ok _

/-- **A round takes the step.** -/
theorem searchRound_converges {stabs : List Stab} {type : Byte} {s s' : Search}
    (hs : s.Inside stabs) (hlr : s.l ≤ s.r) (h : SearchStep (stabValue stabs type) s s') :
    Converges (.next s') fun fuel => searchRound fuel stabs type s := by
  cases h with
  | free h => exact searchRound_free hs hlr h
  | below h hv =>
      obtain ⟨stab, hstab, hround⟩ := searchRound_lastIn hs hlr h
      have hlt : stab.nValue < s.addr := by rwa [BitVec.lt_def, hstab]
      simp only [searchAt, if_pos hlt] at hround
      exact hround
  | above h hv =>
      obtain ⟨stab, hstab, hround⟩ := searchRound_lastIn hs hlr h
      have hgt : stab.nValue > s.addr := by rwa [gt_iff_lt, BitVec.lt_def, hstab]
      have hlt : ¬ stab.nValue < s.addr := BitVec.lt_asymm hgt
      simp only [searchAt, if_neg hlt, if_pos hgt] at hround
      exact hround
  | exact h =>
      obtain ⟨stab, hstab, hround⟩ := searchRound_lastIn hs hlr h
      have heq : stab.nValue = s.addr := BitVec.eq_of_toNat_eq hstab
      have hlt : ¬ stab.nValue < s.addr := by rw [heq]; exact BitVec.lt_irrefl _
      have hgt : ¬ stab.nValue > s.addr := by rw [heq]; exact BitVec.lt_irrefl _
      simp only [searchAt, if_neg hlt, if_neg hgt] at hround
      exact hround

/-- A step stays inside the table. -/
theorem SearchStep.inside {stabs : List Stab} {key : ℤ → Option ℕ} {s s' : Search}
    (h : SearchStep key s s') (hs : s.Inside stabs) (hlr : s.l ≤ s.r) : s'.Inside stabs := by
  have hl := hs.l
  have hr := hs.r
  obtain ⟨hge, hle⟩ := mid_mem hlr
  cases h with
  | free h => exact ⟨by dsimp only; omega, hr, hs.right⟩
  | below h hv => exact ⟨by dsimp only; omega, hr, hs.right⟩
  | above h hv =>
      have hm := h.le
      exact ⟨hl, by dsimp only; omega, rfl⟩
  | exact h =>
      have hm := h.ge
      exact ⟨by dsimp only; omega, hr, hs.right⟩

/-- A step lowers the variant. -/
theorem SearchStep.variant_lt {stabs : List Stab} {type : Byte} {s s' : Search}
    (h : SearchStep (stabValue stabs type) s s') (hlr : s.l ≤ s.r) :
    searchVariant stabs s' < searchVariant stabs s := by
  obtain ⟨hge, hle⟩ := mid_mem hlr
  cases h with
  | free h =>
      apply searchVariant_lt
      dsimp only
      omega
  | below h hv =>
      apply searchVariant_lt
      dsimp only
      omega
  | above h hv =>
      have hm := h.ge
      have hm' := h.le
      apply searchVariant_lt
      dsimp only
      omega
  | @exact m h =>
      have hm := h.ge
      have hm' := h.le
      by_cases hsame : m = s.l
      · subst hsame
        obtain ⟨-, stab, hstab, -, hv⟩ := stabValue_eq_some.mp h.carries
        obtain ⟨hnow, hthen⟩ : hit stabs s = 1 ∧ hit stabs { s with
            left := s.l, l := s.l, addr := s.addr + 1, anyMatches := true } = 0 :=
          hit_exact hstab (BitVec.eq_of_toNat_eq hv) rfl rfl
        rw [searchVariant, searchVariant, hnow, hthen]
        exact Nat.lt_succ_self _
      · apply searchVariant_lt
        dsimp only
        omega

/-- **The rule for the main loop.** It ends, and keeps what every step keeps. -/
theorem search_loops {stabs : List Stab} {type : Byte} {I : Search → Prop}
    (hstep : ∀ s s', I s → s.l ≤ s.r → SearchStep (stabValue stabs type) s s' → I s') {s : Search}
    (hs : s.Inside stabs) (hI : I s) :
    ∃ s', Loops .fuel (fun fuel => searchRound fuel stabs type) s s' ∧
      s'.Inside stabs ∧ s'.r < s'.l ∧ I s' := by
  refine loops_returns (I := fun s => s.Inside stabs ∧ I s) (searchVariant stabs) ?_ ⟨hs, hI⟩
  rintro s ⟨hs, hI⟩
  by_cases hlr : s.l ≤ s.r
  · obtain ⟨s', h⟩ := exists_searchStep (stabValue stabs type) s
    exact ⟨_, searchRound_converges hs hlr h,
      ⟨h.inside hs hlr, hstep s s' hI hlr h⟩, h.variant_lt hlr⟩
  · refine ⟨.leave s, ?_, hs, not_le.mp hlr, hI⟩
    simp only [searchRound, if_neg hlr]
    exact converges_ok _

/-! ### Until the address is met -/

/-- What the main loop has done, from the state `s` on, if it has met no entry with its
address. -/
structure Missed (key : ℤ → Option ℕ) (s s' : Search) : Prop where
  addr : s'.addr = s.addr
  flanks : Flanks key s.addr.toNat s.l s.r s'.l s'.r
  left : s'.left = s.left ∨
    s.l ≤ s'.left ∧ s'.left ≤ s.r ∧ ∃ v, key s'.left = some v ∧ v < s.addr.toNat
  matched : s'.anyMatches = false → s.anyMatches = false ∧
    ∀ i, s.l ≤ i → i ≤ s.r → i < s'.l ∨ s'.r < i → key i = none
  unmatched : Free key s.l s.r → s'.anyMatches = s.anyMatches

/-- A step that is no exact match. -/
theorem Missed.step {key : ℤ → Option ℕ} {s t t' : Search} (ht : Missed key s t)
    (hasc : Ascending key s.l s.r)
    (hne : ∀ i, s.l ≤ i → i ≤ s.r → key i ≠ some s.addr.toNat) (hlr : t.l ≤ t.r)
    (h : SearchStep key t t') : Missed key s t' := by
  obtain ⟨hge, hle⟩ := mid_mem hlr
  have hf := ht.flanks
  have hleft := hf.left
  have hright := hf.right
  have hflanks : ∀ {l r}, Narrows key s.addr.toNat t.l t.r l r →
      Flanks key s.addr.toNat s.l s.r l r :=
    fun hn => hf.trans (hn.flanks hlr (hasc.mono hf.left hf.right))
  have hmet : ∀ {m v}, LastIn key t.l (mid t.l t.r) m v → ¬ Free key s.l s.r := by
    intro m v h hfree
    have hm := h.ge
    have hm' := h.le
    exact hfree.not_key (by omega) (by omega) h.carries
  cases h with
  | free h =>
      refine ⟨ht.addr, hflanks (.free h), ht.left, fun hany => ?_, ht.unmatched⟩
      obtain ⟨hs, hpassed⟩ := ht.matched hany
      refine ⟨hs, fun i hi hi' hout => ?_⟩
      dsimp only at hout
      by_cases hin : t.l ≤ i ∧ i ≤ mid t.l t.r
      · exact h i hin.1 hin.2
      · exact hpassed i hi hi' (by omega)
  | @below m v h hv =>
      rw [ht.addr] at hv
      have hm := h.ge
      have hm' := h.le
      have hin : s.l ≤ m ∧ m ≤ s.r := by omega
      exact ⟨ht.addr, hflanks (.below h hv), Or.inr ⟨hin.1, hin.2, v, h.carries, hv⟩,
        fun hany => Bool.noConfusion hany, fun hfree => absurd hfree (hmet h)⟩
  | above h hv =>
      rw [ht.addr] at hv
      exact ⟨ht.addr, hflanks (.above h hv), ht.left, fun hany => Bool.noConfusion hany,
        fun hfree => absurd hfree (hmet h)⟩
  | exact h =>
      have hm := h.ge
      have hm' := h.le
      rw [ht.addr] at h
      exact absurd h.carries (hne _ (by omega) (by omega))

/-- **The main loop, when it meets no entry with its address.** -/
theorem search_misses {stabs : List Stab} (type : Byte) {s : Search} (hs : s.Inside stabs)
    (hroom : s.l ≤ s.r + 1) (hasc : Ascending (stabValue stabs type) s.l s.r)
    (hne : ∀ i, s.l ≤ i → i ≤ s.r → stabValue stabs type i ≠ some s.addr.toNat) :
    ∃ s', Loops .fuel (fun fuel => searchRound fuel stabs type) s s' ∧
      s'.Inside stabs ∧ s'.r < s'.l ∧ Missed (stabValue stabs type) s s' := by
  refine search_loops (I := Missed (stabValue stabs type) s)
    (fun t t' ht hlr h => ht.step hasc hne hlr h) hs ?_
  refine ⟨rfl, .refl hroom, Or.inl rfl, fun hany => ⟨hany, fun i hi hi' hout => ?_⟩, fun _ => rfl⟩
  omega

/-! ### The region -/

/-- The loop that looks for the left end of the region. -/
theorem region_loops {stabs : List Stab} (type : Byte) {left right : ℤ} (hleft : 0 ≤ left + 1)
    (hright : right < stabs.length) :
    ∃ l, Loops .fuel (fun _ => walkRound stabs (left + 1) fun stab => stab.nType ≠ type) right l ∧
      l ≤ right ∧ (l = right ∨ left ≤ l) ∧ Free (stabValue stabs type) (l + 1) right ∧
      (l ≤ left ∨ ∃ v, stabValue stabs type l = some v) := by
  have hskip : ∀ stab : Stab, decide (stab.nType ≠ type) = true ↔ stab.nType ≠ type :=
    fun stab => decide_eq_true_iff
  rcases lt_or_ge right left with hlt | hle
  · exact ⟨right, walk_loops hskip hleft hright (le_refl _) (free_of_lt (by omega)) (Or.inr rfl)
      fun h => absurd h (by omega), le_refl _, Or.inl rfl, free_of_lt (by omega), Or.inl hlt.le⟩
  rcases free_or_lastIn (stabValue stabs type) (left + 1) right with hfree | ⟨m, v, h⟩
  · exact ⟨left, walk_loops hskip hleft hright hle hfree (Or.inl (le_refl _))
      fun h => absurd h (by omega), hle, Or.inr (le_refl _), hfree, Or.inl (le_refl _)⟩
  · have hm := h.ge
    have hsome : stabValue stabs type m ≠ none := by
      rw [h.carries]
      exact Option.some_ne_none v
    exact ⟨m, walk_loops hskip hleft hright h.le h.free (Or.inl (by omega)) fun _ => hsome,
      h.le, Or.inr (by omega), h.free, Or.inr ⟨v, h.carries⟩⟩

/-- The main loop's first state. -/
def Search.start (left right : ℤ) (addr : Addr) : Search :=
  { left := left, right := right, l := left, r := right, anyMatches := false, addr := addr }

/-- **The region**, once the main loop has ended. -/
theorem stabBinsearch_converges {stabs : List Stab} {type : Byte} {left right : ℤ} {addr : Addr}
    {s : Search}
    (h : Loops .fuel (fun fuel => searchRound fuel stabs type) (.start left right addr) s)
    {region : ℤ × ℤ}
    (hregion : if s.anyMatches then
        Loops .fuel (fun _ => walkRound stabs (s.left + 1) fun stab => stab.nType ≠ type) s.right
          region.1 ∧ region.2 = s.right
      else region = (s.left, s.left - 1)) :
    Converges region fun fuel => stabBinsearch fuel stabs left right type addr := by
  refine h.converges.bind ?_
  by_cases hany : s.anyMatches = true
  · rw [if_pos hany] at hregion
    obtain ⟨hwalk, hright⟩ := hregion
    simp only [if_pos hany]
    refine hwalk.converges.bind ?_
    rw [← hright]
    exact converges_ok _
  · rw [if_neg hany] at hregion
    simp only [if_neg hany]
    rw [hregion]
    exact converges_ok _

/-- The region, when an entry has been met. -/
theorem exists_region {stabs : List Stab} {type : Byte} {left right : ℤ} {addr : Addr}
    {s : Search}
    (h : Loops .fuel (fun fuel => searchRound fuel stabs type) (.start left right addr) s)
    (hs : s.Inside stabs) (hany : s.anyMatches = true) (hfloor : 0 ≤ s.left + 1) :
    ∃ l, Converges (l, s.right) (fun fuel => stabBinsearch fuel stabs left right type addr) ∧
      l ≤ s.right ∧ (l = s.right ∨ s.left ≤ l) ∧ Free (stabValue stabs type) (l + 1) s.right ∧
      (l ≤ s.left ∨ ∃ v, stabValue stabs type l = some v) := by
  obtain ⟨l, hwalk, hl⟩ := region_loops type hfloor (hs.right ▸ hs.r)
  refine ⟨l, stabBinsearch_converges h ?_, hl⟩
  rw [hany]
  exact ⟨hwalk, rfl⟩

/-! ### Absence -/

/-- A range with nothing in it. -/
theorem start_empty {stabs : List Stab} {type : Byte} {left right : ℤ} (h : right < left)
    (addr : Addr) :
    Converges (left, left - 1) fun fuel => stabBinsearch fuel stabs left right type addr := by
  refine stabBinsearch_converges (s := .start left right addr) (.leave ?_) rfl
  have hlr : ¬ (Search.start left right addr).l ≤ (Search.start left right addr).r := not_le.mpr h
  simp only [searchRound, if_neg hlr]
  exact converges_ok _

/-- **When the search reports absence.** Of entries that all lie above the address: exactly
when there are none. -/
theorem stabBinsearch_absent_iff {stabs : List Stab} {type : Byte} {left right : ℤ}
    (hleft : 0 ≤ left) (hright : right < stabs.length)
    (hasc : Ascending (stabValue stabs type) left right) {addr : Addr}
    (habsent : ∀ i v, left ≤ i → i ≤ right → stabValue stabs type i = some v →
      addr.toNat < v) :
    ∃ region, Converges region (fun fuel => stabBinsearch fuel stabs left right type addr) ∧
      (region.2 < region.1 ↔ Free (stabValue stabs type) left right) := by
  rcases lt_or_ge right left with hempty | hlr
  · exact ⟨_, start_empty hempty addr,
      iff_of_true (Int.sub_lt_self _ (by decide)) (free_of_lt hempty)⟩
  have hs : (Search.start left right addr).Inside stabs := ⟨hleft, hright, rfl⟩
  obtain ⟨s, hloop, hin, hend, hmiss⟩ := search_misses type hs
    (hlr.trans (Int.le_add_one (le_refl _))) hasc
    fun i hi hi' hv => lt_irrefl _ (habsent i _ hi hi' hv)
  cases hany : s.anyMatches with
  | false =>
      refine ⟨(s.left, s.left - 1), stabBinsearch_converges hloop ?_, ?_⟩
      · rw [hany]
        rfl
      · refine iff_of_true (Int.sub_lt_self _ (by decide)) fun i hi hi' => ?_
        exact (hmiss.matched hany).2 i hi hi' (by omega)
  | true =>
      have hfloor : 0 ≤ s.left + 1 := by
        rcases hmiss.left with h | ⟨h, -⟩
        · rw [h]
          exact Int.le_add_one hleft
        · exact Int.le_add_one (hleft.trans h)
      obtain ⟨l, hregion, hle, -⟩ := exists_region hloop hin hany hfloor
      refine ⟨(l, s.right), hregion, iff_of_false (not_lt.mpr hle) fun hfree => ?_⟩
      have hnone := hmiss.unmatched hfree
      rw [hany] at hnone
      exact Bool.noConfusion hnone

/-! ### Having met the address -/

/-- The state after an exact match at `m`, when the interval ends at `e`. -/
def Search.met (m e : ℤ) (addr : Addr) : Search :=
  { left := m, right := e, l := m, r := e, anyMatches := true, addr := addr }

/-- **Meeting the address.** Until then the main loop is a bisection. -/
theorem meets_loops {stabs : List Stab} {type : Byte} {a : ℕ} {l r m e : ℤ}
    (h : Meets (stabValue stabs type) a l r m e) {s b : Search} (hs : s.Inside stabs)
    (hl : s.l = l) (hr : s.r = r) (ha : s.addr.toNat = a)
    (hb : Loops .fuel (fun fuel => searchRound fuel stabs type) (.met m e (s.addr + 1)) b) :
    Loops .fuel (fun fuel => searchRound fuel stabs type) s b := by
  induction h generalizing s with
  | here hlr h =>
      subst hl hr ha
      refine .next (searchRound_converges hs hlr (.exact h)) ?_
      have hright := hs.right
      rw [Search.met] at hb
      convert hb using 2
      exact hright.symm
  | next hlr h hm ih =>
      subst hl hr ha
      cases h with
      | free h =>
          have hstep : SearchStep (stabValue stabs type) s _ := .free h
          exact .next (searchRound_converges hs hlr hstep)
            (ih (hstep.inside hs hlr) rfl rfl rfl hb)
      | below h hv =>
          have hstep : SearchStep (stabValue stabs type) s _ := .below h hv
          exact .next (searchRound_converges hs hlr hstep)
            (ih (hstep.inside hs hlr) rfl rfl rfl hb)
      | above h hv =>
          have hstep : SearchStep (stabValue stabs type) s _ := .above h hv
          exact .next (searchRound_converges hs hlr hstep)
            (ih (hstep.inside hs hlr) rfl rfl rfl hb)

/-- The address one higher, after the highest one. -/
theorem toNat_addr_add_one (addr : Addr) :
    (addr + 1).toNat = if addr.toNat + 1 < 2 ^ 32 then addr.toNat + 1 else 0 := by
  have hlt := addr.isLt
  rw [BitVec.toNat_add]
  change (addr.toNat + 1) % 2 ^ 32 = _
  split <;> omega

/-- **When the address wraps** after a match at `m`, every entry from there on lies above it,
and the region ends before `m`. -/
theorem met_wraps {stabs : List Stab} {type : Byte} {m e : ℤ} {addr : Addr} {a : ℕ}
    (hs : (Search.met m e addr).Inside stabs) (hme : m ≤ e) (hzero : addr.toNat = 0)
    (hasc : Ascending (stabValue stabs type) m e) (hm : stabValue stabs type m = some a)
    (ha : 0 < a) :
    ∃ s, Loops .fuel (fun fuel => searchRound fuel stabs type) (.met m e addr) s ∧
      s.Inside stabs ∧ s.anyMatches = true ∧ s.left = m ∧ s.right = m - 1 := by
  have hpos : ∀ i v, m ≤ i → i ≤ e → stabValue stabs type i = some v → 0 < v :=
    fun i v hi hi' hv => ha.trans_le (hasc m i a v (le_refl m) hi hi' hm hv)
  obtain ⟨s, hloop, hin, hend, hmiss⟩ := search_misses type hs
    (hme.trans (Int.le_add_one (le_refl _))) hasc fun i hi hi' hv =>
      absurd hzero (hpos i _ hi hi' hv).ne'
  have hright := hin.right
  have hl := hmiss.flanks.left
  have hroom := hmiss.flanks.room
  change m ≤ s.l at hl
  change m ≤ s.r + 1 at hroom
  have hnone : ¬ m < s.l := by
    intro hlt
    have hlow := hmiss.flanks.below m a (le_refl m) hlt hm
    change a < addr.toNat at hlow
    omega
  refine ⟨s, hloop, hin, ?_, ?_, by omega⟩
  · cases hany : s.anyMatches with
    | true => rfl
    | false => exact Bool.noConfusion (hmiss.matched hany).1
  · rcases hmiss.left with h | ⟨-, -, v, -, hv⟩
    · exact h
    · change v < addr.toNat at hv
      omega

/-- The main loop, after a match at `m` with an entry of the address `v`, while the address it
works on is above that. -/
structure Search.Past (m : ℤ) (v : ℕ) (t : Search) : Prop where
  matched : t.anyMatches = true
  left : m ≤ t.left
  r : m ≤ t.r
  l : m < t.l ∨ m = t.l ∧ v < t.addr.toNat

/-- A step: an entry that is not below the address is not the one at `m`. -/
theorem Search.Past.step {key : ℤ → Option ℕ} {m : ℤ} {v : ℕ} (hm : key m = some v)
    {t t' : Search} (ht : t.Past m v) (hlr : t.l ≤ t.r) (h : SearchStep key t t') :
    t'.Past m v := by
  have hl := ht.l
  obtain ⟨hge, hle⟩ := mid_mem hlr
  have hbehind : ∀ {k w}, LastIn key t.l (mid t.l t.r) k w → t.addr.toNat ≤ w → m < k := by
    intro k w h hw
    have hk := h.ge
    refine lt_of_le_of_ne (by omega) fun heq => ?_
    subst heq
    have hvw : v = w := Option.some.inj (hm.symm.trans h.carries)
    omega
  cases h with
  | free h => exact ⟨ht.matched, ht.left, ht.r, Or.inl (by dsimp only; omega)⟩
  | below h hw =>
      have hk := h.ge
      exact ⟨rfl, by dsimp only; omega, ht.r, Or.inl (by dsimp only; omega)⟩
  | above h hw => exact ⟨rfl, ht.left, Int.le_sub_one_of_lt (hbehind h hw.le), hl⟩
  | exact h =>
      have hk := hbehind h (le_refl _)
      exact ⟨rfl, hk.le, ht.r, Or.inl hk⟩

/-- **When the address does not wrap** after a match at `m`, the region does not end before
`m` any more. -/
theorem met_passes {stabs : List Stab} {type : Byte} {m e : ℤ} {addr : Addr} {v : ℕ}
    (hs : (Search.met m e addr).Inside stabs) (hme : m ≤ e)
    (hm : stabValue stabs type m = some v) (hv : v < addr.toNat) :
    ∃ s, Loops .fuel (fun fuel => searchRound fuel stabs type) (.met m e addr) s ∧
      s.Inside stabs ∧ s.Past m v := by
  obtain ⟨s, hloop, hin, -, hpast⟩ := search_loops (I := Search.Past m v)
    (fun t t' ht hlr h => ht.step hm hlr h) hs ⟨rfl, le_refl m, hme, Or.inr ⟨rfl, hv⟩⟩
  exact ⟨s, hloop, hin, hpast⟩

/-! ### Bracketing the address -/

/-- A region that brackets the address `a`: from the last entry not above it to right before
the first one above it, or to the end of the range. -/
def Brackets (key : ℤ → Option ℕ) (left right : ℤ) (a : ℕ) (region : ℤ × ℤ) : Prop :=
  IsGreatest {i | left ≤ i ∧ i ≤ right ∧ ∃ v, key i = some v ∧ v ≤ a} region.1 ∧
    (IsLeast {i | left ≤ i ∧ i ≤ right ∧ ∃ v, key i = some v ∧ a < v} (region.2 + 1) ∨
      (∀ i v, left ≤ i → i ≤ right → key i = some v → v ≤ a) ∧ region.2 = right)

/-- The main loop's bounds, as it left them, bracket the address. -/
theorem brackets_of_bounds {key : ℤ → Option ℕ} {left right l r k p : ℤ} {a : ℕ}
    (hle : r ≤ right) (hbelow : ∀ i v, left ≤ i → i ≤ r → key i = some v → v ≤ a)
    (habove : ∀ i v, r < i → i ≤ right → key i = some v → a < v)
    (hedge : r = right ∨ ∃ v, key (r + 1) = some v) (hk : left ≤ k)
    (hp : k ≤ p ∧ p ≤ r ∧ ∃ v, key p = some v) (hlr : l ≤ r) (hlk : l = r ∨ k ≤ l)
    (hfree : Free key (l + 1) r) (hl : l ≤ k ∨ ∃ v, key l = some v) :
    Brackets key left right a (l, r) := by
  obtain ⟨hkp, hpr, w, hw⟩ := hp
  have hpl : p ≤ l := not_lt.mp fun hlt => hfree.not_key (by omega) hpr hw
  obtain ⟨v, hv⟩ : ∃ v, key l = some v := by
    rcases hl with hl | hl
    · obtain rfl : p = l := by omega
      exact ⟨w, hw⟩
    · exact hl
  refine ⟨⟨⟨by omega, by omega, v, hv, hbelow l v (by omega) hlr hv⟩, ?_⟩, ?_⟩
  · rintro i ⟨hi, hi', u, hu, hua⟩
    have hir : i ≤ r := not_lt.mp fun hlt => (habove i u hlt hi' hu).not_ge hua
    exact not_lt.mp fun hlt => hfree.not_key (by omega) hir hu
  · rcases eq_or_lt_of_le hle with heq | hlt
    · refine Or.inr ⟨fun i u hi hi' hu => hbelow i u hi (by omega) hu, heq⟩
    · obtain ⟨u, hu⟩ := hedge.resolve_left hlt.ne
      refine Or.inl ⟨⟨by dsimp only; omega, by dsimp only; omega, u, hu, ?_⟩, ?_⟩
      · exact habove _ u (Int.lt_add_one_of_le (le_refl r)) (by omega) hu
      · rintro i ⟨hi, hi', t, ht, hat⟩
        exact Int.add_one_le_of_lt (not_le.mp fun hir => (hbelow i t hi hir ht).not_gt hat)

/-- The bisection for the address `a`, and what the search then goes on with, do not lead it
astray: if it meets an entry with the address, that is not the highest address there is, and
then no entry follows in its interval that has the next one. (One case is harmless: the next
address is the highest, and the entry right before the one met is not above `a`.) -/
def Steady (key : ℤ → Option ℕ) (left right : ℤ) (a : ℕ) : Prop :=
  ∀ m e, Meets key a left right m e → a + 1 < 2 ^ 32 ∧
    ∀ m' e', Meets key (a + 1) m e m' e' →
      a + 2 = 2 ^ 32 ∧ ∃ v, key (m' - 1) = some v ∧ v ≤ a

/-- No entry with the address, or none with the next one, and nothing goes astray. -/
theorem steady_of_ne {key : ℤ → Option ℕ} {l r : ℤ} {a : ℕ} (hasc : Ascending key l r)
    (h : (∀ i, l ≤ i → i ≤ r → key i ≠ some a) ∨
      a + 1 < 2 ^ 32 ∧ ∀ i, l ≤ i → i ≤ r → key i ≠ some (a + 1)) : Steady key l r a := by
  intro m e hm
  obtain ⟨hkey, k, hk, hme, hflanks⟩ := hm.flanks hasc
  have hkl := hflanks.left
  have he := hflanks.right
  rcases h with hne | ⟨hwrap, hne⟩
  · exact absurd hkey (hne m (by omega) (by omega))
  · refine ⟨hwrap, fun m' e' hm' => ?_⟩
    obtain ⟨hkey', k', hk', hme', hflanks'⟩ := hm'.flanks (hasc.mono (by omega) he)
    have hkl' := hflanks'.left
    have he' := hflanks'.right
    exact absurd hkey' (hne m' (by omega) (by omega))

section

variable {stabs : List Stab} {type : Byte} {left right : ℤ} {addr : Addr}

/-- A search that meets no entry with its address brackets it. -/
theorem unmet_brackets (hleft : 0 ≤ left) (hright : right < stabs.length)
    (hasc : Ascending (stabValue stabs type) left right)
    (hexists : ∃ i v, left ≤ i ∧ i ≤ right ∧ stabValue stabs type i = some v ∧ v ≤ addr.toNat)
    (hne : ∀ i, left ≤ i → i ≤ right → stabValue stabs type i ≠ some addr.toNat) :
    ∃ region, Converges region (fun fuel => stabBinsearch fuel stabs left right type addr) ∧
      Brackets (stabValue stabs type) left right addr.toNat region := by
  obtain ⟨p, w, hp, hp', hw, hwa⟩ := hexists
  have hs : (Search.start left right addr).Inside stabs := ⟨hleft, hright, rfl⟩
  obtain ⟨s, hloop, hin, hend, hmiss⟩ :=
    search_misses type hs (show left ≤ right + 1 by omega) hasc hne
  have hflanks : Flanks (stabValue stabs type) addr.toNat left right s.l s.r := hmiss.flanks
  have hr := hin.right
  have hpr : p ≤ s.r := not_lt.mp fun hlt => (hflanks.above p w hlt hp' hw).not_ge hwa
  have hany : s.anyMatches = true := by
    cases hany : s.anyMatches with
    | true => rfl
    | false =>
        have hnone := (hmiss.matched hany).2 p hp hp' (by omega)
        rw [hnone] at hw
        cases hw
  -- the last match below the address, or the start of the range
  have hlast : left ≤ s.left ∧ ∃ q, s.left ≤ q ∧ q ≤ s.r ∧
      ∃ v, stabValue stabs type q = some v := by
    rcases hmiss.left with h | ⟨h, h', v, hv, hva⟩
    · rw [h]
      exact ⟨le_refl _, p, hp, hpr, w, hw⟩
    · refine ⟨h, s.left, le_refl _, not_lt.mp fun hlt => ?_, v, hv⟩
      exact (hflanks.above s.left v hlt h' hv).not_gt hva
  obtain ⟨hk, q, hq⟩ := hlast
  obtain ⟨l, hregion, hlr, hlk, hfree, hl⟩ := exists_region hloop hin hany (by omega)
  refine ⟨(l, s.right), hregion, ?_⟩
  rw [← hr] at hlr hlk hfree ⊢
  exact brackets_of_bounds hflanks.right
    (fun i v hi hi' hv => (hflanks.below i v hi (by omega) hv).le) hflanks.above hflanks.edge hk
    hq hlr hlk hfree hl

/-- The search goes on from the first match. -/
theorem met_start (hleft : 0 ≤ left) (hright : right < stabs.length)
    (hasc : Ascending (stabValue stabs type) left right) {m e : ℤ}
    (h : Meets (stabValue stabs type) addr.toNat left right m e) :
    (Search.met m e (addr + 1)).Inside stabs ∧
      ∀ {b}, Loops .fuel (fun fuel => searchRound fuel stabs type) (.met m e (addr + 1)) b →
        Loops .fuel (fun fuel => searchRound fuel stabs type) (.start left right addr) b := by
  obtain ⟨-, l, hl, he, hflanks⟩ := h.flanks hasc
  have hl' := hflanks.left
  have he' := hflanks.right
  refine ⟨⟨by change 0 ≤ m; omega, by change e < _; omega, rfl⟩, fun hb => ?_⟩
  exact meets_loops h ⟨hleft, hright, rfl⟩ rfl rfl rfl hb

/-- A search that meets its address, and then no entry of the next one, brackets it. -/
theorem met_brackets (hleft : 0 ≤ left) (hright : right < stabs.length)
    (hasc : Ascending (stabValue stabs type) left right) {m e : ℤ}
    (h : Meets (stabValue stabs type) addr.toNat left right m e)
    (hwrap : addr.toNat + 1 < 2 ^ 32)
    (hne : ∀ i, m ≤ i → i ≤ e → stabValue stabs type i ≠ some (addr.toNat + 1)) :
    ∃ region, Converges region (fun fuel => stabBinsearch fuel stabs left right type addr) ∧
      Brackets (stabValue stabs type) left right addr.toNat region := by
  obtain ⟨hm, k, hk, hme, hflanks⟩ := h.flanks hasc
  have hk' := hflanks.left
  have he := hflanks.right
  obtain ⟨hs, hstart⟩ := met_start hleft hright hasc h
  have hnext := toNat_addr_add_one addr
  rw [if_pos hwrap] at hnext
  rw [← hnext] at hne
  obtain ⟨s, hloop, hin, hend, hmiss⟩ := search_misses type hs
    (show m ≤ e + 1 by omega) (hasc.mono (by change left ≤ m; omega) he) hne
  have hflanks' : Flanks (stabValue stabs type) (addr.toNat + 1) m e s.l s.r := by
    rw [← hnext]
    exact hmiss.flanks
  have hr := hin.right
  have hany : s.anyMatches = true := by
    cases hany : s.anyMatches with
    | true => rfl
    | false => exact Bool.noConfusion (hmiss.matched hany).1
  have hlast : m ≤ s.left ∧ s.left ≤ e ∧
      ∃ v, stabValue stabs type s.left = some v ∧ v < addr.toNat + 1 := by
    rcases hmiss.left with h | ⟨h, h', v, hv, hva⟩
    · rw [h]
      exact ⟨le_refl m, hme, addr.toNat, hm, Nat.lt_succ_self _⟩
    · exact ⟨h, h', v, hv, hnext ▸ hva⟩
  obtain ⟨hml, hle, v, hv, hva⟩ := hlast
  have hlr' : s.left ≤ s.r :=
    not_lt.mp fun hlt => (hflanks'.above s.left v hlt hle hv).not_gt hva
  obtain ⟨l, hregion, hlr, hlk, hfree, hl⟩ :=
    exists_region (hstart hloop) hin hany (by omega)
  refine ⟨(l, s.right), hregion, ?_⟩
  rw [← hr] at hlr hlk hfree ⊢
  refine brackets_of_bounds (hflanks'.right.trans he) (fun i u hi hi' hu => ?_)
    (fun i u hi hi' hu => ?_) ?_ (show left ≤ s.left by omega) ⟨le_refl _, hlr', v, hv⟩ hlr hlk
    hfree hl
  · rcases le_or_gt m i with hmi | hmi
    · exact Nat.le_of_lt_succ (hflanks'.below i u hmi (by omega) hu)
    · exact hasc i m u addr.toNat hi hmi.le (hme.trans he) hu hm
  · rcases le_or_gt i e with hie | hie
    · exact (Nat.lt_succ_self _).trans (hflanks'.above i u hi hie hu)
    · exact hflanks.above i u hie hi' hu
  · rcases hflanks'.edge with heq | hkey
    · rw [heq]
      exact hflanks.edge
    · exact Or.inr hkey

/-- A search whose address wraps at the entry `m` leaves behind the index before it. -/
theorem wrapped_region (hleft : 0 ≤ left) {m e : ℤ} {next : Addr}
    (hs : (Search.met m e next).Inside stabs) (hlm : left ≤ m) (hme : m ≤ e)
    (hasc : Ascending (stabValue stabs type) m e) {v : ℕ}
    (hm : stabValue stabs type m = some v) (hv : 0 < v) (hzero : next.toNat = 0)
    (hstart : ∀ {b}, Loops .fuel (fun fuel => searchRound fuel stabs type) (.met m e next) b →
      Loops .fuel (fun fuel => searchRound fuel stabs type) (.start left right addr) b) :
    Converges (m - 1, m - 1) fun fuel => stabBinsearch fuel stabs left right type addr := by
  obtain ⟨s, hloop, hin, hany, hsl, hsr⟩ := met_wraps hs hme hzero hasc hm hv
  obtain ⟨l, hregion, hlr, hlk, -⟩ := exists_region (hstart hloop) hin hany (by omega)
  rw [hsl, hsr] at hlk
  rw [hsr] at hregion hlr
  obtain rfl : l = m - 1 := by omega
  exact hregion

/-- A search whose address wraps at once does not bracket it. -/
theorem wrapped_not_brackets (hleft : 0 ≤ left) (hright : right < stabs.length)
    (hasc : Ascending (stabValue stabs type) left right) {m e : ℤ}
    (h : Meets (stabValue stabs type) addr.toNat left right m e)
    (hwrap : ¬ addr.toNat + 1 < 2 ^ 32) :
    ∃ region, Converges region (fun fuel => stabBinsearch fuel stabs left right type addr) ∧
      ¬ Brackets (stabValue stabs type) left right addr.toNat region := by
  obtain ⟨hm, k, hk, hme, hflanks⟩ := h.flanks hasc
  have hk' := hflanks.left
  have he := hflanks.right
  obtain ⟨hs, hstart⟩ := met_start hleft hright hasc h
  have hnext := toNat_addr_add_one addr
  rw [if_neg hwrap] at hnext
  refine ⟨_, wrapped_region hleft hs (by omega) hme (hasc.mono (by omega) he) hm (by omega) hnext
    hstart, fun hb => ?_⟩
  have hlast := hb.1.2 ⟨by omega, by omega, addr.toNat, hm, le_refl _⟩
  dsimp only at hlast
  omega

/-- A search that meets its address and then an entry of the next one brackets its address in
the harmless case only. -/
theorem met_twice_brackets_iff (hleft : 0 ≤ left) (hright : right < stabs.length)
    (hasc : Ascending (stabValue stabs type) left right) {m e m' e' : ℤ}
    (h : Meets (stabValue stabs type) addr.toNat left right m e)
    (hwrap : addr.toNat + 1 < 2 ^ 32)
    (h' : Meets (stabValue stabs type) (addr.toNat + 1) m e m' e') :
    ∃ region, Converges region (fun fuel => stabBinsearch fuel stabs left right type addr) ∧
      (Brackets (stabValue stabs type) left right addr.toNat region ↔
        addr.toNat + 2 = 2 ^ 32 ∧
          ∃ v, stabValue stabs type (m' - 1) = some v ∧ v ≤ addr.toNat) := by
  obtain ⟨hm, k, hk, hme, hflanks⟩ := h.flanks hasc
  have hkl := hflanks.left
  have he := hflanks.right
  have hasc' := hasc.mono (show left ≤ m by omega) he
  obtain ⟨hm', k', hk', hme', hflanks'⟩ := h'.flanks hasc'
  have hkl' := hflanks'.left
  have he' := hflanks'.right
  obtain ⟨hs, hstart⟩ := met_start hleft hright hasc h
  have hnext := toNat_addr_add_one addr
  rw [if_pos hwrap] at hnext
  have hnext' := toNat_addr_add_one (addr + 1)
  rw [hnext] at hnext'
  have hs' : (Search.met m' e' (addr + 1 + 1)).Inside stabs :=
    ⟨by change 0 ≤ m'; omega, by change e' < _; omega, rfl⟩
  have hstart' : ∀ {b}, Loops .fuel (fun fuel => searchRound fuel stabs type)
      (.met m' e' (addr + 1 + 1)) b →
        Loops .fuel (fun fuel => searchRound fuel stabs type) (.start left right addr) b :=
    fun hb => hstart (meets_loops h' hs rfl rfl hnext hb)
  by_cases hlast : addr.toNat + 1 + 1 < 2 ^ 32
  · -- the region does not end before the second match
    rw [if_pos hlast] at hnext'
    obtain ⟨s, hloop, hin, hpast⟩ := met_passes hs' hme' hm' (by omega)
    have hpl := hpast.left
    have hpr := hpast.r
    obtain ⟨l, hregion, -⟩ := exists_region (hstart' hloop) hin hpast.matched (by omega)
    refine ⟨_, hregion, iff_of_false (fun hb => ?_) fun h => by omega⟩
    rcases hb.2 with hleast | ⟨hnone, -⟩
    · have hle := hleast.2 ⟨by omega, by omega, addr.toNat + 1, hm', Nat.lt_succ_self _⟩
      have hr := hin.right
      dsimp only at hle
      omega
    · exact (hnone m' _ (by omega) (by omega) hm').not_gt (Nat.lt_succ_self _)
  · -- the region ends right before it
    rw [if_neg hlast] at hnext'
    refine ⟨_, wrapped_region hleft hs' (by omega) hme' (hasc'.mono (by omega) he') hm'
      (Nat.succ_pos _) hnext' hstart', fun hb => ⟨by omega, hb.1.1.2.2⟩, ?_⟩
    rintro ⟨-, v, hv, hva⟩
    have hne : m ≠ m' := by
      rintro rfl
      have heq := Option.some.inj (hm.symm.trans hm')
      omega
    have hedge : stabValue stabs type (m' - 1 + 1) = some (addr.toNat + 1) := by
      rwa [sub_add_cancel]
    refine brackets_of_bounds (by omega) (fun i u hi hi' hu => ?_) (fun i u hi hi' hu => ?_)
      (Or.inr ⟨_, hedge⟩) (show left ≤ m' - 1 by omega) ⟨le_refl _, le_refl _, v, hv⟩ (le_refl _)
      (Or.inl rfl) (free_of_lt (by omega)) (Or.inl (le_refl _))
    · exact (hasc i (m' - 1) u v hi hi' (by omega) hu hv).trans hva
    · exact Nat.lt_of_succ_le (hasc m' i (addr.toNat + 1) u (by omega) (by omega) hi' hm' hu)

/-- **When the search brackets the address**, of which some entry of the type is not above. -/
theorem stabBinsearch_brackets_iff (hleft : 0 ≤ left) (hright : right < stabs.length)
    (hasc : Ascending (stabValue stabs type) left right)
    (hexists : ∃ i v, left ≤ i ∧ i ≤ right ∧ stabValue stabs type i = some v ∧ v ≤ addr.toNat) :
    ∃ region, Converges region (fun fuel => stabBinsearch fuel stabs left right type addr) ∧
      (Brackets (stabValue stabs type) left right addr.toNat region ↔
        Steady (stabValue stabs type) left right addr.toNat) := by
  by_cases hmet : ∃ m e, Meets (stabValue stabs type) addr.toNat left right m e
  · obtain ⟨m, e, h⟩ := hmet
    have hsteady : Steady (stabValue stabs type) left right addr.toNat ↔
        addr.toNat + 1 < 2 ^ 32 ∧ ∀ m' e', Meets (stabValue stabs type) (addr.toNat + 1) m e m' e' →
          addr.toNat + 2 = 2 ^ 32 ∧
            ∃ v, stabValue stabs type (m' - 1) = some v ∧ v ≤ addr.toNat := by
      refine ⟨fun hs => hs m e h, fun hs m₂ e₂ h₂ => ?_⟩
      obtain ⟨rfl, rfl⟩ := h.unique h₂
      exact hs
    rw [hsteady]
    by_cases hwrap : addr.toNat + 1 < 2 ^ 32
    · by_cases hmet' : ∃ m' e', Meets (stabValue stabs type) (addr.toNat + 1) m e m' e'
      · obtain ⟨m', e', h'⟩ := hmet'
        obtain ⟨region, hregion, hiff⟩ := met_twice_brackets_iff hleft hright hasc h hwrap h'
        refine ⟨region, hregion, hiff.trans ⟨fun hs => ⟨hwrap, fun m₂ e₂ h₂ => ?_⟩, fun hs => ?_⟩⟩
        · obtain ⟨rfl, rfl⟩ := h'.unique h₂
          exact hs
        · exact hs.2 m' e' h'
      · obtain ⟨hm, k, hk, hme, hflanks⟩ := h.flanks hasc
        have hkl := hflanks.left
        have hasc' := hasc.mono (show left ≤ m by omega) hflanks.right
        obtain ⟨region, hregion, hb⟩ := met_brackets hleft hright hasc h hwrap
          fun i hi hi' hv => hmet' (meets_of_mem hasc' hi hi' hv)
        exact ⟨region, hregion,
          iff_of_true hb ⟨hwrap, fun m' e' h' => absurd ⟨m', e', h'⟩ hmet'⟩⟩
    · obtain ⟨region, hregion, hb⟩ := wrapped_not_brackets hleft hright hasc h hwrap
      exact ⟨region, hregion, iff_of_false hb fun hs => hwrap hs.1⟩
  · obtain ⟨region, hregion, hb⟩ := unmet_brackets hleft hright hasc hexists
      fun i hi hi' hv => hmet (meets_of_mem hasc hi hi' hv)
    exact ⟨region, hregion, iff_of_true hb fun m e h => absurd ⟨m, e, h⟩ hmet⟩

end

/-! ### Two tables -/

/-- A table in which the addresses of a type do not decrease. -/
theorem ascending_of_pairwise {stabs : List Stab} {type : Byte} {left right : ℤ}
    (h : stabs.Pairwise fun s t => s.nType = type → t.nType = type → s.nValue ≤ t.nValue) :
    Ascending (stabValue stabs type) left right := by
  intro i j v w _ hij _ hv hw
  obtain ⟨hi, s, hs, hst, rfl⟩ := stabValue_eq_some.mp hv
  obtain ⟨hj, t, ht, htt, rfl⟩ := stabValue_eq_some.mp hw
  rcases eq_or_lt_of_le hij with rfl | hlt
  · rw [hs] at ht
    cases ht
    exact le_refl _
  · obtain ⟨hil, rfl⟩ := List.getElem?_eq_some_iff.mp hs
    obtain ⟨hjl, rfl⟩ := List.getElem?_eq_some_iff.mp ht
    exact List.pairwise_iff_getElem.mp h _ _ hil hjl (by omega) hst htt

/-- A line, and then a function. -/
theorem stabBinsearch_absent_iff_line :
    ∃ region, Converges region (fun fuel =>
        stabBinsearch fuel [⟨0, nSLINE, 0, 0⟩, ⟨0, nFUN, 0, 9⟩] 0 1 nFUN 5) ∧
      (region.2 < region.1 ↔ Free (stabValue [⟨0, nSLINE, 0, 0⟩, ⟨0, nFUN, 0, 9⟩] nFUN) 0 1) := by
  refine stabBinsearch_absent_iff (le_refl 0) (by decide) (ascending_of_pairwise (by decide))
    fun i v hi hi' hv => ?_
  obtain rfl | rfl : i = 0 ∨ i = 1 := by omega
  · cases hv
  · cases hv
    decide

/-- **Absence, not reported**: of a line and then a function above the address, the search for
a function comes back with the line. -/
theorem stabBinsearch_not_absent : ¬ ∀ (stabs : List Stab) (type : Byte) (left right : ℤ)
    (addr : Addr), 0 ≤ left → right < stabs.length →
    Ascending (stabValue stabs type) left right →
    (∀ i v, left ≤ i → i ≤ right → stabValue stabs type i = some v → addr.toNat < v) →
    ∃ region, Converges region (fun fuel => stabBinsearch fuel stabs left right type addr) ∧
      region.2 < region.1 := by
  intro h
  obtain ⟨region, ⟨N, hN⟩, hempty⟩ := h [⟨0, nSLINE, 0, 0⟩, ⟨0, nFUN, 0, 9⟩] nFUN 0 1 5
    (le_refl 0) (by decide) (ascending_of_pairwise (by decide)) fun i v hi hi' hv => by
      obtain rfl | rfl : i = 0 ∨ i = 1 := by omega
      · cases hv
      · cases hv
        decide
  have hrun : stabBinsearch (N + 10) [⟨0, nSLINE, 0, 0⟩, ⟨0, nFUN, 0, 9⟩] 0 1 nFUN 5 =
      .ok (0, 0) := rfl
  cases (hN (N + 10) (Nat.le_add_right N 10)).symm.trans hrun
  exact absurd hempty (by decide)

/-- Two functions, one byte apart. -/
theorem stabBinsearch_brackets_iff_adjacent :
    ∃ region, Converges region (fun fuel =>
        stabBinsearch fuel [⟨0, nFUN, 0, 8⟩, ⟨0, nFUN, 0, 9⟩] 0 1 nFUN 8) ∧
      (Brackets (stabValue [⟨0, nFUN, 0, 8⟩, ⟨0, nFUN, 0, 9⟩] nFUN) 0 1 8 region ↔
        Steady (stabValue [⟨0, nFUN, 0, 8⟩, ⟨0, nFUN, 0, 9⟩] nFUN) 0 1 8) :=
  stabBinsearch_brackets_iff (le_refl 0) (by decide) (ascending_of_pairwise (by decide))
    ⟨0, 8, le_refl 0, by decide, by decide, le_refl 8⟩

/-- **The second match**: of two functions one byte apart, the search for the address of the
first one comes back with the second. -/
theorem stabBinsearch_not_brackets : ¬ ∀ (stabs : List Stab) (type : Byte) (left right : ℤ)
    (addr : Addr), 0 ≤ left → right < stabs.length →
    Ascending (stabValue stabs type) left right →
    (∃ i v, left ≤ i ∧ i ≤ right ∧ stabValue stabs type i = some v ∧ v ≤ addr.toNat) →
    ∃ region, Converges region (fun fuel => stabBinsearch fuel stabs left right type addr) ∧
      Brackets (stabValue stabs type) left right addr.toNat region := by
  intro h
  obtain ⟨region, ⟨N, hN⟩, hb⟩ := h [⟨0, nFUN, 0, 8⟩, ⟨0, nFUN, 0, 9⟩] nFUN 0 1 8 (le_refl 0)
    (by decide) (ascending_of_pairwise (by decide))
    ⟨0, 8, le_refl 0, by decide, by decide, le_refl 8⟩
  have hrun : stabBinsearch (N + 10) [⟨0, nFUN, 0, 8⟩, ⟨0, nFUN, 0, 9⟩] 0 1 nFUN 8 = .ok (1, 1) :=
    rfl
  cases (hN (N + 10) (Nat.le_add_right N 10)).symm.trans hrun
  obtain ⟨-, -, v, hv, hle⟩ := hb.1.1
  cases hv
  exact absurd hle (by decide)

end Jos
