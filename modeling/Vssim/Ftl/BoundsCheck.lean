import Vssim.Ftl.Run

/-!
# The bounds check of host requests

`_FTL_READ` and `_FTL_WRITE` reject a request when `sector_nb + length > SECTOR_NB`. The sum is
computed in 32-bit unsigned arithmetic, so for a negative sector number or a very long request it
wraps around. The loops over the pages of an admitted request always end, but they stay within
`mapping_table` exactly if the request starts behind `-SECTORS_PER_PAGE` and its end, as a number,
is within the device (`loopsOk_iff`). A start between `-SECTORS_PER_PAGE` and zero does no harm: the
division rounds it to page 0, and `left_skip` makes the first round that much longer.
-/

namespace Vssim

variable (g : Geometry)

/-- The loops over the pages of a request, unless they are left early, end, and all pages they look
up are entries of `mapping_table`. -/
structure LoopsOk (sectorNb : ℤ) (length : ℕ) : Prop where
  ends : ((Cursor.next g)^[(requestPages g sectorNb length).length]
    (.start g sectorNb length)).remain = 0
  lpn : ∀ w ∈ requestPages g sectorNb length, 0 ≤ w.1 ∧ w.1 < g.pageMappingEntryNb

variable {g} {c : Cursor} {sectorNb : ℤ} {length : ℕ}

/-! ### One round, whatever the request -/

namespace Cursor

variable (g c) in
/-- The number of sectors a round handles if enough remain. -/
def room : ℕ := toU32 (g.sectorsPerPage - c.leftSkip)

private theorem sects_eq_min (hremain : c.remain < 2 ^ 32) :
    c.sects g = min (c.room g) c.remain := by
  simp only [sects, rightSkip, room, toU32]
  split <;> omega

private theorem next_remain_eq (hremain : c.remain < 2 ^ 32) :
    (c.next g).remain = c.remain - c.room g := by
  simp only [next, sects_eq_min hremain, toU32]
  omega

private theorem room_of_leftSkip (h : c.leftSkip < g.sectorsPerPage) :
    c.room g = g.sectorsPerPage - c.leftSkip := by
  have hlt := g.sectorsPerPage_lt
  have := toU32_of_nonneg (x := (g.sectorsPerPage : ℤ) - c.leftSkip) (by omega) (by omega)
  rw [room]
  omega

private theorem room_next : (c.next g).room g = g.sectorsPerPage :=
  room_of_leftSkip g.sectorsPerPage_pos

/-- The first round of a request that starts at a negative sector is longer than a page. -/
private theorem room_start (sectorNb : ℤ) (length : ℕ) :
    ((Cursor.start g sectorNb length).room g : ℤ) =
    g.sectorsPerPage - sectorNb.tmod g.sectorsPerPage := by
  have hpos : (0 : ℤ) < g.sectorsPerPage := by exact_mod_cast g.sectorsPerPage_pos
  have hlt := g.sectorsPerPage_lt
  have h1 := Int.tmod_lt_of_pos sectorNb hpos
  have h2 := Int.lt_tmod_of_pos sectorNb hpos
  simp only [room, start, toU32]
  omega

end Cursor

/-- **The loops end**: every round handles at least one sector. -/
theorem pieces_ends (rounds : ℕ) (k : ℕ) (hroom : 0 < c.room g) (hremain : c.remain < 2 ^ 32)
    (hrounds : c.remain ≤ rounds) :
    ((Cursor.next g)^[(pieces g rounds c k).length] c).remain = 0 := by
  induction rounds generalizing c k with
  | zero =>
    rw [pieces, List.length_nil, Function.iterate_zero, id]
    omega
  | succ rounds ih =>
    have hnext := Cursor.next_remain_eq (g := g) hremain
    rw [pieces]
    split
    · rw [List.length_cons, Function.iterate_succ_apply]
      exact ih (k + 1) (Cursor.room_next (g := g) ▸ g.sectorsPerPage_pos) (by omega) (by omega)
    · rw [List.length_nil, Function.iterate_zero, id]
      omega

/-! ### Requests that stay within the device -/

theorem pieces_lpn (rounds : ℕ) (k : ℕ) (hc : 0 < c.remain → c.Ok g) :
    ∀ w ∈ pieces g rounds c k, 0 ≤ w.1 ∧ w.1 < g.pageMappingEntryNb := by
  induction rounds generalizing c k with
  | zero => simp [pieces]
  | succ rounds ih =>
    rw [pieces]
    split
    · next hpos =>
      refine List.forall_mem_cons.mpr ⟨⟨(hc hpos).lpn_nonneg, (hc hpos).lpn_lt hpos⟩, ?_⟩
      exact ih (k + 1) fun hnext => (hc hpos).next hnext
    · simp

private theorem sectorNb_eq : (g.sectorNb : ℤ) = g.sectorsPerPage * g.pageMappingEntryNb := by
  simp only [Geometry.sectorNb, Geometry.pageMappingEntryNb]
  push_cast
  ring

/-- The first round. -/
private theorem requestPages_succ (sectorNb : ℤ) (n : ℕ) : requestPages g sectorNb (n + 1) =
    (sectorNb.tdiv g.sectorsPerPage, 0, (Cursor.start g sectorNb (n + 1)).part g) ::
      pieces g n ((Cursor.start g sectorNb (n + 1)).next g) 1 := by
  rw [requestPages, pieces]
  exact if_pos (Nat.succ_pos n)

/-- A request that starts less than a page before sector 0: its first round is about page 0 and
leads to page 1. -/
private theorem requestPages_negative (hsize : g.sectorNb < 2 ^ 31) (hneg : sectorNb < 0)
    (hstart : -(g.sectorsPerPage : ℤ) < sectorNb) (hend : sectorNb + length ≤ g.sectorNb)
    (hlength : length < 2 ^ 32) :
    ∀ w ∈ requestPages g sectorNb length, 0 ≤ w.1 ∧ w.1 < g.pageMappingEntryNb := by
  have hspp := g.sectorsPerPage_lt
  have hdiv : sectorNb.tdiv g.sectorsPerPage = 0 := by
    have h := Int.tdiv_eq_zero_of_lt (a := -sectorNb) (b := g.sectorsPerPage) (by omega) (by omega)
    rwa [Int.neg_tdiv, neg_eq_zero] at h
  have hmod : sectorNb.tmod g.sectorsPerPage = sectorNb := by
    rw [Int.tmod_def, hdiv, mul_zero, sub_zero]
  have hroom := Cursor.room_start (g := g) sectorNb length
  rw [hmod] at hroom
  have hpages : 0 < g.pageMappingEntryNb :=
    Nat.mul_pos (Nat.mul_pos g.pageNb_pos g.blockNb_pos) g.flashNb_pos
  cases length with
  | zero => simp [requestPages, pieces]
  | succ n =>
    rw [requestPages_succ, List.forall_mem_cons, hdiv]
    refine ⟨⟨le_rfl, Int.natCast_pos.mpr hpages⟩, pieces_lpn n 1 fun hpos => ?_⟩
    obtain ⟨c, hc⟩ : ∃ c, c = Cursor.start g sectorNb (n + 1) := ⟨_, rfl⟩
    have hclba : c.lba = sectorNb := by rw [hc]; rfl
    have hcremain : c.remain = n + 1 := by rw [hc]; rfl
    rw [← hc] at hroom hpos ⊢
    have hremain := Cursor.next_remain_eq (g := g) (c := c) (by omega)
    have hsects := Cursor.sects_eq_min (g := g) (c := c) (by omega)
    have hlba : (c.next g).lba = g.sectorsPerPage := by
      have hsum : c.lba + c.sects g = g.sectorsPerPage := by omega
      rw [Cursor.next, hsum]
      exact toI32_of_bounds (by omega) (by omega)
    refine ⟨by omega, ?_, by omega, by omega⟩
    rw [hlba, Int.emod_self]
    rfl

/-! ### Requests that do not -/

/-- The loop variables of a request that wraps around. -/
structure Cursor.Wrapped (g : Geometry) (c : Cursor) : Prop where
  nonneg : 0 ≤ c.lba
  lba_lt : c.lba < 2 ^ 31
  leftSkip : (c.leftSkip : ℤ) = c.lba % g.sectorsPerPage
  remain_lt : c.remain < 2 ^ 32
  wraps : 2 ^ 32 ≤ c.lba + c.remain

/-- As long as such a loop is within the device, it goes on to the next page. -/
private theorem Cursor.Wrapped.next (hsize : g.sectorNb < 2 ^ 31) (h : c.Wrapped g)
    (hlba : c.lba < g.sectorNb) : (c.next g).Wrapped g ∧ (c.next g).remain < c.remain := by
  have hspp : (0 : ℤ) < g.sectorsPerPage := by exact_mod_cast g.sectorsPerPage_pos
  have hskip := h.leftSkip
  have hmod := Int.emod_lt_of_pos c.lba hspp
  have hroom := Cursor.room_of_leftSkip (g := g) (c := c) (by omega)
  have hremain := Cursor.next_remain_eq (g := g) h.remain_lt
  have hsects := Cursor.sects_eq_min (g := g) h.remain_lt
  have hwraps := h.wraps
  have h0 := h.nonneg
  have hlt := h.lba_lt
  have hremain_lt := h.remain_lt
  have hspp_lt := g.sectorsPerPage_lt
  -- the end of the page is still within the device
  have hdiv := Int.emod_add_mul_ediv c.lba g.sectorsPerPage
  have hpage : c.lba / g.sectorsPerPage + 1 ≤ g.pageMappingEntryNb := by
    refine Int.ediv_lt_of_lt_mul hspp ?_
    rw [mul_comm, ← sectorNb_eq]
    exact hlba
  have hend : (g.sectorsPerPage : ℤ) * (c.lba / g.sectorsPerPage + 1) ≤ g.sectorNb := by
    rw [sectorNb_eq]
    exact Int.mul_le_mul_of_nonneg_left hpage hspp.le
  have hsum : c.lba + c.sects g = g.sectorsPerPage * (c.lba / g.sectorsPerPage + 1) := by
    rw [mul_add, mul_one]
    omega
  have hlba' : (c.next g).lba = g.sectorsPerPage * (c.lba / g.sectorsPerPage + 1) := by
    rw [Cursor.next, hsum]
    exact toI32_of_bounds (by omega) (by omega)
  refine ⟨⟨by omega, by omega, ?_, by omega, by omega⟩, by omega⟩
  rw [hlba', Int.mul_emod_right]
  rfl

/-- Such a loop runs past the end of `mapping_table`. -/
private theorem Cursor.Wrapped.exists_lpn (hsize : g.sectorNb < 2 ^ 31) (h : c.Wrapped g)
    {rounds k : ℕ} (hrounds : c.remain ≤ rounds) :
    ∃ w ∈ pieces g rounds c k, (g.pageMappingEntryNb : ℤ) ≤ w.1 := by
  have hspp : (0 : ℤ) < g.sectorsPerPage := by exact_mod_cast g.sectorsPerPage_pos
  induction rounds generalizing c k with
  | zero =>
    have hwraps := h.wraps
    have hlt := h.lba_lt
    omega
  | succ rounds ih =>
    have hpos : 0 < c.remain := by
      have hwraps := h.wraps
      have hlt := h.lba_lt
      omega
    rw [pieces, if_pos hpos]
    rcases lt_or_ge c.lba g.sectorNb with hlt | hge
    · obtain ⟨hnext, hless⟩ := h.next hsize hlt
      obtain ⟨w, hw, hlpn⟩ := ih hnext (k := k + 1) (by omega)
      exact ⟨w, List.mem_cons_of_mem _ hw, hlpn⟩
    · refine ⟨_, List.mem_cons_self, ?_⟩
      change (g.pageMappingEntryNb : ℤ) ≤ c.lba.tdiv g.sectorsPerPage
      rw [Int.tdiv_eq_ediv_of_nonneg h.nonneg, Int.le_ediv_iff_mul_le hspp, mul_comm, ← sectorNb_eq]
      exact hge

/-- A request that starts a page or more before sector 0 looks up a negative page. -/
private theorem requestPages_before (hstart : sectorNb ≤ -(g.sectorsPerPage : ℤ))
    (hpos : 0 < length) : ∃ w ∈ requestPages g sectorNb length, w.1 < 0 := by
  have hspp : (0 : ℤ) < g.sectorsPerPage := by exact_mod_cast g.sectorsPerPage_pos
  obtain ⟨n, rfl⟩ : ∃ n, length = n + 1 := ⟨length - 1, by omega⟩
  rw [requestPages_succ]
  refine ⟨_, List.mem_cons_self, ?_⟩
  dsimp only
  have hdiv : 1 ≤ (-sectorNb).tdiv g.sectorsPerPage := by
    rw [Int.tdiv_eq_ediv_of_nonneg (by omega), Int.le_ediv_iff_mul_le hspp]
    omega
  rw [Int.neg_tdiv] at hdiv
  omega

/-- **The bounds check.** For an `int32_t` sector number and an `unsigned int` length that pass the
check, the loops are in order exactly if the request starts behind `-SECTORS_PER_PAGE` and ends
within the device. -/
theorem loopsOk_iff (hsize : g.sectorNb < 2 ^ 31) (sectorNb : ℤ) (length : ℕ)
    (hsector : -2 ^ 31 ≤ sectorNb ∧ sectorNb < 2 ^ 31) (hlength : length < 2 ^ 32)
    (hcheck : toU32 (sectorNb + length) ≤ g.sectorNb) :
    LoopsOk g sectorNb length ↔
      -(g.sectorsPerPage : ℤ) < sectorNb ∧ sectorNb + length ≤ g.sectorNb := by
  have hspp : (0 : ℤ) < g.sectorsPerPage := by exact_mod_cast g.sectorsPerPage_pos
  rw [toU32] at hcheck
  constructor
  · intro h
    refine ⟨?_, ?_⟩
    · by_contra hstart
      obtain ⟨w, hw, hneg⟩ : ∃ w ∈ requestPages g sectorNb length, w.1 < 0 :=
        requestPages_before (by omega) (by omega)
      have := h.lpn w hw
      omega
    · by_contra hend
      -- the sum has wrapped around
      have hskip : ((Cursor.start g sectorNb length).leftSkip : ℤ) =
          sectorNb % g.sectorsPerPage := by
        have h0 := Int.emod_nonneg sectorNb hspp.ne'
        have h1 := Int.emod_lt_of_pos sectorNb hspp
        have hlt := g.sectorsPerPage_lt
        rw [Cursor.start, Int.tmod_eq_emod_of_nonneg (by omega)]
        exact toU32_of_nonneg h0 (by omega)
      have hwrapped : (Cursor.start g sectorNb length).Wrapped g :=
        ⟨by change 0 ≤ sectorNb; omega, hsector.2, hskip, hlength,
          by change 2 ^ 32 ≤ sectorNb + length; omega⟩
      obtain ⟨w, hw, hlpn⟩ := hwrapped.exists_lpn hsize (k := 0) le_rfl
      have := h.lpn w hw
      omega
  · rintro ⟨hstart, hend⟩
    have hroom : 0 < (Cursor.start g sectorNb length).room g := by
      have hroom := Cursor.room_start (g := g) sectorNb length
      have h1 := Int.tmod_lt_of_pos sectorNb hspp
      omega
    refine ⟨pieces_ends length 0 hroom hlength le_rfl, ?_⟩
    rcases lt_or_ge sectorNb 0 with hneg | hnonneg
    · exact requestPages_negative hsize hneg hstart hend hlength
    · refine pieces_lpn length 0 fun hpos => Cursor.Ok.start ⟨hnonneg, hpos, hend, by omega⟩

/-- On a device with two sectors per page, a request from sector -1 on stays within the table. -/
theorem loopsOk_iff_smallDevice : LoopsOk smallDevice (-1) 5 :=
  (loopsOk_iff (g := smallDevice) (by decide) (-1) 5 (by decide) (by decide) (by decide +kernel)).mpr
    (by decide)

/-- Two requests that the check of the same device, which has 16 sectors and 8 pages, lets pass. The
first one starts two pages before sector 0, and a write of it changes the entry at -2. The second
one starts at the end of the device, and its first page is 8. -/
theorem admitted_outside :
    (toU32 (-4 + (6 : ℕ)) ≤ smallDevice.sectorNb ∧ ¬ LoopsOk smallDevice (-4) 6 ∧
      ∃ r s events, ftlWrite smallDevice 9 (-4) 6 (ftlInit smallDevice) = some (r, s, events) ∧
        s.tables.mappingTable (-2) ≠ -1) ∧
    toU32 (16 + (2 ^ 32 - 16 : ℕ)) ≤ smallDevice.sectorNb ∧
      ¬ LoopsOk smallDevice 16 (2 ^ 32 - 16) := by
  refine ⟨⟨by decide +kernel, fun h => ?_, ?_⟩, by decide +kernel, fun h => ?_⟩
  · obtain ⟨w, hw, hneg⟩ : ∃ w ∈ requestPages smallDevice (-4) 6, w.1 < 0 :=
      requestPages_before (by decide) (by decide)
    have := h.lpn w hw
    omega
  · have hP : (ftlWrite smallDevice 9 (-4) 6 (ftlInit smallDevice)).any
        (fun x => decide (x.2.1.tables.mappingTable (-2) ≠ -1)) = true := by decide +kernel
    obtain ⟨⟨r, s, events⟩, hrun, hP⟩ := (Option.any_eq_true _ _).mp hP
    exact ⟨r, s, events, hrun, of_decide_eq_true hP⟩
  · have hpage : ((16 : ℤ).tdiv smallDevice.sectorsPerPage) < smallDevice.pageMappingEntryNb :=
      (h.lpn _ (by
        rw [show 2 ^ 32 - 16 = (2 ^ 32 - 17) + 1 from rfl, requestPages_succ]
        exact List.mem_cons_self)).2
    exact absurd hpage (by decide)

end Vssim
